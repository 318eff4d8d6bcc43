import Retarget.Proofs.Store.Insertions

/-!
# The heights of a store

Beside the headers a store keeps, for each height, the hash that was placed there last. A new
header replaces the entry of its height, and yet every entry leads to a stored header of that
height, and the height of every stored header has an entry. In a store that is opened by one header
and then grows by insertions the heights reach from the root to the greatest height without a gap,
because parents stand one height below.
-/

namespace Retarget

namespace Store

variable {s : Store} {root x : IndexedHeader} {h : Header} {m n : UInt32}

/-- Each entry leads to a stored header of its height, and the height of each stored header has an
entry. -/
structure Indexed (s : Store) : Prop where
  entry : ∀ {n : UInt32} {k : Hash}, s.byHeight[n]? = some k →
    ∃ x, s.Holds x ∧ x.hash = k ∧ x.height = n
  occupied : ∀ {x : IndexedHeader}, s.Holds x → x.height ∈ s.byHeight

theorem mem_byHeight_place : n ∈ (s.place x).byHeight ↔ x.height = n ∨ n ∈ s.byHeight := by
  simp [place, Std.TreeMap.mem_insert]

theorem get?_height_of_notMem (hn : n ∉ s.byHeight) : s.get? (.height n) = none := by
  rw [get?_height, Std.TreeMap.getElem?_eq_none hn]
  rfl

/-- The best header is what the entry of the greatest height leads to. -/
theorem exists_greatest (hn : n ∈ s.byHeight) :
    ∃ m, m ∈ s.byHeight ∧ (∀ k ∈ s.byHeight, k ≤ m) ∧ s.best? = s.get? (.height m) := by
  obtain ⟨m, hm⟩ := Option.isSome_iff_exists.1 (Std.TreeMap.isSome_maxKey?_of_mem hn)
  obtain ⟨hmem, hmax⟩ := Std.TreeMap.maxKey?_eq_some_iff_mem_and_forall.1 hm
  refine ⟨m, hmem, fun k hk => Std.isLE_compare.1 (hmax k hk), ?_⟩
  rw [best?, hm]
  rfl

theorem indexed_empty : empty.Indexed where
  entry hk := by cases hk
  occupied hx := by cases hx

namespace Indexed

/-- Placing a header keeps the entries right exactly if no entry of another height names it. -/
theorem place_iff (hs : s.Indexed) :
    (s.place x).Indexed ↔ ¬ ∃ n, s.byHeight[n]? = some x.hash ∧ n ≠ x.height := by
  constructor
  · rintro indexed ⟨n, hn, hne⟩
    -- The entry at `n` still names the header, which now stands elsewhere.
    have hentry : (s.place x).byHeight[n]? = some x.hash := by
      rw [byHeight_place, if_neg (Ne.symm hne), hn]
    obtain ⟨y, hy, hhash, hheight⟩ := indexed.entry hentry
    have hx := holds_place s x
    rw [Holds, ← hhash, hy] at hx
    cases hx
    exact hne hheight.symm
  · intro settled
    refine ⟨?_, ?_⟩
    · intro n k hk
      rw [byHeight_place] at hk
      split at hk
      · next hheight =>
        cases hk
        exact ⟨x, holds_place s x, rfl, hheight⟩
      · next hheight =>
        obtain ⟨y, hy, rfl, rfl⟩ := hs.entry hk
        have hne : x.hash ≠ y.hash := by
          intro heq
          rw [← heq] at hk
          exact settled ⟨y.height, hk, Ne.symm hheight⟩
        refine ⟨y, ?_, rfl, rfl⟩
        rw [Holds, byHash_place, if_neg hne]
        exact hy
    · intro y hy
      exact mem_byHeight_place.2 ((eq_or_holds_of_place hy).imp (by rintro rfl; rfl) hs.occupied)

/-- A new header takes over the entry of its height, and loses no other header its own. -/
theorem place (hs : s.Indexed) (hnew : s.byHash[x.hash]? = none) : (s.place x).Indexed := by
  refine hs.place_iff.2 ?_
  rintro ⟨n, hn, -⟩
  obtain ⟨y, hy, hhash, -⟩ := hs.entry hn
  rw [Holds, hhash, hnew] at hy
  cases hy

theorem insertAll (hs : s.Indexed) (headers : List Header) : (s.insertAll headers).Indexed :=
  insertAll_induction (P := Indexed) (fun hs hlink => hs.place (getElem?_of_link hlink)) hs headers

theorem exists_get?_height (hs : s.Indexed) (hn : n ∈ s.byHeight) :
    ∃ x, s.get? (.height n) = some x ∧ s.Holds x ∧ x.height = n := by
  obtain ⟨k, hk⟩ := Option.isSome_iff_exists.1 (Std.TreeMap.isSome_getElem?_iff_mem.2 hn)
  obtain ⟨x, hx, rfl, hheight⟩ := hs.entry hk
  refine ⟨x, ?_, hx, hheight⟩
  rw [get?_height, hk]
  exact hx

theorem mem_byHeight_iff (hs : s.Indexed) : n ∈ s.byHeight ↔ ∃ x, s.Holds x ∧ x.height = n := by
  constructor
  · intro hn
    obtain ⟨x, -, hx, hheight⟩ := hs.exists_get?_height hn
    exact ⟨x, hx, hheight⟩
  · rintro ⟨x, hx, rfl⟩
    exact hs.occupied hx

theorem exists_best (hs : s.Indexed) (hx : s.Holds x) :
    ∃ top, s.best? = some top ∧ s.Holds top ∧ ∀ y, s.Holds y → y.height ≤ top.height := by
  obtain ⟨n, hn, hmax, hbest⟩ := exists_greatest (hs.occupied hx)
  obtain ⟨top, hget, htop, rfl⟩ := hs.exists_get?_height hn
  exact ⟨top, hbest.trans hget, htop, fun y hy => hmax y.height (hs.occupied hy)⟩

end Indexed

theorem Opening.indexed_store (o : Opening) : o.store.Indexed := by
  rw [store_eq]
  exact indexed_empty.place rfl

namespace Linked

theorem root_le (hs : s.Linked root) (hx : s.Holds x) : root.height ≤ x.height := by
  induction x, hx using hs.stored_induction with
  | base => exact UInt32.le_rfl
  | step x p _ _ _ _ hbelow ih =>
      rw [UInt32.le_iff_toNat_le] at ih ⊢
      omega

/-- The root stands alone at its height. -/
theorem eq_root_iff (hs : s.Linked root) (hx : s.Holds x) :
    x = root ↔ x.height = root.height := by
  constructor
  · rintro rfl
    rfl
  · intro hheight
    apply Decidable.byContradiction
    intro hne
    obtain ⟨p, hp, hbelow⟩ := hs.parent hx hne
    have hroot := UInt32.le_iff_toNat_le.1 (hs.root_le (hs.holds hp))
    rw [hheight] at hbelow
    omega

/-- The ancestors of a header stand at all heights down to that of the root. -/
theorem exists_height (hs : s.Linked root) (hx : s.Holds x) (hroot : root.height ≤ m)
    (hm : m ≤ x.height) : ∃ y, s.Holds y ∧ y.height = m := by
  induction x, hx using hs.stored_induction with
  | base => exact ⟨root, hs.holds_root, UInt32.le_antisymm hroot hm⟩
  | step x p hx _ _ _ hbelow ih =>
      by_cases htop : x.height = m
      · exact ⟨x, hx, htop⟩
      · have hlt := UInt32.lt_of_le_of_ne hm (Ne.symm htop)
        rw [UInt32.lt_iff_toNat_lt] at hlt
        exact ih (UInt32.le_iff_toNat_le.2 (by omega))

theorem mem_byHeight_iff_le {top : IndexedHeader} (hs : s.Linked root) (indexed : s.Indexed)
    (htop : s.Holds top) (hmax : ∀ y, s.Holds y → y.height ≤ top.height) :
    n ∈ s.byHeight ↔ root.height ≤ n ∧ n ≤ top.height := by
  rw [indexed.mem_byHeight_iff]
  constructor
  · rintro ⟨x, hx, rfl⟩
    exact ⟨hs.root_le hx, hmax x hx⟩
  · rintro ⟨hroot, hn⟩
    exact hs.exists_height htop hroot hn

end Linked

/-- A store that is opened by one header keeps, through all insertions, every header under its own
hash and above its parent, except that nothing is said of the parent of the first one. The heights
that have an entry reach from the first header to the best one, which stands at the greatest height;
at each of them a header of that height is found. The store holds the first header and one for each
insertion that succeeded. -/
theorem insertAll_opening (o : Opening) (headers : List Header) :
    let s := o.store.insertAll headers
    s.Holds o.root ∧
      (∀ k x, s.get? (.hash k) = some x → x.hash = k ∧ x.header.hash = k) ∧
      (∀ x, s.Holds x → x ≠ o.root → ∃ p, s.get? (.hash x.header.parent) = some p ∧
        p.height.toNat + 1 = x.height.toNat) ∧
      (∃ top, s.best? = some top ∧ s.Holds top ∧ (∀ x, s.Holds x → x.height ≤ top.height) ∧
        ∀ n, n ∈ s.byHeight ↔ o.root.height ≤ n ∧ n ≤ top.height) ∧
      (∀ n, n ∈ s.byHeight →
        ∃ x, s.get? (.height n) = some x ∧ s.Holds x ∧ x.height = n) ∧
      s.size = 1 + (o.store.verdicts headers).countP Except.isOk := by
  intro s
  have linked : s.Linked o.root := o.linked_store.insertAll headers
  have indexed : s.Indexed := o.indexed_store.insertAll headers
  obtain ⟨top, hbest, htop, hmax⟩ := indexed.exists_best linked.holds_root
  refine ⟨linked.holds_root, ?_, ?_, ?_, ?_, ?_⟩
  · intro k x hx
    exact linked.hash_eq hx
  · intro x hx hne
    exact linked.parent hx hne
  · exact ⟨top, hbest, htop, hmax, fun n => linked.mem_byHeight_iff_le indexed htop hmax⟩
  · intro n hn
    exact indexed.exists_get?_height hn
  · rw [size_insertAll, o.size_store]

end Store

end Retarget
