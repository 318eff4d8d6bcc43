import Retarget.Proofs.Store.Heights

/-!
# Stores that grow at the tip

Where chains do not fork, each header is inserted on top of the one inserted last. No header then
takes over the entry of another, because each stands above all that came before. A look-up by
height and a walk along the parent links therefore show the same headers, although the store keeps
them in different maps: the header at a height is the ancestor of the tip that is found there, and
the tip is the best header.
-/

namespace Retarget

namespace Store

variable {s : Store} {o : Opening} {root tip x : IndexedHeader} {h : Header} {n : UInt32}
  {limit i : Nat}

/-- The stores that one header opens and others extend, each on top of the one before. -/
inductive Straight (o : Opening) : Store → IndexedHeader → Prop
  | opening : Straight o o.store o.root
  | insert {s t : Store} {tip x : IndexedHeader} {h : Header} (straight : Straight o s tip)
      (onTip : h.parent = tip.hash) (inserted : s.insert h = (.ok x, t)) : Straight o t x

/-- A linked store with no more than one header at a height, and none above the tip. -/
structure Column (s : Store) (root tip : IndexedHeader) : Prop where
  linked : s.Linked root
  indexed : s.Indexed
  holds_tip : s.Holds tip
  le_tip : ∀ {x : IndexedHeader}, s.Holds x → x.height ≤ tip.height
  unique : ∀ {x y : IndexedHeader}, s.Holds x → s.Holds y → x.height = y.height → x = y

theorem link_of_parent_eq (htip : s.Holds tip) (onTip : h.parent = tip.hash)
    (hlink : s.link h = .ok x) :
    x = .ofHeader (tip.height + 1) h ∧ x.height.toNat = tip.height.toNat + 1 := by
  obtain ⟨p, hp, room, -, rfl⟩ := (link_eq_ok (isEmpty_eq_false htip)).1 hlink
  rw [onTip, htip] at hp
  cases hp
  exact ⟨rfl, toNat_height_succ room⟩

theorem Opening.column_store (o : Opening) : o.store.Column o.root o.root := by
  have alone : ∀ {x}, o.store.Holds x → x = o.root := by
    intro x hx
    rw [o.store_eq] at hx
    exact eq_of_holds_place_empty hx
  refine ⟨o.linked_store, o.indexed_store, o.linked_store.holds_root, ?_, ?_⟩
  · intro x hx
    rw [alone hx]
    exact UInt32.le_rfl
  · intro x y hx hy _
    rw [alone hx, alone hy]

namespace Column

/-- A header on top of the tip is a new tip: it stands above all others. -/
theorem place (hs : s.Column root tip) (onTip : h.parent = tip.hash)
    (hlink : s.link h = .ok x) : (s.place x).Column root x := by
  have hnew := getElem?_of_link hlink
  have habove := (link_of_parent_eq hs.holds_tip onTip hlink).2
  have below : ∀ {y}, s.Holds y → y.height.toNat < x.height.toNat := by
    intro y hy
    have hle := UInt32.le_iff_toNat_le.1 (hs.le_tip hy)
    omega
  refine ⟨hs.linked.place hlink, hs.indexed.place hnew, holds_place s x, ?_, ?_⟩
  · intro y hy
    obtain rfl | hy := eq_or_holds_of_place hy
    · exact UInt32.le_rfl
    · exact UInt32.le_iff_toNat_le.2 (Nat.le_of_lt (below hy))
  · intro y z hy hz hheight
    obtain rfl | hyOld := eq_or_holds_of_place hy
    · refine ((eq_or_holds_of_place hz).resolve_right fun hzOld => ?_).symm
      exact Nat.ne_of_lt (below hzOld) (congrArg UInt32.toNat hheight.symm)
    · obtain rfl | hzOld := eq_or_holds_of_place hz
      · exact absurd (congrArg UInt32.toNat hheight) (Nat.ne_of_lt (below hyOld))
      · exact hs.unique hyOld hzOld hheight

theorem best?_eq (hs : s.Column root tip) : s.best? = some tip := by
  obtain ⟨top, hbest, htop, hmax⟩ := hs.indexed.exists_best hs.holds_tip
  have hheight := UInt32.le_antisymm (hs.le_tip htop) (hmax tip hs.holds_tip)
  rw [hbest, hs.unique htop hs.holds_tip hheight]

theorem get?_height_eq_some (hs : s.Column root tip) (hx : s.Holds x) :
    s.get? (.height x.height) = some x := by
  obtain ⟨y, hget, hy, hheight⟩ := hs.indexed.exists_get?_height (hs.indexed.occupied hx)
  rw [hget, hs.unique hy hx hheight]

theorem get?_height_eq_none (hs : s.Column root tip) (hn : ¬(root.height ≤ n ∧ n ≤ tip.height)) :
    s.get? (.height n) = none := by
  apply get?_height_of_notMem
  rwa [hs.linked.mem_byHeight_iff_le hs.indexed hs.holds_tip fun y hy => hs.le_tip hy]

end Column

/-- Every store that grows at its tip is a column. By induction on the insertions. -/
theorem Straight.column (straight : s.Straight o tip) : s.Column o.root tip := by
  induction straight with
  | opening => exact o.column_store
  | @insert s t tip x h straight onTip inserted ih =>
      have hlink : s.link h = .ok x := by rw [← fst_insert, inserted]
      rw [insert_of_link_ok hlink] at inserted
      cases inserted
      exact ih.place onTip hlink

/-! ### Ancestors by their number -/

namespace Linked

/-- Each ancestor stands one height below the one before, as far down as the root. By induction on
the number of the ancestor. -/
theorem getElem?_ancestors (hs : s.Linked root) (hx : s.Holds x) (hlimit : i < limit)
    (hi : root.height.toNat + i ≤ x.height.toNat) :
    ∃ y, (s.source.ancestors limit (.hash x.hash))[i]? = some y ∧ s.Holds y ∧
      y.height.toNat + i = x.height.toNat := by
  induction i generalizing x limit with
  | zero =>
      obtain ⟨limit, rfl⟩ := Nat.exists_eq_succ_of_ne_zero (Nat.ne_zero_of_lt hlimit)
      have hget : s.source (.hash x.hash) = some x := hx
      refine ⟨x, ?_, hx, rfl⟩
      simp only [HeaderSource.ancestors, hget, List.getElem?_cons_zero]
  | succ i ih =>
      obtain ⟨limit, rfl⟩ := Nat.exists_eq_succ_of_ne_zero (Nat.ne_zero_of_lt hlimit)
      have hne : x ≠ root := by
        rintro rfl
        omega
      obtain ⟨p, hp, hbelow⟩ := hs.parent hx hne
      obtain ⟨y, hy, hyHolds, hheight⟩ :=
        ih (hs.holds hp) (Nat.lt_of_succ_lt_succ hlimit) (by omega)
      refine ⟨y, ?_, hyHolds, by omega⟩
      rw [Nat.succ_eq_add_one, hs.ancestors_of_parent hx (HeaderSource.parent_eq_ok.2 ⟨hp, hbelow⟩),
        List.getElem?_cons_succ, hy]

/-- Where the parent of the root is unknown or never asked for, the ancestors end with the root. -/
theorem length_ancestors_of_end (hs : s.Linked root) (hx : s.Holds x)
    (ends : root.height = 0 ∨ s.byHash[root.header.parent]? = none) (limit : Nat) :
    (s.source.ancestors limit (.hash x.hash)).length =
      min limit (x.height.toNat - root.height.toNat + 1) := by
  induction x, hx using hs.stored_induction generalizing limit with
  | base =>
      have hget : s.source (.hash root.hash) = some root := hs.holds_root
      cases limit with
      | zero => simp
      | succ limit =>
          have hend : (if root.isGenesis then [] else
              s.source.ancestors limit (.hash root.header.parent)) = [] := by
            obtain hzero | hunknown := ends
            · rw [if_pos (IndexedHeader.isGenesis_iff.2 hzero)]
            · have hnone : s.source (.hash root.header.parent) = none := hunknown
              have hnil : s.source.ancestors limit (.hash root.header.parent) = [] := by
                cases limit with
                | zero => rfl
                | succ limit => simp only [HeaderSource.ancestors, hnone]
              rw [hnil, ite_self]
          simp only [HeaderSource.ancestors, hget, hend, List.length_singleton]
          omega
  | step x p hx hp _ hfound hbelow ih =>
      have hroot := UInt32.le_iff_toNat_le.1 (hs.root_le hp)
      cases limit with
      | zero => simp
      | succ limit =>
          rw [hs.ancestors_of_parent hx (HeaderSource.parent_eq_ok.2 ⟨hfound, hbelow⟩),
            List.length_cons, ih]
          omega

end Linked

/-! ### The two views -/

/-- Look-ups by height and the ancestors of the tip show the same headers. -/
structure Aligned (s : Store) (root tip : IndexedHeader) : Prop where
  best : s.best? = some tip
  ancestor : ∀ n : UInt32, root.height ≤ n → n ≤ tip.height →
    ∃ x, s.get? (.height n) = some x ∧ x.height = n ∧
      ∀ limit, tip.height.toNat - n.toNat < limit →
        (s.source.ancestors limit (.hash tip.hash))[tip.height.toNat - n.toNat]? = some x
  outside : ∀ n : UInt32, ¬(root.height ≤ n ∧ n ≤ tip.height) → s.get? (.height n) = none
  /-- The ancestors end where the heights do. -/
  ends : root.height = 0 ∨ s.get? (.hash root.header.parent) = none → ∀ limit,
    (s.source.ancestors limit (.hash tip.hash)).length =
      min limit (tip.height.toNat - root.height.toNat + 1)

theorem Column.aligned (hs : s.Column root tip) : s.Aligned root tip where
  best := hs.best?_eq
  ancestor := by
    intro n hroot hn
    rw [UInt32.le_iff_toNat_le] at hroot hn
    have found : ∀ limit, tip.height.toNat - n.toNat < limit → ∃ x,
        (s.source.ancestors limit (.hash tip.hash))[tip.height.toNat - n.toNat]? = some x ∧
          s.get? (.height n) = some x ∧ x.height = n := by
      intro limit hlimit
      obtain ⟨x, hget, hx, hheight⟩ :=
        hs.linked.getElem?_ancestors hs.holds_tip hlimit (by omega)
      have hxn : x.height = n := UInt32.toNat_inj.1 (by omega)
      refine ⟨x, hget, ?_, hxn⟩
      rw [← hxn]
      exact hs.get?_height_eq_some hx
    obtain ⟨x, -, hx, hheight⟩ := found _ (Nat.lt_succ_self _)
    refine ⟨x, hx, hheight, fun limit hlimit => ?_⟩
    obtain ⟨y, hget, hy, -⟩ := found limit hlimit
    rw [hget, ← hy, hx]
  outside := fun n hn => hs.get?_height_eq_none hn
  ends := fun hend limit => hs.linked.length_ancestors_of_end hs.holds_tip hend limit

end Store

end Retarget
