import Retarget.Proofs.Walk
import Retarget.Store

/-!
# Stores grown from one header

A store that starts with one header and grows by linking keeps every header under its own
hash and, but for the first one, its parent one height below. No link displaces a header.
When the first header stands at height zero, walks from a stored header therefore never
fail, and its lineage, the header with all of its ancestors, reaches down to height zero
without a gap.
-/

namespace Retarget

namespace Store

/-- A header is stored under its own hash. -/
def Holds (s : Store) (x : IndexedHeader) : Prop := s.byHash[x.hash]? = some x

instance (s : Store) (x : IndexedHeader) : Decidable (s.Holds x) :=
  inferInstanceAs (Decidable (_ = _))

/-- Every stored header is found under its hash and above its parent, except that nothing
is said of the parent of the root. -/
structure Linked (s : Store) (root : IndexedHeader) : Prop where
  holds_root : s.Holds root
  hash_eq : ∀ {k : Hash} {x : IndexedHeader}, s.byHash[k]? = some x →
    x.hash = k ∧ x.header.hash = k
  parent : ∀ {x : IndexedHeader}, s.Holds x → x ≠ root →
    ∃ p, s.byHash[x.header.parent]? = some p ∧ p.height.toNat + 1 = x.height.toNat

variable {s : Store} {root x y p : IndexedHeader} {h : Header} {kind : Kind}

theorem isEmpty_eq_false (hx : s.Holds x) : s.isEmpty = false := by
  have hmem : x.hash ∈ s.byHash := by
    rw [← Std.TreeMap.isSome_getElem?_iff_mem, hx]
    rfl
  exact Std.TreeMap.isEmpty_eq_false_iff_exists_mem.2 ⟨x.hash, hmem⟩

/-- What a link on a store that is not empty amounts to. -/
theorem link_eq_ok (hs : s.isEmpty = false) :
    s.link h = .ok x ↔
      ∃ p, s.byHash[h.parent]? = some p ∧ p.height ≠ 0xffffffff ∧ s.byHash[h.hash]? = none ∧
        x = .ofHeader (p.height + 1) h := by
  rw [link, if_neg (by rw [hs]; exact Bool.false_ne_true), Std.TreeMap.contains_eq_isSome_getElem?]
  cases s.byHash[h.parent]? with
  | none =>
      refine iff_of_false (fun hlink => by cases hlink) ?_
      rintro ⟨p, hp, -⟩
      cases hp
  | some p =>
      simp only
      constructor
      · intro hlink
        split at hlink
        · cases hlink
        · next hheight =>
          split at hlink
          · cases hlink
          · next hnew =>
            cases hlink
            exact ⟨p, rfl, hheight, Option.not_isSome_iff_eq_none.1 hnew, rfl⟩
      · rintro ⟨q, hq, hheight, hnew, rfl⟩
        cases hq
        rw [if_neg hheight, hnew]
        rfl

theorem not_mem_of_link (hs : s.isEmpty = false) (hlink : s.link h = .ok x) :
    s.byHash[x.hash]? = none := by
  obtain ⟨p, _, _, hnew, rfl⟩ := (link_eq_ok hs).1 hlink
  exact hnew

theorem holds_place (s : Store) (x : IndexedHeader) : (s.place x).Holds x := by
  rw [Holds, byHash_place, if_pos rfl]

theorem eq_or_holds_of_place (hy : (s.place x).Holds y) : y = x ∨ s.Holds y := by
  rw [Holds, byHash_place] at hy
  split at hy
  · exact .inl (Option.some.inj hy).symm
  · exact .inr hy

theorem eq_of_holds_place_empty (hy : (empty.place x).Holds y) : y = x := by
  refine (eq_or_holds_of_place hy).resolve_right ?_
  intro hempty
  cases hempty

/-- Placing a new header displaces none. -/
theorem getElem?_place_of_some {k : Hash} (hnew : s.byHash[x.hash]? = none)
    (hk : s.byHash[k]? = some y) : (s.place x).byHash[k]? = some y := by
  have hne : x.hash ≠ k := by
    rintro rfl
    rw [hnew] at hk
    cases hk
  rw [byHash_place, if_neg hne, hk]

theorem size_place (hnew : s.byHash[x.hash]? = none) : (s.place x).size = s.size + 1 := by
  rw [size, size, place, Std.TreeMap.size_insert, Std.TreeMap.contains_eq_isSome_getElem?, hnew]
  rfl

theorem ancestors_of_height_zero {limit : Nat} (hx : s.Holds x) (hheight : x.height = 0) :
    s.source.ancestors (limit + 1) (.hash x.hash) = [x] := by
  have hget : s.source (.hash x.hash) = some x := hx
  simp only [HeaderSource.ancestors, hget]
  rw [if_pos (IndexedHeader.isGenesis_iff.2 hheight)]

/-- A header and its ancestors, the newest first, down to height zero at most. -/
def lineage (s : Store) (x : IndexedHeader) : List IndexedHeader :=
  s.source.ancestors (x.height.toNat + 1) (.hash x.hash)

theorem lineage_of_height_zero (hx : s.Holds x) (hheight : x.height = 0) : s.lineage x = [x] :=
  ancestors_of_height_zero hx hheight

theorem head?_lineage (hx : s.Holds x) : (s.lineage x).head? = some x := by
  have hget : s.source (.hash x.hash) = some x := hx
  simp only [lineage, HeaderSource.ancestors, hget, List.head?_cons]

/-! ### The invariant -/

theorem linked_place_empty (hx : x.header.hash = x.hash) : (empty.place x).Linked x where
  holds_root := holds_place empty x
  hash_eq := by
    intro k y hy
    rw [byHash_place] at hy
    split at hy
    · next hk =>
      cases hy
      exact ⟨hk, hx.trans hk⟩
    · cases hy
  parent := by
    intro y hy hne
    exact absurd (eq_of_holds_place_empty hy) hne

namespace Linked

/-- Linking a header keeps the invariant and the root. -/
theorem place (hs : s.Linked root) (hlink : s.link h = .ok x) : (s.place x).Linked root := by
  have hempty := isEmpty_eq_false hs.holds_root
  have hnew := not_mem_of_link hempty hlink
  obtain ⟨p, hp, hheight, -, rfl⟩ := (link_eq_ok hempty).1 hlink
  refine ⟨getElem?_place_of_some hnew hs.holds_root, ?_, ?_⟩
  · intro k y hy
    rw [byHash_place] at hy
    split at hy
    · next hk =>
      cases hy
      exact ⟨hk, hk⟩
    · exact hs.hash_eq hy
  · -- The new header stands above its stored parent; no other header loses its own.
    intro y hy hne
    obtain rfl | hy := eq_or_holds_of_place hy
    · exact ⟨p, getElem?_place_of_some hnew hp, (toNat_height_succ hheight).symm⟩
    · obtain ⟨q, hq, hbelow⟩ := hs.parent hy hne
      exact ⟨q, getElem?_place_of_some hnew hq, hbelow⟩

theorem holds {k : Hash} (hs : s.Linked root) (hk : s.byHash[k]? = some x) : s.Holds x := by
  rw [Holds, (hs.hash_eq hk).1, hk]

theorem ancestors_of_parent {limit : Nat} (hs : s.Linked root) (hx : s.Holds x)
    (hp : s.source.parent x = .ok p) :
    s.source.ancestors (limit + 1) (.hash x.hash) =
      x :: s.source.ancestors limit (.hash p.hash) := by
  have hget : s.source (.hash x.hash) = some x := hx
  have hheight := HeaderSource.height_ne_zero_of_parent hp
  have hhash : x.header.parent = p.hash :=
    (hs.hash_eq (HeaderSource.parent_eq_ok.1 hp).1).1.symm
  simp only [HeaderSource.ancestors, hget]
  rw [if_neg (mt IndexedHeader.isGenesis_iff.1 hheight), hhash]

theorem lineage_of_parent (hs : s.Linked root) (hx : s.Holds x)
    (hp : s.source.parent x = .ok p) : s.lineage x = x :: s.lineage p := by
  rw [lineage, hs.ancestors_of_parent hx hp, ← (HeaderSource.parent_eq_ok.1 hp).2]
  rfl

/-- What holds of the root, and of a header whenever it holds of the parent, holds of every stored
header: parents stand one height below, and only the root has none. -/
theorem stored_induction (hs : s.Linked root) {motive : (x : IndexedHeader) → s.Holds x → Prop}
    (base : motive root hs.holds_root)
    (step : ∀ (x p : IndexedHeader) (hx : s.Holds x) (hp : s.Holds p), x ≠ root →
      s.byHash[x.header.parent]? = some p → p.height.toNat + 1 = x.height.toNat →
      motive p hp → motive x hx)
    (x : IndexedHeader) (hx : s.Holds x) : motive x hx := by
  induction hn : x.height.toNat using Nat.strongRecOn generalizing x with
  | ind n ih =>
      by_cases hne : x = root
      · subst hne
        exact base
      · obtain ⟨p, hfound, hbelow⟩ := hs.parent hx hne
        have hp := hs.holds hfound
        exact step x p hx hp hne hfound hbelow (ih p.height.toNat (by omega) p hp rfl)

variable (hs : s.Linked root) (hroot : root.height = 0)
include hs hroot

/-- Above height zero the parent of a stored header is found. -/
theorem exists_parent (hx : s.Holds x) (hheight : x.height ≠ 0) :
    ∃ p, s.source.parent x = .ok p ∧ s.Holds p := by
  have hne : x ≠ root := by
    rintro rfl
    exact hheight hroot
  obtain ⟨p, hp, hbelow⟩ := hs.parent hx hne
  exact ⟨p, HeaderSource.parent_eq_ok.2 ⟨hp, hbelow⟩, hs.holds hp⟩

theorem exists_lastOfKind (kind : Kind) (hx : s.Holds x) :
    ∃ y, s.source.lastOfKind kind x = .ok y ∧ s.Holds y ∧ (y.kind = kind ∨ y.height = 0) := by
  obtain ⟨y, hy⟩ := HeaderSource.lastOfKind_eq_ok (P := s.Holds)
    (fun x hx hheight => hs.exists_parent hroot hx hheight) hx
  have hspec := HeaderSource.lastOfKind_spec (P := s.Holds)
    (fun x p _ hp => hs.holds (HeaderSource.parent_eq_ok.1 hp).1) hx hy
  exact ⟨y, hy, hspec⟩

/-- The history of a kind on top of a stored header is known. A pair consists of stored
headers of the kind above height zero. -/
theorem exists_history (kind : Kind) (hx : s.Holds x) :
    ∃ history, s.source.history kind x = .ok history ∧
      ∀ last previous, history = .pair last previous →
        (s.Holds last ∧ last.kind = kind ∧ last.height ≠ 0) ∧
        (s.Holds previous ∧ previous.kind = kind ∧ previous.height ≠ 0) := by
  obtain ⟨last, hlast, hlastHolds, hlastStop⟩ := hs.exists_lastOfKind hroot kind hx
  by_cases hlastHeight : last.height = 0
  · exact ⟨.short, HeaderSource.history_eq_ok.2 (.none hlast hlastHeight),
      fun _ _ hpair => by cases hpair⟩
  · obtain ⟨below, hbelow, hbelowHolds⟩ := hs.exists_parent hroot hlastHolds hlastHeight
    obtain ⟨previous, hprevious, hpreviousHolds, hpreviousStop⟩ :=
      hs.exists_lastOfKind hroot kind hbelowHolds
    by_cases hpreviousHeight : previous.height = 0
    · exact ⟨.short,
        HeaderSource.history_eq_ok.2 (.one hlast hlastHeight hbelow hprevious hpreviousHeight),
        fun _ _ hpair => by cases hpair⟩
    · refine ⟨.pair last previous,
        HeaderSource.history_eq_ok.2 (.two hlast hlastHeight hbelow hprevious hpreviousHeight),
        fun _ _ hpair => ?_⟩
      cases hpair
      exact ⟨⟨hlastHolds, hlastStop.resolve_right hlastHeight, hlastHeight⟩,
        hpreviousHolds, hpreviousStop.resolve_right hpreviousHeight, hpreviousHeight⟩

/-! ### Lineages -/

/-- What holds at height zero, and of a header whenever it holds of the parent, holds of every
stored header. -/
theorem genesis_induction {motive : (x : IndexedHeader) → s.Holds x → Prop}
    (genesis : ∀ (x : IndexedHeader) (hx : s.Holds x), x.height = 0 → motive x hx)
    (child : ∀ (x p : IndexedHeader) (hx : s.Holds x) (hp : s.Holds p),
      s.source.parent x = .ok p → motive p hp → motive x hx)
    (x : IndexedHeader) (hx : s.Holds x) : motive x hx := by
  induction x, hx using hs.stored_induction with
  | base => exact genesis root hs.holds_root hroot
  | step x p hx hp _ hfound hbelow ih =>
      exact child x p hx hp (HeaderSource.parent_eq_ok.2 ⟨hfound, hbelow⟩) ih

/-- The ancestors end where the lineage does, however many are asked for. -/
theorem ancestors_eq_take (hx : s.Holds x) (limit : Nat) :
    s.source.ancestors limit (.hash x.hash) = (s.lineage x).take limit := by
  induction x, hx using hs.genesis_induction hroot generalizing limit with
  | genesis x hx hheight =>
      cases limit with
      | zero => rfl
      | succ limit =>
          rw [ancestors_of_height_zero hx hheight, lineage_of_height_zero hx hheight,
            List.take_succ_cons, List.take_nil]
  | child x p hx _ hp ih =>
      cases limit with
      | zero => rfl
      | succ limit =>
          rw [hs.ancestors_of_parent hx hp, hs.lineage_of_parent hx hp, List.take_succ_cons, ih]

/-- A lineage passes through every height from its own down to zero. -/
theorem heights_lineage (hx : s.Holds x) :
    (s.lineage x).map (·.height.toNat) = (List.range (x.height.toNat + 1)).reverse := by
  induction x, hx using hs.genesis_induction hroot with
  | genesis x hx hheight =>
      rw [lineage_of_height_zero hx hheight, List.map_singleton, hheight]
      rfl
  | child x p hx _ hp ih =>
      have hbelow := (HeaderSource.parent_eq_ok.1 hp).2
      rw [hs.lineage_of_parent hx hp, List.map_cons, ih, hbelow, List.range_succ,
        List.reverse_append, List.reverse_singleton, List.singleton_append]

theorem length_ancestors {limit : Nat} (hx : s.Holds x) (hlimit : x.height.toNat < limit) :
    (s.source.ancestors limit (.hash x.hash)).length = x.height.toNat + 1 := by
  have hlength := congrArg List.length (hs.heights_lineage hroot hx)
  rw [List.length_map, List.length_reverse, List.length_range] at hlength
  rw [hs.ancestors_eq_take hroot hx, List.length_take, hlength]
  exact Nat.min_eq_right hlimit

end Linked

end Store

end Retarget
