import Mathlib.Data.List.Chain
import Retarget.Proofs.Walk

/-!
# Trails of parents

A walk to a kind trusts nothing that a source answers. Links may run in a circle, miss a header or
lead to one of another height. A trail is what such a walk can tell: headers that are each found as
the parent of the one before, one height below it, of which none but the last may stop the walk. The
walk ends where its trail does, at a header where it may stop or at a link that is broken, and no
other end is possible. A run of the loop that counts its look-ups and is allowed any number of them
ends with the same answer, and makes no more look-ups than the start is high.
-/

namespace Retarget

namespace HeaderSource

def Stops (kind : Kind) (x : IndexedHeader) : Prop := x.kind = kind ∨ x.height = 0

/-- A header is followed by its parent if that is found, one height below. -/
def Links (source : HeaderSource) (x p : IndexedHeader) : Prop :=
  source (.hash x.header.parent) = some p ∧ p.height.toNat + 1 = x.height.toNat

inductive Breaks (source : HeaderSource) (x : IndexedHeader) : LinkError → Prop
  | missing (unknown : source (.hash x.header.parent) = none) :
      Breaks source x (.unknownParent x.header.parent)
  | misplaced {p : IndexedHeader} (found : source (.hash x.header.parent) = some p)
      (height : p.height.toNat + 1 ≠ x.height.toNat) :
      Breaks source x (.inconsistentParent x.header.parent)

/-- A run of the loop from a header: how many parents it looks up, and its answer. Nothing bounds
the run. -/
inductive Runs (source : HeaderSource) (kind : Kind) :
    IndexedHeader → Nat → Except LinkError IndexedHeader → Prop
  | stop {x : IndexedHeader} (stops : Stops kind x) : Runs source kind x 0 (.ok x)
  | fail {x : IndexedHeader} {e : LinkError} (goes : ¬ Stops kind x) (broken : source.Breaks x e) :
      Runs source kind x 1 (.error e)
  | step {x p : IndexedHeader} {n : Nat} {answer : Except LinkError IndexedHeader}
      (goes : ¬ Stops kind x) (link : source.Links x p) (rest : Runs source kind p n answer) :
      Runs source kind x (n + 1) answer

/-- The headers below `x` that a walk has found when it is at `y`: each is linked to the one
before, and the walk stopped at none of those above `y`. -/
structure Trail (source : HeaderSource) (kind : Kind) (x : IndexedHeader)
    (below : List IndexedHeader) (y : IndexedHeader) : Prop where
  links : (x :: below).IsChain source.Links
  last : (x :: below).getLast? = some y
  passed : ∀ z ∈ (x :: below).dropLast, ¬ Stops kind z

/-- What a walk answers when it goes no further. -/
inductive Ends (source : HeaderSource) (kind : Kind) (y : IndexedHeader) :
    Except LinkError IndexedHeader → Prop
  | found (stops : Stops kind y) : Ends source kind y (.ok y)
  | broken {e : LinkError} (goes : ¬ Stops kind y) (breaks : source.Breaks y e) :
      Ends source kind y (.error e)

variable {source : HeaderSource} {kind : Kind} {x y p : IndexedHeader}
  {below : List IndexedHeader} {answer : Except LinkError IndexedHeader}

theorem parent_eq_error {e : LinkError} : source.parent x = .error e ↔ source.Breaks x e := by
  constructor
  · intro h
    unfold parent at h
    cases hp : source (.hash x.header.parent) with
    | none =>
        simp only [hp] at h
        cases h
        exact .missing hp
    | some p =>
        simp only [hp] at h
        split at h
        · cases h
        · next hne =>
          cases h
          exact .misplaced hp hne
  · intro breaks
    unfold parent
    cases breaks with
    | missing unknown => simp only [unknown]
    | misplaced found height => simp only [found, if_neg height]

/-! ### The trail of a walk -/

theorem trail_nil : source.Trail kind x [] y ↔ y = x := by
  constructor
  · intro trail
    exact (Option.some.inj trail.last).symm
  · rintro rfl
    exact ⟨.singleton y, rfl, fun z hz => absurd hz List.not_mem_nil⟩

theorem trail_cons :
    source.Trail kind x (p :: below) y ↔
      ¬ Stops kind x ∧ source.Links x p ∧ source.Trail kind p below y := by
  constructor
  · rintro ⟨links, last, passed⟩
    obtain ⟨link, links⟩ := List.isChain_cons_cons.1 links
    simp only [List.dropLast_cons_cons, List.forall_mem_cons] at passed
    exact ⟨passed.1, link, links, List.getLast?_cons_cons ▸ last, passed.2⟩
  · rintro ⟨goes, link, links, last, passed⟩
    refine ⟨.cons_cons link links, List.getLast?_cons_cons.trans last, ?_⟩
    simp only [List.dropLast_cons_cons, List.forall_mem_cons]
    exact ⟨goes, passed⟩

/-- A trail ends at its first header or goes on from the parent of that. -/
theorem exists_ends_iff :
    (∃ y below, source.Trail kind x below y ∧ source.Ends kind y answer) ↔
      source.Ends kind x answer ∨ ¬ Stops kind x ∧ ∃ p, source.Links x p ∧
        ∃ y below, source.Trail kind p below y ∧ source.Ends kind y answer := by
  constructor
  · rintro ⟨y, below, trail, ends⟩
    cases below with
    | nil =>
        obtain rfl := trail_nil.1 trail
        exact .inl ends
    | cons p below =>
        obtain ⟨goes, link, trail⟩ := trail_cons.1 trail
        exact .inr ⟨goes, p, link, y, below, trail, ends⟩
  · rintro (ends | ⟨goes, p, link, y, below, trail, ends⟩)
    · exact ⟨x, [], trail_nil.2 rfl, ends⟩
    · exact ⟨y, p :: below, trail_cons.2 ⟨goes, link, trail⟩, ends⟩

/-- A walk answers what the end of a trail says, by induction along the walk: a trail goes on
exactly where the walk does. -/
theorem lastOfKind_eq_iff :
    source.lastOfKind kind x = answer ↔
      ∃ y below, source.Trail kind x below y ∧ source.Ends kind y answer := by
  induction x using walk_induction source kind with
  | stop x stops =>
      rw [lastOfKind_of_stop stops, exists_ends_iff]
      constructor
      · rintro rfl
        exact .inl (.found stops)
      · rintro (ends | ⟨goes, -⟩)
        · cases ends with
          | found => rfl
          | broken goes => exact absurd stops goes
        · exact absurd stops goes
  | step x hkind hheight ih =>
      have goes : ¬ Stops kind x := not_or.2 ⟨hkind, hheight⟩
      rw [lastOfKind_of_step hkind hheight, exists_ends_iff]
      cases hp : source.parent x with
      | error e =>
          constructor
          · rintro rfl
            exact .inl (.broken goes (parent_eq_error.1 hp))
          · rintro (ends | ⟨-, p, link, -⟩)
            · cases ends with
              | found stops => exact absurd stops goes
              | broken _ breaks =>
                  cases hp.symm.trans (parent_eq_error.2 breaks)
                  rfl
            · cases hp.symm.trans (parent_eq_ok.2 link)
      | ok p =>
          refine (ih p hp).trans ?_
          constructor
          · intro rest
            exact .inr ⟨goes, p, parent_eq_ok.1 hp, rest⟩
          · rintro (ends | ⟨-, q, link, rest⟩)
            · cases ends with
              | found stops => exact absurd stops goes
              | broken _ breaks => cases hp.symm.trans (parent_eq_error.2 breaks)
            · cases hp.symm.trans (parent_eq_ok.2 link)
              exact rest

/-! ### Runs of the loop -/

/-- The loop ends: each parent is one height lower, and at height zero it looks up nothing. -/
theorem exists_runs (source : HeaderSource) (kind : Kind) (x : IndexedHeader) :
    ∃ n ≤ x.height.toNat, source.Runs kind x n (source.lastOfKind kind x) := by
  induction x using walk_induction source kind with
  | stop x stops =>
      rw [lastOfKind_of_stop stops]
      exact ⟨0, Nat.zero_le _, .stop stops⟩
  | step x hkind hheight ih =>
      have goes : ¬ Stops kind x := not_or.2 ⟨hkind, hheight⟩
      rw [lastOfKind_of_step hkind hheight]
      cases hp : source.parent x with
      | error e =>
          have hpos : 1 ≤ x.height.toNat :=
            Nat.one_le_iff_ne_zero.2 fun hzero => hheight (UInt32.toNat_inj.1 hzero)
          exact ⟨1, hpos, .fail goes (parent_eq_error.1 hp)⟩
      | ok p =>
          obtain ⟨n, hn, rest⟩ := ih p hp
          have link := parent_eq_ok.1 hp
          exact ⟨n + 1, link.2 ▸ Nat.succ_le_succ hn, .step goes link rest⟩

/-- A header has one run at most: the ways in which a run can go on exclude one another. -/
theorem Runs.unique {m n : Nat} {answer' : Except LinkError IndexedHeader}
    (run : source.Runs kind x m answer) (run' : source.Runs kind x n answer') :
    m = n ∧ answer = answer' := by
  induction run generalizing n with
  | stop stops =>
      cases run' with
      | stop => exact ⟨rfl, rfl⟩
      | fail goes => exact absurd stops goes
      | step goes => exact absurd stops goes
  | fail goes broken =>
      cases run' with
      | stop stops => exact absurd stops goes
      | fail _ broken' =>
          cases (parent_eq_error.2 broken).symm.trans (parent_eq_error.2 broken')
          exact ⟨rfl, rfl⟩
      | step _ link => cases (parent_eq_error.2 broken).symm.trans (parent_eq_ok.2 link)
  | step goes link _ ih =>
      cases run' with
      | stop stops => exact absurd stops goes
      | fail _ broken => cases (parent_eq_error.2 broken).symm.trans (parent_eq_ok.2 link)
      | step _ link' rest =>
          cases (parent_eq_ok.2 link).symm.trans (parent_eq_ok.2 link')
          obtain ⟨rfl, rfl⟩ := ih rest
          exact ⟨rfl, rfl⟩

/-- Whatever the source, the loop has exactly one run from a header. It makes at most as many
look-ups as the header is high, and its answer is that of the walk. The walk finds a header exactly if
a trail leads to it and it stops the walk there; it fails exactly if a trail leads to a header where
it must go on and the link is broken, and the error says what is wrong with that link. -/
theorem lastOfKind_exact (source : HeaderSource) (kind : Kind) (x : IndexedHeader) :
    (∃ n ≤ x.height.toNat, ∀ m answer,
      source.Runs kind x m answer ↔ m = n ∧ answer = source.lastOfKind kind x) ∧
    (∀ y, source.lastOfKind kind x = .ok y ↔
      Stops kind y ∧ ∃ below, source.Trail kind x below y) ∧
    ∀ e, source.lastOfKind kind x = .error e ↔
      ∃ y, ¬ Stops kind y ∧ source.Breaks y e ∧ ∃ below, source.Trail kind x below y := by
  refine ⟨?_, fun y => ?_, fun e => ?_⟩
  · obtain ⟨n, hn, run⟩ := exists_runs source kind x
    refine ⟨n, hn, fun m answer => ⟨fun run' => run'.unique run, ?_⟩⟩
    rintro ⟨rfl, rfl⟩
    exact run
  · rw [lastOfKind_eq_iff]
    constructor
    · rintro ⟨z, below, trail, ends⟩
      cases ends with
      | found stops => exact ⟨stops, below, trail⟩
    · rintro ⟨stops, below, trail⟩
      exact ⟨y, below, trail, .found stops⟩
  · rw [lastOfKind_eq_iff]
    constructor
    · rintro ⟨y, below, trail, ends⟩
      cases ends with
      | broken goes breaks => exact ⟨y, goes, breaks, below, trail⟩
    · rintro ⟨y, goes, breaks, below, trail⟩
      exact ⟨y, below, trail, .broken goes breaks⟩

/-- A header that is its own parent is not one height below itself. -/
example : lastOfKind (fun _ => some ⟨Hash.zero, 5, {}⟩) .stake ⟨Hash.zero, 5, {}⟩ =
    .error (.inconsistentParent Hash.zero) := rfl

end HeaderSource

end Retarget
