import Retarget.Requirement

/-!
# Walks along parent links

A walk to the closest header of a kind is given as many steps as the height of its start.
A parent stands one height below its child, so the steps never run out and the walk obeys
the equation that one would write without counting them. What every parent link preserves,
the whole walk preserves.
-/

namespace Retarget

theorem toNat_height_succ {n : UInt32} (room : n ≠ 0xffffffff) :
    (n + 1).toNat = n.toNat + 1 := by
  have hlt := n.toNat_lt
  have hne : n.toNat ≠ 0xffffffff := fun hmax => room (UInt32.toNat_inj.1 hmax)
  rw [UInt32.toNat_add]
  exact Nat.mod_eq_of_lt (show n.toNat + 1 < 2 ^ 32 by omega)

theorem IndexedHeader.nextHeight_congr {x y : IndexedHeader} (h : x.height = y.height) :
    x.nextHeight = y.nextHeight := by
  rw [nextHeight, nextHeight, h]

namespace HeaderSource

variable {source : HeaderSource} {kind : Kind} {x y p : IndexedHeader}

/-- Nothing is found below height zero. -/
theorem height_ne_zero_of_parent (hp : source.parent x = .ok p) : x.height ≠ 0 := by
  intro hzero
  have hbelow := (parent_eq_ok.1 hp).2
  rw [hzero] at hbelow
  exact absurd hbelow (Nat.succ_ne_zero _)

theorem lastOfKind_of_stop (stop : x.kind = kind ∨ x.height = 0) :
    source.lastOfKind kind x = .ok x := by
  rw [lastOfKind]
  cases hn : x.height.toNat with
  | zero => rfl
  | succ n =>
      have hkind : x.kind = kind := by
        refine stop.resolve_right fun hzero => ?_
        rw [hzero] at hn
        cases hn
      rw [lastOfKindWithin, if_pos hkind]

theorem lastOfKind_of_step (hkind : x.kind ≠ kind) (hheight : x.height ≠ 0) :
    source.lastOfKind kind x = (source.parent x).bind (source.lastOfKind kind) := by
  rw [lastOfKind]
  cases hn : x.height.toNat with
  | zero => exact absurd (UInt32.toNat_inj.1 hn) hheight
  | succ n =>
      rw [lastOfKindWithin_succ hkind]
      cases hp : source.parent x with
      | error e => rfl
      | ok p =>
          have hbelow := (parent_eq_ok.1 hp).2
          have hpn : n = p.height.toNat := by omega
          rw [hpn]
          rfl

/-- What holds where a walk stops, and of a header whenever it holds of the parent, holds of
every header: the heights of parents fall. -/
theorem walk_induction {motive : IndexedHeader → Prop} (source : HeaderSource) (kind : Kind)
    (stop : ∀ x, x.kind = kind ∨ x.height = 0 → motive x)
    (step : ∀ x, x.kind ≠ kind → x.height ≠ 0 →
      (∀ p, source.parent x = .ok p → motive p) → motive x) (x : IndexedHeader) : motive x := by
  induction hn : x.height.toNat using Nat.strongRecOn generalizing x with
  | ind n ih =>
      by_cases hstop : x.kind = kind ∨ x.height = 0
      · exact stop x hstop
      · rw [not_or] at hstop
        refine step x hstop.1 hstop.2 fun p hp => ?_
        have hbelow := (parent_eq_ok.1 hp).2
        exact ih p.height.toNat (by omega) p rfl

/-- A walk ends at a header of the kind or at height zero, and a property that passes from
a header to its parent passes from the start to the end. -/
theorem lastOfKind_spec {P : IndexedHeader → Prop}
    (hparent : ∀ x p, P x → source.parent x = .ok p → P p) (hx : P x)
    (walk : source.lastOfKind kind x = .ok y) : P y ∧ (y.kind = kind ∨ y.height = 0) := by
  induction x using walk_induction source kind with
  | stop x hstop =>
      rw [lastOfKind_of_stop hstop] at walk
      cases walk
      exact ⟨hx, hstop⟩
  | step x hkind hheight ih =>
      rw [lastOfKind_of_step hkind hheight] at walk
      cases hp : source.parent x with
      | error e =>
          rw [hp] at walk
          cases walk
      | ok p =>
          rw [hp] at walk
          exact ih p hp (hparent x p hx hp) walk

/-- Where all parents are found, so is the end of the walk. -/
theorem lastOfKind_eq_ok {P : IndexedHeader → Prop}
    (hparent : ∀ x, P x → x.height ≠ 0 → ∃ p, source.parent x = .ok p ∧ P p) (hx : P x) :
    ∃ y, source.lastOfKind kind x = .ok y := by
  induction x using walk_induction source kind with
  | stop x hstop => exact ⟨x, lastOfKind_of_stop hstop⟩
  | step x hkind hheight ih =>
      obtain ⟨p, hp, hPp⟩ := hparent x hx hheight
      rw [lastOfKind_of_step hkind hheight, hp]
      exact ih p hp hPp

/-- How the two walks for a history end: the first at height zero, the second at height zero,
or both at a header of the kind. -/
inductive Finds (source : HeaderSource) (kind : Kind) (x : IndexedHeader) : History → Prop
  | none {last : IndexedHeader} (walk : source.lastOfKind kind x = .ok last)
      (genesis : last.height = 0) : Finds source kind x .short
  | one {last below previous : IndexedHeader} (walk : source.lastOfKind kind x = .ok last)
      (above : last.height ≠ 0) (parent : source.parent last = .ok below)
      (walk' : source.lastOfKind kind below = .ok previous) (genesis : previous.height = 0) :
      Finds source kind x .short
  | two {last below previous : IndexedHeader} (walk : source.lastOfKind kind x = .ok last)
      (above : last.height ≠ 0) (parent : source.parent last = .ok below)
      (walk' : source.lastOfKind kind below = .ok previous) (above' : previous.height ≠ 0) :
      Finds source kind x (.pair last previous)

theorem history_eq_ok {history : History} :
    source.history kind x = .ok history ↔ source.Finds kind x history := by
  constructor
  · intro found
    rw [HeaderSource.history] at found
    simp only [IndexedHeader.isGenesis_iff] at found
    split at found
    · cases found
    · next last walk =>
      split at found
      · next genesis =>
        cases found
        exact .none walk genesis
      · next above =>
        split at found
        · cases found
        · next below parent =>
          split at found
          · cases found
          · next previous walk' =>
            split at found
            · next genesis =>
              cases found
              exact .one walk above parent walk' genesis
            · next above' =>
              cases found
              exact .two walk above parent walk' above'
  · intro finds
    rw [HeaderSource.history]
    simp only [IndexedHeader.isGenesis_iff]
    cases finds with
    | none walk genesis =>
        rw [walk]
        simp only [genesis, if_true]
    | one walk above parent walk' genesis =>
        rw [walk]
        simp only [above, if_false, parent, walk', genesis, if_true]
    | two walk above parent walk' above' =>
        rw [walk]
        simp only [above, if_false, parent, walk', above']

end HeaderSource

end Retarget
