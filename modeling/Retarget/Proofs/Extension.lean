import Retarget.Proofs.Walk

/-!
# Sources that know more

One source extends another if it finds, under every hash, what the other finds there. It may
also find parents that the other does not know, so a failure for want of a parent can be mended.
No other answer changes: what a walk has read it reads again, whether it succeeds or meets a
parent at the wrong height. Two sources that find the same under every hash give the same
answers altogether, whatever they say of heights.
-/

namespace Retarget

/-- A second answer differs from the first only where the first is a failure for want of the
header of some hash. -/
def Refines {ε α : Type} (unknown : Hash → ε) (before after : Except ε α) : Prop :=
  (∃ k, before = .error (unknown k)) ∨ after = before

namespace Refines

variable {ε α β : Type} {unknown : Hash → ε} {before after : Except ε α} {f g : α → Except ε β}

theorem refl (answer : Except ε α) : Refines unknown answer answer := .inr rfl

theorem eq_of_known (refines : Refines unknown before after)
    (known : ∀ k, before ≠ .error (unknown k)) : after = before := by
  refine refines.resolve_left ?_
  rintro ⟨k, hk⟩
  exact known k hk

/-- What goes on from an answer is refined if the answer and the rest are. -/
theorem bind (refines : Refines unknown before after)
    (rest : ∀ a, before = .ok a → Refines unknown (f a) (g a)) :
    Refines unknown (before.bind f) (after.bind g) := by
  obtain ⟨k, hk⟩ | rfl := refines
  · rw [hk]
    exact .inl ⟨k, rfl⟩
  · cases hafter : after with
    | error e => exact .inr rfl
    | ok a => exact rest a hafter

end Refines

namespace HeaderSource

theorem history_eq_bind (source : HeaderSource) (kind : Kind) (x : IndexedHeader) :
    source.history kind x =
      (source.lastOfKind kind x).bind fun last =>
        if last.isGenesis then .ok .short
        else (source.parent last).bind fun below =>
          (source.lastOfKind kind below).bind fun previous =>
            if previous.isGenesis then .ok .short else .ok (.pair last previous) := by
  rw [history]
  cases source.lastOfKind kind x with
  | error e => rfl
  | ok last =>
      simp only [Except.bind]
      split
      · rfl
      · cases source.parent last with
        | error e => rfl
        | ok below =>
            simp only
            cases source.lastOfKind kind below <;> rfl

/-! ### What a larger source answers -/

/-- Every header that is found under a hash is found there in the larger source. -/
def Extends (larger source : HeaderSource) : Prop :=
  ∀ ⦃k : Hash⦄ ⦃x : IndexedHeader⦄, source (.hash k) = some x → larger (.hash k) = some x

theorem Extends.refl (source : HeaderSource) : source.Extends source := fun _ _ hx => hx

theorem Extends.trans {s t u : HeaderSource} (first : t.Extends s) (second : u.Extends t) :
    u.Extends s := fun _ _ hx => second (first hx)

namespace Extends

variable {larger source : HeaderSource} (hext : larger.Extends source)
include hext

theorem parent (x : IndexedHeader) :
    Refines .unknownParent (source.parent x) (larger.parent x) := by
  rw [HeaderSource.parent, HeaderSource.parent]
  cases hp : source (.hash x.header.parent) with
  | none => exact .inl ⟨_, rfl⟩
  | some p =>
      rw [hext hp]
      exact .refl _

/-- Whatever the walk reads, it reads in the larger source. By induction along the walk. -/
theorem lastOfKind (kind : Kind) (x : IndexedHeader) :
    Refines .unknownParent (source.lastOfKind kind x) (larger.lastOfKind kind x) := by
  induction x using walk_induction source kind with
  | stop x stop =>
      rw [lastOfKind_of_stop stop, lastOfKind_of_stop stop]
      exact .refl _
  | step x hkind hheight ih =>
      rw [lastOfKind_of_step hkind hheight, lastOfKind_of_step hkind hheight]
      exact (hext.parent x).bind ih

theorem history (kind : Kind) (x : IndexedHeader) :
    Refines .unknownParent (source.history kind x) (larger.history kind x) := by
  rw [history_eq_bind, history_eq_bind]
  refine (hext.lastOfKind kind x).bind fun last _ => ?_
  split
  · exact .refl _
  · refine (hext.parent last).bind fun below _ => ?_
    exact (hext.lastOfKind kind below).bind fun previous _ => .refl _

theorem requiredTarget (c : Consensus) (kind : Kind) (x : IndexedHeader) :
    Refines (fun k => .link (.unknownParent k)) (c.requiredTarget source kind x)
      (c.requiredTarget larger kind x) := by
  rw [Consensus.requiredTarget, Consensus.requiredTarget]
  obtain ⟨k, hk⟩ | heq := hext.history kind x
  · rw [hk]
    exact .inl ⟨k, rfl⟩
  · rw [heq]
    exact .refl _

theorem check (c : Consensus) (x : IndexedHeader) (h : Header) :
    Refines (fun k => .link (.unknownParent k)) (c.check source x h) (c.check larger x h) := by
  rw [Consensus.check, Consensus.check]
  obtain ⟨k, hk⟩ | heq := hext.requiredTarget c h.kind x
  · rw [hk]
    exact .inl ⟨k, rfl⟩
  · rw [heq]
    exact .refl _

end Extends

/-- What stays as it is when a source grows: every header that is found under a hash, and every
answer but the failures for want of a parent. -/
structure Keeps (larger source : HeaderSource) : Prop where
  found : ∀ {k x}, source (.hash k) = some x → larger (.hash k) = some x
  parent : ∀ x, (∀ k, source.parent x ≠ .error (.unknownParent k)) →
    larger.parent x = source.parent x
  lastOfKind : ∀ kind x, (∀ k, source.lastOfKind kind x ≠ .error (.unknownParent k)) →
    larger.lastOfKind kind x = source.lastOfKind kind x
  requiredTarget : ∀ (c : Consensus) kind x,
    (∀ k, c.requiredTarget source kind x ≠ .error (.link (.unknownParent k))) →
      c.requiredTarget larger kind x = c.requiredTarget source kind x
  check : ∀ (c : Consensus) x h,
    (∀ k, c.check source x h ≠ .error (.link (.unknownParent k))) →
      c.check larger x h = c.check source x h

theorem Extends.keeps {larger source : HeaderSource} (hext : larger.Extends source) :
    larger.Keeps source where
  found hx := hext hx
  parent x := (hext.parent x).eq_of_known
  lastOfKind kind x := (hext.lastOfKind kind x).eq_of_known
  requiredTarget c kind x := (hext.requiredTarget c kind x).eq_of_known
  check c x h := (hext.check c x h).eq_of_known

/-! ### Sources that find the same -/

def SameByHash (source other : HeaderSource) : Prop := ∀ k, source (.hash k) = other (.hash k)

namespace SameByHash

variable {source other : HeaderSource} (same : source.SameByHash other)
include same

theorem parent (x : IndexedHeader) : source.parent x = other.parent x := by
  rw [HeaderSource.parent, HeaderSource.parent, same]

theorem lastOfKind (kind : Kind) (x : IndexedHeader) :
    source.lastOfKind kind x = other.lastOfKind kind x := by
  induction x using walk_induction source kind with
  | stop x stop => rw [lastOfKind_of_stop stop, lastOfKind_of_stop stop]
  | step x hkind hheight ih =>
      rw [lastOfKind_of_step hkind hheight, lastOfKind_of_step hkind hheight, ← same.parent x]
      cases hp : source.parent x with
      | error e => rfl
      | ok p => exact ih p hp

theorem history (kind : Kind) (x : IndexedHeader) :
    source.history kind x = other.history kind x := by
  simp only [HeaderSource.history, same.lastOfKind, same.parent]

theorem requiredTarget (c : Consensus) (kind : Kind) (x : IndexedHeader) :
    c.requiredTarget source kind x = c.requiredTarget other kind x := by
  rw [Consensus.requiredTarget, Consensus.requiredTarget, same.history]

theorem check (c : Consensus) (x : IndexedHeader) (h : Header) :
    c.check source x h = c.check other x h := by
  rw [Consensus.check, Consensus.check, same.requiredTarget]

end SameByHash

end HeaderSource

end Retarget
