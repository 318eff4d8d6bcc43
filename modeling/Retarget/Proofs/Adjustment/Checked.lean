import Retarget.Proofs.Adjustment.Exact
import Retarget.Proofs.Series.Checked

/-!
# Adjustments under a check for overflow

The same expressions as those of an adjustment, with a check after every operation: a
result that a signed 64-bit number does not hold, or a product that is wider than 512 bits,
leaves no answer. With parameters that come from 32-bit numbers there always is one, and it
is what the plain expression computes.
-/

namespace Retarget

instance (n : ℤ) : Decidable (Fits n) := inferInstanceAs (Decidable (_ ∧ _))

/-- The 64-bit number that holds an integer, if there is one. -/
def fit? (n : ℤ) : Option Int64 := if Fits n then some (Int64.ofInt n) else none

theorem fit?_eq_some {n : ℤ} {a : Int64} : fit? n = some a ↔ a.toInt = n := by
  rw [fit?]
  split
  · next h =>
    have hn : (Int64.ofInt n).toInt = n := Int64.toInt_ofInt_of_le h.1 h.2
    rw [Option.some_inj, ← Int64.toInt_inj, hn, eq_comm]
  · next h =>
    refine iff_of_false (by simp) ?_
    rintro rfl
    exact h ⟨a.le_toInt, a.toInt_lt⟩

namespace Adjustment

def constrain? (actual spacing multiplier : Int64) : Option Int64 :=
  if actual < 0 then some spacing
  else do
    let cap ← fit? (spacing.toInt * multiplier.toInt)
    return if cap < actual then cap else actual

def numerator? (actual spacing interval : Int64) : Option Int64 := do
  let before ← fit? (interval.toInt - 1)
  let unmeasured ← fit? (before.toInt * spacing.toInt)
  let twice ← fit? (2 * actual.toInt)
  fit? (unmeasured.toInt + twice.toInt)

def denominator? (spacing interval : Int64) : Option Int64 := do
  let after ← fit? (interval.toInt + 1)
  fit? (after.toInt * spacing.toInt)

def linear? (target : Target) (actual spacing interval : Int64) : Option WideTarget := do
  let n ← numerator? actual spacing interval
  let d ← denominator? spacing interval
  if n ≤ 0 ∨ d ≤ 0 then return 0
  else
    let product ← target.widen.checkedMul (WideTarget.ofAbs n)
    return product / WideTarget.ofAbs d

def deviation? (actual spacing unit : Int64) : Option Int64 := do
  let lead ← fit? (actual.toInt - spacing.toInt)
  let twice ← fit? (2 * lead.toInt)
  fit? (twice.toInt.tdiv unit.toInt)

def window? (spacing interval unit : Int64) : Option Int64 := do
  let length ← denominator? spacing interval
  fit? (length.toInt.tdiv unit.toInt)

def exponential? (target : Target) (actual spacing interval mask : Int64) :
    Option (Except WorkError WideTarget) := do
  let unit ← fit? (mask.toInt + 1)
  if unit = 0 then return .error .divisionByZero
  else
    let p ← deviation? actual spacing unit
    let q ← window? spacing interval unit
    mulExp? target p q

section Expressions

variable {actual spacing interval mask : Int64}
  (h : Bounded spacing.toInt interval.toInt mask.toInt)
include h

theorem constrain?_eq_some {multiplier : Int64} (hlo : 0 ≤ multiplier.toInt)
    (hhi : multiplier.toInt ≤ 20) :
    constrain? actual spacing multiplier = some (constrain actual spacing multiplier) := by
  rw [constrain?, constrain, fit?_eq_some.2 (toInt_cap h hlo hhi)]
  split
  · rfl
  · rw [Option.bind_eq_bind, Option.bind_some]
    split <;> rfl

theorem denominator?_eq_some :
    denominator? spacing interval = some (denominator spacing interval) := by
  have hden := toInt_denominator h
  rw [denominator?, fit?_eq_some.2 (toInt_interval_add_one h), Option.bind_eq_bind,
    Option.bind_some, fit?_eq_some, toInt_interval_add_one h, hden]

variable (hlo : 0 ≤ actual.toInt) (hhi : actual.toInt ≤ spacing.toInt * 20)
include hlo hhi

theorem numerator?_eq_some :
    numerator? actual spacing interval = some (numerator actual spacing interval) := by
  have hpred := toInt_interval_sub_one h
  have hprod := toInt_interval_sub_one_mul h
  have htwo := toInt_two_mul_actual h hlo hhi
  have hunmeasured : fit? ((interval - 1).toInt * spacing.toInt) = some ((interval - 1) * spacing) := by
    rw [fit?_eq_some, hpred, hprod]
  rw [numerator?, fit?_eq_some.2 hpred]
  simp only [Option.bind_eq_bind, Option.bind_some, hunmeasured, fit?_eq_some.2 htwo]
  rw [fit?_eq_some, hprod, htwo, toInt_numerator h hlo hhi]

/-- The product of a target and a numerator fits. -/
theorem linear?_eq_some (target : Target) :
    linear? target actual spacing interval = some (linear target actual spacing interval) := by
  rw [linear?, numerator?_eq_some h hlo hhi, denominator?_eq_some h, linear]
  simp only [Option.bind_eq_bind, Option.bind_some]
  split
  · rfl
  · rw [target.checkedMul_ofAbs]
    rfl

theorem deviation?_eq_some :
    deviation? actual spacing (granularity mask) = some (deviation actual spacing mask) := by
  have hlead := toInt_lead h hlo hhi
  have htwo := toInt_two_mul_lead h hlo hhi
  have htwice : fit? (2 * (actual - spacing).toInt) = some (2 * (actual - spacing)) := by
    rw [fit?_eq_some, htwo, hlead]
  rw [deviation?, fit?_eq_some.2 hlead, Option.bind_eq_bind, Option.bind_some, htwice,
    Option.bind_some, fit?_eq_some, htwo, toInt_granularity h, toInt_deviation h hlo hhi,
    Exact.deviation]

omit hlo hhi in
theorem window?_eq_some :
    window? spacing interval (granularity mask) = some (window spacing interval mask) := by
  rw [window?, denominator?_eq_some h, Option.bind_eq_bind, Option.bind_some, fit?_eq_some,
    toInt_denominator h, toInt_granularity h, toInt_window h, Exact.window]

theorem exponential?_eq_some (target : Target) :
    exponential? target actual spacing interval mask =
      some (exponential target actual spacing interval mask) := by
  have hunit : fit? (mask.toInt + 1) = some (granularity mask) :=
    fit?_eq_some.2 (toInt_granularity h)
  rw [exponential?, exponential, hunit, Option.bind_eq_bind, Option.bind_some]
  split
  · rfl
  · rw [deviation?_eq_some h hlo hhi, window?_eq_some h, Option.bind_some, Option.bind_some]
    apply mulExp?_eq_some
    intro hpos
    rw [toInt_window h] at hpos ⊢
    rw [toInt_deviation h hlo hhi]
    exact h.deviation_le hlo hhi hpos.ne'

end Expressions

end Adjustment

end Retarget
