import Retarget.Proofs.Algorithm
import Retarget.Proofs.Series.Convergence

/-!
# Adjustments without overflow

The adjustment of a target computes with signed 64-bit numbers. The parameters come from
32-bit numbers, and the timespan is one of them, so no intermediate value leaves the range
and each is the integer that the formula says. For the exponential rule the ratio of the
exponent is below 76, hence its series converges.
-/

namespace Retarget

/-- The integers that a signed 64-bit number holds. -/
def Fits (n : ℤ) : Prop := -2 ^ 63 ≤ n ∧ n < 2 ^ 63

theorem Fits.bmod_eq {n : ℤ} (h : Fits n) : n.bmod (2 ^ 64) = n := by
  obtain ⟨hlo, hhi⟩ := h
  apply Int.bmod_eq_of_le_mul_two <;> push_cast <;> omega

variable {a b : Int64}

theorem toInt_add (h : Fits (a.toInt + b.toInt)) : (a + b).toInt = a.toInt + b.toInt :=
  (Int64.toInt_add a b).trans h.bmod_eq

theorem toInt_sub (h : Fits (a.toInt - b.toInt)) : (a - b).toInt = a.toInt - b.toInt :=
  (Int64.toInt_sub a b).trans h.bmod_eq

theorem toInt_mul (h : Fits (a.toInt * b.toInt)) : (a * b).toInt = a.toInt * b.toInt :=
  (Int64.toInt_mul a b).trans h.bmod_eq

theorem toInt_div (h : Fits (a.toInt.tdiv b.toInt)) : (a / b).toInt = a.toInt.tdiv b.toInt :=
  (Int64.toInt_div a b).trans h.bmod_eq

theorem toInt_add_one (h : Fits (a.toInt + 1)) : (a + 1).toInt = a.toInt + 1 := toInt_add h

theorem toInt_sub_one (h : Fits (a.toInt - 1)) : (a - 1).toInt = a.toInt - 1 := toInt_sub h

theorem toInt_two_mul (h : Fits (2 * a.toInt)) : (2 * a).toInt = 2 * a.toInt := toInt_mul h

theorem Target.checkedMul_ofAbs (t : Target) (n : Int64) :
    t.widen.checkedMul (WideTarget.ofAbs n) = some (t.widen * WideTarget.ofAbs n) := by
  have hn : (WideTarget.ofAbs n).toNat ≤ 2 ^ 63 := by
    have hlo := n.le_toInt
    have hhi := n.toInt_lt
    rw [WideTarget.toNat_ofAbs]
    omega
  have := Nat.mul_le_mul t.isLt.le hn
  apply Unsigned.checkedMul_eq_mul
  rw [toNat_widen]
  omega

theorem fits_tdiv {m : ℤ} (h : m.natAbs < 2 ^ 63) (n : ℤ) : Fits (m.tdiv n) := by
  have := Int.natAbs_tdiv_le_natAbs m n
  constructor <;> omega

namespace Adjustment

/-- Parameters that come from 32-bit numbers. -/
structure Bounded (spacing interval mask : ℤ) : Prop where
  spacing_pos : 0 < spacing
  spacing_lt : spacing < 2 ^ 32
  interval_nonneg : 0 ≤ interval
  /-- An interval is a quotient of a timespan and the spacing. -/
  timespan_lt : interval * spacing < 2 ^ 32
  mask_nonneg : 0 ≤ mask
  mask_lt : mask < 2 ^ 32

namespace Bounded

variable {s i m : ℤ} (h : Bounded s i m)
include h

theorem timespan_nonneg : 0 ≤ i * s := Int.mul_nonneg h.interval_nonneg h.spacing_pos.le

theorem interval_lt : i < 2 ^ 32 :=
  lt_of_le_of_lt (le_mul_of_one_le_right h.interval_nonneg h.spacing_pos) h.timespan_lt

theorem spacing_le_denominator : s ≤ (i + 1) * s := by
  have := h.timespan_nonneg
  rw [add_mul, one_mul]
  omega

theorem denominator_lt : (i + 1) * s < 2 ^ 33 := by
  have := h.timespan_lt
  have := h.spacing_lt
  rw [add_mul, one_mul]
  omega

/-- A constrained spacing is between zero and the greatest multiple of the expected one. -/
theorem constrain_mem {k : ℤ} (hk : 1 ≤ k) (actual : ℤ) :
    0 ≤ Exact.constrain actual s k ∧ Exact.constrain actual s k ≤ s * k := by
  have hle : s ≤ s * k := le_mul_of_one_le_right h.spacing_pos.le hk
  have := h.spacing_pos
  rw [Exact.constrain]
  split
  · omega
  · omega

theorem window_pos (hq : Exact.window s i m ≠ 0) : 0 < Exact.window s i m := by
  have := h.mask_nonneg
  refine lt_of_le_of_ne (Int.tdiv_nonneg ?_ (by omega)) hq.symm
  exact h.spacing_pos.le.trans h.spacing_le_denominator

/-- The exponent is below 76. With `q` at least one, `(interval + 1) * spacing` divided by
the granularity is below `2 * q`, and `p` is at most 38 times that quotient. -/
theorem deviation_le {x : ℤ} (hx : 0 ≤ x) (hle : x ≤ s * 20) (hq : Exact.window s i m ≠ 0) :
    (Exact.deviation x s m).natAbs ≤ Taylor.maxRatio * (Exact.window s i m).natAbs := by
  have hdev : (2 * (x - s)).natAbs ≤ 38 * ((i + 1) * s).natAbs := by
    have := h.spacing_pos
    have := h.spacing_le_denominator
    omega
  have hg : 0 < (m + 1).natAbs := by
    have := h.mask_nonneg
    omega
  rw [Exact.window, ← Int.natAbs_ne_zero, Int.natAbs_tdiv] at hq
  rw [Exact.deviation, Exact.window, Int.natAbs_tdiv, Int.natAbs_tdiv]
  -- From here on only natural numbers: a deviation `d`, a window `l`, a granularity `g`.
  generalize (2 * (x - s)).natAbs = d at hdev ⊢
  generalize ((i + 1) * s).natAbs = l at hdev hq ⊢
  generalize (m + 1).natAbs = g at hg hq ⊢
  change l / g ≠ 0 at hq
  change d / g ≤ 76 * (l / g)
  have hl : l < g * (l / g + 1) := Nat.lt_mul_div_succ l hg
  apply Nat.div_le_of_le_mul
  calc d ≤ 38 * l := hdev
    _ ≤ 38 * (g * (l / g + 1)) := Nat.mul_le_mul_left _ hl.le
    _ ≤ 38 * (g * (2 * (l / g))) := by
      apply Nat.mul_le_mul_left
      apply Nat.mul_le_mul_left
      omega
    _ = g * (76 * (l / g)) := by ring

end Bounded

/-! ### The expressions in 64 bits -/

section Expressions

variable {actual spacing interval mask : Int64}
  (h : Bounded spacing.toInt interval.toInt mask.toInt)
include h

theorem toInt_cap {multiplier : Int64} (hlo : 0 ≤ multiplier.toInt)
    (hhi : multiplier.toInt ≤ 20) :
    (spacing * multiplier).toInt = spacing.toInt * multiplier.toInt := by
  have hnonneg := Int.mul_nonneg h.spacing_pos.le hlo
  have hle := Int.mul_le_mul_of_nonneg_left hhi h.spacing_pos.le
  have := h.spacing_lt
  apply toInt_mul
  constructor <;> omega

theorem toInt_constrain {multiplier : Int64} (hlo : 0 ≤ multiplier.toInt)
    (hhi : multiplier.toInt ≤ 20) :
    (constrain actual spacing multiplier).toInt =
      Exact.constrain actual.toInt spacing.toInt multiplier.toInt := by
  have hneg : actual < 0 ↔ actual.toInt < 0 := Int64.lt_iff_toInt_lt
  have hcap : spacing * multiplier < actual ↔ spacing.toInt * multiplier.toInt < actual.toInt := by
    rw [Int64.lt_iff_toInt_lt, toInt_cap h hlo hhi]
  rw [constrain, Exact.constrain]
  by_cases hactual : actual < 0
  · rw [if_pos hactual, if_pos (hneg.1 hactual)]
  · rw [if_neg hactual, if_neg (fun hlt => hactual (hneg.2 hlt))]
    by_cases hlt : spacing * multiplier < actual
    · rw [if_pos hlt, toInt_cap h hlo hhi, min_eq_right (hcap.1 hlt).le]
    · rw [if_neg hlt, min_eq_left (not_lt.1 fun hlt' => hlt (hcap.2 hlt'))]

theorem toInt_interval_add_one : (interval + 1).toInt = interval.toInt + 1 := by
  have := h.interval_nonneg
  have := h.interval_lt
  apply toInt_add_one
  constructor <;> omega

theorem toInt_interval_sub_one : (interval - 1).toInt = interval.toInt - 1 := by
  have := h.interval_nonneg
  have := h.interval_lt
  apply toInt_sub_one
  constructor <;> omega

theorem toInt_denominator :
    (denominator spacing interval).toInt = (interval.toInt + 1) * spacing.toInt := by
  have hlt := h.denominator_lt
  have hle := h.spacing_le_denominator
  have := h.spacing_pos
  rw [denominator, toInt_mul, toInt_interval_add_one h]
  rw [toInt_interval_add_one h]
  constructor <;> omega

theorem toInt_interval_sub_one_mul :
    ((interval - 1) * spacing).toInt = (interval.toInt - 1) * spacing.toInt := by
  have := h.timespan_nonneg
  have := h.timespan_lt
  have := h.spacing_pos
  have := h.spacing_lt
  rw [toInt_mul, toInt_interval_sub_one h]
  rw [toInt_interval_sub_one h, sub_mul, one_mul]
  constructor <;> omega

theorem toInt_two_mul_actual (hlo : 0 ≤ actual.toInt) (hhi : actual.toInt ≤ spacing.toInt * 20) :
    (2 * actual).toInt = 2 * actual.toInt := by
  have := h.spacing_lt
  apply toInt_two_mul
  constructor <;> omega

theorem toInt_numerator (hlo : 0 ≤ actual.toInt) (hhi : actual.toInt ≤ spacing.toInt * 20) :
    (numerator actual spacing interval).toInt =
      (interval.toInt - 1) * spacing.toInt + 2 * actual.toInt := by
  have hprod := toInt_interval_sub_one_mul h
  have htwo := toInt_two_mul_actual h hlo hhi
  have := h.spacing_pos
  have := h.spacing_lt
  have := h.timespan_nonneg
  have := h.timespan_lt
  rw [numerator, toInt_add, hprod, htwo]
  rw [hprod, htwo, sub_mul, one_mul]
  constructor <;> omega

theorem toInt_granularity : (granularity mask).toInt = mask.toInt + 1 := by
  have := h.mask_nonneg
  have := h.mask_lt
  apply toInt_add_one
  constructor <;> omega

theorem toInt_window :
    (window spacing interval mask).toInt =
      Exact.window spacing.toInt interval.toInt mask.toInt := by
  have hlt := h.denominator_lt
  have hle := h.spacing_le_denominator
  have := h.spacing_pos
  have hden := toInt_denominator h
  rw [denominator] at hden
  rw [window, Exact.window, toInt_div, hden, toInt_granularity h]
  rw [hden]
  exact fits_tdiv (by omega) _

theorem toInt_lead (hlo : 0 ≤ actual.toInt) (hhi : actual.toInt ≤ spacing.toInt * 20) :
    (actual - spacing).toInt = actual.toInt - spacing.toInt := by
  have hlt := h.spacing_lt
  have hpos := h.spacing_pos
  apply toInt_sub
  constructor <;> omega

theorem toInt_two_mul_lead (hlo : 0 ≤ actual.toInt) (hhi : actual.toInt ≤ spacing.toInt * 20) :
    (2 * (actual - spacing)).toInt = 2 * (actual.toInt - spacing.toInt) := by
  have hlt := h.spacing_lt
  have hpos := h.spacing_pos
  rw [toInt_two_mul, toInt_lead h hlo hhi]
  rw [toInt_lead h hlo hhi]
  constructor <;> omega

theorem toInt_deviation (hlo : 0 ≤ actual.toInt) (hhi : actual.toInt ≤ spacing.toInt * 20) :
    (deviation actual spacing mask).toInt =
      Exact.deviation actual.toInt spacing.toInt mask.toInt := by
  have hlt := h.spacing_lt
  have hpos := h.spacing_pos
  have htwo := toInt_two_mul_lead h hlo hhi
  rw [deviation, Exact.deviation, toInt_div, htwo, toInt_granularity h]
  rw [htwo]
  exact fits_tdiv (by omega) _

/-! ### The two rules -/

/-- The linear rule gives the integer quotient, or zero in place of a negative one. -/
theorem toNat_linear (target : Target) (hlo : 0 ≤ actual.toInt)
    (hhi : actual.toInt ≤ spacing.toInt * 20) :
    (linear target actual spacing interval).toNat =
      (Exact.linear target.toNat actual.toInt spacing.toInt interval.toInt).toNat := by
  have hnum := toInt_numerator h hlo hhi
  have hden := toInt_denominator h
  have hdenpos : 0 < (denominator spacing interval).toInt := by
    have := h.spacing_pos
    have := h.spacing_le_denominator
    rw [hden]
    omega
  have hsign : ∀ n : Int64, n ≤ 0 ↔ n.toInt ≤ 0 := by
    intro n
    rw [Int64.le_iff_toInt_le, Int64.toInt_zero]
  rw [linear, Exact.linear, ← hnum, ← hden]
  simp only [hsign, not_le.2 hdenpos, or_false]
  split
  · next hnonpos =>
    have hle : ((target.toNat : ℤ) * (numerator actual spacing interval).toInt).tdiv
        (denominator spacing interval).toInt ≤ 0 := by
      have hmul := mul_nonpos_of_nonneg_of_nonpos (Int.natCast_nonneg target.toNat) hnonpos
      have := Int.tdiv_nonneg (neg_nonneg.2 hmul) hdenpos.le
      rwa [Int.neg_tdiv, neg_nonneg] at this
    rw [Int.toNat_of_nonpos hle]
    exact BitVec.toNat_zero
  · next hpos =>
    obtain ⟨n, hn⟩ := Int.eq_ofNat_of_zero_le (not_le.1 hpos).le
    obtain ⟨d, hd⟩ := Int.eq_ofNat_of_zero_le hdenpos.le
    have hprod : (target.widen * WideTarget.ofAbs (numerator actual spacing interval)).toNat =
        target.toNat * n := by
      rw [Unsigned.checkedMul_eq_some.1 (target.checkedMul_ofAbs _), Target.toNat_widen,
        WideTarget.toNat_ofAbs, hn, Int.natAbs_natCast]
    rw [BitVec.toNat_udiv, hprod, WideTarget.toNat_ofAbs, hn, hd, Int.natAbs_natCast,
      ← Int.natCast_mul, Int.natCast_tdiv_eq_ediv, ← Int.natCast_ediv, Int.toNat_natCast]

theorem exponential_eq_mulExp (target : Target) (actual : Int64) :
    exponential target actual spacing interval mask =
      mulExp target (deviation actual spacing mask) (window spacing interval mask) := by
  have hgran := toInt_granularity h
  have hne : granularity mask ≠ 0 := by
    have := h.mask_nonneg
    rw [Ne, ← Int64.toInt_inj, Int64.toInt_zero]
    omega
  rw [exponential, if_neg hne]

/-- The exponential rule gives the total of the series, or zero in place of a negative one,
and fails exactly when the exponent has the denominator zero. -/
theorem toNat_exponential (target : Target) (hlo : 0 ≤ actual.toInt)
    (hhi : actual.toInt ≤ spacing.toInt * 20) :
    (exponential target actual spacing interval mask).map BitVec.toNat =
      (Exact.exponential target.toNat actual.toInt spacing.toInt interval.toInt mask.toInt).map
        Int.toNat := by
  have hdev := toInt_deviation h hlo hhi
  have hwin := toInt_window h
  rw [exponential_eq_mulExp h, Exact.exponential]
  by_cases hzero : Exact.window spacing.toInt interval.toInt mask.toInt = 0
  · have hzero' : window spacing interval mask = 0 := by
      rw [← Int64.toInt_inj, hwin, hzero, Int64.toInt_zero]
    rw [if_pos hzero, mulExp_eq_error (by rw [hwin, hzero]), ← hdev, Int64.ofInt_toInt, hzero']
    rfl
  · have hpos : 0 < (window spacing interval mask).toInt := by
      rw [hwin]
      exact h.window_pos hzero
    have hratio := h.deviation_le hlo hhi hzero
    rw [← hdev, ← hwin] at hratio
    obtain ⟨t, ht, htotal⟩ := mulExp_eq_ok (a := target) hpos hratio
    rw [if_neg hzero, ht, ← hdev, ← hwin]
    exact congrArg Except.ok htotal

theorem toInt_constrain_mem (actual multiplier : Int64) (hlo : 1 ≤ multiplier.toInt)
    (hhi : multiplier.toInt ≤ 20) :
    0 ≤ (constrain actual spacing multiplier).toInt ∧
      (constrain actual spacing multiplier).toInt ≤ spacing.toInt * 20 := by
  obtain ⟨hnonneg, hle⟩ := h.constrain_mem hlo actual.toInt
  have hcap := Int.mul_le_mul_of_nonneg_left hhi h.spacing_pos.le
  rw [toInt_constrain h (by omega) hhi]
  exact ⟨hnonneg, hle.trans hcap⟩

theorem toNat_linear_constrain (target : Target) (actual : Int64) :
    (linear target (constrain actual spacing linearMultiplier) spacing interval).toNat =
      (Exact.linear target.toNat (Exact.constrain actual.toInt spacing.toInt 10) spacing.toInt
        interval.toInt).toNat := by
  have hconstrain : (constrain actual spacing linearMultiplier).toInt =
      Exact.constrain actual.toInt spacing.toInt 10 := toInt_constrain h (by decide) (by decide)
  obtain ⟨hlo, hhi⟩ := toInt_constrain_mem h actual linearMultiplier (by decide) (by decide)
  rw [toNat_linear h target hlo hhi, hconstrain]

theorem toNat_exponential_constrain (target : Target) (actual : Int64) :
    (exponential target (constrain actual spacing exponentialMultiplier) spacing interval
        mask).map BitVec.toNat =
      (Exact.exponential target.toNat (Exact.constrain actual.toInt spacing.toInt 20)
        spacing.toInt interval.toInt mask.toInt).map Int.toNat := by
  have hconstrain : (constrain actual spacing exponentialMultiplier).toInt =
      Exact.constrain actual.toInt spacing.toInt 20 := toInt_constrain h (by decide) (by decide)
  obtain ⟨hlo, hhi⟩ :=
    toInt_constrain_mem h actual exponentialMultiplier (by decide) (by decide)
  rw [toNat_exponential h target hlo hhi, hconstrain]

end Expressions

end Adjustment

end Retarget
