import Retarget.Proofs.Adjustment.Monotone
import Retarget.Proofs.Series.Accuracy

/-!
# How good the exponential rule is

The exponential rule replaces the exponential of a fraction by a sum of truncated terms. Its error
is below two for each term that it takes, as long as the exponent is at most five quarters in size.
A network keeps within that bound if the exponents of the least and the greatest spacing do, and the
built-in ones have the exponents `-16 / 256` and `304 / 256` there.
-/

namespace Retarget

namespace Adjustment

/-- The exponents of the least and the greatest spacing in range, and with them all others, are at
most five quarters in size. -/
structure Moderate (spacing interval mask : ℤ) : Prop where
  window_ne_zero : Exact.window spacing interval mask ≠ 0
  least : -(5 * Exact.window spacing interval mask) ≤ 4 * Exact.deviation 0 spacing mask
  greatest : 4 * Exact.deviation (spacing * 20) spacing mask ≤ 5 * Exact.window spacing interval mask

variable {spacing interval mask : Int64}

theorem Moderate.ratio_le (hm : Moderate spacing.toInt interval.toInt mask.toInt)
    (h : Bounded spacing.toInt interval.toInt mask.toInt) (actual : Int64) :
    0 < (window spacing interval mask).toInt ∧
      4 * |(deviation (constrain actual spacing exponentialMultiplier) spacing mask).toInt| ≤
        5 * (window spacing interval mask).toInt := by
  obtain ⟨hlo, hhi⟩ :=
    toInt_constrain_mem h actual exponentialMultiplier (by decide) (by decide)
  rw [toInt_window h, toInt_deviation h hlo hhi]
  refine ⟨h.window_pos hm.window_ne_zero, ?_⟩
  have hleast : Exact.deviation 0 spacing.toInt mask.toInt ≤
      Exact.deviation (constrain actual spacing exponentialMultiplier).toInt spacing.toInt
        mask.toInt := Exact.deviation_mono h.mask_nonneg hlo
  have hgreatest : Exact.deviation (constrain actual spacing exponentialMultiplier).toInt
      spacing.toInt mask.toInt ≤ Exact.deviation (spacing.toInt * 20) spacing.toInt mask.toInt :=
    Exact.deviation_mono h.mask_nonneg hhi
  have := hm.least
  have := hm.greatest
  rw [Int.abs_eq_natAbs]
  omega

end Adjustment

namespace Consensus

open Adjustment

theorem moderate_ofNetwork (n : Network) {height interval : UInt32}
    (hqip9 : (ofNetwork n).isQip9 height = true)
    (hi : (ofNetwork n).interval? height = some interval) :
    Moderate (signed ((ofNetwork n).spacing height)).toInt (signed interval).toInt
      (signed ((ofNetwork n).stakeMask height)).toInt := by
  rw [toInt_signed, toInt_signed, toInt_signed, toNat_interval hi]
  rcases qip9Parameters_ofNetwork n hqip9 with ⟨hs, ht, hm⟩ | ⟨hs, ht, hm⟩
  · rw [hs, ht, hm]
    exact ⟨by decide, by decide, by decide⟩
  · rw [hs, ht, hm]
    exact ⟨by decide, by decide, by decide⟩

/-- The error of an exponential. With a positive denominator and an exponent of at most five
quarters in size the summation of the target `a` converges, at the first index `N` from one on whose
term is truncated to zero, and what it gives is less than two for each term away from the exact sum
of the series up to this index. Every exponent that a built-in network makes of a measured spacing
is of that size. -/
theorem mulExp_near_exact :
    (∀ (a : Target) (p q : Int64), 0 < q → 4 * |p.toInt| ≤ 5 * q.toInt →
      ∃ N v, Series.evaluate a p q = .converged N v ∧
        IsLeast {n | 0 < n ∧ Taylor.term a.toNat p.toInt q.toInt n = 0} N ∧
        mulExp a p q = .ok v ∧
        |(v.toNat : ℚ) - a.toNat *
          ∑ n ∈ Finset.range (N + 1), (p.toInt / q.toInt : ℚ) ^ n / n.factorial| < 2 * N) ∧
    ∀ (n : Network) (height interval : UInt32) (actual : Int64),
      (ofNetwork n).isQip9 height = true → (ofNetwork n).interval? height = some interval →
      let spacing := signed ((ofNetwork n).spacing height)
      let mask := signed ((ofNetwork n).stakeMask height)
      let p := deviation (constrain actual spacing exponentialMultiplier) spacing mask
      let q := window spacing (signed interval) mask
      0 < q ∧ 4 * |p.toInt| ≤ 5 * q.toInt := by
  constructor
  · intro a p q hq hratio
    rw [Int64.lt_iff_toInt_lt, Int64.toInt_zero] at hq
    obtain ⟨N, v, heval, hok, hnear⟩ := exists_mulExp_near (a := a) hq hratio
    exact ⟨N, v, heval, Series.isLeast_of_converged hq heval, hok, hnear⟩
  · intro n height interval actual hqip9 hi spacing mask p q
    rw [Int64.lt_iff_toInt_lt, Int64.toInt_zero]
    exact (moderate_ofNetwork n hqip9 hi).ratio_le ((ofNetwork n).bounded hi) actual

/-- A stake on the main network that is later than twenty spacings counts as that late, which makes
the greatest exponent. -/
theorem mulExp_near_exact_late_stake :
    let spacing := signed (mainnet.spacing 500000)
    let mask := signed (mainnet.stakeMask 500000)
    let p := deviation (constrain 5000 spacing exponentialMultiplier) spacing mask
    let q := window spacing (signed 31) mask
    mainnet.isQip9 500000 = true ∧ mainnet.interval? 500000 = some 31 ∧ p = 304 ∧ q = 256 ∧
      0 < q ∧ 4 * |p.toInt| ≤ 5 * q.toInt ∧
      mulExp 1000000 p q = .ok 3278868 ∧
      |((3278868 : WideTarget).toNat : ℚ) - (1000000 : Target).toNat *
        ∑ n ∈ Finset.range 12, (p.toInt / q.toInt : ℚ) ^ n / n.factorial| < 2 * (11 : ℕ) := by
  intro spacing mask p q
  have hqip9 : mainnet.isQip9 500000 = true := by decide
  have hi : mainnet.interval? 500000 = some 31 := by decide
  have hp : p = 304 := by decide
  have hq : q = 256 := by decide
  obtain ⟨near, moderate⟩ := mulExp_near_exact
  obtain ⟨hpos, hratio⟩ := moderate .mainnet 500000 31 5000 hqip9 hi
  obtain ⟨N, v, heval, -, hok, hnear⟩ := near 1000000 p q hpos hratio
  have heval' : Series.evaluate 1000000 p q = .converged 11 3278868 := by
    rw [hp, hq]
    decide +kernel
  rw [heval'] at heval
  cases heval
  exact ⟨hqip9, hi, hp, hq, hpos, hratio, hok, hnear⟩

end Consensus

end Retarget
