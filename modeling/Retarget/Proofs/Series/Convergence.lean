import Retarget.Proofs.Series.Summation

/-!
# Summations that converge

The exponential series of a 256-bit number has all of its terms below `2 ^ 363` as long as
its ratio is at most 76, and no term left from the index 400 on. Such a summation therefore
stays within 512 bits and within the allowed number of terms, and its total is that of the
integer series.
-/

namespace Retarget

namespace Taylor

variable {a p q : ℤ} {n : ℕ}

/-- A ratio that every adjustment of a target stays below. -/
def maxRatio : ℕ := 76

theorem maxRatio_pow_le : maxRatio ^ maxRatio ≤ 2 ^ 107 * maxRatio.factorial := by
  decide +kernel

theorem maxRatio_pow_lt : 2 ^ 256 * maxRatio ^ 400 < Nat.factorial 400 := by
  decide +kernel

theorem natAbs_term_lt (ha : a.natAbs < 2 ^ 256) (hr : p.natAbs ≤ maxRatio * q.natAbs) (n : ℕ) :
    (term a p q n).natAbs < 2 ^ 363 := by
  apply Nat.lt_of_mul_lt_mul_right (a := maxRatio.factorial)
  calc (term a p q n).natAbs * maxRatio.factorial
      ≤ a.natAbs * maxRatio ^ maxRatio := natAbs_term_mul_le hr n
    _ ≤ a.natAbs * (2 ^ 107 * maxRatio.factorial) := Nat.mul_le_mul_left _ maxRatio_pow_le
    _ < 2 ^ 256 * (2 ^ 107 * maxRatio.factorial) :=
      Nat.mul_lt_mul_of_pos_right ha (Nat.mul_pos (by positivity) (Nat.factorial_pos _))
    _ = 2 ^ 363 * maxRatio.factorial := by rw [← mul_assoc, ← pow_add]

theorem term_eq_zero (ha : a.natAbs < 2 ^ 256) (hr : p.natAbs ≤ maxRatio * q.natAbs) :
    term a p q 400 = 0 := by
  apply term_eq_zero_of_lt_factorial hr
  calc a.natAbs * maxRatio ^ 400 ≤ 2 ^ 256 * maxRatio ^ 400 := Nat.mul_le_mul_right _ ha.le
    _ < Nat.factorial 400 := maxRatio_pow_lt

/-- A one-sided sum is at most its number of terms times a bound of them. -/
theorem sum_toNat_le {f : ℕ → ℤ} {b : ℕ} (hb : ∀ n, (f n).natAbs ≤ b) (n : ℕ) :
    ∑ k ∈ Finset.range n, (f k).toNat ≤ n * b := by
  have hle : ∀ k ∈ Finset.range n, (f k).toNat ≤ b := by
    intro k _
    have := hb k
    omega
  simpa only [Finset.card_range, nsmul_eq_mul, Nat.cast_id] using
    Finset.sum_le_card_nsmul _ _ b hle

theorem positive_le {b : ℕ} (hb : ∀ n, (term a p q n).natAbs ≤ b) (n : ℕ) :
    positive a p q n ≤ n * b :=
  sum_toNat_le hb n

theorem negative_le {b : ℕ} (hb : ∀ n, (term a p q n).natAbs ≤ b) (n : ℕ) :
    negative a p q n ≤ n * b :=
  sum_toNat_le (fun k => (Int.natAbs_neg _).trans_le (hb k)) n

end Taylor

variable {a : Target} {p q : Int64}

theorem Series.evaluate_describes (hq : 0 < q.toInt) :
    (Series.evaluate a p q).Describes a.toNat p.toInt q.toInt 0 Series.maxTerms :=
  Series.sum_describes (Int.natCast_nonneg _) hq (by decide) (Series.represents_start a _ _)

theorem Series.evaluate_converged (hq : 0 < q.toInt)
    (hr : p.toInt.natAbs ≤ Taylor.maxRatio * q.toInt.natAbs) :
    ∃ index total, Series.evaluate a p q = .converged index total ∧
      total.toNat = (Taylor.sum a.toNat p.toInt q.toInt).toNat := by
  have ha : (a.toNat : ℤ).natAbs < 2 ^ 256 := a.isLt
  have hterm := Taylor.natAbs_term_lt ha hr
  have hdescribes := Series.evaluate_describes (a := a) (p := p) hq
  generalize Series.evaluate a p q = outcome at hdescribes ⊢
  cases hdescribes with
  | converged _ _ _ _ htotal => exact ⟨_, _, rfl, htotal⟩
  -- Terms below `2 ^ 363` leave room for a factor of 64 bits and for a thousand summands.
  | @product k _ _ _ hover =>
      have hp : p.toInt.natAbs ≤ 2 ^ 63 := by
        have hlo := p.le_toInt
        have hhi := p.toInt_lt
        omega
      have := Nat.mul_le_mul (hterm k).le hp
      omega
  | @side k _ hle _ hover =>
      have hpos := Taylor.positive_le (fun n => (hterm n).le) (k + 1)
      have hneg := Taylor.negative_le (fun n => (hterm n).le) (k + 1)
      rw [Series.maxTerms] at hle
      omega
  | exhausted hbefore =>
      exact absurd (Taylor.term_eq_zero ha hr) (hbefore 400 (by decide) (by decide))

/-- The exponential of a small ratio is the total of the integer series. -/
theorem mulExp_eq_ok (hq : 0 < q.toInt)
    (hr : p.toInt.natAbs ≤ Taylor.maxRatio * q.toInt.natAbs) :
    ∃ t, mulExp a p q = .ok t ∧ t.toNat = (Taylor.sum a.toNat p.toInt q.toInt).toNat := by
  obtain ⟨index, total, heval, htotal⟩ := Series.evaluate_converged (a := a) hq hr
  have hpos : ¬q ≤ 0 := by
    rw [Int64.le_iff_toInt_le, Int64.toInt_zero]
    omega
  refine ⟨total, ?_, htotal⟩
  rw [mulExp, if_neg hpos, heval]

/-- There is no exponential without a positive denominator. -/
theorem mulExp_eq_error (hq : q.toInt ≤ 0) : mulExp a p q = .error (.diverged p q) := by
  have hle : q ≤ 0 := by rwa [Int64.le_iff_toInt_le, Int64.toInt_zero]
  rw [mulExp, if_pos hle]

end Retarget
