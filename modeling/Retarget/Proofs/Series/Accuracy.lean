import Mathlib.Algebra.Order.BigOperators.Ring.Finset
import Mathlib.Algebra.Order.Group.MinMax
import Mathlib.Data.Rat.Cast.Order
import Mathlib.Tactic.FieldSimp
import Retarget.Proofs.Series.Monotone
import Retarget.Proofs.Series.Width

/-!
# How far an exponential is from the exact series

A term inherits the error of the one before it, multiplied by the ratio of the two, and its own
truncation adds less than one. With an exponent of at most five quarters in size the ratio is below
one half from the third term on, so that no error reaches two, and the errors of `N` terms after the
first stay below `2 * N` together. A partial sum of the exact series is never negative at the point
where the truncated one ends. Taking zero in place of a negative total therefore only leads closer
to it.
-/

namespace Retarget

namespace Taylor

open Finset

/-! ### The exact series -/

def expTerm (x : ℚ) (n : ℕ) : ℚ := x ^ n / n.factorial

@[simp] theorem expTerm_zero (x : ℚ) : expTerm x 0 = 1 := by simp [expTerm]

theorem expTerm_succ (x : ℚ) (n : ℕ) : expTerm x (n + 1) = expTerm x n * x / (n + 1) := by
  rw [expTerm, expTerm, pow_succ, Nat.factorial_succ, Nat.cast_mul, Nat.cast_succ, mul_comm (_ + 1),
    ← div_div, div_mul_eq_mul_div]

@[simp] theorem expTerm_one (x : ℚ) : expTerm x 1 = x := by simp [expTerm]

theorem expTerm_two (x : ℚ) : expTerm x 2 = x ^ 2 / 2 := by simp [expTerm]

theorem expTerm_three (x : ℚ) : expTerm x 3 = x ^ 3 / 6 := by
  rw [expTerm_succ, expTerm_two]
  push_cast
  ring

theorem expTerm_neg (x : ℚ) (n : ℕ) : expTerm (-x) n = (-1) ^ n * expTerm x n := by
  rw [expTerm, expTerm, neg_pow, mul_div_assoc]

theorem expTerm_nonneg {x : ℚ} (hx : 0 ≤ x) (n : ℕ) : 0 ≤ expTerm x n := by
  unfold expTerm
  positivity

/-- Terms do not grow from an index on that is no less than the exponent. -/
theorem expTerm_succ_le {x : ℚ} (hx : 0 ≤ x) {n : ℕ} (hn : x ≤ n + 1) :
    expTerm x (n + 1) ≤ expTerm x n := by
  rw [expTerm_succ, mul_div_assoc]
  exact mul_le_of_le_one_right (expTerm_nonneg hx n) ((div_le_one (by positivity)).2 hn)

/-- The cubic term takes away at most five twelfths of the quadratic one, and the rest has no
root. -/
theorem cubic_nonneg {y : ℚ} (hy : y ≤ 5 / 4) : 0 ≤ 1 - y + y ^ 2 / 2 - y ^ 3 / 6 := by
  have hcube : y ^ 2 * y ≤ y ^ 2 * (5 / 4) := mul_le_mul_of_nonneg_left hy (sq_nonneg y)
  calc (0 : ℚ) ≤ 7 / 24 * (y - 12 / 7) ^ 2 + 1 / 7 := by positivity
    _ = 1 - y + y ^ 2 / 2 - y ^ 2 * (5 / 4) / 6 := by ring
    _ ≤ 1 - y + y ^ 2 / 2 - y ^ 2 * y / 6 := by linarith
    _ = 1 - y + y ^ 2 / 2 - y ^ 3 / 6 := by ring

/-- No partial sum with a quadratic term is negative, as long as the exponent is not below minus
five quarters. The terms from the cubic one on alternate and do not grow. -/
theorem expSum_nonneg {x : ℚ} (hx : -(5 / 4) ≤ x) (n : ℕ) :
    0 ≤ ∑ k ∈ range (n + 3), expTerm x k := by
  rcases le_or_gt 0 x with hpos | hneg
  · exact sum_nonneg fun k _ => expTerm_nonneg hpos k
  · obtain ⟨y, rfl⟩ : ∃ y, x = -y := ⟨-x, (neg_neg x).symm⟩
    have hy : 0 ≤ y := by linarith
    have htail : ∑ k ∈ range n, expTerm (-y) (k + 3) =
        -∑ k ∈ range n, (-1) ^ k * expTerm y (k + 3) := by
      rw [← sum_neg_distrib]
      apply sum_congr rfl
      intro k _
      rw [expTerm_neg, pow_add]
      ring
    have hle : ∑ k ∈ range n, (-1) ^ k * expTerm y (k + 3) ≤ expTerm y 3 := by
      refine (alternating_sum_mem (fun k => expTerm_nonneg hy (k + 3)) (fun k => ?_) n).2
      apply expTerm_succ_le hy
      push_cast
      linarith [show (0 : ℚ) ≤ k from Nat.cast_nonneg k]
    have hcubic := cubic_nonneg (show y ≤ 5 / 4 by linarith)
    rw [expTerm_three] at hle
    rw [sum_range_succ', sum_range_succ', sum_range_succ', htail, expTerm_zero, zero_add,
      expTerm_one, one_add_one_eq_two, expTerm_two, neg_sq]
    linarith

/-! ### Errors -/

variable {a p q : ℤ}

/-- A truncated quotient is less than one away from the exact one. -/
theorem abs_div_sub_tdiv_lt (x : ℤ) {d : ℤ} (hd : 0 < d) : |(x / d : ℚ) - x.tdiv d| < 1 := by
  have hdQ : (0 : ℚ) < d := by exact_mod_cast hd
  have hmod : |x.tmod d| < d := by
    have := Nat.mod_lt x.natAbs (Int.natAbs_pos.2 hd.ne')
    have := Int.natAbs_tmod x d
    rw [Int.abs_eq_natAbs]
    omega
  have hsplit : (x : ℚ) = d * x.tdiv d + x.tmod d := by
    exact_mod_cast (Int.mul_tdiv_add_tmod x d).symm
  have herror : (x / d : ℚ) - x.tdiv d = x.tmod d / d := by
    rw [div_sub' hdQ.ne', hsplit]
    ring
  rw [herror, abs_div, abs_of_pos hdQ, div_lt_one hdQ]
  exact_mod_cast hmod

/-- How far the truncations up to a term have moved it. -/
def error (a p q : ℤ) (n : ℕ) : ℚ := |a * expTerm (p / q) n - term a p q n|

@[simp] theorem error_zero (a p q : ℤ) : error a p q 0 = 0 := by simp [error]

/-- A term takes over the error of the one before and adds its own truncation. -/
theorem error_succ_lt (hq : 0 < q) (n : ℕ) :
    error a p q (n + 1) < error a p q n * (|(p / q : ℚ)| / (n + 1)) + 1 := by
  have hqQ : (q : ℚ) ≠ 0 := by exact_mod_cast hq.ne'
  have hn : ((n : ℚ) + 1) ≠ 0 := by positivity
  have hown := abs_div_sub_tdiv_lt (term a p q n * p) (divisor_pos hq n)
  rw [← term_succ] at hown
  push_cast at hown
  have hsplit : a * expTerm (p / q) (n + 1) - term a p q (n + 1) =
      (a * expTerm (p / q) n - term a p q n) * (p / q / (n + 1)) +
        (term a p q n * p / (q * (n + 1)) - term a p q (n + 1)) := by
    rw [expTerm_succ]
    field_simp
    ring
  rw [error, hsplit]
  refine (abs_add_le _ _).trans_lt (add_lt_add_of_le_of_lt (le_of_eq ?_) hown)
  rw [abs_mul, abs_div (p / q : ℚ), abs_of_pos (by positivity : (0 : ℚ) < n + 1), error]

/-- If the term after a positive target is truncated to zero, the exponent is at most one in
size. -/
theorem abs_ratio_le_one (hq : 0 < q) (ha : 0 < a) (hzero : term a p q 1 = 0) :
    |(p / q : ℚ)| ≤ 1 := by
  have hqQ : (0 : ℚ) < q := by exact_mod_cast hq
  have hlt : |a * p| < q := by
    have hdiv := congrArg Int.natAbs hzero
    rw [natAbs_term_succ, zero_add, mul_one, Int.natAbs_zero, term_zero, ← Int.natAbs_mul,
      Nat.div_eq_zero_iff] at hdiv
    rw [Int.abs_eq_natAbs]
    omega
  have hle : |p| ≤ q := by
    rw [abs_mul, abs_of_pos ha] at hlt
    exact (le_mul_of_one_le_left (abs_nonneg p) ha).trans hlt.le
  rw [abs_div, abs_of_pos hqQ, div_le_one hqQ]
  exact_mod_cast hle

section Ratio

variable (hq : 0 < q) (hr : 4 * |p| ≤ 5 * q)
include hq hr

theorem abs_ratio_le : |(p / q : ℚ)| ≤ 5 / 4 := by
  have hqQ : (0 : ℚ) < q := by exact_mod_cast hq
  have hrQ : 4 * |(p : ℚ)| ≤ 5 * q := by exact_mod_cast hr
  rw [abs_div, abs_of_pos hqQ, div_le_iff₀ hqQ]
  linarith

theorem error_succ_lt_of_le {n : ℕ} {b : ℚ} (h : error a p q n ≤ b) :
    error a p q (n + 1) < b * (5 / 4 / (n + 1)) + 1 := by
  have hb : 0 ≤ b := (abs_nonneg _).trans h
  refine (error_succ_lt hq n).trans_le (add_le_add_left (mul_le_mul h ?_ (by positivity) hb) 1)
  exact div_le_div_of_nonneg_right (abs_ratio_le hq hr) (by positivity)

/-- No error reaches two. The first is below one, the second below `13 / 8`, and from there on the
ratio of two terms is less than one half. -/
theorem error_lt_two (n : ℕ) : error a p q n < 2 := by
  have h1 := error_succ_lt_of_le hq hr (error_zero a p q).le
  have h2 := error_succ_lt_of_le hq hr h1.le
  norm_num at h1 h2
  match n with
  | 0 => norm_num
  | 1 => linarith
  | n + 2 =>
      induction n with
      | zero => linarith
      | succ n ih =>
          have hnext := error_succ_lt_of_le hq hr ih.le
          have hratio : (5 : ℚ) / 4 / ((n + 2 : ℕ) + 1) ≤ 5 / 12 := by
            rw [div_div, div_le_div_iff_of_pos_left (by norm_num) (by positivity) (by norm_num)]
            push_cast
            linarith [show (0 : ℚ) ≤ n from Nat.cast_nonneg n]
          linarith

/-- The errors of all terms up to an index together. The first term is exact. -/
theorem abs_sum_sub_lt {n : ℕ} (hn : 0 < n) :
    |∑ k ∈ range (n + 1), (term a p q k : ℚ) - a * ∑ k ∈ range (n + 1), expTerm (p / q) k| <
      2 * n := by
  have herrors : ∑ k ∈ range n, error a p q (k + 1) < 2 * n := by
    calc ∑ k ∈ range n, error a p q (k + 1) < ∑ _k ∈ range n, (2 : ℚ) :=
          sum_lt_sum_of_nonempty (nonempty_range_iff.2 hn.ne') fun k _ =>
            error_lt_two hq hr (k + 1)
      _ = 2 * n := by rw [sum_const, card_range, nsmul_eq_mul, mul_comm]
  rw [mul_sum, abs_sub_comm, ← sum_sub_distrib]
  calc |∑ k ∈ range (n + 1), (a * expTerm (p / q) k - term a p q k)|
      ≤ ∑ k ∈ range (n + 1), error a p q k := abs_sum_le_sum_abs _ _
    _ = ∑ k ∈ range n, error a p q (k + 1) := by rw [sum_range_succ', error_zero, add_zero]
    _ < 2 * n := herrors

/-- Up to a zero term the exact sum is not negative. Only if this is the first term after the target
does the sum end before the quadratic term. -/
theorem mul_expSum_nonneg (ha : 0 ≤ a) {n : ℕ} (hn : 0 < n) (hzero : term a p q n = 0) :
    0 ≤ (a : ℚ) * ∑ k ∈ range (n + 1), expTerm (p / q) k := by
  have haQ : (0 : ℚ) ≤ a := by exact_mod_cast ha
  match n with
  | 1 =>
      rcases ha.eq_or_lt with rfl | hpos
      · simp
      · have hratio := abs_ratio_le_one hq hpos hzero
        refine mul_nonneg haQ ?_
        rw [sum_range_succ, sum_range_one, expTerm_zero, expTerm_one]
        linarith [(abs_le.1 hratio).1]
  | n + 2 => exact mul_nonneg haQ (expSum_nonneg (abs_le.1 (abs_ratio_le hq hr)).1 n)

end Ratio

end Taylor

variable {a : Target} {p q : Int64} {index : ℕ} {v : WideTarget}

/-- A summation converges at the first index from one on whose term is zero. -/
theorem Series.isLeast_of_converged (hq : 0 < q.toInt)
    (h : evaluate a p q = .converged index v) :
    IsLeast {n | 0 < n ∧ Taylor.term a.toNat p.toInt q.toInt n = 0} index := by
  have hdescribes := evaluate_describes (a := a) (p := p) hq
  rw [h] at hdescribes
  cases hdescribes with
  | converged hlt _ hzero before _ =>
      refine ⟨⟨hlt, hzero⟩, fun n hn => ?_⟩
      by_contra hlt
      exact before n hn.1 (not_le.1 hlt) hn.2

/-- With an exponent of at most five quarters in size there is an exponential, and its distance from
the exact sum up to the term at which the summation converges is below two for each term. -/
theorem exists_mulExp_near (hq : 0 < q.toInt) (hr : 4 * |p.toInt| ≤ 5 * q.toInt) :
    ∃ N v, Series.evaluate a p q = .converged N v ∧ mulExp a p q = .ok v ∧
      |(v.toNat : ℚ) - a.toNat * ∑ n ∈ Finset.range (N + 1),
        Taylor.expTerm (p.toInt / q.toInt) n| < 2 * N := by
  have hratio : p.toInt.natAbs ≤ Taylor.maxRatio * q.toInt.natAbs := by
    rw [Taylor.maxRatio]
    rw [Int.abs_eq_natAbs] at hr
    omega
  obtain ⟨N, v, heval, htotal⟩ := Series.evaluate_converged (a := a) hq hratio
  obtain ⟨⟨hpos, hzero⟩, -⟩ := Series.isLeast_of_converged hq heval
  refine ⟨N, v, heval, mulExp_eq_ok_iff.2 ⟨hq, N, heval⟩, ?_⟩
  have hnear := Taylor.abs_sum_sub_lt (a := a.toNat) hq hr hpos
  have hnonneg := Taylor.mul_expSum_nonneg hq hr (Int.natCast_nonneg a.toNat) hpos hzero
  have hsum : ∑ k ∈ Finset.range (N + 1), (Taylor.term a.toNat p.toInt q.toInt k : ℚ) =
      Taylor.sum a.toNat p.toInt q.toInt := by
    rw [← Int.cast_sum, Taylor.sum_range_eq_sum (Taylor.term_eq_zero_of_le hzero N.le_succ)]
  have hclamp : (v.toNat : ℚ) = max (Taylor.sum a.toNat p.toInt q.toInt : ℚ) 0 := by
    rw [htotal]
    exact_mod_cast Int.ofNat_toNat (Taylor.sum a.toNat p.toInt q.toInt)
  rw [hsum, Int.cast_natCast] at hnear
  rw [Int.cast_natCast] at hnonneg
  rw [hclamp, ← max_eq_left hnonneg]
  exact (abs_max_sub_max_le_abs _ _ _).trans_lt hnear

end Retarget
