import Mathlib.Algebra.BigOperators.Intervals
import Mathlib.Tactic.Ring
import Retarget.Proofs.Series.Taylor

/-!
# The truncated series grows with its exponent

For a positive exponent every term grows with it. For a negative one the series alternates,
and each term is truncated on its own: a step of the exponent can raise a term and leave the
one before as it is. What a step adds to the size of a term is its increment. As long as the
square of the exponent's numerator is at most twice the denominator, the increments of the
terms never grow from one index to the next, so that they cancel in the alternating sum from
the front and the sum is monotone.
-/

namespace Retarget.Taylor

open Finset

variable {a b p p' q k : ℤ}

/-! ### Terms -/

/-- The terms of the opposite exponent differ in their signs alone. -/
theorem term_neg (a p q : ℤ) (n : ℕ) : term a (-p) q n = (-1) ^ n * term a p q n := by
  induction n with
  | zero => simp
  | succ n ih =>
      rw [term_succ, term_succ, ih, pow_succ]
      rcases neg_one_pow_eq_or ℤ n with hsign | hsign
      · rw [hsign, one_mul, mul_neg, Int.neg_tdiv, one_mul, neg_one_mul]
      · rw [hsign, neg_one_mul, neg_mul_neg, neg_one_mul, neg_neg, one_mul]

theorem divisor_pos (hq : 0 < q) (n : ℕ) : 0 < q * ((n : ℤ) + 1) := by positivity

theorem term_nonneg (ha : 0 ≤ a) (hp : 0 ≤ p) (hq : 0 < q) (n : ℕ) : 0 ≤ term a p q n := by
  induction n with
  | zero => exact ha
  | succ n ih => exact Int.tdiv_nonneg (mul_nonneg ih hp) (divisor_pos hq n).le

theorem term_le_term (ha : 0 ≤ a) (hab : a ≤ b) (hp : 0 ≤ p) (hle : p ≤ p') (hq : 0 < q)
    (n : ℕ) : term a p q n ≤ term b p' q n := by
  induction n with
  | zero => exact hab
  | succ n ih =>
      apply Int.tdiv_le_tdiv (divisor_pos hq n)
      exact mul_le_mul ih hle hp (term_nonneg (ha.trans hab) (hp.trans hle) hq n)

/-- A term of a nonnegative exponent is the greatest number whose product with the divisor
does not exceed the dividend. -/
theorem term_succ_bounds (ha : 0 ≤ a) (hp : 0 ≤ p) (hq : 0 < q) (n : ℕ) :
    term a p q (n + 1) * (q * (n + 1)) ≤ term a p q n * p ∧
      term a p q n * p < (term a p q (n + 1) + 1) * (q * (n + 1)) := by
  rw [term_succ, Int.tdiv_eq_ediv_of_nonneg (mul_nonneg (term_nonneg ha hp hq n) hp)]
  exact ⟨Int.ediv_mul_le _ (divisor_pos hq n).ne',
    Int.lt_ediv_add_one_mul_self _ (divisor_pos hq n)⟩

/-! ### Increments -/

/-- What a term gains when the exponent goes from `k` to `k + 1`. -/
def increment (a k q : ℤ) (n : ℕ) : ℤ := term a (k + 1) q n - term a k q n

theorem increment_nonneg (ha : 0 ≤ a) (hk : 0 ≤ k) (hq : 0 < q) (n : ℕ) :
    0 ≤ increment a k q n :=
  sub_nonneg.2 (term_le_term ha le_rfl hk (by omega) hq n)

/-- A term that gains little is small. After the first, the terms of `k` and `k + 1` are at
least as far apart as the two exponents, but for the truncation. -/
theorem term_le_increment (ha : 0 ≤ a) (hk : 0 ≤ k) (hq : 0 < q) (n : ℕ) :
    term a k q (n + 1) ≤ k * (increment a k q (n + 1) + 1) := by
  have hle := term_le_term ha le_rfl hk (show k ≤ k + 1 by omega) hq n
  have hlow := (term_succ_bounds ha hk hq n).1
  have hhigh := (term_succ_bounds ha (show 0 ≤ k + 1 by omega) hq n).2
  have hratio : term a k q (n + 1) * (k + 1) ≤ k * (term a (k + 1) q (n + 1) + 1) := by
    apply le_of_mul_le_mul_right _ (divisor_pos hq n)
    calc term a k q (n + 1) * (k + 1) * (q * (n + 1))
        = term a k q (n + 1) * (q * (n + 1)) * (k + 1) := by ring
      _ ≤ term a k q n * k * (k + 1) := mul_le_mul_of_nonneg_right hlow (by omega)
      _ = k * (term a k q n * (k + 1)) := by ring
      _ ≤ k * (term a (k + 1) q n * (k + 1)) := by gcongr
      _ ≤ k * ((term a (k + 1) q (n + 1) + 1) * (q * (n + 1))) :=
        mul_le_mul_of_nonneg_left hhigh.le hk
      _ = k * (term a (k + 1) q (n + 1) + 1) * (q * (n + 1)) := by ring
  rw [increment]
  linarith

/-- Increments do not grow from one index to the next. -/
theorem increment_succ_le (ha : 0 ≤ a) (hk : 0 ≤ k) (hq : 0 < q) (hsq : (k + 1) ^ 2 ≤ 2 * q)
    (n : ℕ) : increment a k q (n + 2) ≤ increment a k q (n + 1) := by
  have hsmall := term_le_increment ha hk hq n
  have hnonneg := increment_nonneg ha hk hq (n + 1)
  have hlow := (term_succ_bounds ha (show 0 ≤ k + 1 by omega) hq (n + 1)).1
  have hhigh := (term_succ_bounds ha hk hq (n + 1)).2
  have hbelow := term_nonneg ha hk hq (n + 2)
  have hdivisor : (k + 1) ^ 2 ≤ q * (((n + 1 : ℕ) : ℤ) + 1) := by
    have hn : (2 : ℤ) ≤ ((n + 1 : ℕ) : ℤ) + 1 := by push_cast; omega
    calc (k + 1) ^ 2 ≤ 2 * q := hsq
      _ = q * 2 := mul_comm _ _
      _ ≤ q * (((n + 1 : ℕ) : ℤ) + 1) := mul_le_mul_of_nonneg_left hn hq.le
  simp only [increment] at hsmall hnonneg ⊢
  -- From here on only numbers: terms `y ≤ x` of one index, `y' ≤ x'` of the next, a divisor `d`.
  generalize term a k q (n + 1) = y at *
  generalize term a (k + 1) q (n + 1) = x at *
  generalize term a k q (n + 1 + 1) = y' at *
  generalize term a (k + 1) q (n + 1 + 1) = x' at *
  generalize q * (((n + 1 : ℕ) : ℤ) + 1) = d at *
  by_contra hgain
  rcases hnonneg.eq_or_lt with heq | hlt
  · -- Equal terms are at most `k`, so the next ones are zero.
    have hx : x ≤ k := by
      rw [← heq, zero_add, mul_one] at hsmall
      omega
    have hx' : x' * d < 1 * d := by
      calc x' * d ≤ x * (k + 1) := hlow
        _ ≤ k * (k + 1) := mul_le_mul_of_nonneg_right hx (by omega)
        _ < (k + 1) ^ 2 := by linarith [sq_nonneg k, pow_two (k + 1)]
        _ ≤ 1 * d := by rwa [one_mul]
    have := lt_of_mul_lt_mul_right hx' ((sq_nonneg _).trans hdivisor)
    omega
  · have hgap : (x' - y' - 1) * d < (2 * k + 1) * (x - y) + k := by linarith
    have hmore : (x - y) * (k + 1) ^ 2 ≤ (x' - y' - 1) * d :=
      mul_le_mul (by omega) hdivisor (sq_nonneg _) (by omega)
    have hk2 : k ≤ (x - y) * k ^ 2 := by
      calc k ≤ k ^ 2 := Int.le_self_sq k
        _ ≤ (x - y) * k ^ 2 := le_mul_of_one_le_left (sq_nonneg k) (by omega)
    linarith

/-! ### Sums -/

/-- An alternating sum of numbers that do not grow lies between zero and the first of them. -/
theorem alternating_sum_mem {R : Type*} [CommRing R] [LinearOrder R] [IsStrictOrderedRing R]
    {d : ℕ → R} (hnonneg : ∀ n, 0 ≤ d n) (hle : ∀ n, d (n + 1) ≤ d n) (n : ℕ) :
    0 ≤ ∑ j ∈ range n, (-1) ^ j * d j ∧ ∑ j ∈ range n, (-1) ^ j * d j ≤ d 0 := by
  induction n generalizing d with
  | zero =>
      rw [range_zero, sum_empty]
      exact ⟨le_rfl, hnonneg 0⟩
  | succ n ih =>
      obtain ⟨hlo, hhi⟩ := ih (fun n => hnonneg (n + 1)) (fun n => hle (n + 1))
      have hshift : ∑ j ∈ range n, (-1) ^ (j + 1) * d (j + 1) =
          -∑ j ∈ range n, (-1) ^ j * d (j + 1) := by
        rw [← sum_neg_distrib]
        apply sum_congr rfl
        intro j _
        rw [pow_succ]
        ring
      have hfirst := hle 0
      rw [sum_range_succ', hshift, pow_zero, one_mul]
      constructor <;> linarith

theorem exists_sums_eq (a b p p' q : ℤ) :
    ∃ n, sum a p q = ∑ j ∈ range (n + 1), term a p q j ∧
      sum b p' q = ∑ j ∈ range (n + 1), term b p' q j := by
  obtain ⟨m, hm⟩ := exists_term_eq_zero a p q
  obtain ⟨m', hm'⟩ := exists_term_eq_zero b p' q
  refine ⟨max m m', (sum_range_eq_sum ?_).symm, (sum_range_eq_sum ?_).symm⟩
  · exact term_eq_zero_of_le hm (by omega)
  · exact term_eq_zero_of_le hm' (by omega)

theorem sum_le_sum_of_nonneg (ha : 0 ≤ a) (hab : a ≤ b) (hp : 0 ≤ p) (hle : p ≤ p')
    (hq : 0 < q) : sum a p q ≤ sum b p' q := by
  obtain ⟨n, hsum, hsum'⟩ := exists_sums_eq a b p p' q
  rw [hsum, hsum']
  exact sum_le_sum fun j _ => term_le_term ha hab hp hle hq j

/-- A step of a negative exponent towards zero raises the sum. -/
theorem sum_neg_succ_le (ha : 0 ≤ a) (hk : 0 ≤ k) (hq : 0 < q) (hsq : (k + 1) ^ 2 ≤ 2 * q) :
    sum a (-(k + 1)) q ≤ sum a (-k) q := by
  obtain ⟨n, hsum, hsum'⟩ := exists_sums_eq a a (-(k + 1)) (-k) q
  have hdiff : sum a (-k) q - sum a (-(k + 1)) q =
      ∑ j ∈ range n, (-1) ^ j * increment a k q (j + 1) := by
    rw [hsum, hsum', ← sum_sub_distrib, sum_range_succ', term_zero, term_zero, sub_self, add_zero]
    apply sum_congr rfl
    intro j _
    rw [term_neg, term_neg, increment, pow_succ]
    ring
  have hmem := alternating_sum_mem (fun j => increment_nonneg ha hk hq (j + 1))
    (fun j => increment_succ_le ha hk hq hsq j) n
  omega

/-- The sum grows with the exponent, for negative exponents as long as the square of the
numerator is at most twice the denominator. By induction on the distance of the exponents. -/
theorem sum_mono (ha : 0 ≤ a) (hq : 0 < q) (hsq : p < 0 → p ^ 2 ≤ 2 * q) (hle : p ≤ p') :
    sum a p q ≤ sum a p' q := by
  induction p', hle using Int.leInduction with
  | base => exact le_rfl
  | succ m hm ih =>
      refine ih.trans ?_
      rcases lt_or_ge m 0 with hneg | hnonneg
      · obtain ⟨k, hk, rfl⟩ : ∃ k : ℤ, 0 ≤ k ∧ m = -(k + 1) := ⟨-m - 1, by omega, by omega⟩
        have hpm : (k + 1) ^ 2 ≤ p ^ 2 := by
          rw [← neg_sq p]
          exact pow_le_pow_left₀ (by omega) (by omega) 2
        have hsucc : -(k + 1) + 1 = -k := by ring
        rw [hsucc]
        exact sum_neg_succ_le ha hk hq (hpm.trans (hsq (by omega)))
      · exact sum_le_sum_of_nonneg ha le_rfl hnonneg (by omega) hq

/-- Beyond that bound a step towards zero can lower the sum: from `-83` to `-82` a positive term
shrinks by one and no negative term does. -/
example : sum 50 (-82) 100 < sum 50 (-83) 100 := by
  have hend : term 50 (-82) 100 5 = 0 ∧ term 50 (-83) 100 5 = 0 := by decide
  rw [← sum_range_eq_sum hend.1, ← sum_range_eq_sum hend.2]
  decide

end Retarget.Taylor
