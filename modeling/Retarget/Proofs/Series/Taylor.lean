import Mathlib.Algebra.BigOperators.Ring.Finset
import Mathlib.Algebra.Order.BigOperators.Group.Finset
import Mathlib.Data.Nat.Factorial.Basic
import Mathlib.Tactic.Linarith
import Mathlib.Tactic.Positivity
import Mathlib.Tactic.Ring

/-!
# The truncated exponential series over the integers

The product of an integer `a` and the exponential of `p / q` is approached by the terms
`a`, `a * p / q`, `(a * p / q) * p / (2 * q)` and so on, each truncated towards zero. From
some index on all terms are zero, so they have a sum. Nothing here has a width.

The size of a term is bounded by `a * r ^ n / n!` for every integer `r` above the ratio,
which is greatest at `n = r`.
-/

namespace Retarget.Taylor

open Finset

def term (a p q : ℤ) : ℕ → ℤ
  | 0 => a
  | n + 1 => (term a p q n * p).tdiv (q * (n + 1))

variable {a p q : ℤ}

@[simp] theorem term_zero : term a p q 0 = a := rfl

theorem term_succ (n : ℕ) : term a p q (n + 1) = (term a p q n * p).tdiv (q * (n + 1)) := rfl

theorem natAbs_term_succ (n : ℕ) :
    (term a p q (n + 1)).natAbs =
      (term a p q n).natAbs * p.natAbs / (q.natAbs * (n + 1)) := by
  rw [term_succ, Int.natAbs_tdiv, Int.natAbs_mul, Int.natAbs_mul]
  rfl

theorem term_eq_zero_of_le {m n : ℕ} (h : term a p q m = 0) (hmn : m ≤ n) : term a p q n = 0 := by
  induction n, hmn using Nat.le_induction with
  | base => exact h
  | succ n _ ih => rw [term_succ, ih, zero_mul, Int.zero_tdiv]

/-- From the index `|p|` on the terms shrink. -/
theorem natAbs_term_succ_lt {n : ℕ} (hn : p.natAbs ≤ n) (h : term a p q n ≠ 0) :
    (term a p q (n + 1)).natAbs < (term a p q n).natAbs := by
  have hpos : 0 < (term a p q n).natAbs := Int.natAbs_pos.2 h
  rw [natAbs_term_succ]
  rcases Nat.eq_zero_or_pos q.natAbs with hq | hq
  · rwa [hq, zero_mul, Nat.div_zero]
  · apply Nat.div_lt_of_lt_mul
    rw [mul_comm]
    apply Nat.mul_lt_mul_of_pos_right _ hpos
    calc p.natAbs < n + 1 := Nat.lt_succ_of_le hn
      _ ≤ q.natAbs * (n + 1) := Nat.le_mul_of_pos_left _ hq

/-- The series ends, whatever its ratio. -/
theorem exists_term_eq_zero (a p q : ℤ) : ∃ n, term a p q n = 0 := by
  have descend : ∀ m n : ℕ, p.natAbs ≤ n → (term a p q n).natAbs ≤ m → ∃ n, term a p q n = 0 := by
    intro m
    induction m with
    | zero =>
        intro n _ hm
        exact ⟨n, Int.natAbs_eq_zero.1 (Nat.le_zero.1 hm)⟩
    | succ m ih =>
        intro n hn hm
        by_cases h : term a p q n = 0
        · exact ⟨n, h⟩
        · have := natAbs_term_succ_lt hn h
          exact ih (n + 1) (by omega) (by omega)
  exact descend _ p.natAbs le_rfl le_rfl

/-- The index of the first zero term. -/
def length (a p q : ℤ) : ℕ := Nat.find (exists_term_eq_zero a p q)

theorem term_eq_zero_iff {n : ℕ} : term a p q n = 0 ↔ length a p q ≤ n := by
  constructor
  · intro h
    exact Nat.find_min' _ h
  · intro h
    exact term_eq_zero_of_le (Nat.find_spec (exists_term_eq_zero a p q)) h

def sum (a p q : ℤ) : ℤ := ∑ k ∈ range (length a p q), term a p q k

theorem sum_range_eq_sum {n : ℕ} (h : term a p q n = 0) :
    ∑ k ∈ range n, term a p q k = sum a p q := by
  symm
  apply Finset.sum_subset (range_subset_range.2 (term_eq_zero_iff.1 h))
  intro k _ hk
  rw [mem_range, not_lt] at hk
  exact term_eq_zero_iff.2 hk

/-! ### Signs -/

/-- Whether the term of an index is subtracted: every other one for a negative `p`. -/
def isNegative (p : ℤ) (n : ℕ) : Bool := decide (p < 0) && decide (n % 2 = 1)

@[simp] theorem isNegative_zero (p : ℤ) : isNegative p 0 = false := by simp [isNegative]

theorem isNegative_succ (p : ℤ) (n : ℕ) :
    isNegative p (n + 1) = (isNegative p n ^^ decide (p < 0)) := by
  have hn : decide ((n + 1) % 2 = 1) = !decide (n % 2 = 1) := by
    rw [← decide_not, decide_eq_decide]
    omega
  rw [isNegative, isNegative, hn]
  cases decide (p < 0) <;> simp

/-- With a positive denominator the terms have the signs of the exact ones. -/
theorem term_sign (ha : 0 ≤ a) (hq : 0 < q) (n : ℕ) :
    if isNegative p n then term a p q n ≤ 0 else 0 ≤ term a p q n := by
  induction n with
  | zero => simpa using ha
  | succ n ih =>
      have hd : 0 ≤ q * ((n : ℤ) + 1) := by positivity
      rw [isNegative_succ, term_succ]
      by_cases hp : p < 0
      · cases hn : isNegative p n <;> simp only [hn, hp] at ih ⊢
        · have hneg := mul_nonpos_of_nonneg_of_nonpos ih hp.le
          have := Int.tdiv_nonneg (neg_nonneg.2 hneg) hd
          rwa [Int.neg_tdiv, neg_nonneg] at this
        · exact Int.tdiv_nonneg (mul_nonneg_of_nonpos_of_nonpos ih hp.le) hd
      · have hn : isNegative p n = false := by simp [isNegative, hp]
        simp only [hn, hp] at ih ⊢
        exact Int.tdiv_nonneg (mul_nonneg ih (not_lt.1 hp)) hd

/-- The sum of the terms below an index that are not negative. -/
def positive (a p q : ℤ) (n : ℕ) : ℕ := ∑ k ∈ range n, (term a p q k).toNat

/-- The sum of the sizes of the negative terms below an index. -/
def negative (a p q : ℤ) (n : ℕ) : ℕ := ∑ k ∈ range n, (-term a p q k).toNat

/-- Every term adds its size to the side of its sign. -/
theorem positive_succ (ha : 0 ≤ a) (hq : 0 < q) (n : ℕ) :
    positive a p q (n + 1) =
      positive a p q n + if isNegative p n then 0 else (term a p q n).natAbs := by
  have hsign := term_sign (p := p) ha hq n
  rw [positive, sum_range_succ, ← positive]
  split at hsign
  · next h =>
    rw [if_pos h]
    omega
  · next h =>
    rw [if_neg h]
    omega

theorem negative_succ (ha : 0 ≤ a) (hq : 0 < q) (n : ℕ) :
    negative a p q (n + 1) =
      negative a p q n + if isNegative p n then (term a p q n).natAbs else 0 := by
  have hsign := term_sign (p := p) ha hq n
  rw [negative, sum_range_succ, ← negative]
  split at hsign
  · next h =>
    rw [if_pos h]
    omega
  · next h =>
    rw [if_neg h]
    omega

theorem positive_sub_negative (n : ℕ) :
    (positive a p q n : ℤ) - negative a p q n = ∑ k ∈ range n, term a p q k := by
  rw [positive, negative, Nat.cast_sum, Nat.cast_sum, ← sum_sub_distrib]
  apply sum_congr rfl
  intro k _
  omega

/-! ### Size -/

/-- The quotient of a power and a factorial is greatest where the two grow alike. -/
theorem pow_mul_factorial_le (r n : ℕ) : r ^ n * r.factorial ≤ r ^ r * n.factorial := by
  rcases Nat.le_total n r with h | h
  · have hfact : n.factorial * r.descFactorial (r - n) = r.factorial := by
      have := Nat.factorial_mul_descFactorial (Nat.sub_le r n)
      rwa [Nat.sub_sub_self h] at this
    calc r ^ n * r.factorial = r ^ n * (n.factorial * r.descFactorial (r - n)) := by rw [hfact]
      _ ≤ r ^ n * (n.factorial * r ^ (r - n)) := by
        gcongr
        exact Nat.descFactorial_le_pow r (r - n)
      _ = r ^ (n + (r - n)) * n.factorial := by ring
      _ = r ^ r * n.factorial := by rw [Nat.add_sub_cancel' h]
  · calc r ^ n * r.factorial = r ^ (r + (n - r)) * r.factorial := by rw [Nat.add_sub_cancel' h]
      _ = r ^ r * (r.factorial * r ^ (n - r)) := by ring
      _ ≤ r ^ r * n.factorial := by
        gcongr
        exact Nat.factorial_mul_pow_sub_le_factorial h

variable {r : ℕ}

/-- With a ratio of `r` a term is at most what the exact series has after the one before. -/
theorem natAbs_term_succ_mul_le (hr : p.natAbs ≤ r * q.natAbs) (n : ℕ) :
    (term a p q (n + 1)).natAbs * (n + 1) ≤ (term a p q n).natAbs * r := by
  rw [natAbs_term_succ]
  rcases Nat.eq_zero_or_pos q.natAbs with hq | hq
  · rw [hq, zero_mul, Nat.div_zero, zero_mul]
    exact Nat.zero_le _
  · apply Nat.le_of_mul_le_mul_right _ hq
    calc (term a p q n).natAbs * p.natAbs / (q.natAbs * (n + 1)) * (n + 1) * q.natAbs
        = (term a p q n).natAbs * p.natAbs / (q.natAbs * (n + 1)) * (q.natAbs * (n + 1)) := by
          ring
      _ ≤ (term a p q n).natAbs * p.natAbs := Nat.div_mul_le_self _ _
      _ ≤ (term a p q n).natAbs * (r * q.natAbs) := Nat.mul_le_mul_left _ hr
      _ = (term a p q n).natAbs * r * q.natAbs := by ring

theorem natAbs_term_mul_factorial_le_of_le (hr : p.natAbs ≤ r * q.natAbs) {m n : ℕ}
    (hmn : m ≤ n) :
    (term a p q n).natAbs * n.factorial ≤ (term a p q m).natAbs * m.factorial * r ^ (n - m) := by
  induction n, hmn using Nat.le_induction with
  | base => simp
  | succ n hmn ih =>
      calc (term a p q (n + 1)).natAbs * (n + 1).factorial
          = (term a p q (n + 1)).natAbs * (n + 1) * n.factorial := by
            rw [Nat.factorial_succ]
            ring
        _ ≤ (term a p q n).natAbs * r * n.factorial :=
          Nat.mul_le_mul_right _ (natAbs_term_succ_mul_le hr n)
        _ = (term a p q n).natAbs * n.factorial * r := by ring
        _ ≤ (term a p q m).natAbs * m.factorial * r ^ (n - m) * r := Nat.mul_le_mul_right _ ih
        _ = (term a p q m).natAbs * m.factorial * r ^ (n + 1 - m) := by
          rw [Nat.sub_add_comm hmn, pow_succ]
          ring

/-- A term is at most what the exact series with a ratio of `r` has in its place. -/
theorem natAbs_term_mul_factorial_le (hr : p.natAbs ≤ r * q.natAbs) (n : ℕ) :
    (term a p q n).natAbs * n.factorial ≤ a.natAbs * r ^ n := by
  simpa using natAbs_term_mul_factorial_le_of_le (a := a) hr (Nat.zero_le n)

/-- No term exceeds the greatest one of the exact series. -/
theorem natAbs_term_mul_le (hr : p.natAbs ≤ r * q.natAbs) (n : ℕ) :
    (term a p q n).natAbs * r.factorial ≤ a.natAbs * r ^ r := by
  apply Nat.le_of_mul_le_mul_right _ n.factorial_pos
  calc (term a p q n).natAbs * r.factorial * n.factorial
      = (term a p q n).natAbs * n.factorial * r.factorial := by ring
    _ ≤ a.natAbs * r ^ n * r.factorial :=
      Nat.mul_le_mul_right _ (natAbs_term_mul_factorial_le hr n)
    _ = a.natAbs * (r ^ n * r.factorial) := by ring
    _ ≤ a.natAbs * (r ^ r * n.factorial) := Nat.mul_le_mul_left _ (pow_mul_factorial_le r n)
    _ = a.natAbs * r ^ r * n.factorial := by ring

/-- The series has ended where the factorial has outgrown the power. -/
theorem term_eq_zero_of_lt_factorial (hr : p.natAbs ≤ r * q.natAbs) {n : ℕ}
    (hn : a.natAbs * r ^ n < n.factorial) : term a p q n = 0 := by
  have hlt := (natAbs_term_mul_factorial_le (a := a) hr n).trans_lt hn
  rw [← Int.natAbs_eq_zero]
  apply Nat.eq_zero_of_not_pos
  intro hpos
  exact absurd hlt (not_lt.2 (Nat.le_mul_of_pos_left _ hpos))

end Retarget.Taylor
