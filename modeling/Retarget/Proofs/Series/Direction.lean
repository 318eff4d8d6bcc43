import Retarget.Proofs.Series.Monotone
import Retarget.Proofs.Series.Width

/-!
# The truncated series moves its target the right way

A positive exponent adds to a target at least what the first term adds. For a negative one the
series alternates, and as long as the numerator does not exceed the denominator no term is greater
than the one before, truncated or not. Everything after the target then takes away something between
nothing and the first term. By the same argument a greater target keeps its lead: what it is ahead
of the other does not grow from one term to the next.
-/

namespace Retarget

namespace Taylor

open Finset

variable {a b p q k : ℤ}

/-! ### Terms that do not grow -/

theorem le_divisor (hq : 0 < q) (hkq : k ≤ q) (n : ℕ) : k ≤ q * ((n : ℤ) + 1) :=
  hkq.trans (le_mul_of_one_le_right hq.le (by omega))

theorem term_succ_le (ha : 0 ≤ a) (hk : 0 ≤ k) (hkq : k ≤ q) (hq : 0 < q) (n : ℕ) :
    term a k q (n + 1) ≤ term a k q n := by
  apply le_of_mul_le_mul_right _ (divisor_pos hq n)
  calc term a k q (n + 1) * (q * (n + 1)) ≤ term a k q n * k := (term_succ_bounds ha hk hq n).1
    _ ≤ term a k q n * (q * (n + 1)) :=
      mul_le_mul_of_nonneg_left (le_divisor hq hkq n) (term_nonneg ha hk hq n)

/-- What a term of the target `b` is ahead of that of the target `a`. -/
def lead (a b k q : ℤ) (n : ℕ) : ℤ := term b k q n - term a k q n

theorem lead_nonneg (ha : 0 ≤ a) (hab : a ≤ b) (hk : 0 ≤ k) (hq : 0 < q) (n : ℕ) :
    0 ≤ lead a b k q n :=
  sub_nonneg.2 (term_le_term ha hab hk le_rfl hq n)

/-- A truncation on either side can make a lead greater by less than one. -/
theorem lead_succ_le (ha : 0 ≤ a) (hab : a ≤ b) (hk : 0 ≤ k) (hkq : k ≤ q) (hq : 0 < q) (n : ℕ) :
    lead a b k q (n + 1) ≤ lead a b k q n := by
  have hlow := (term_succ_bounds (ha.trans hab) hk hq n).1
  have hhigh := (term_succ_bounds ha hk hq n).2
  have hlt : (lead a b k q (n + 1) - 1) * (q * (n + 1)) < lead a b k q n * (q * (n + 1)) := by
    calc (lead a b k q (n + 1) - 1) * (q * (n + 1))
        = term b k q (n + 1) * (q * (n + 1)) - (term a k q (n + 1) + 1) * (q * (n + 1)) := by
          rw [lead]
          ring
      _ < term b k q n * k - term a k q n * k := by omega
      _ = lead a b k q n * k := by rw [lead, sub_mul]
      _ ≤ lead a b k q n * (q * (n + 1)) :=
        mul_le_mul_of_nonneg_left (le_divisor hq hkq n) (lead_nonneg ha hab hk hq n)
  have := lt_of_mul_lt_mul_right hlt (divisor_pos hq n).le
  omega

theorem term_one (ha : 0 ≤ a) (hk : 0 ≤ k) : term a k q 1 = a * k / q := by
  rw [term_succ, term_zero, Nat.cast_zero, zero_add, mul_one,
    Int.tdiv_eq_ediv_of_nonneg (mul_nonneg ha hk)]

/-! ### Sums -/

@[simp] theorem sum_zero (a q : ℤ) : sum a 0 q = a := by
  have hend : term a 0 q 1 = 0 := by rw [term_succ, mul_zero, Int.zero_tdiv]
  rw [← sum_range_eq_sum hend, sum_range_one, term_zero]

/-- A positive exponent adds at least the first term. -/
theorem add_term_one_le_sum (ha : 0 ≤ a) (hp : 0 ≤ p) (hq : 0 < q) :
    a + term a p q 1 ≤ sum a p q := by
  obtain ⟨n, hn⟩ := exists_term_eq_zero a p q
  have hend : term a p q (n + 2) = 0 := term_eq_zero_of_le hn (by omega)
  have hrest : 0 ≤ ∑ j ∈ range n, term a p q (j + 1 + 1) :=
    sum_nonneg fun j _ => term_nonneg ha hp hq _
  rw [← sum_range_eq_sum hend, sum_range_succ', sum_range_succ', term_zero, zero_add]
  omega

/-- A negative exponent takes away at most the first term. -/
theorem sum_neg_mem (ha : 0 ≤ a) (hk : 0 ≤ k) (hkq : k ≤ q) (hq : 0 < q) :
    a - term a k q 1 ≤ sum a (-k) q ∧ sum a (-k) q ≤ a := by
  obtain ⟨n, hsum, -⟩ := exists_sums_eq a a (-k) (-k) q
  have htail : sum a (-k) q = a - ∑ j ∈ range n, (-1) ^ j * term a k q (j + 1) := by
    rw [hsum, sum_range_succ', term_zero, sub_eq_neg_add, ← sum_neg_distrib]
    congr 1
    apply sum_congr rfl
    intro j _
    rw [term_neg, pow_succ]
    ring
  have hmem : 0 ≤ ∑ j ∈ range n, (-1) ^ j * term a k q (j + 1) ∧
      ∑ j ∈ range n, (-1) ^ j * term a k q (j + 1) ≤ term a k q 1 :=
    alternating_sum_mem (fun j => term_nonneg ha hk hq (j + 1))
      (fun j => term_succ_le ha hk hkq hq (j + 1)) n
  rw [htail]
  constructor <;> omega

theorem sum_le_sum_of_le (ha : 0 ≤ a) (hab : a ≤ b) (hp : -q ≤ p) (hq : 0 < q) :
    sum a p q ≤ sum b p q := by
  rcases le_or_gt 0 p with hnonneg | hneg
  · exact sum_le_sum_of_nonneg ha hab hnonneg le_rfl hq
  · obtain ⟨k, rfl⟩ : ∃ k, p = -k := ⟨-p, (neg_neg p).symm⟩
    have hk : 0 ≤ k := by omega
    have hkq : k ≤ q := by omega
    obtain ⟨n, hsum, hsum'⟩ := exists_sums_eq a b (-k) (-k) q
    have hdiff : sum b (-k) q - sum a (-k) q =
        ∑ j ∈ range (n + 1), (-1) ^ j * lead a b k q j := by
      rw [hsum, hsum', ← sum_sub_distrib]
      apply sum_congr rfl
      intro j _
      rw [term_neg, term_neg, lead, mul_sub]
    have hmem := alternating_sum_mem (fun j => lead_nonneg ha hab hk hq j)
      (fun j => lead_succ_le ha hab hk hkq hq j) (n + 1)
    omega

/-- Beyond that bound it need not: by -6 fifths the greater of two targets falls below the other. -/
example : sum 5 (-6) 5 < sum 4 (-6) 5 := by
  have hend : term 5 (-6) 5 4 = 0 ∧ term 4 (-6) 5 4 = 0 := by decide
  rw [← sum_range_eq_sum hend.1, ← sum_range_eq_sum hend.2]
  decide

end Taylor

/-- The way that the exponential `t` of `p / q` has moved the target `a`. -/
structure Moves (a : Target) (p q : Int64) (t : WideTarget) : Prop where
  /-- A negative exponent takes away at most what its first term does, rounded down. -/
  down : p < 0 → (a.toNat : ℤ) - a.toNat * |p.toInt| / q.toInt ≤ t.toNat ∧ t ≤ a.widen
  rest : p = 0 → t = a.widen
  /-- A positive exponent adds at least what its first term does, rounded down. -/
  up : 0 < p → (a.toNat : ℤ) + a.toNat * p.toInt / q.toInt ≤ t.toNat

variable {a b : Target} {p q : Int64} {t u : WideTarget}

theorem moves_of_mulExp (hp : -q.toInt ≤ p.toInt) (h : mulExp a p q = .ok t) :
    Moves a p q t := by
  obtain ⟨hq, htotal⟩ := toNat_mulExp h
  have ha : (0 : ℤ) ≤ a.toNat := Int.natCast_nonneg _
  constructor
  · intro hneg
    rw [Int64.lt_iff_toInt_lt, Int64.toInt_zero] at hneg
    have hk : 0 ≤ -p.toInt := by omega
    have hmem := Taylor.sum_neg_mem ha hk (by omega) hq
    rw [neg_neg, Taylor.term_one ha hk] at hmem
    rw [abs_of_neg hneg, BitVec.le_def, Target.toNat_widen, htotal]
    omega
  · rintro rfl
    rw [← BitVec.toNat_inj, Target.toNat_widen, htotal, Int64.toInt_zero, Taylor.sum_zero,
      Int.toNat_natCast]
  · intro hpos
    rw [Int64.lt_iff_toInt_lt, Int64.toInt_zero] at hpos
    have hle := Taylor.add_term_one_le_sum ha hpos.le hq
    rw [Taylor.term_one ha hpos.le] at hle
    omega

theorem Moves.le (h : Moves a p q t) (hp : p ≤ 0) : t ≤ a.widen := by
  rcases Int64.lt_or_eq_of_le hp with hneg | hzero
  · exact (h.down hneg).2
  · rw [h.rest hzero]
    exact BitVec.le_refl _

theorem Moves.ge (h : Moves a p q t) (hq : 0 < q.toInt) (hp : 0 ≤ p) : a.widen ≤ t := by
  rcases Int64.lt_or_eq_of_le hp with hpos | hzero
  · have hle := h.up hpos
    rw [Int64.lt_iff_toInt_lt, Int64.toInt_zero] at hpos
    have hfirst : 0 ≤ a.toNat * p.toInt / q.toInt :=
      Int.ediv_nonneg (mul_nonneg (Int.natCast_nonneg _) hpos.le) hq.le
    rw [BitVec.le_def, Target.toNat_widen]
    omega
  · rw [h.rest hzero.symm]
    exact BitVec.le_refl _

theorem mulExp_le_mulExp (hp : -q.toInt ≤ p.toInt) (hab : a ≤ b) (ht : mulExp a p q = .ok t)
    (hu : mulExp b p q = .ok u) : t ≤ u := by
  obtain ⟨hq, htsum⟩ := toNat_mulExp ht
  rw [BitVec.le_def, htsum, (toNat_mulExp hu).2]
  apply Int.toNat_le_toNat
  exact Taylor.sum_le_sum_of_le (Int.natCast_nonneg _) (Int.ofNat_le.2 (BitVec.le_def.1 hab)) hp hq

end Retarget
