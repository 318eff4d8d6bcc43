import Retarget.Adjustment.Series
import Retarget.Proofs.Series.Taylor

/-!
# The summation in 512 bits

A summation keeps sizes and a sign apart and stops at the first value that does not fit.
`Represents` says which terms of the integer series a partial sum has taken in; one step of
the summation takes in the next. `sum_describes` then tells the whole outcome in terms of
the integer series: where it converged, what did not fit, or that no term was zero.
-/

namespace Retarget

theorem WideTarget.toNat_ofAbs (n : Int64) : (WideTarget.ofAbs n).toNat = n.toInt.natAbs := by
  have hlo := n.le_toInt
  have hhi := n.toInt_lt
  rw [ofAbs, BitVec.toNat_ofNat]
  exact Nat.mod_eq_of_lt (by omega)

namespace Unsigned

variable {w : ℕ} {a b : Unsigned w}

theorem toNat_lt (a : Unsigned w) : a.toNat < 2 ^ w := a.isLt

theorem checkedAdd_eq_none (h : a.checkedAdd b = none) : 2 ^ w ≤ a.toNat + b.toNat := by
  by_contra hlt
  have hsome : a.checkedAdd b = some (BitVec.ofNat w (a.toNat + b.toNat)) :=
    checkedAdd_eq_some.2 (by rw [BitVec.toNat_ofNat, Nat.mod_eq_of_lt (not_le.1 hlt)])
  rw [h] at hsome
  cases hsome

theorem checkedMul_eq_none (h : a.checkedMul b = none) : 2 ^ w ≤ a.toNat * b.toNat := by
  by_contra hlt
  have hsome : a.checkedMul b = some (BitVec.ofNat w (a.toNat * b.toNat)) :=
    checkedMul_eq_some.2 (by rw [BitVec.toNat_ofNat, Nat.mod_eq_of_lt (not_le.1 hlt)])
  rw [h] at hsome
  cases hsome

theorem checkedMul_eq_mul (h : a.toNat * b.toNat < 2 ^ w) : a.checkedMul b = some (a * b) := by
  rw [checkedMul_eq_some, BitVec.toNat_mul, Nat.mod_eq_of_lt h]

theorem toNat_eq_zero : a.toNat = 0 ↔ a = 0 := by
  rw [BitVec.toNat_eq]
  simp

theorem toNat_checkedSub_getD (a b : Unsigned w) :
    ((a.checkedSub b).getD 0).toNat = a.toNat - b.toNat := by
  cases h : a.checkedSub b with
  | some d =>
      have := checkedSub_eq_some.1 h
      simp only [Option.getD_some]
      omega
  | none =>
      simp only [checkedSub, BitVec.usubOverflow, decide_eq_true_eq] at h
      split at h
      · simp only [Option.getD_none, BitVec.ofNat_eq_ofNat, BitVec.toNat_zero]
        omega
      · cases h

end Unsigned

namespace Series

/-- A partial sum has taken in the terms up to an index. -/
structure Represents (a p q : ℤ) (n : ℕ) (s : Series) : Prop where
  positive_eq : s.positive.toNat = Taylor.positive a p q (n + 1)
  negative_eq : s.negative.toNat = Taylor.negative a p q (n + 1)
  term_eq : s.term.toNat = (Taylor.term a p q n).natAbs
  sign_eq : s.termIsNegative = Taylor.isNegative p n

variable {a p q : ℤ} {n : ℕ} {s t : Series} {next : WideTarget}

theorem represents_start (a : Target) (p q : ℤ) : Represents a.toNat p q 0 (start a) := by
  refine ⟨?_, ?_, Target.toNat_widen a, (Taylor.isNegative_zero p).symm⟩
  · simp [start, Taylor.positive]
  · have hneg : Taylor.negative a.toNat p q 1 = 0 := by simp [Taylor.negative]
    rw [hneg]
    exact BitVec.toNat_zero

/-- The total of a partial sum is that of the integer series, or zero below it. -/
theorem Represents.toNat_total (h : Represents a p q n s) :
    s.total.toNat = (∑ k ∈ Finset.range (n + 1), Taylor.term a p q k).toNat := by
  have hsum := Taylor.positive_sub_negative (a := a) (p := p) (q := q) (n + 1)
  rw [total, Unsigned.toNat_checkedSub_getD, h.positive_eq, h.negative_eq]
  omega

theorem Represents.add (h : Represents a p q n s) (ha : 0 ≤ a) (hq : 0 < q)
    (hnext : next.toNat = (Taylor.term a p q (n + 1)).natAbs)
    (ht : s.add next (Taylor.isNegative p (n + 1)) = some t) : Represents a p q (n + 1) t := by
  have hpos := Taylor.positive_succ (p := p) ha hq (n + 1)
  have hneg := Taylor.negative_succ (p := p) ha hq (n + 1)
  rw [← hnext, ← h.positive_eq] at hpos
  rw [← hnext, ← h.negative_eq] at hneg
  rw [Series.add] at ht
  cases hs : Taylor.isNegative p (n + 1) with
  | true =>
      rw [hs, if_pos rfl] at ht hpos hneg
      obtain ⟨side, hside, rfl⟩ := Option.map_eq_some_iff.1 ht
      exact ⟨hpos.symm, (Unsigned.checkedAdd_eq_some.1 hside).trans hneg.symm, hnext, hs.symm⟩
  | false =>
      rw [hs, if_neg (by decide)] at ht hpos hneg
      obtain ⟨side, hside, rfl⟩ := Option.map_eq_some_iff.1 ht
      exact ⟨(Unsigned.checkedAdd_eq_some.1 hside).trans hpos.symm, hneg.symm, hnext, hs.symm⟩

/-- A term is refused only where the side of its sign outgrows the width. -/
theorem Represents.add_eq_none (h : Represents a p q n s) (ha : 0 ≤ a) (hq : 0 < q)
    (hnext : next.toNat = (Taylor.term a p q (n + 1)).natAbs)
    (ht : s.add next (Taylor.isNegative p (n + 1)) = none) :
    2 ^ 512 ≤ Taylor.positive a p q (n + 2) ∨ 2 ^ 512 ≤ Taylor.negative a p q (n + 2) := by
  have hpos := Taylor.positive_succ (p := p) ha hq (n + 1)
  have hneg := Taylor.negative_succ (p := p) ha hq (n + 1)
  rw [← hnext, ← h.positive_eq] at hpos
  rw [← hnext, ← h.negative_eq] at hneg
  rw [Series.add] at ht
  cases hs : Taylor.isNegative p (n + 1) with
  | true =>
      rw [hs, if_pos rfl] at ht hneg
      exact .inr ((Unsigned.checkedAdd_eq_none (Option.map_eq_none_iff.1 ht)).trans hneg.ge)
  | false =>
      rw [hs, if_neg (by decide)] at ht hpos
      exact .inl ((Unsigned.checkedAdd_eq_none (Option.map_eq_none_iff.1 ht)).trans hpos.ge)

/-! ### Outcomes -/

/-- What an outcome says about the integer series, for a summation that has taken in the
terms up to `n` and may take so many more. -/
inductive Outcome.Describes (a p q : ℤ) (n allowed : ℕ) : Outcome → Prop
  | converged {index : ℕ} {total : WideTarget} (lt_index : n < index)
      (index_le : index ≤ n + allowed) (term_eq : Taylor.term a p q index = 0)
      (before : ∀ k, n < k → k < index → Taylor.term a p q k ≠ 0)
      (total_eq : total.toNat = (Taylor.sum a p q).toNat) :
      Describes a p q n allowed (.converged index total)
  | product {k : ℕ} (le_index : n ≤ k) (index_lt : k < n + allowed)
      (before : ∀ j, n < j → j ≤ k → Taylor.term a p q j ≠ 0)
      (wide : 2 ^ 512 ≤ (Taylor.term a p q k).natAbs * p.natAbs) :
      Describes a p q n allowed .overflowed
  | side {k : ℕ} (lt_index : n < k) (index_le : k ≤ n + allowed)
      (before : ∀ j, n < j → j ≤ k → Taylor.term a p q j ≠ 0)
      (wide : 2 ^ 512 ≤ Taylor.positive a p q (k + 1) ∨ 2 ^ 512 ≤ Taylor.negative a p q (k + 1)) :
      Describes a p q n allowed .overflowed
  | exhausted (before : ∀ k, n < k → k ≤ n + allowed → Taylor.term a p q k ≠ 0) :
      Describes a p q n allowed .exhausted

/-- What is said from the next index on holds from here on if the next term is not zero. -/
theorem Outcome.Describes.of_succ {allowed : ℕ} {outcome : Outcome}
    (h : outcome.Describes a p q (n + 1) allowed) (hne : Taylor.term a p q (n + 1) ≠ 0) :
    outcome.Describes a p q n (allowed + 1) := by
  have hfirst : ∀ {P : ℕ → Prop}, (∀ j, n + 1 < j → P j → Taylor.term a p q j ≠ 0) →
      ∀ j, n < j → P j → Taylor.term a p q j ≠ 0 := by
    intro P hP j hj hPj
    rcases Nat.eq_or_lt_of_le (Nat.succ_le_of_lt hj) with heq | hlt
    · rwa [← heq]
    · exact hP j hlt hPj
  cases h with
  | converged hlt hle hzero hbefore htotal =>
      exact .converged (by omega) (by omega) hzero (hfirst hbefore) htotal
  | product hle hlt hbefore hover =>
      exact .product (by omega) (by omega) (hfirst hbefore) hover
  | side hlt hle hbefore hover =>
      exact .side (by omega) (by omega) (hfirst hbefore) hover
  | exhausted hbefore =>
      refine .exhausted (hfirst fun k hk hle => hbefore k hk ?_)
      omega

theorem Represents.next_eq_some {p q : Int64} (h : Represents a p.toInt q.toInt n s)
    (hn : n < 2 ^ 64) (hnext : s.next p q (n + 1) = some next) :
    next.toNat = (Taylor.term a p.toInt q.toInt (n + 1)).natAbs := by
  have hq : q.toInt.natAbs ≤ 2 ^ 63 := by
    have hlo := q.le_toInt
    have hhi := q.toInt_lt
    omega
  have hindex : (BitVec.ofNat 512 (n + 1)).toNat = n + 1 := by
    rw [BitVec.toNat_ofNat]
    exact Nat.mod_eq_of_lt (by omega)
  have hdivisor : (WideTarget.ofAbs q * BitVec.ofNat 512 (n + 1)).toNat =
      q.toInt.natAbs * (n + 1) := by
    have := Nat.mul_le_mul hq (show n + 1 ≤ 2 ^ 64 from hn)
    rw [BitVec.toNat_mul, WideTarget.toNat_ofAbs, hindex]
    exact Nat.mod_eq_of_lt (by omega)
  obtain ⟨product, hproduct, rfl⟩ := Option.map_eq_some_iff.1 hnext
  rw [BitVec.toNat_udiv, hdivisor, Unsigned.checkedMul_eq_some.1 hproduct, h.term_eq,
    WideTarget.toNat_ofAbs, Taylor.natAbs_term_succ]

theorem Represents.next_isNegative {p q : Int64} (h : Represents a p.toInt q.toInt n s) :
    (s.termIsNegative ^^ decide (p < 0)) = Taylor.isNegative p.toInt (n + 1) := by
  have hp : decide (p < 0) = decide (p.toInt < 0) := decide_eq_decide.2 Int64.lt_iff_toInt_lt
  rw [h.sign_eq, Taylor.isNegative_succ, hp]

/-- There is no next term only where the product outgrows the width. -/
theorem Represents.next_eq_none {p q : Int64} (h : Represents a p.toInt q.toInt n s)
    (hnext : s.next p q (n + 1) = none) :
    2 ^ 512 ≤ (Taylor.term a p.toInt q.toInt n).natAbs * p.toInt.natAbs := by
  have hover := Unsigned.checkedMul_eq_none (Option.map_eq_none_iff.1 hnext)
  rwa [h.term_eq, WideTarget.toNat_ofAbs] at hover

/-- A summation is described by the integer series, by induction on the terms that it may
still take. -/
theorem sum_describes {p q : Int64} (ha : 0 ≤ a) (hq : 0 < q.toInt) {allowed : ℕ}
    (hn : n + allowed < 2 ^ 64) (h : Represents a p.toInt q.toInt n s) :
    (sum p q allowed (n + 1) s).Describes a p.toInt q.toInt n allowed := by
  induction allowed generalizing n s with
  | zero =>
      rw [sum]
      refine .exhausted fun k hk hle => ?_
      omega
  | succ allowed ih =>
      rw [sum]
      cases hnext : s.next p q (n + 1) with
      | none =>
          exact .product le_rfl (by omega) (fun j hj hle => by omega) (h.next_eq_none hnext)
      | some next =>
          have hterm := h.next_eq_some (by omega) hnext
          rw [Option.elim_some, h.next_isNegative]
          split
          · next hzero =>
            rw [← Unsigned.toNat_eq_zero, hterm, Int.natAbs_eq_zero] at hzero
            refine .converged (by omega) (by omega) hzero (fun k hk hlt => by omega) ?_
            rw [h.toNat_total, Taylor.sum_range_eq_sum hzero]
          · next hne =>
            rw [← Unsigned.toNat_eq_zero, hterm, Int.natAbs_eq_zero] at hne
            cases ht : s.add next (Taylor.isNegative p.toInt (n + 1)) with
            | none =>
                have hbefore : ∀ j, n < j → j ≤ n + 1 → Taylor.term a p.toInt q.toInt j ≠ 0 := by
                  intro j hj hle
                  rwa [Nat.le_antisymm hle hj]
                exact .side (by omega) (by omega) hbefore (h.add_eq_none ha hq hterm ht)
            | some t => exact (ih (by omega) (h.add ha hq hterm ht)).of_succ hne

end Series

end Retarget
