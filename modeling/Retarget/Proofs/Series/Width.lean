import Retarget.Proofs.Series.Convergence

/-!
# Where the summation is exact

A summation gives up at the first product or one-sided sum that is wider than 512 bits. Until then
it computes the terms of the integer series, whatever the sign of the exponent. It therefore has an
answer exactly if the series ends within the allowed number of terms and everything before its end
fits, and the answer is the sum of the series, or zero in place of a negative one.
-/

namespace Retarget

namespace Taylor

/-- The product that leads to the next term and the two sums up to this one fit 512 bits. -/
structure FitsAt (a p q : ℤ) (n : ℕ) : Prop where
  product : (term a p q n).natAbs * p.natAbs < 2 ^ 512
  positive : positive a p q (n + 1) < 2 ^ 512
  negative : negative a p q (n + 1) < 2 ^ 512

end Taylor

namespace Series

variable {a : ℤ} {n k : ℕ} {s : Series} {p q : Int64} {next : WideTarget}

/-- A partial sum that has a next term has computed only what fits. -/
theorem Represents.fitsAt (h : Represents a p.toInt q.toInt n s)
    (hnext : s.next p q (n + 1) = some next) : Taylor.FitsAt a p.toInt q.toInt n := by
  obtain ⟨product, hproduct, -⟩ := Option.map_eq_some_iff.1 hnext
  have htoNat := Unsigned.checkedMul_eq_some.1 hproduct
  rw [h.term_eq, WideTarget.toNat_ofAbs] at htoNat
  refine ⟨?_, ?_, ?_⟩
  · rw [← htoNat]
    exact Unsigned.toNat_lt product
  · rw [← h.positive_eq]
    exact Unsigned.toNat_lt s.positive
  · rw [← h.negative_eq]
    exact Unsigned.toNat_lt s.negative

/-- In a summation that does not overflow everything fits, as far as it goes without a zero term.
By induction on the terms that it may still take. -/
theorem fitsAt_of_sum (ha : 0 ≤ a) (hq : 0 < q.toInt) {allowed : ℕ} (hn : n + allowed < 2 ^ 64)
    (h : Represents a p.toInt q.toInt n s) (hsum : sum p q allowed (n + 1) s ≠ .overflowed)
    (hnk : n ≤ k) (hk : k < n + allowed)
    (before : ∀ j, n < j → j ≤ k → Taylor.term a p.toInt q.toInt j ≠ 0) :
    Taylor.FitsAt a p.toInt q.toInt k := by
  induction allowed generalizing n s with
  | zero => omega
  | succ allowed ih =>
      rw [sum] at hsum
      cases hnext : s.next p q (n + 1) with
      | none =>
          rw [hnext] at hsum
          exact absurd rfl hsum
      | some next =>
          rcases hnk.eq_or_lt with rfl | hlt
          · exact h.fitsAt hnext
          · have hterm := h.next_eq_some (by omega) hnext
            have hne : next ≠ 0 := by
              rw [Ne, ← Unsigned.toNat_eq_zero, hterm, Int.natAbs_eq_zero]
              exact before (n + 1) (Nat.lt_succ_self n) hlt
            rw [hnext, Option.elim_some, if_neg hne, h.next_isNegative] at hsum
            cases ht : s.add next (Taylor.isNegative p.toInt (n + 1)) with
            | none =>
                rw [ht] at hsum
                exact absurd rfl hsum
            | some t =>
                rw [ht] at hsum
                exact ih (by omega) (h.add ha hq hterm ht) hsum hlt (by omega)
                  fun j hj => before j (Nat.lt_of_succ_lt hj)

end Series

variable {a : Target} {p q : Int64} {index : ℕ} {v : WideTarget}

namespace Series

/-- A summation converges at a zero term, and its total is that of the series. -/
theorem term_eq_zero_of_converged (hq : 0 < q.toInt) (h : evaluate a p q = .converged index v) :
    index ≤ maxTerms ∧ Taylor.term a.toNat p.toInt q.toInt index = 0 ∧
      v.toNat = (Taylor.sum a.toNat p.toInt q.toInt).toNat := by
  have hdescribes := evaluate_describes (a := a) (p := p) hq
  rw [h] at hdescribes
  cases hdescribes with
  | converged _ hle hzero _ htotal => exact ⟨by omega, hzero, htotal⟩

/-- A summation overflows at a term that is not zero and does not fit. -/
theorem exists_not_fitsAt (hq : 0 < q.toInt) (h : evaluate a p q = .overflowed) :
    ∃ n ≤ maxTerms, Taylor.term a.toNat p.toInt q.toInt n ≠ 0 ∧
      ¬Taylor.FitsAt a.toNat p.toInt q.toInt n := by
  have hdescribes := evaluate_describes (a := a) (p := p) hq
  rw [h] at hdescribes
  cases hdescribes with
  | @product n _ hlt _ hwide =>
      refine ⟨n, by omega, ?_, fun fits => absurd fits.product (not_lt.2 hwide)⟩
      intro hzero
      rw [hzero, Int.natAbs_zero, zero_mul] at hwide
      exact absurd hwide (by norm_num)
  | @side n hlt hle before hwide =>
      refine ⟨n, by omega, before n hlt le_rfl, fun fits => ?_⟩
      rcases hwide with hwide | hwide
      · exact absurd fits.positive (not_lt.2 hwide)
      · exact absurd fits.negative (not_lt.2 hwide)

/-- A summation that is not over by then has met no zero term. -/
theorem term_ne_zero_of_exhausted (hq : 0 < q.toInt) (h : evaluate a p q = .exhausted) :
    Taylor.term a.toNat p.toInt q.toInt maxTerms ≠ 0 := by
  have hdescribes := evaluate_describes (a := a) (p := p) hq
  rw [h] at hdescribes
  cases hdescribes with
  | exhausted before => exact before maxTerms (by decide) (by omega)

theorem fitsAt_of_evaluate (hq : 0 < q.toInt) (h : evaluate a p q ≠ .overflowed) {n : ℕ}
    (hn : n < maxTerms) (hterm : Taylor.term a.toNat p.toInt q.toInt n ≠ 0) :
    Taylor.FitsAt a.toNat p.toInt q.toInt n :=
  fitsAt_of_sum (Int.natCast_nonneg _) hq (by decide) (represents_start a _ _) h (Nat.zero_le n)
    (by omega) fun j _ hj hzero => hterm (Taylor.term_eq_zero_of_le hzero hj)

end Series

theorem mulExp_eq_ok_iff :
    mulExp a p q = .ok v ↔ 0 < q.toInt ∧ ∃ index, Series.evaluate a p q = .converged index v := by
  rw [mulExp]
  split
  · next hq =>
    rw [Int64.le_iff_toInt_le, Int64.toInt_zero] at hq
    exact iff_of_false (fun h => by cases h) fun h => absurd h.1 (not_lt.2 hq)
  · next hq =>
    rw [Int64.le_iff_toInt_le, Int64.toInt_zero, not_le] at hq
    cases Series.evaluate a p q <;> simp [hq]

/-- An exponential is the sum of the series, or zero in place of a negative one. -/
theorem toNat_mulExp (h : mulExp a p q = .ok v) :
    0 < q.toInt ∧ v.toNat = (Taylor.sum a.toNat p.toInt q.toInt).toNat := by
  obtain ⟨hq, index, heval⟩ := mulExp_eq_ok_iff.1 h
  exact ⟨hq, (Series.term_eq_zero_of_converged hq heval).2.2⟩

/-- The exponential of `p / q` is computed exactly if the denominator is positive, the series ends
within the allowed number of terms and everything up to its end fits 512 bits: each product of a
term and the numerator, the sum of the terms that are not negative, and that of the sizes of the
others. It is then the sum of the series, or zero in place of a negative one. The series ends with
its first zero term, since all later ones are zero as well. -/
theorem mulExp_exact (a : Target) (p q : Int64) :
    (∀ v, mulExp a p q = .ok v →
      0 < q ∧ (v.toNat : ℤ) = max 0 (Taylor.sum a.toNat p.toInt q.toInt)) ∧
    ((∃ v, mulExp a p q = .ok v) ↔
      0 < q ∧ Taylor.length a.toNat p.toInt q.toInt ≤ Series.maxTerms ∧
        ∀ n < Taylor.length a.toNat p.toInt q.toInt,
          Taylor.FitsAt a.toNat p.toInt q.toInt n) ∧
    ∀ n, Taylor.term a.toNat p.toInt q.toInt n = 0 ↔
      Taylor.length a.toNat p.toInt q.toInt ≤ n := by
  have hpositive : 0 < q ↔ 0 < q.toInt := by rw [Int64.lt_iff_toInt_lt, Int64.toInt_zero]
  rw [hpositive]
  refine ⟨?_, ⟨?_, ?_⟩, fun n => Taylor.term_eq_zero_iff⟩
  · intro v hv
    obtain ⟨hq, htotal⟩ := toNat_mulExp hv
    refine ⟨hq, ?_⟩
    omega
  · rintro ⟨v, hv⟩
    obtain ⟨hq, index, heval⟩ := mulExp_eq_ok_iff.1 hv
    obtain ⟨hle, hzero, -⟩ := Series.term_eq_zero_of_converged hq heval
    have hlength := Taylor.term_eq_zero_iff.1 hzero
    refine ⟨hq, hlength.trans hle, fun n hn => ?_⟩
    apply Series.fitsAt_of_evaluate hq (by rw [heval]; exact Series.Outcome.noConfusion)
    · exact hn.trans_le (hlength.trans hle)
    · rw [Ne, Taylor.term_eq_zero_iff]
      exact not_le.2 hn
  · rintro ⟨hq, hlength, hfits⟩
    cases heval : Series.evaluate a p q with
    | converged index v => exact ⟨v, mulExp_eq_ok_iff.2 ⟨hq, index, heval⟩⟩
    | overflowed =>
        obtain ⟨n, -, hterm, hwide⟩ := Series.exists_not_fitsAt hq heval
        rw [Ne, Taylor.term_eq_zero_iff, not_le] at hterm
        exact absurd (hfits n hterm) hwide
    | exhausted =>
        have hterm := Series.term_ne_zero_of_exhausted hq heval
        exact absurd (Taylor.term_eq_zero_iff.2 hlength) hterm

/-- The least numerator of 64 bits over the greatest denominator. -/
theorem mulExp_exact_least :
    let a : Target := 1000000
    let p := Int64.minValue
    let q := Int64.maxValue
    mulExp a p q = .ok 367879 ∧ 0 < q ∧
      ((367879 : WideTarget).toNat : ℤ) = max 0 (Taylor.sum a.toNat p.toInt q.toInt) ∧
      Taylor.length a.toNat p.toInt q.toInt ≤ Series.maxTerms ∧
      ∀ n < Taylor.length a.toNat p.toInt q.toInt, Taylor.FitsAt a.toNat p.toInt q.toInt n := by
  intro a p q
  have hok : mulExp a p q = .ok 367879 := by decide +kernel
  obtain ⟨hsum, hfits, -⟩ := mulExp_exact a p q
  obtain ⟨hq, htotal⟩ := hsum _ hok
  exact ⟨hok, hq, htotal, (hfits.1 ⟨_, hok⟩).2⟩

end Retarget
