import Retarget.Proofs.Series.Width

/-!
# The number of terms never runs out

A summation may take 1024 terms and gives up after them. It never comes to that: what takes so many
terms does not fit 512 bits. The reason is the term of index 380. If the ratio of the exponent is at
least 380, the terms have grown for all that time, so that this one is too wide. If the ratio is at
most 380, the terms cannot have fallen to one in the 644 steps from there to the last, unless this
one is too wide again. Both estimates have some room: the ratio of the widest series that fits is
below 353.
-/

namespace Retarget

namespace Taylor

variable {a b p q : ℤ} {r : ℕ}

/-- With a ratio of at least `r` a term is no smaller than that of a smaller series with the ratio
`r`. -/
theorem natAbs_term_le_natAbs_term (hab : a.natAbs ≤ b.natAbs) (hq : q ≠ 0)
    (hr : r * q.natAbs ≤ p.natAbs) (n : ℕ) :
    (term a r 1 n).natAbs ≤ (term b p q n).natAbs := by
  induction n with
  | zero => exact hab
  | succ n ih =>
      have hqpos : 0 < q.natAbs := Int.natAbs_pos.2 hq
      rw [natAbs_term_succ, natAbs_term_succ, Int.natAbs_natCast, Int.natAbs_one, one_mul]
      calc (term a r 1 n).natAbs * r / (n + 1)
          = (term a r 1 n).natAbs * r * q.natAbs / ((n + 1) * q.natAbs) :=
            (Nat.mul_div_mul_right _ _ hqpos).symm
        _ = (term a r 1 n).natAbs * (r * q.natAbs) / (q.natAbs * (n + 1)) := by
            rw [mul_assoc, mul_comm (n + 1)]
        _ ≤ (term b p q n).natAbs * p.natAbs / (q.natAbs * (n + 1)) :=
            Nat.div_le_div_right (Nat.mul_le_mul ih hr)

/-- The index at which a series that takes too many terms is too wide. -/
def peak : ℕ := 380

theorem two_pow_le_term_peak : 2 ^ 512 ≤ (term 1 peak 1 peak).natAbs := by
  decide +kernel

theorem peak_pow_le_factorial :
    2 ^ 512 * peak.factorial * peak ^ (Series.maxTerms - peak) ≤ Series.maxTerms.factorial := by
  decide +kernel

/-- A series with so many terms is wide at its peak. -/
theorem two_pow_le_natAbs_term (hq : q ≠ 0) (h : term a p q Series.maxTerms ≠ 0) :
    2 ^ 512 ≤ (term a p q peak).natAbs := by
  have hpeak : peak ≤ Series.maxTerms := by decide
  rcases Nat.le_total p.natAbs (peak * q.natAbs) with hr | hr
  · -- The terms from the peak on fall at least as fast as those of the exact series.
    have hlast : Series.maxTerms.factorial ≤
        (term a p q Series.maxTerms).natAbs * Series.maxTerms.factorial :=
      Nat.le_mul_of_pos_left _ (Int.natAbs_pos.2 h)
    have hfall := natAbs_term_mul_factorial_le_of_le (a := a) hr hpeak
    by_contra hlt
    have hsmall : (term a p q peak).natAbs * peak.factorial * peak ^ (Series.maxTerms - peak) <
        2 ^ 512 * peak.factorial * peak ^ (Series.maxTerms - peak) := by
      apply Nat.mul_lt_mul_of_pos_right _ (Nat.pow_pos (by decide))
      exact Nat.mul_lt_mul_of_pos_right (not_le.1 hlt) (Nat.factorial_pos _)
    exact absurd (hlast.trans hfall) (not_le.2 (hsmall.trans_le peak_pow_le_factorial))
  · -- The terms up to the peak grow at least as fast as those of the whole ratio.
    have hfirst : (1 : ℤ).natAbs ≤ a.natAbs := by
      rw [Int.natAbs_one, Nat.succ_le_iff, Int.natAbs_pos]
      rintro rfl
      exact h (term_eq_zero_of_le term_zero (Nat.zero_le _))
    exact two_pow_le_term_peak.trans (natAbs_term_le_natAbs_term hfirst hq hr peak)

end Taylor

variable {a : Target} {p q : Int64}

namespace Series

/-- A summation ends with a zero term or at a width that is exceeded, and not for want of terms. -/
theorem evaluate_ne_exhausted (hq : 0 < q.toInt) : evaluate a p q ≠ .exhausted := by
  intro hexhausted
  have hlast := term_ne_zero_of_exhausted hq hexhausted
  have hpeak : Taylor.term a.toNat p.toInt q.toInt Taylor.peak ≠ 0 := fun hzero =>
    hlast (Taylor.term_eq_zero_of_le hzero (by decide))
  have hne : evaluate a p q ≠ .overflowed := by
    rw [hexhausted]
    exact Outcome.noConfusion
  have hfits := (fitsAt_of_evaluate hq hne (by decide) hpeak).product
  have hwide := Taylor.two_pow_le_natAbs_term hq.ne' hlast
  have hp : 0 < p.toInt.natAbs := by
    rw [Int.natAbs_pos]
    intro hzero
    apply hpeak
    rw [Taylor.peak, Taylor.term_succ, hzero, mul_zero, Int.zero_tdiv]
  exact absurd (hwide.trans (Nat.le_mul_of_pos_right _ hp)) (not_le.2 hfits)

/-- More terms change nothing for a summation that has ended. By induction on the terms that it may
take. -/
theorem sum_eq_of_le {s : Series} {n allowed more : ℕ} (hle : allowed ≤ more)
    (hne : sum p q allowed n s ≠ .exhausted) : sum p q more n s = sum p q allowed n s := by
  induction allowed generalizing n s more with
  | zero => exact absurd rfl hne
  | succ allowed ih =>
      obtain ⟨more, rfl⟩ := Nat.exists_eq_succ_of_ne_zero (Nat.ne_zero_of_lt hle)
      rw [sum] at hne ⊢
      rw [sum]
      cases hnext : s.next p q n with
      | none => rfl
      | some term =>
          rw [hnext] at hne
          simp only [Option.elim_some] at hne ⊢
          split
          · rfl
          · next hterm =>
            rw [if_neg hterm] at hne
            cases ht : s.add term (s.termIsNegative ^^ decide (p < 0)) with
            | none => rfl
            | some t =>
                rw [ht] at hne
                exact ih (Nat.le_of_succ_le_succ hle) hne

end Series

def Series.Outcome.result (p q : Int64) : Outcome → Except WorkError WideTarget
  | converged _ total => .ok total
  | overflowed => .error (.diverged p q)
  | exhausted => .error (.diverged p q)

/-- The target `a` times the exponential of `p / q`, with another number of terms allowed. -/
def mulExpWithin (allowed : ℕ) (a : Target) (p q : Int64) : Except WorkError WideTarget :=
  if q ≤ 0 then .error (.diverged p q)
  else (Series.sum p q allowed 1 (Series.start a)).result p q

theorem mulExpWithin_maxTerms (a : Target) (p q : Int64) :
    mulExpWithin Series.maxTerms a p q = mulExp a p q := by
  rw [mulExpWithin, mulExp, ← Series.evaluate]
  cases Series.evaluate a p q <;> rfl

/-- For a positive denominator the summation of an exponential converges within the allowed number
of terms, unless it meets a product or a one-sided sum that does not fit 512 bits before its first
zero term. To allow more terms would change no answer. -/
theorem mulExp_never_exhausted (a : Target) (p q : Int64) :
    (0 < q →
      (∃ n ≤ Series.maxTerms, Taylor.term a.toNat p.toInt q.toInt n = 0 ∧
          ∃ v, Series.evaluate a p q = .converged n v ∧ mulExp a p q = .ok v) ∨
        (Series.evaluate a p q = .overflowed ∧ mulExp a p q = .error (.diverged p q) ∧
          ∃ n ≤ Series.maxTerms, Taylor.term a.toNat p.toInt q.toInt n ≠ 0 ∧
            ¬Taylor.FitsAt a.toNat p.toInt q.toInt n)) ∧
    ∀ allowed, Series.maxTerms ≤ allowed → mulExpWithin allowed a p q = mulExp a p q := by
  refine ⟨?_, ?_⟩
  · intro hq
    have hle : ¬q ≤ 0 := by rwa [Int64.not_le]
    rw [Int64.lt_iff_toInt_lt, Int64.toInt_zero] at hq
    cases heval : Series.evaluate a p q with
    | converged n v =>
        obtain ⟨hn, hzero, -⟩ := Series.term_eq_zero_of_converged hq heval
        exact .inl ⟨n, hn, hzero, v, rfl, mulExp_eq_ok_iff.2 ⟨hq, n, heval⟩⟩
    | overflowed =>
        refine .inr ⟨rfl, ?_, Series.exists_not_fitsAt hq heval⟩
        rw [mulExp, if_neg hle, heval]
    | exhausted => exact absurd heval (Series.evaluate_ne_exhausted hq)
  · intro allowed hallowed
    rw [← mulExpWithin_maxTerms, mulExpWithin, mulExpWithin]
    split
    · rfl
    · next hq =>
      rw [Int64.le_iff_toInt_le, Int64.toInt_zero, not_le] at hq
      rw [Series.sum_eq_of_le hallowed (Series.evaluate_ne_exhausted hq)]

/-- A ratio of 350 is about the greatest whose series fits, and it takes 947 terms. With a ratio of
353 a product is too wide. -/
theorem mulExp_never_exhausted_wide :
    let a : Target := 1
    let p : Int64 := 350
    let p' : Int64 := 353
    let q : Int64 := 1
    0 < q ∧
      (∃ n ≤ Series.maxTerms, Taylor.term a.toNat p.toInt q.toInt n = 0 ∧
        ∃ v, Series.evaluate a p q = .converged n v ∧ mulExp a p q = .ok v) ∧
      (Series.evaluate a p' q = .overflowed ∧ mulExp a p' q = .error (.diverged p' q) ∧
        ∃ n ≤ Series.maxTerms, Taylor.term a.toNat p'.toInt q.toInt n ≠ 0 ∧
          ¬Taylor.FitsAt a.toNat p'.toInt q.toInt n) ∧
      mulExpWithin 100000 a p' q = mulExp a p' q := by
  intro a p p' q
  have hq : 0 < q := by decide
  have answers : (mulExp a p q).isOk = true ∧ (mulExp a p' q).isOk = false := by
    decide +kernel
  obtain ⟨hfits, hwide⟩ := answers
  obtain ⟨wide, more⟩ := mulExp_never_exhausted a p' q
  refine ⟨hq, ?_, ?_, more 100000 (by decide)⟩
  · refine ((mulExp_never_exhausted a p q).1 hq).resolve_right ?_
    rintro ⟨-, herror, -⟩
    rw [herror] at hfits
    cases hfits
  · refine (wide hq).resolve_left ?_
    rintro ⟨n, -, -, v, -, hok⟩
    rw [hok] at hwide
    cases hwide

end Retarget
