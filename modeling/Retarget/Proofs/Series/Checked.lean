import Retarget.Proofs.Series.Convergence

/-!
# Summations under a check for overflow

A summation multiplies numbers of 512 bits. The same summation with a check after every
multiplication has no answer where a product does not fit. It always has one: with a ratio
of at most 76 the terms leave room for the factor, and the divisors are small. Its answer
is then that of the plain summation.
-/

namespace Retarget

namespace Series

/-- Sums further terms as long as every product fits. -/
def sum? (p q : Int64) : (allowed n : ℕ) → Series → Option Outcome
  | 0, _, _ => some .exhausted
  | allowed + 1, n, s => do
    let product ← s.term.checkedMul (WideTarget.ofAbs p)
    let divisor ← (WideTarget.ofAbs q).checkedMul (BitVec.ofNat 512 n)
    let term := product / divisor
    if term = 0 then some (.converged n s.total)
    else
      match s.add term (s.termIsNegative ^^ decide (p < 0)) with
      | none => some .overflowed
      | some t => sum? p q allowed (n + 1) t

def evaluate? (a : Target) (p q : Int64) : Option Outcome := sum? p q maxTerms 1 (start a)

variable {a : ℤ} {n : ℕ} {s t : Series} {p q : Int64}

theorem checkedMul_index (hn : n < 2 ^ 64) :
    (WideTarget.ofAbs q).checkedMul (BitVec.ofNat 512 n) =
      some (WideTarget.ofAbs q * BitVec.ofNat 512 n) := by
  apply Unsigned.checkedMul_eq_mul
  have hq : q.toInt.natAbs ≤ 2 ^ 63 := by
    have hlo := q.le_toInt
    have hhi := q.toInt_lt
    omega
  have hindex : (BitVec.ofNat 512 n).toNat ≤ 2 ^ 64 := by
    rw [BitVec.toNat_ofNat]
    exact (Nat.mod_le _ _).trans hn.le
  rw [WideTarget.toNat_ofAbs]
  have := Nat.mul_le_mul hq hindex
  omega

/-- The product of a term and a factor fits when the terms leave room for the factor. -/
theorem Represents.checkedMul_term (h : Represents a p.toInt q.toInt n s)
    (room : (Taylor.term a p.toInt q.toInt n).natAbs * p.toInt.natAbs < 2 ^ 512) :
    s.term.checkedMul (WideTarget.ofAbs p) = some (s.term * WideTarget.ofAbs p) := by
  apply Unsigned.checkedMul_eq_mul
  rwa [h.term_eq, WideTarget.toNat_ofAbs]

/-- When all terms leave room for the factor, no product of a summation is too wide. By
induction on the number of terms that the summation may still take. -/
theorem sum?_eq_some (ha : 0 ≤ a) (hq : 0 < q.toInt)
    (room : ∀ k, (Taylor.term a p.toInt q.toInt k).natAbs * p.toInt.natAbs < 2 ^ 512)
    {allowed : ℕ} (hn : n + allowed < 2 ^ 64) (h : Represents a p.toInt q.toInt n s) :
    sum? p q allowed (n + 1) s = some (sum p q allowed (n + 1) s) := by
  induction allowed generalizing n s with
  | zero => rfl
  | succ allowed ih =>
      have hnext : s.next p q (n + 1) =
          some (s.term * WideTarget.ofAbs p / (WideTarget.ofAbs q * BitVec.ofNat 512 (n + 1))) := by
        rw [next, h.checkedMul_term (room n)]
        rfl
      have hterm := h.next_eq_some (by omega) hnext
      rw [sum?, h.checkedMul_term (room n), checkedMul_index (by omega), sum, hnext]
      simp only [Option.bind_eq_bind, Option.bind_some, Option.elim_some]
      split
      · rfl
      · rw [h.next_isNegative]
        cases ht : s.add _ (Taylor.isNegative p.toInt (n + 1)) with
        | none => rfl
        | some t => exact ih (by omega) (h.add ha hq hterm ht)

theorem evaluate?_eq_some {a : Target} (hq : 0 < q.toInt)
    (hr : p.toInt.natAbs ≤ Taylor.maxRatio * q.toInt.natAbs) :
    evaluate? a p q = some (evaluate a p q) := by
  refine sum?_eq_some (Int.natCast_nonneg _) hq (fun k => ?_) (by decide) (represents_start a _ _)
  have hp : p.toInt.natAbs ≤ 2 ^ 63 := by
    have hlo := p.le_toInt
    have hhi := p.toInt_lt
    omega
  have hterm := Taylor.natAbs_term_lt (a := a.toNat) a.isLt hr k
  have := Nat.mul_le_mul hterm.le hp
  omega

end Series

def mulExp? (a : Target) (p q : Int64) : Option (Except WorkError WideTarget) :=
  if q ≤ 0 then some (.error (.diverged p q))
  else
    (Series.evaluate? a p q).map fun
      | .converged _ total => .ok total
      | .overflowed => .error (.diverged p q)
      | .exhausted => .error (.diverged p q)

/-- With a small ratio every product of an exponential fits. Without a positive denominator
there is none to be computed. -/
theorem mulExp?_eq_some {a : Target} {p q : Int64}
    (hr : 0 < q.toInt → p.toInt.natAbs ≤ Taylor.maxRatio * q.toInt.natAbs) :
    mulExp? a p q = some (mulExp a p q) := by
  rw [mulExp?, mulExp]
  split
  · rfl
  · next hq =>
    have hpos : 0 < q.toInt := by rwa [Int64.le_iff_toInt_le, Int64.toInt_zero, not_le] at hq
    rw [Series.evaluate?_eq_some hpos (hr hpos)]
    cases Series.evaluate a p q <;> rfl

end Retarget
