import Retarget.Unsigned
import Retarget.Requirement.Error

/-!
# A target times an exponential

The product of a target `a` and the exponential of `p / q` is summed term by term,
`a + a * p / q + (a * p / q) * p / (2 * q) + …`. Every term is truncated towards
zero, and the sum ends with the first term that is zero. Terms of either sign are
added up apart, and a negative total counts as zero.

All values are 512 bits wide. A product or a sum that does not fit ends the
summation without an answer, and so does a summation that goes on for too long.
-/

namespace Retarget

/-- The size of a signed number in 512 bits. -/
def WideTarget.ofAbs (n : Int64) : WideTarget := BitVec.ofNat 512 n.toInt.natAbs

/-- A partial sum with its latest term. -/
structure Series where
  /-- The sum of the terms that are not negative. -/
  positive : WideTarget
  /-- The sum of the sizes of the negative terms. -/
  negative : WideTarget
  /-- The size of the latest term. -/
  term : WideTarget
  termIsNegative : Bool
deriving DecidableEq, Repr

namespace Series

/-- The sum that consists of the target alone. -/
def start (a : Target) : Series where
  positive := a.widen
  negative := 0
  term := a.widen
  termIsNegative := false

/-- The value of the sum, zero if the negative terms outweigh the others. -/
def total (s : Series) : WideTarget := (s.positive.checkedSub s.negative).getD 0

/-- Adds a term to the side of its sign. -/
def add (s : Series) (term : WideTarget) (isNegative : Bool) : Option Series :=
  if isNegative then
    (s.negative.checkedAdd term).map fun sum =>
      { s with negative := sum, term := term, termIsNegative := true }
  else
    (s.positive.checkedAdd term).map fun sum =>
      { s with positive := sum, term := term, termIsNegative := false }

/-- How a summation ends. -/
inductive Outcome where
  /-- The term of this index is zero. -/
  | converged (index : Nat) (total : WideTarget)
  /-- A product or a sum does not fit. -/
  | overflowed
  /-- No term was zero within the allowed number. -/
  | exhausted
deriving DecidableEq, Repr

/-- The size of the term of index `n` after the latest one. -/
def next (p q : Int64) (n : Nat) (s : Series) : Option WideTarget :=
  (s.term.checkedMul (WideTarget.ofAbs p)).map fun product =>
    product / (WideTarget.ofAbs q * BitVec.ofNat 512 n)

/-- Sums at most `allowed` further terms of which the first has index `n`. -/
def sum (p q : Int64) : (allowed n : Nat) → Series → Outcome
  | 0, _, _ => .exhausted
  | allowed + 1, n, s =>
    (s.next p q n).elim .overflowed fun term =>
      if term = 0 then .converged n s.total
      else
        (s.add term (s.termIsNegative ^^ decide (p < 0))).elim .overflowed fun s =>
          sum p q allowed (n + 1) s

/-- The number of terms after the first that a summation may take. -/
def maxTerms : Nat := 1024

def evaluate (a : Target) (p q : Int64) : Outcome := sum p q maxTerms 1 (start a)

end Series

/-- The target `a` times the exponential of `p / q`, for a positive `q`. -/
def mulExp (a : Target) (p q : Int64) : Except WorkError WideTarget :=
  if q ≤ 0 then .error (.diverged p q)
  else
    match Series.evaluate a p q with
    | .converged _ total => .ok total
    | .overflowed => .error (.diverged p q)
    | .exhausted => .error (.diverged p q)

def mulExpLog (a : Target) (p q : Int64) : List Log.Record :=
  if q ≤ 0 then []
  else
    match Series.evaluate a p q with
    | .converged index _ =>
      [{ level := .trace
         target := "verification"
         message := "mul_exp converged after " ++ toString index ++ " iterations" }]
    | .overflowed => []
    | .exhausted => []

end Retarget
