import Retarget.Ancestry
import Retarget.Compact.Text

/-!
# Difficulty errors

Why a header is not accepted, or why no target can be required of the next one.
-/

namespace Retarget

/-- What can go wrong between a header and the difficulty it must meet. -/
inductive WorkError where
  /-- The declared target is not the required one at its precision. -/
  | difficulty (expected actual : Compact)
  /-- The exponential series of `p / q` has no sum in 512 bits. -/
  | diverged (p q : Int64)
  /-- The headers below do not link. -/
  | link (e : LinkError)
  /-- The parameters give a zero spacing or a zero granularity. -/
  | divisionByZero
deriving DecidableEq, Repr

def WorkError.message : WorkError → String
  | .difficulty expected actual =>
    "Invalid difficulty: expected " ++ expected.toText ++ ", got " ++ actual.toText
  | .diverged p q =>
    "Difficulty series diverged for p = " ++ toString p.toInt ++ ", q = " ++ toString q.toInt
  | .link e => "Database error: " ++ e.message
  | .divisionByZero => "Division by zero"

end Retarget
