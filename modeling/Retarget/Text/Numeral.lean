/-!
# Numbers as text

An unsigned number is read left to right in a radix of at most 36: an optional
plus sign, then at least one digit. The first character that fails decides what
is wrong, and at one character an invalid digit comes before a value that has
grown too large. Numbers are written with lower-case digits, either as short as
possible or with a fixed count of hexadecimal digits.
-/

namespace Retarget.Numeral

inductive Fault where
  | empty
  | invalidDigit
  | tooLarge
deriving DecidableEq, Repr

def Fault.message : Fault → String
  | .empty => "cannot parse integer from empty string"
  | .invalidDigit => "invalid digit found in string"
  | .tooLarge => "number too large to fit in target type"

/-- The value of a digit of either case, if it is one in this radix. -/
def digitValue? (radix : Nat) (c : Char) : Option Nat :=
  let value :=
    if '0' ≤ c ∧ c ≤ '9' then some (c.toNat - 48)
    else if 'a' ≤ c ∧ c ≤ 'z' then some (c.toNat - 87)
    else if 'A' ≤ c ∧ c ≤ 'Z' then some (c.toNat - 55)
    else none
  value.filter (· < radix)

/-- Continues the number `acc` with the digits that follow. -/
def accumulate (radix limit : Nat) : Nat → List Char → Except Fault Nat
  | acc, [] => .ok acc
  | acc, c :: cs =>
    match digitValue? radix c with
    | none => .error .invalidDigit
    | some d =>
      if acc * radix + d < limit then accumulate radix limit (acc * radix + d) cs
      else .error .tooLarge

/-- Reads a number below `limit`. A sign that stands alone is an invalid digit,
and so is every minus sign. -/
def read (radix limit : Nat) : List Char → Except Fault Nat
  | [] => .error .empty
  | ['+'] => .error .invalidDigit
  | '+' :: cs => accumulate radix limit 0 cs
  | cs => accumulate radix limit 0 cs

/-- The `k` lowest hexadecimal digits, the most significant one first. -/
def hexDigits : Nat → Nat → List Char
  | 0, _ => []
  | k + 1, n => hexDigits k (n / 16) ++ [Nat.digitChar (n % 16)]

/-- Hexadecimal text without leading zeros; zero is a single digit. -/
def hex (n : Nat) : String := String.ofList (Nat.toDigits 16 n)

/-- A 32-bit word as eight hexadecimal digits behind `0x`. -/
def hexWord (n : UInt32) : String := "0x" ++ String.ofList (hexDigits 8 n.toNat)

@[simp] theorem accumulate_nil (radix limit acc : Nat) :
    accumulate radix limit acc [] = .ok acc := rfl

theorem accumulate_append (radix limit acc : Nat) (xs ys : List Char) :
    accumulate radix limit acc (xs ++ ys) =
      (accumulate radix limit acc xs).bind (accumulate radix limit · ys) := by
  induction xs generalizing acc with
  | nil => rfl
  | cons x xs ih =>
    simp only [List.cons_append, accumulate]
    cases digitValue? radix x with
    | none => rfl
    | some d =>
      by_cases h : acc * radix + d < limit
      · simp [h, ih]
      · simp [h, Except.bind]

@[simp] theorem length_hexDigits (k n : Nat) : (hexDigits k n).length = k := by
  induction k generalizing n with
  | zero => rfl
  | succ k ih => simp [hexDigits, ih]

end Retarget.Numeral
