import Retarget.Text.Numeral

/-!
# Byte strings as hexadecimal text

Two digits of either case stand for one byte, the high half first. Spaces, tabs
and line ends between digits are skipped. The text is judged left to right, so a
character that is neither a digit nor skipped is reported before an odd number
of digits.
-/

namespace Retarget.Hex

inductive Fault where
  /-- The first foreign character and the byte offset in UTF-8 where it starts. -/
  | invalidCharacter (character : Char) (offset : Nat)
  | invalidLength
deriving DecidableEq, Repr

def Fault.message : Fault → String
  | .invalidCharacter c offset =>
    "Invalid character '" ++ String.singleton c ++ "' at position " ++ toString offset
  | .invalidLength => "Invalid input length"

/-- The characters that may stand anywhere and mean nothing. -/
def isSkipped (c : Char) : Bool := c == ' ' || c == '\t' || c == '\r' || c == '\n'

/-- The values of all digits; `offset` is where the text starts. -/
def digits (offset : Nat) : List Char → Except Fault (List Nat)
  | [] => .ok []
  | c :: cs =>
    if isSkipped c then digits (offset + c.utf8Size) cs
    else
      match Numeral.digitValue? 16 c with
      | none => .error (.invalidCharacter c offset)
      | some d => (digits (offset + c.utf8Size) cs).map (d :: ·)

def pairs : List Nat → Except Fault (List UInt8)
  | [] => .ok []
  | [_] => .error .invalidLength
  | high :: low :: rest => (pairs rest).map (UInt8.ofNat (16 * high + low) :: ·)

def decode (text : List Char) : Except Fault (List UInt8) :=
  (digits 0 text).bind pairs

/-- Writes a byte string with lower-case digits. -/
def encode (bytes : List UInt8) : List Char :=
  bytes.flatMap fun b => Numeral.hexDigits 2 b.toNat

@[simp] theorem encode_cons (b : UInt8) (bs : List UInt8) :
    encode (b :: bs) = Numeral.hexDigits 2 b.toNat ++ encode bs := by
  simp [encode]

end Retarget.Hex
