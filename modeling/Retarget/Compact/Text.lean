import Retarget.Compact
import Retarget.Text.Numeral

/-!
# Compact targets as text

A compact target is written as eight hexadecimal digits behind `0x`. It is read
from at most eight significant digits of either case; the marker may be missing
or repeated.
-/

namespace Retarget.Compact

structure Fault where
  text : String
  reason : Numeral.Fault
deriving DecidableEq, Repr

def Fault.message (f : Fault) : String :=
  "Invalid compact target " ++ f.text ++ ": " ++ f.reason.message

def dropMarkers : List Char → List Char
  | '0' :: 'x' :: cs => dropMarkers cs
  | cs => cs

def parse (text : String) : Except Fault Compact :=
  match Numeral.read 16 UInt32.size (dropMarkers text.toList) with
  | .ok n => .ok ⟨UInt32.ofNat n⟩
  | .error reason => .error ⟨text, reason⟩

/-- Eight digits behind the marker. -/
def toText (c : Compact) : String := Numeral.hexWord c.bits

instance : ToString Compact := ⟨toText⟩

def status (c : Compact) : String :=
  match c.toTarget with
  | .ok _ => "valid"
  | .error _ => "negative or overflow"

def describe (c : Compact) : List String :=
  [ "compact:        " ++ c.toText,
    "status:         " ++ c.status,
    "target:         " ++ Numeral.hex c.magnitude.toNat,
    "exponent:       " ++ toString c.size,
    "accuracy bytes: " ++ toString c.accuracyBytes,
    "canonical:      " ++ c.canonical.toText ]

end Retarget.Compact
