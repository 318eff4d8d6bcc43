import Retarget.Text.Hex

/-!
# Hashes

A hash is a string of 32 bytes. Its text gives the bytes in order as hexadecimal
digits; block explorers and log lines show them in reverse. Hashes are ordered
by their first differing byte.
-/

namespace Retarget

/-- A string of 32 bytes, the byte that is hashed first in front. -/
structure Hash where
  bytes : List UInt8
  length_bytes : bytes.length = 32
deriving DecidableEq, Repr

namespace Hash

@[ext] theorem ext {a b : Hash} (h : a.bytes = b.bytes) : a = b := by
  cases a; cases b; cases h; rfl

def ofBytes? (bytes : List UInt8) : Option Hash :=
  if h : bytes.length = 32 then some ⟨bytes, h⟩ else none

/-- The given byte in front of zeros. -/
def ofByte (b : UInt8) : Hash := ⟨b :: List.replicate 31 0, by simp⟩

def zero : Hash := ofByte 0

instance : Inhabited Hash := ⟨zero⟩

def byte (h : Hash) (i : Fin 32) : UInt8 := h.bytes.get (i.cast h.length_bytes.symm)

def modify (h : Hash) (i : Fin 32) (f : UInt8 → UInt8) : Hash :=
  ⟨h.bytes.modify i f, by simp [h.length_bytes]⟩

def isZero (h : Hash) : Bool := h.bytes.all (· == 0)

def reversed (h : Hash) : Hash := ⟨h.bytes.reverse, by simp [h.length_bytes]⟩

instance : Ord Hash := ⟨fun a b => compare a.bytes b.bytes⟩

instance : Std.TransOrd Hash where
  eq_swap := Std.OrientedOrd.eq_swap (α := List UInt8)
  isLE_trans := Std.TransOrd.isLE_trans (α := List UInt8)

instance : Std.LawfulEqOrd Hash where
  eq_of_compare h := ext (Std.LawfulEqOrd.eq_of_compare (α := List UInt8) h)

/-- The bytes as 64 lower-case digits. -/
def toText (h : Hash) : String := String.ofList (Hex.encode h.bytes)

instance : ToString Hash := ⟨toText⟩

def toReversedText (h : Hash) : String := h.reversed.toText

/-- Reads a hash from the digits of exactly 32 bytes. -/
def parse (text : String) : Except Hex.Fault Hash :=
  match Hex.decode text.toList with
  | .error fault => .error fault
  | .ok bytes =>
    match ofBytes? bytes with
    | some h => .ok h
    | none => .error .invalidLength

def parseReversed (text : String) : Except Hex.Fault Hash :=
  (parse text).map reversed

@[simp] theorem bytes_reversed (h : Hash) : h.reversed.bytes = h.bytes.reverse := rfl

@[simp] theorem reversed_reversed (h : Hash) : h.reversed.reversed = h := by
  ext1; simp

@[simp] theorem ofBytes?_bytes (h : Hash) : ofBytes? h.bytes = some h := by
  simp [ofBytes?, h.length_bytes]

end Hash

end Retarget
