import Retarget.Unsigned

/-!
# Compact targets

A compact target packs a target into 32 bits, much like a floating-point number
in base 256: the top byte counts the significant bytes, the low 23 bits are the
mantissa, and the bit between them is a sign. Decoding puts the three mantissa
bytes at the top of that many bytes. Targets are magnitudes, so a set sign is a
defect of the encoding and never changes the value.

Encoding keeps the leading bytes of a target. It moves one byte further down when
the leading byte would reach into the sign bit, so what it produces is never
negative.
-/

namespace Retarget

/-- A target in 32 bits. -/
structure Compact where
  bits : UInt32
deriving DecidableEq, Repr, Inhabited

namespace Compact

/-- The number of significant bytes of the encoded target. -/
def size (c : Compact) : Nat := c.bits.toNat / 0x1000000

/-- The low 23 bits. -/
def mantissa (c : Compact) : Nat := c.bits.toNat % 0x800000

/-- The bit between mantissa and size. -/
def sign (c : Compact) : Bool := c.bits.toNat.testBit 23

/-- The part of the mantissa that lies at or above the units: with fewer than
three significant bytes the rest of it is dropped. -/
def word (c : Compact) : Nat :=
  if c.size ≤ 3 then c.mantissa >>> (8 * (3 - c.size)) else c.mantissa

/-- The encoded number, without the bits above the width of a target. -/
def magnitude (c : Compact) : Target :=
  BitVec.ofNat 256 c.word <<< (8 * (c.size - 3))

/-- Whether a number other than zero carries the sign. -/
def isNegative (c : Compact) : Bool := c.word ≠ 0 && c.sign

def overflows (c : Compact) : Bool :=
  (c.word ≠ 0 && c.size > 34) ||
  (c.word > 0xff && c.size > 33) ||
  (c.word > 0xffff && c.size > 32)

/-- Decodes strictly; a refused encoding still tells its magnitude. -/
def toTarget (c : Compact) : Except Target Target :=
  if c.isNegative || c.overflows then .error c.magnitude else .ok c.magnitude

/-- The number of low bytes that the mantissa cannot represent, negative when
the target is shorter than the mantissa. -/
def accuracyBytes (c : Compact) : Int := c.size - 3

/-- The bits of a target that the three mantissa bytes can represent at this
size. -/
def precisionMask (c : Compact) : Target :=
  if 3 ≤ c.size then (0xffffff : Target) <<< (8 * (c.size - 3))
  else (0xffffff : Target) >>> (8 * (3 - c.size))

/-- A target cut down to the precision of a compact target. -/
def masked (c : Compact) (t : Target) : Target := t &&& c.precisionMask

def agreesWith (c : Compact) (t : Target) : Bool := c.masked c.magnitude == c.masked t

/-- A size with the mantissa that belongs to it, before they are packed. -/
structure Scaled where
  size : Nat
  mantissa : Nat
deriving DecidableEq, Repr

/-- The leading three bytes of a target, or all of a shorter one followed by
zeros. Zero takes one significant byte. -/
def leadingBytes (t : Target) : Scaled :=
  let size := max ((t.bitLength + 7) / 8) 1
  { size
    mantissa :=
      if size ≤ 3 then t.toNat <<< (8 * (3 - size)) else t.toNat >>> (8 * (size - 3)) }

/-- Gives up the last byte when the mantissa reaches into the sign bit. -/
def Scaled.clearSign (s : Scaled) : Scaled :=
  if s.mantissa < 0x800000 then s else { size := s.size + 1, mantissa := s.mantissa >>> 8 }

def Scaled.pack (s : Scaled) : Compact := ⟨UInt32.ofNat (s.size * 0x1000000 + s.mantissa)⟩

/-- Encodes a target, rounding down. -/
def ofTarget (t : Target) : Compact := (leadingBytes t).clearSign.pack

/-- The encoding of the number that `c` encodes. -/
def canonical (c : Compact) : Compact := ofTarget c.magnitude

theorem mantissa_lt (c : Compact) : c.mantissa < 0x800000 := Nat.mod_lt _ (by decide)

end Compact

end Retarget
