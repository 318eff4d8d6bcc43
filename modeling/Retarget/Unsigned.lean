/-!
# Unsigned integers of a fixed width

Targets are 256 bits wide. Adjusting a target multiplies it before it divides,
so the intermediate values are kept in 512 bits. An arithmetic operation comes
in a checked form, which answers nothing when the exact result leaves the
width, and in an overflowing form, which wraps and says whether it did. The
lemmas state every checked form through natural numbers.
-/

namespace Retarget

/-- Unsigned integers below `2 ^ w`. -/
abbrev Unsigned (w : Nat) := BitVec w

/-- The number that a block hash must not exceed. -/
abbrev Target := Unsigned 256

/-- Room for a target multiplied by the factors of an adjustment. -/
abbrev WideTarget := Unsigned 512

namespace Unsigned

variable {w : Nat}

/-- Position of the highest set bit, counted from one; zero has none. -/
def bitLength (a : Unsigned w) : Nat :=
  if a = 0 then 0 else a.toNat.log2 + 1

def low32 (a : Unsigned w) : UInt32 := UInt32.ofNat a.toNat

def low64 (a : Unsigned w) : UInt64 := UInt64.ofNat a.toNat

def checkedAdd (a b : Unsigned w) : Option (Unsigned w) :=
  if a.uaddOverflow b then none else some (a + b)

def checkedSub (a b : Unsigned w) : Option (Unsigned w) :=
  if a.usubOverflow b then none else some (a - b)

def checkedMul (a b : Unsigned w) : Option (Unsigned w) :=
  if a.umulOverflow b then none else some (a * b)

/-- The truncated quotient, unless the divisor is zero. -/
def checkedDiv (a b : Unsigned w) : Option (Unsigned w) :=
  if b = 0 then none else some (a / b)

/-- The remainder, unless the divisor is zero. -/
def checkedRem (a b : Unsigned w) : Option (Unsigned w) :=
  if b = 0 then none else some (a % b)

/-- The product of `n` equal factors, if it fits the width. -/
def checkedProduct (a : Unsigned w) : Nat → Option (Unsigned w)
  | 0 => some 1
  | n + 1 => (checkedProduct a n).bind fun b => b.checkedMul a

/-- The power with a natural exponent, if it fits the width. A base above one does
not fit as soon as the exponent exceeds the width. -/
def checkedPow (a : Unsigned w) (n : Nat) : Option (Unsigned w) :=
  if a.toNat ≤ 1 then some (if n = 0 then 1 else a)
  else if w < n then none
  else a.checkedProduct n

def shiftUp (a : Unsigned w) (n : Nat) : Unsigned w := if n < w then a <<< n else 0

def shiftDown (a : Unsigned w) (n : Nat) : Unsigned w := if n < w then a >>> n else 0

def overflowingAdd (a b : Unsigned w) : Unsigned w × Bool :=
  (a + b, a.uaddOverflow b)

def overflowingSub (a b : Unsigned w) : Unsigned w × Bool :=
  (a - b, a.usubOverflow b)

def overflowingMul (a b : Unsigned w) : Unsigned w × Bool :=
  (a * b, a.umulOverflow b)

theorem checkedAdd_eq_some {a b c : Unsigned w} :
    a.checkedAdd b = some c ↔ c.toNat = a.toNat + b.toNat := by
  unfold checkedAdd
  split <;> rename_i h
  · have := c.isLt
    exact iff_of_false (by simp) (by simp [BitVec.uaddOverflow] at h; omega)
  · rw [Option.some_inj, BitVec.toNat_eq, BitVec.toNat_add_of_not_uaddOverflow h, eq_comm]

theorem checkedSub_eq_some {a b c : Unsigned w} :
    a.checkedSub b = some c ↔ c.toNat + b.toNat = a.toNat := by
  unfold checkedSub
  split <;> rename_i h <;> simp only [BitVec.usubOverflow, decide_eq_true_eq] at h
  · exact iff_of_false (by simp) (by omega)
  · rw [Option.some_inj, BitVec.toNat_eq, BitVec.toNat_sub_of_le (Nat.le_of_not_lt h)]
    omega

theorem checkedMul_eq_some {a b c : Unsigned w} :
    a.checkedMul b = some c ↔ c.toNat = a.toNat * b.toNat := by
  unfold checkedMul
  split <;> rename_i h
  · have := c.isLt
    exact iff_of_false (by simp) (by simp [BitVec.umulOverflow] at h; omega)
  · rw [Option.some_inj, BitVec.toNat_eq, BitVec.toNat_mul_of_not_umulOverflow h, eq_comm]

/-- Shifting by the width or more gives zero in either form. -/
theorem shiftDown_eq (a : Unsigned w) (n : Nat) : a.shiftDown n = a >>> n := by
  unfold shiftDown
  split
  · rfl
  · exact (BitVec.ushiftRight_eq_zero (by omega)).symm

end Unsigned

namespace Target

def widen (t : Target) : WideTarget := t.setWidth 512

@[simp] theorem toNat_widen (t : Target) : t.widen.toNat = t.toNat :=
  BitVec.toNat_setWidth_of_le (by decide)

end Target

namespace WideTarget

/-- The same number in 256 bits, if none of the upper 256 bits is set. -/
def narrow? (t : WideTarget) : Option Target :=
  if t >>> 256 = 0 then some (t.setWidth 256) else none

theorem narrow?_eq_some {t : WideTarget} {u : Target} :
    t.narrow? = some u ↔ u.toNat = t.toNat := by
  have := u.isLt
  unfold narrow?
  split <;> rename_i h <;>
    simp only [BitVec.toNat_eq, BitVec.toNat_ushiftRight, Nat.shiftRight_eq_div_pow,
      BitVec.ofNat_eq_ofNat, BitVec.toNat_ofNat, Nat.zero_mod] at h
  · rw [Option.some_inj, BitVec.toNat_eq, BitVec.toNat_setWidth, Nat.mod_eq_of_lt (by omega),
      eq_comm]
  · exact iff_of_false (by simp) (by omega)

end WideTarget

end Retarget
