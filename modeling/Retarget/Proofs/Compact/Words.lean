import Mathlib.Data.Nat.Bitwise
import Retarget.Proofs.Compact.Encoding

/-!
# Encoding in machine words

Encoding reads the mantissa off the low 64 or the low 32 bits of a target, tests the sign bit with a
mask, and puts the parts together by bit operations, under a check that the mantissa leaves size and
sign alone and that the size fits its byte. No bit is lost on the way and the check never fails,
so these words are those of the encoding.
-/

namespace Retarget.Compact

/-- The leading three bytes of a target of so many bytes, as a word. -/
def leadingWord (size : ℕ) (t : Target) : UInt32 :=
  if size ≤ 3 then (t.low64 <<< UInt64.ofNat (8 * (3 - size))).toUInt32
  else (t.shiftDown (8 * (size - 3))).low32

/-- Puts a size and a mantissa together, if neither reaches into the place of another field. -/
def assemble? (size : ℕ) (word : UInt32) : Option Compact :=
  if word &&& ~~~0x007fffff = 0 ∧ size < 256 then some ⟨word ||| UInt32.ofNat (size <<< 24)⟩
  else none

/-- Encodes a target in words, as long as the parts fit their fields. -/
def ofTarget? (t : Target) : Option Compact :=
  let size := max ((t.bitLength + 7) / 8) 1
  let word := leadingWord size t
  if word &&& 0x00800000 ≠ 0 then assemble? (size + 1) (word >>> 8) else assemble? size word

/-! ### Words -/

variable {size : ℕ} {word : UInt32}

theorem and_signBit_ne_zero_iff (h : word.toNat < 2 ^ 24) :
    word &&& 0x00800000 ≠ 0 ↔ ¬word.toNat < 0x800000 := by
  have hsign : word.toNat &&& (0x00800000 : UInt32).toNat =
      (word.toNat.testBit 23).toNat * 2 ^ 23 := Nat.and_two_pow word.toNat 23
  rw [Ne, ← UInt32.toNat_inj, UInt32.toNat_and, hsign, UInt32.toNat_zero,
    Nat.testBit_eq_decide_div_mod_eq]
  rcases Nat.lt_or_ge word.toNat 0x800000 with hlt | hge
  · have hbit : ¬word.toNat / 2 ^ 23 % 2 = 1 := by omega
    rw [decide_eq_false hbit]
    exact iff_of_false (not_not.2 rfl) (not_not.2 hlt)
  · have hbit : word.toNat / 2 ^ 23 % 2 = 1 := by omega
    rw [decide_eq_true hbit]
    exact iff_of_true (by decide) (Nat.not_lt.2 hge)

theorem and_not_mantissa_eq_zero (h : word.toNat < 0x800000) : word &&& ~~~0x007fffff = 0 := by
  have hmask : word &&& 0x007fffff = word := by
    rw [← UInt32.toNat_inj, UInt32.toNat_and]
    exact (Nat.and_two_pow_sub_one_eq_mod word.toNat 23).trans (Nat.mod_eq_of_lt h)
  rw [← hmask, UInt32.and_assoc, UInt32.and_not_self, UInt32.and_zero]

theorem assemble?_eq_some (hsize : size < 256) (hword : word.toNat < 0x800000) :
    assemble? size word = some (Scaled.mk size word.toNat).pack := by
  have hbits : word ||| UInt32.ofNat (size <<< 24) =
      UInt32.ofNat (size * 0x1000000 + word.toNat) := by
    have hshift : size <<< 24 = size * 0x1000000 := Nat.shiftLeft_eq size 24
    have hor : size <<< 24 + word.toNat = size <<< 24 ||| word.toNat :=
      Nat.shiftLeft_add_eq_or_of_lt (hword.trans (by decide)) size
    rw [← UInt32.toNat_inj, UInt32.toNat_or, UInt32.toNat_ofNat', UInt32.toNat_ofNat',
      Nat.mod_eq_of_lt (by omega), Nat.mod_eq_of_lt (by omega), Nat.or_comm, ← hor, hshift]
  rw [assemble?, if_pos ⟨and_not_mantissa_eq_zero hword, hsize⟩, Scaled.pack, hbits]

/-! ### Encoding -/

theorem mantissa_leadingBytes_lt (t : Target) : (leadingBytes t).mantissa < 2 ^ 24 := by
  rw [mantissa_leadingBytes, lead, Nat.div_lt_iff_lt_mul (by positivity)]
  exact (Nat.mul_comm _ _).trans_lt
    (Nat.mul_lt_mul_of_pos_left (size_leadingBytes t).2.1 (by decide))

theorem toNat_leadingWord (t : Target) :
    (leadingWord (leadingBytes t).size t).toNat = (leadingBytes t).mantissa := by
  have hlt := mantissa_leadingBytes_lt t
  have hsize := (size_leadingBytes t).2.1
  have hmantissa : (leadingBytes t).mantissa =
      if (leadingBytes t).size ≤ 3 then t.toNat <<< (8 * (3 - (leadingBytes t).size))
      else t.toNat >>> (8 * ((leadingBytes t).size - 3)) := rfl
  rw [hmantissa] at hlt ⊢
  rw [leadingWord]
  split
  · next h =>
    rw [if_pos h] at hlt
    have ht : t.toNat < 2 ^ 64 := by
      calc t.toNat < 256 ^ (leadingBytes t).size := hsize
        _ ≤ 256 ^ 3 := Nat.pow_le_pow_right (by decide) h
        _ < 2 ^ 64 := by decide
    have hshift : (UInt64.ofNat (8 * (3 - (leadingBytes t).size))).toNat % 64 =
        8 * (3 - (leadingBytes t).size) := by
      rw [UInt64.toNat_ofNat']
      omega
    rw [UInt64.toNat_toUInt32, UInt64.toNat_shiftLeft, hshift, Unsigned.low64, UInt64.toNat_ofNat',
      Nat.mod_eq_of_lt ht, Nat.mod_eq_of_lt (hlt.trans (by decide)),
      Nat.mod_eq_of_lt (hlt.trans (by decide))]
  · next h =>
    rw [if_neg h] at hlt
    rw [Unsigned.low32, Unsigned.shiftDown_eq, UInt32.toNat_ofNat', BitVec.toNat_ushiftRight,
      Nat.mod_eq_of_lt (hlt.trans (by decide))]

/-- The check of an encoding never fails, and the words are those of the encoding. -/
theorem ofTarget?_eq_some (t : Target) : ofTarget? t = some (ofTarget t) := by
  have hword := toNat_leadingWord t
  have hsign : leadingWord (leadingBytes t).size t &&& 0x00800000 ≠ 0 ↔
      ¬(leadingBytes t).mantissa < 0x800000 := by
    rw [← hword]
    exact and_signBit_ne_zero_iff (hword.trans_lt (mantissa_leadingBytes_lt t))
  have hsize := size_clearSign_lt t
  have hmantissa := mantissa_clearSign_lt t
  have hdef : max ((t.bitLength + 7) / 8) 1 = (leadingBytes t).size := rfl
  rw [ofTarget?, ofTarget, hdef]
  rw [Scaled.clearSign] at hsize hmantissa ⊢
  by_cases h : (leadingBytes t).mantissa < 0x800000
  · rw [if_pos h] at hsize ⊢
    rw [if_neg (fun hbit => hsign.1 hbit h), assemble?_eq_some hsize (by rwa [hword]), hword]
  · rw [if_neg h] at hsize hmantissa ⊢
    have hshift : (leadingWord (leadingBytes t).size t >>> 8).toNat =
        (leadingBytes t).mantissa >>> 8 := by
      rw [UInt32.toNat_shiftRight, hword]
      rfl
    rw [if_pos (hsign.2 h), assemble?_eq_some hsize (by rwa [hshift]), hshift]

end Retarget.Compact
