import Mathlib.Tactic.Positivity
import Mathlib.Tactic.Linarith
import Retarget.Compact

/-!
# Sizes and mantissas as numbers

A compact target is a number in base 256 with three bytes behind the size: a mantissa
`m` of size `s` stands for `m * 256 ^ s / 256 ^ 3`, rounded down. In the other direction
the leading three bytes of a number below `256 ^ s` are `t * 256 ^ 3 / 256 ^ s`. Going
there and back cuts off the bytes that the mantissa does not hold.

Decoding and masking are described with these three functions. The two regimes, sizes up
to three bytes and from three bytes on, meet only here; both divisions are exact in the
regime that multiplies.
-/

namespace Retarget.Compact

/-- The leading three bytes of a number of so many bytes. -/
def lead (size t : ℕ) : ℕ := t * 256 ^ 3 / 256 ^ size

/-- The number that a mantissa of a size stands for. -/
def value (size m : ℕ) : ℕ := m * 256 ^ size / 256 ^ 3

/-- A number without the bytes behind its leading three. -/
def cut (size t : ℕ) : ℕ := value size (lead size t)

theorem lead_of_le {size : ℕ} (h : size ≤ 3) (t : ℕ) : lead size t = t * 256 ^ (3 - size) := by
  obtain ⟨k, hk⟩ := Nat.exists_eq_add_of_le h
  rw [lead, hk, Nat.add_sub_cancel_left, Nat.pow_add, Nat.mul_left_comm,
    Nat.mul_div_cancel_left _ (by positivity)]

theorem lead_of_ge {size : ℕ} (h : 3 ≤ size) (t : ℕ) : lead size t = t / 256 ^ (size - 3) := by
  obtain ⟨k, rfl⟩ := Nat.exists_eq_add_of_le h
  rw [lead, Nat.add_sub_cancel_left, Nat.pow_add, Nat.mul_comm t,
    Nat.mul_div_mul_left _ _ (by positivity)]

theorem value_of_le {size : ℕ} (h : size ≤ 3) (m : ℕ) : value size m = m / 256 ^ (3 - size) := by
  obtain ⟨k, hk⟩ := Nat.exists_eq_add_of_le h
  rw [value, hk, Nat.add_sub_cancel_left, Nat.pow_add, Nat.mul_comm m,
    Nat.mul_div_mul_left _ _ (by positivity)]

theorem value_of_ge {size : ℕ} (h : 3 ≤ size) (m : ℕ) : value size m = m * 256 ^ (size - 3) := by
  obtain ⟨k, rfl⟩ := Nat.exists_eq_add_of_le h
  rw [value, Nat.add_sub_cancel_left, Nat.pow_add, Nat.mul_left_comm,
    Nat.mul_div_cancel_left _ (by positivity)]

theorem cut_of_le {size : ℕ} (h : size ≤ 3) (t : ℕ) : cut size t = t := by
  rw [cut, value_of_le h, lead_of_le h, Nat.mul_div_cancel _ (by positivity)]

theorem cut_of_ge {size : ℕ} (h : 3 ≤ size) (t : ℕ) :
    cut size t = t / 256 ^ (size - 3) * 256 ^ (size - 3) := by
  rw [cut, value_of_ge h, lead_of_ge h]

theorem lead_mono (size : ℕ) {t u : ℕ} (h : t ≤ u) : lead size t ≤ lead size u :=
  Nat.div_le_div_right (Nat.mul_le_mul_right _ h)

theorem cut_le (size t : ℕ) : cut size t ≤ t := by
  rcases Nat.le_total size 3 with h | h
  · exact (cut_of_le h t).le
  · rw [cut_of_ge h]
    exact Nat.div_mul_le_self _ _

@[simp] theorem lead_cut (size t : ℕ) : lead size (cut size t) = lead size t := by
  rcases Nat.le_total size 3 with h | h
  · rw [cut_of_le h]
  · rw [cut_of_ge h, lead_of_ge h, lead_of_ge h, Nat.mul_div_cancel _ (by positivity)]

@[simp] theorem cut_cut (size t : ℕ) : cut size (cut size t) = cut size t := by
  rw [cut, lead_cut, ← cut]

/-- A mantissa that stays clear of the sign bit stands for a number that leaves the highest bit of
its bytes unset. -/
theorem two_mul_value_lt (size : ℕ) {m : ℕ} (hm : m < 0x800000) :
    2 * value size m < 256 ^ size := by
  apply Nat.lt_of_mul_lt_mul_right (a := 256 ^ 3)
  calc 2 * value size m * 256 ^ 3 = 2 * (value size m * 256 ^ 3) := Nat.mul_assoc _ _ _
    _ ≤ 2 * (m * 256 ^ size) := Nat.mul_le_mul_left 2 (Nat.div_mul_le_self _ _)
    _ = 2 * m * 256 ^ size := (Nat.mul_assoc _ _ _).symm
    _ < 256 ^ 3 * 256 ^ size := Nat.mul_lt_mul_of_pos_right (by omega) (by positivity)
    _ = 256 ^ size * 256 ^ 3 := Nat.mul_comm _ _

theorem dvd_value {n size : ℕ} (hn : 3 ≤ n) (h : n ≤ size) (m : ℕ) :
    256 ^ (n - 3) ∣ value size m := by
  rw [value_of_ge (hn.trans h)]
  exact (Nat.pow_dvd_pow 256 (Nat.sub_le_sub_right h 3)).mul_left m

/-- A mantissa without digits below the units is found again in the number it stands for. -/
theorem lead_value {size m : ℕ} (h : 256 ^ (3 - size) ∣ m) : lead size (value size m) = m := by
  rcases Nat.le_total size 3 with hs | hs
  · rw [lead_of_le hs, value_of_le hs, Nat.div_mul_cancel h]
  · rw [lead_of_ge hs, value_of_ge hs, Nat.mul_div_cancel _ (by positivity)]

/-- A multiple of the lowest byte that is kept is below a number as soon as it is below
what is left of it. -/
theorem le_cut {size u t : ℕ} (hu : 3 ≤ size → 256 ^ (size - 3) ∣ u) (h : u ≤ t) :
    u ≤ cut size t := by
  rcases Nat.le_total size 3 with hs | hs
  · rwa [cut_of_le hs]
  · obtain ⟨k, rfl⟩ := hu hs
    rw [cut_of_ge hs, Nat.mul_comm]
    exact Nat.mul_le_mul_right _
      ((Nat.le_div_iff_mul_le (by positivity)).2 (by rwa [Nat.mul_comm]))

/-- One more byte of size moves the mantissa down by one byte. -/
theorem lead_succ (size t : ℕ) : lead (size + 1) t = lead size t / 256 := by
  rw [lead, lead, Nat.div_div_eq_div_mul, pow_succ 256 size]

/-- The mantissa stays clear of the sign bit exactly when the number leaves the highest
bit of its bytes unset. -/
theorem lead_lt_sign_iff {size t : ℕ} : lead size t < 0x800000 ↔ 2 * t < 256 ^ size := by
  rw [lead, Nat.div_lt_iff_lt_mul (by positivity)]
  omega

/-- The mantissa reaches the middle byte exactly when the number reaches the highest bit
of the byte below its leading one. -/
theorem le_lead_iff {size t : ℕ} : 0x8000 ≤ lead (size + 1) t ↔ 256 ^ size ≤ 2 * t := by
  rw [lead, Nat.le_div_iff_mul_le (by positivity), Nat.pow_succ]
  omega

theorem two_pow_eight_mul (n : ℕ) : 2 ^ (8 * n) = 256 ^ n := by
  rw [show 256 = 2 ^ 8 by decide, pow_mul]

/-- A short mantissa loses the digits below the units before anything is read from it. -/
theorem word_of_le {c : Compact} (h : c.size ≤ 3) : c.word = value c.size c.mantissa := by
  rw [word, if_pos h, Nat.shiftRight_eq_div_pow, two_pow_eight_mul, value_of_le h]

theorem word_of_ge {c : Compact} (h : 3 ≤ c.size) : c.word = c.mantissa := by
  rw [word]
  split
  · rw [Nat.sub_eq_zero_of_le h, Nat.mul_zero, Nat.shiftRight_zero]
  · rfl

/-- Decoding keeps the bits of the number that fit a target. -/
theorem toNat_magnitude (c : Compact) : c.magnitude.toNat = value c.size c.mantissa % 2 ^ 256 := by
  rw [magnitude, BitVec.toNat_shiftLeft, BitVec.toNat_ofNat, Nat.shiftLeft_eq, two_pow_eight_mul]
  rcases Nat.le_total c.size 3 with h | h
  · rw [word_of_le h, Nat.sub_eq_zero_of_le h, pow_zero, Nat.mul_one, Nat.mod_mod]
  · have hlt : c.mantissa < 2 ^ 256 := c.mantissa_lt.trans (by decide)
    rw [word_of_ge h, Nat.mod_eq_of_lt hlt, value_of_ge h]

/-- What a shifted mask selects can be selected at the units and moved back. -/
theorem and_shiftLeft (t m : Target) (n : ℕ) : t &&& m <<< n = (t >>> n &&& m) <<< n := by
  rw [BitVec.shiftLeft_and_distrib, BitVec.shiftLeft_ushiftRight, BitVec.and_assoc,
    BitVec.allOnes_shiftLeft_and_shiftLeft]

/-- Masking keeps of the low bytes, as many as the size says, the leading three. -/
theorem toNat_masked (c : Compact) (t : Target) :
    (c.masked t).toNat = cut c.size (t.toNat % 256 ^ c.size) := by
  rw [masked, precisionMask]
  split
  · next h =>
    obtain ⟨k, hk⟩ := Nat.exists_eq_add_of_le h
    have hle : t.toNat / 256 ^ k % 256 ^ 3 * 256 ^ k ≤ t.toNat :=
      (Nat.mul_le_mul_right _ (Nat.mod_le _ _)).trans (Nat.div_mul_le_self _ _)
    rw [and_shiftLeft, BitVec.toNat_shiftLeft, BitVec.toNat_and, BitVec.toNat_ushiftRight,
      show BitVec.toNat (0xffffff : Target) = 2 ^ 24 - 1 by decide,
      Nat.and_two_pow_sub_one_eq_mod, show 2 ^ 24 = 256 ^ 3 by decide, Nat.shiftLeft_eq,
      Nat.shiftRight_eq_div_pow, two_pow_eight_mul, cut_of_ge h, hk, Nat.add_sub_cancel_left,
      Nat.mod_eq_of_lt (hle.trans_lt t.isLt), Nat.add_comm 3, pow_add, Nat.mod_mul_right_div_self]
  · next h =>
    have hmask : BitVec.toNat ((0xffffff : Target) >>> (8 * (3 - c.size))) =
        2 ^ (8 * c.size) - 1 := by
      have : c.size = 0 ∨ c.size = 1 ∨ c.size = 2 := by omega
      rcases this with hs | hs | hs <;> rw [hs] <;> decide
    rw [BitVec.toNat_and, hmask, Nat.and_two_pow_sub_one_eq_mod, two_pow_eight_mul,
      cut_of_le (by omega)]

end Retarget.Compact
