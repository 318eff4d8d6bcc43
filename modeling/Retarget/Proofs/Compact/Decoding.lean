import Retarget.Proofs.Compact.Scale

/-!
# What decoding reports

A compact target of size `e` and mantissa `m` stands for `m * 256 ^ e / 256 ^ 3`, rounded down.
The word that is shifted into place is zero exactly if this number is, and the comparisons of
size and word are exactly the sizes at which a mantissa of three, two or one significant bytes
grows out of the 32 bytes of a target. Both defects of an encoding are therefore reported for
the number itself, and where neither is present the number is decoded as it is.
-/

namespace Retarget.Compact

/-- A number is too wide for a target from the size on at which the lowest byte of its mantissa
that is in use leaves the highest byte of the target. -/
theorem two_pow_le_value_iff {size m : ℕ} (hm : m < 0x800000) :
    2 ^ 256 ≤ value size m ↔
      m ≠ 0 ∧ 34 < size ∨ 0xff < m ∧ 33 < size ∨ 0xffff < m ∧ 32 < size := by
  have hwidth : 2 ^ 256 = 256 ^ 32 := two_pow_eight_mul 32
  rcases Nat.lt_or_ge 34 size with h | h
  · -- From here on a single unit of the mantissa is too wide.
    have hunit : 256 ^ 32 ≤ 256 ^ (size - 3) := Nat.pow_le_pow_right (by decide) (by omega)
    rw [value_of_ge (by omega), hwidth]
    constructor
    · intro hwide
      refine .inl ⟨?_, h⟩
      rintro rfl
      rw [Nat.zero_mul] at hwide
      exact absurd hwide (by decide)
    · intro hne
      have hpos : 0 < m := by omega
      exact hunit.trans (Nat.le_mul_of_pos_left _ hpos)
  · rcases Nat.lt_or_ge 32 size with h32 | h32
    · have hsize : size = 33 ∨ size = 34 := by omega
      rcases hsize with rfl | rfl
      · rw [value_of_ge (by decide)]
        omega
      · rw [value_of_ge (by decide)]
        omega
    · refine iff_of_false (Nat.not_le.2 ?_) (by omega)
      calc value size m ≤ value 32 m :=
            Nat.div_le_div_right (Nat.mul_le_mul_left _ (Nat.pow_le_pow_right (by decide) h32))
        _ = m * 256 ^ 29 := value_of_ge (by decide) m
        _ < 2 ^ 256 := by omega

variable {c : Compact}

theorem word_eq_zero_iff : c.word = 0 ↔ value c.size c.mantissa = 0 := by
  rcases Nat.le_total c.size 3 with h | h
  · rw [word_of_le h]
  · have hpos : 256 ^ (c.size - 3) ≠ 0 := by positivity
    rw [word_of_ge h, value_of_ge h, Nat.mul_eq_zero, or_iff_left hpos]

theorem isNegative_iff : c.isNegative = true ↔ c.sign = true ∧ value c.size c.mantissa ≠ 0 := by
  rw [isNegative, Bool.and_eq_true, decide_eq_true_eq, Ne, word_eq_zero_iff, and_comm]

theorem overflows_iff : c.overflows = true ↔ 2 ^ 256 ≤ value c.size c.mantissa := by
  rw [two_pow_le_value_iff c.mantissa_lt]
  simp only [overflows, Bool.or_eq_true, Bool.and_eq_true, decide_eq_true_eq, gt_iff_lt, or_assoc]
  rcases Nat.le_total c.size 3 with h | h
  · omega
  · rw [word_of_ge h]

def Sound (c : Compact) : Prop :=
  value c.size c.mantissa < 2 ^ 256 ∧ ¬(c.sign = true ∧ value c.size c.mantissa ≠ 0)

theorem not_sound_iff : ¬c.Sound ↔ (c.isNegative || c.overflows) = true := by
  rw [Sound, Bool.or_eq_true, isNegative_iff, overflows_iff, ← Nat.not_lt]
  tauto

theorem toTarget_of_sound (h : c.Sound) : c.toTarget = .ok c.magnitude := by
  rw [toTarget, if_neg fun hbad => not_sound_iff.2 hbad h]

theorem toTarget_of_not_sound (h : ¬c.Sound) : c.toTarget = .error c.magnitude := by
  rw [toTarget, if_pos (not_sound_iff.1 h)]

variable {t : Target}

theorem magnitude_eq_iff : c.magnitude = t ↔ t.toNat = value c.size c.mantissa % 2 ^ 256 := by
  rw [BitVec.toNat_eq, toNat_magnitude, eq_comm]

theorem toTarget_eq_ok_iff :
    c.toTarget = .ok t ↔ c.Sound ∧ t.toNat = value c.size c.mantissa := by
  by_cases h : c.Sound
  · rw [toTarget_of_sound h, Except.ok.injEq, magnitude_eq_iff, Nat.mod_eq_of_lt h.1,
      and_iff_right h]
  · rw [toTarget_of_not_sound h]
    exact iff_of_false (fun heq => by cases heq) fun hok => h hok.1

theorem toTarget_eq_error_iff :
    c.toTarget = .error t ↔ ¬c.Sound ∧ t.toNat = value c.size c.mantissa % 2 ^ 256 := by
  by_cases h : c.Sound
  · rw [toTarget_of_sound h]
    exact iff_of_false (fun heq => by cases heq) fun herror => herror.1 h
  · rw [toTarget_of_not_sound h, Except.error.injEq, magnitude_eq_iff, and_iff_right h]

/-- Decoding is exact. It succeeds with the encoded number if that fits a target and is not a
negative one, and fails with the low 256 bits of the number otherwise. The magnitude is what either
outcome carries, and each of the two flags says what it is named for. -/
theorem toTarget_exact (c : Compact) :
    let v := value c.size c.mantissa
    (∀ t, c.toTarget = .ok t ↔ (v < 2 ^ 256 ∧ ¬(c.sign = true ∧ v ≠ 0)) ∧ t.toNat = v) ∧
    (∀ t, c.toTarget = .error t ↔
      ¬(v < 2 ^ 256 ∧ ¬(c.sign = true ∧ v ≠ 0)) ∧ t.toNat = v % 2 ^ 256) ∧
    c.magnitude.toNat = v % 2 ^ 256 ∧
    (c.overflows = true ↔ 2 ^ 256 ≤ v) ∧
    (c.isNegative = true ↔ c.sign = true ∧ v ≠ 0) :=
  ⟨fun _ => toTarget_eq_ok_iff, fun _ => toTarget_eq_error_iff, toNat_magnitude c, overflows_iff,
    isNegative_iff⟩

/-- At a size of 34 a mantissa of one significant byte fits, and no longer one. -/
example : (Compact.mk 0x220000ff).toTarget = .ok (0xff <<< 248) ∧
    (Compact.mk 0x22000100).toTarget = .error 0 := by decide

end Retarget.Compact
