import Retarget.Proofs.Compact.Decoding

/-!
# What encoding produces

A target is encoded at the least size whose bytes hold it with the highest bit unset, and
its mantissa is the leading three of those bytes. `ofTarget_eq_iff` says so, and the rest
follows from it: encoding is monotone, its results are normal, decoding one gives the
target without the bytes that are cut off, and what the mask of the result keeps of a
target encodes to the same result.
-/

namespace Retarget.Compact

/-- The least size, and at least one, whose bytes hold a number below their highest bit. -/
structure IsSize (size t : ℕ) : Prop where
  one_le : 1 ≤ size
  fits : 2 * t < 256 ^ size
  least : size = 1 ∨ 256 ^ (size - 1) ≤ 2 * t

/-- No other size that holds the number below its highest bit is smaller. -/
theorem IsSize.le_of_fits {m n t : ℕ} (hm : IsSize m t) (hn : 1 ≤ n) (ht : 2 * t < 256 ^ n) :
    m ≤ n := by
  rcases hm.least with hm1 | hm1
  · rwa [hm1]
  · have := (Nat.pow_lt_pow_iff_right (by decide)).1 (hm1.trans_lt ht)
    have := hm.one_le
    omega

theorem IsSize.mono {m n t u : ℕ} (hm : IsSize m t) (hn : IsSize n u) (h : t ≤ u) : m ≤ n :=
  hm.le_of_fits hn.one_le ((Nat.mul_le_mul_left 2 h).trans_lt hn.fits)

theorem IsSize.unique {m n t : ℕ} (hm : IsSize m t) (hn : IsSize n t) : m = n :=
  Nat.le_antisymm (hm.mono hn (Nat.le_refl t)) (hn.mono hm (Nat.le_refl t))

theorem IsSize.lt {n t : ℕ} (h : IsSize n t) : t < 256 ^ n :=
  (Nat.le_mul_of_pos_left t (by decide)).trans_lt h.fits

/-- A target takes at most one byte more than its own 32. -/
theorem IsSize.le_of_lt {n t : ℕ} (h : IsSize n t) (ht : t < 256 ^ 32) : n ≤ 33 := by
  have h33 : IsSize 33 (256 ^ 32 - 1) := ⟨by decide, by decide, .inr (by decide)⟩
  exact h.mono h33 (by omega)

/-- Cutting a number at its size leaves the size as it is. -/
theorem IsSize.cut {n t : ℕ} (h : IsSize n t) : IsSize n (cut n t) := by
  refine ⟨h.one_le, (Nat.mul_le_mul_left 2 (cut_le n t)).trans_lt h.fits, h.least.imp_right ?_⟩
  intro hl
  rcases Nat.le_total n 3 with hn | hn
  · rwa [cut_of_le hn]
  · obtain ⟨k, rfl⟩ := Nat.exists_eq_add_of_le hn
    have hpow : 256 ^ (3 + k - 1) = 2 * (128 * 256 * 256 ^ k) := by
      rw [show 3 + k - 1 = k + 2 by omega, pow_add]
      omega
    have hdvd : 256 ^ (3 + k - 3) ∣ 128 * 256 * 256 ^ k := by
      rw [Nat.add_sub_cancel_left]
      exact Nat.dvd_mul_left _ _
    rw [hpow] at hl ⊢
    exact Nat.mul_le_mul_left 2 (le_cut (fun _ => hdvd) (by omega))

/-! ### Fields -/

theorem toNat_bits (c : Compact) :
    c.bits.toNat = c.size * 0x1000000 + (if c.sign then 0x800000 else 0) + c.mantissa := by
  simp only [size, sign, mantissa, Nat.testBit_eq_decide_div_mod_eq, decide_eq_true_eq]
  split <;> omega

theorem ext_fields {c d : Compact} (hs : c.size = d.size) (hg : c.sign = d.sign)
    (hm : c.mantissa = d.mantissa) : c = d := by
  have h : c.bits = d.bits := by
    rw [← UInt32.toNat_inj, toNat_bits, toNat_bits, hs, hg, hm]
  cases c
  cases d
  cases h
  rfl

namespace Scaled

variable {s : Scaled}

theorem toNat_bits_pack (hs : s.size < 256) (hm : s.mantissa < 0x800000) :
    s.pack.bits.toNat = s.size * 0x1000000 + s.mantissa := by
  rw [pack, UInt32.toNat_ofNat']
  omega

theorem size_pack (hs : s.size < 256) (hm : s.mantissa < 0x800000) : s.pack.size = s.size := by
  rw [Compact.size, toNat_bits_pack hs hm]
  omega

theorem mantissa_pack (hs : s.size < 256) (hm : s.mantissa < 0x800000) :
    s.pack.mantissa = s.mantissa := by
  rw [Compact.mantissa, toNat_bits_pack hs hm]
  omega

theorem sign_pack (hs : s.size < 256) (hm : s.mantissa < 0x800000) : s.pack.sign = false := by
  rw [Compact.sign, toNat_bits_pack hs hm, Nat.testBit_eq_decide_div_mod_eq, decide_eq_false_iff_not]
  omega

end Scaled

/-! ### Encoding -/

theorem size_leadingBytes (t : Target) :
    1 ≤ (leadingBytes t).size ∧ t.toNat < 256 ^ (leadingBytes t).size ∧
      ((leadingBytes t).size = 1 ∨ 256 ^ ((leadingBytes t).size - 1) ≤ t.toNat) := by
  simp only [leadingBytes, Unsigned.bitLength]
  split
  · next h => simp [h]
  · next h =>
    have h0 : t.toNat ≠ 0 := fun e => h (BitVec.eq_of_toNat_eq e)
    generalize hn : max ((t.toNat.log2 + 1 + 7) / 8) 1 = n
    refine ⟨by omega, ?_, .inr ?_⟩
    · rw [← two_pow_eight_mul]
      exact Nat.lt_log2_self.trans_le (Nat.pow_le_pow_right (by decide) (by omega))
    · rw [← two_pow_eight_mul]
      exact (Nat.pow_le_pow_right (by decide) (by omega)).trans (Nat.log2_self_le h0)

theorem mantissa_leadingBytes (t : Target) :
    (leadingBytes t).mantissa = lead (leadingBytes t).size t.toNat := by
  simp only [leadingBytes]
  split
  · next h => rw [Nat.shiftLeft_eq, two_pow_eight_mul, lead_of_le h]
  · next h => rw [Nat.shiftRight_eq_div_pow, two_pow_eight_mul, lead_of_ge (by omega)]

/-- Giving up a byte where the sign bit is reached leads to the size of the target. -/
theorem clearSign_leadingBytes (t : Target) :
    IsSize (leadingBytes t).clearSign.size t.toNat ∧
      (leadingBytes t).clearSign.mantissa = lead (leadingBytes t).clearSign.size t.toNat := by
  obtain ⟨hpos, hlt, hle⟩ := size_leadingBytes t
  have hm := mantissa_leadingBytes t
  rw [Scaled.clearSign]
  split
  · next h =>
    rw [hm, lead_lt_sign_iff] at h
    exact ⟨⟨hpos, h, hle.imp_right (by omega)⟩, hm⟩
  · next h =>
    rw [hm, lead_lt_sign_iff] at h
    refine ⟨⟨Nat.le_add_left 1 _, ?_, .inr (by simpa using h)⟩, ?_⟩
    · change 2 * t.toNat < 256 ^ ((leadingBytes t).size + 1)
      rw [pow_succ]
      omega
    · rw [hm, Nat.shiftRight_eq_div_pow, lead_succ]

theorem size_clearSign_lt (t : Target) : (leadingBytes t).clearSign.size < 256 :=
  ((clearSign_leadingBytes t).1.le_of_lt t.isLt).trans_lt (by decide)

theorem mantissa_clearSign_lt (t : Target) : (leadingBytes t).clearSign.mantissa < 0x800000 := by
  obtain ⟨hsize, hmant⟩ := clearSign_leadingBytes t
  rw [hmant, lead_lt_sign_iff]
  exact hsize.fits

/-- The spec of encoding: a clear sign, the size of the target, and its leading bytes. -/
theorem ofTarget_eq_iff {t : Target} {c : Compact} :
    ofTarget t = c ↔
      c.sign = false ∧ IsSize c.size t.toNat ∧ c.mantissa = lead c.size t.toNat := by
  obtain ⟨hsize, hmant⟩ := clearSign_leadingBytes t
  have hs := size_clearSign_lt t
  have hm := mantissa_clearSign_lt t
  have sign : (ofTarget t).sign = false := Scaled.sign_pack hs hm
  have size : (ofTarget t).size = (leadingBytes t).clearSign.size := Scaled.size_pack hs hm
  have mantissa : (ofTarget t).mantissa = (leadingBytes t).clearSign.mantissa :=
    Scaled.mantissa_pack hs hm
  constructor
  · rintro rfl
    rw [size, mantissa]
    exact ⟨sign, hsize, hmant⟩
  · rintro ⟨hg, hc, hl⟩
    have hcs := hsize.unique hc
    exact ext_fields (size.trans hcs) (sign.trans hg.symm) (by rw [mantissa, hmant, hl, hcs])

@[simp] theorem sign_ofTarget (t : Target) : (ofTarget t).sign = false :=
  (ofTarget_eq_iff.1 rfl).1

theorem isSize_ofTarget (t : Target) : IsSize (ofTarget t).size t.toNat :=
  (ofTarget_eq_iff.1 rfl).2.1

theorem mantissa_ofTarget (t : Target) :
    (ofTarget t).mantissa = lead (ofTarget t).size t.toNat :=
  (ofTarget_eq_iff.1 rfl).2.2

theorem size_ofTarget_le (t : Target) : (ofTarget t).size ≤ 33 :=
  (isSize_ofTarget t).le_of_lt t.isLt

/-- An encoding stands for the target without the bytes that are cut off. -/
theorem value_ofTarget (t : Target) :
    value (ofTarget t).size (ofTarget t).mantissa = cut (ofTarget t).size t.toNat := by
  rw [mantissa_ofTarget, ← cut]

theorem value_ofTarget_lt (t : Target) :
    value (ofTarget t).size (ofTarget t).mantissa < 2 ^ 256 := by
  rw [value_ofTarget]
  exact (cut_le _ _).trans_lt t.isLt

theorem toNat_magnitude_ofTarget (t : Target) :
    (ofTarget t).magnitude.toNat = cut (ofTarget t).size t.toNat := by
  rw [toNat_magnitude, Nat.mod_eq_of_lt (value_ofTarget_lt t), value_ofTarget]

@[simp] theorem overflows_ofTarget (t : Target) : (ofTarget t).overflows = false := by
  rw [← Bool.not_eq_true, overflows_iff, not_le]
  exact value_ofTarget_lt t

theorem bits_ofTarget_mono {t u : Target} (h : t ≤ u) : (ofTarget t).bits ≤ (ofTarget u).bits := by
  have hsize := (isSize_ofTarget t).mono (isSize_ofTarget u) h
  have hm := (ofTarget t).mantissa_lt
  rw [UInt32.le_iff_toNat_le, toNat_bits, toNat_bits, sign_ofTarget, sign_ofTarget,
    if_neg Bool.false_ne_true]
  rcases hsize.lt_or_eq with hlt | heq
  · omega
  · have hlead : (ofTarget t).mantissa ≤ (ofTarget u).mantissa := by
      rw [mantissa_ofTarget, mantissa_ofTarget, heq]
      exact lead_mono _ h
    omega

/-! ### Normal form -/

/-- A normal mantissa starts with a nonzero byte, or with a zero byte before one that would
reach into the sign; only the encoding of zero is an exception. No digit lies below the
units. -/
structure HasNormalMantissa (c : Compact) : Prop where
  leading : 0x8000 ≤ c.mantissa ∨ c = ⟨0x01000000⟩
  units : 256 ^ (3 - c.size) ∣ c.mantissa

theorem hasNormalMantissa_ofTarget (t : Target) : (ofTarget t).HasNormalMantissa := by
  have hsize := isSize_ofTarget t
  refine ⟨?_, ?_⟩
  · rcases hsize.least with h | h
    · rcases Nat.eq_zero_or_pos t.toNat with h0 | h0
      · rw [ofTarget_eq_iff, h0]
        exact .inr ⟨by decide, ⟨by decide, by decide, .inl (by decide)⟩, by decide⟩
      · rw [mantissa_ofTarget, h, lead_of_le (by decide)]
        omega
    · obtain ⟨k, hk⟩ := Nat.exists_eq_add_of_le' hsize.one_le
      rw [hk, Nat.add_sub_cancel, ← le_lead_iff, ← hk, ← mantissa_ofTarget] at h
      exact .inl h
  · rcases Nat.le_total (ofTarget t).size 3 with h | h
    · rw [mantissa_ofTarget, lead_of_le h]
      exact Nat.dvd_mul_left _ _
    · rw [Nat.sub_eq_zero_of_le h, pow_zero]
      exact Nat.one_dvd _

theorem ofTarget_eq_of_cut {t u : Target} (h : t.toNat = cut (ofTarget u).size u.toNat) :
    ofTarget t = ofTarget u := by
  rw [ofTarget_eq_iff, h, lead_cut]
  exact ⟨sign_ofTarget u, (isSize_ofTarget u).cut, mantissa_ofTarget u⟩

end Retarget.Compact
