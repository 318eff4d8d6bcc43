import Mathlib.Data.Set.Operations
import Retarget.Proofs.Compact.Encoding

/-!
# The words that are encodings

Many words decode to the same number, and one of them is its encoding. `IsCanonical` describes
these words by their fields alone. `canonical_eq_iff` shows that they are the ones that decoding
and encoding leave as they are, so that no target has another encoding and no two of them encode
the same target. Encoding is monotone, hence canonical words are ordered like their targets.
-/

namespace Retarget.Compact

/-- The fields of an encoding of a number other than zero. The leading byte of the mantissa is
used, or the highest bit of the one below it, which as a leading bit would be taken for the sign.
No digit stands below the units, and none above the 32 bytes of a target. -/
structure IsNormal (c : Compact) : Prop where
  one_le_size : 1 ≤ c.size
  size_le : c.size ≤ 33
  le_mantissa : 0x8000 ≤ c.mantissa
  one_byte : c.size = 1 → c.mantissa % 2 ^ 16 = 0
  two_bytes : c.size = 2 → c.mantissa % 2 ^ 8 = 0
  top : c.size = 33 → c.mantissa ≤ 0xffff

/-- The form of an encoding. Zero takes one byte. -/
def IsCanonical (c : Compact) : Prop := c.sign = false ∧ (c = ⟨0x01000000⟩ ∨ c.IsNormal)

variable {c d : Compact}

instance : Decidable c.IsNormal :=
  decidable_of_iff
    (1 ≤ c.size ∧ c.size ≤ 33 ∧ 0x8000 ≤ c.mantissa ∧ (c.size = 1 → c.mantissa % 2 ^ 16 = 0) ∧
      (c.size = 2 → c.mantissa % 2 ^ 8 = 0) ∧ (c.size = 33 → c.mantissa ≤ 0xffff))
    ⟨fun ⟨h1, h2, h3, h4, h5, h6⟩ => ⟨h1, h2, h3, h4, h5, h6⟩,
      fun ⟨h1, h2, h3, h4, h5, h6⟩ => ⟨h1, h2, h3, h4, h5, h6⟩⟩

instance : Decidable c.IsCanonical := inferInstanceAs (Decidable (_ ∧ _))

theorem isCanonical_ofTarget (t : Target) : (ofTarget t).IsCanonical := by
  obtain ⟨hleading, hunits⟩ := hasNormalMantissa_ofTarget t
  refine ⟨sign_ofTarget t, hleading.symm.imp_right fun hmantissa => ?_⟩
  constructor
  case one_le_size => exact (isSize_ofTarget t).one_le
  case size_le => exact size_ofTarget_le t
  case le_mantissa => exact hmantissa
  case one_byte =>
    intro h
    rw [h] at hunits
    exact Nat.mod_eq_zero_of_dvd hunits
  case two_bytes =>
    intro h
    rw [h] at hunits
    exact Nat.mod_eq_zero_of_dvd hunits
  case top =>
    intro h
    have hfits := value_ofTarget_lt t
    rw [← Nat.not_le, two_pow_le_value_iff (mantissa_lt _)] at hfits
    omega

namespace IsCanonical

/-- No digit stands below the units. -/
theorem units (h : c.IsCanonical) : 256 ^ (3 - c.size) ∣ c.mantissa := by
  obtain ⟨-, rfl | h⟩ := h
  · decide
  · have := h.one_le_size
    rcases Nat.lt_or_ge c.size 3 with hs | hs
    · have hsize : c.size = 1 ∨ c.size = 2 := by omega
      rcases hsize with hs | hs
      · rw [hs]
        exact Nat.dvd_of_mod_eq_zero (h.one_byte hs)
      · rw [hs]
        exact Nat.dvd_of_mod_eq_zero (h.two_bytes hs)
    · rw [Nat.sub_eq_zero_of_le hs, pow_zero]
      exact Nat.one_dvd _

/-- None stands above the bytes of a target. -/
theorem value_lt (h : c.IsCanonical) : value c.size c.mantissa < 2 ^ 256 := by
  rw [← Nat.not_le, two_pow_le_value_iff c.mantissa_lt]
  obtain ⟨-, rfl | h⟩ := h
  · decide
  · have := h.size_le
    have := h.top
    omega

theorem isSize (h : c.IsCanonical) : IsSize c.size (value c.size c.mantissa) := by
  have hlead := lead_value h.units
  have hfits : 2 * value c.size c.mantissa < 256 ^ c.size := two_mul_value_lt c.size c.mantissa_lt
  obtain ⟨-, rfl | h⟩ := h
  · exact ⟨by decide, hfits, .inl (by decide)⟩
  · refine ⟨h.one_le_size, hfits, .inr ?_⟩
    obtain ⟨k, hk⟩ := Nat.exists_eq_add_of_le' h.one_le_size
    rw [hk] at hlead ⊢
    rw [Nat.add_sub_cancel, ← le_lead_iff, hlead]
    exact h.le_mantissa

theorem canonical_eq (h : c.IsCanonical) : c.canonical = c := by
  rw [canonical, ofTarget_eq_iff, toNat_magnitude, Nat.mod_eq_of_lt h.value_lt, lead_value h.units]
  exact ⟨h.1, h.isSize, rfl⟩

end IsCanonical

theorem canonical_eq_iff : c.canonical = c ↔ c.IsCanonical := by
  constructor
  · intro h
    rw [← h]
    exact isCanonical_ofTarget _
  · exact IsCanonical.canonical_eq

theorem range_ofTarget : Set.range ofTarget = {c | c.IsCanonical} := by
  ext c
  constructor
  · rintro ⟨t, rfl⟩
    exact isCanonical_ofTarget t
  · intro h
    exact ⟨c.magnitude, IsCanonical.canonical_eq h⟩

/-! ### Order -/

/-- The greater of two canonical words stands for the greater target, since encoding is monotone
and takes each target back to its word. -/
theorem IsCanonical.bits_le_iff (hc : c.IsCanonical) (hd : d.IsCanonical) :
    c.bits ≤ d.bits ↔ c.magnitude ≤ d.magnitude := by
  have mono : ∀ {x y : Compact}, x.IsCanonical → y.IsCanonical → x.magnitude ≤ y.magnitude →
      x.bits ≤ y.bits := by
    intro x y hx hy h
    have hbits := bits_ofTarget_mono h
    rwa [← canonical, ← canonical, hx.canonical_eq, hy.canonical_eq] at hbits
  constructor
  · intro h
    by_contra hlt
    have hbits := UInt32.le_antisymm h (mono hd hc (BitVec.le_of_lt (BitVec.not_le.1 hlt)))
    have heq : c = d := by
      cases c
      cases d
      exact congrArg mk hbits
    exact hlt (heq ▸ BitVec.le_refl _)
  · exact mono hc hd

theorem IsCanonical.bits_lt_iff (hc : c.IsCanonical) (hd : d.IsCanonical) :
    c.bits < d.bits ↔ c.magnitude < d.magnitude := by
  rw [← UInt32.not_le, ← BitVec.not_le, hd.bits_le_iff hc]

/-- The words that encoding produces are the canonical ones, and they are those that decoding and
encoding leave as they are. Encoding keeps the order of targets, and decoding the order of canonical
words. -/
theorem canonical_words :
    Set.range ofTarget = {c | c.IsCanonical} ∧
    (∀ c : Compact, ofTarget c.magnitude = c ↔ c.IsCanonical) ∧
    (∀ t u : Target, t ≤ u → (ofTarget t).bits ≤ (ofTarget u).bits) ∧
    ∀ c d : Compact, c.IsCanonical → d.IsCanonical →
      (c.bits < d.bits ↔ c.magnitude < d.magnitude) :=
  ⟨range_ofTarget, fun _ => canonical_eq_iff, fun _ _ => bits_ofTarget_mono,
    fun _ _ => IsCanonical.bits_lt_iff⟩

/-- The greatest word of a size and the least of the next are adjacent canonical words, although
there are words between them. -/
theorem canonical_words_adjacent_sizes :
    (Compact.mk 0x1d7fffff).IsCanonical ∧ (Compact.mk 0x1e008000).IsCanonical ∧
      ((0x1d7fffff : UInt32) < 0x1e008000 ↔
        (Compact.mk 0x1d7fffff).magnitude < (Compact.mk 0x1e008000).magnitude) ∧
      (Compact.mk 0x1d7fffff).magnitude ≤ (Compact.mk 0x1e008000).magnitude ∧
      (ofTarget (Compact.mk 0x1d7fffff).magnitude).bits ≤
        (ofTarget (Compact.mk 0x1e008000).magnitude).bits := by
  have hc : (Compact.mk 0x1d7fffff).IsCanonical := by decide
  have hd : (Compact.mk 0x1e008000).IsCanonical := by decide
  have hle : (Compact.mk 0x1d7fffff).magnitude ≤ (Compact.mk 0x1e008000).magnitude := by decide
  obtain ⟨-, -, mono, order⟩ := canonical_words
  exact ⟨hc, hd, order _ _ hc hd, hle, mono _ _ hle⟩

end Retarget.Compact
