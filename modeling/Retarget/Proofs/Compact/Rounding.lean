import Mathlib.Order.Bounds.Basic
import Retarget.Proofs.Compact.Canonical
import Retarget.Proofs.Compact.Words

/-!
# Encoding rounds down

The number that the encoding of a target stands for is the target rounded down. Rounding is monotone
and leaves every number as it is that some word decodes to, so no such number lies between a target
and what it is rounded to. What is lost are bytes at the low end, less than one part in `2 ^ 15` of
the target, and none that the mask of the encoding selects.
-/

namespace Retarget.Compact

/-- A target at the precision of its encoding. -/
def rounded (t : Target) : Target := (ofTarget t).magnitude

variable {c : Compact} {t u : Target}

theorem toNat_rounded (t : Target) : (rounded t).toNat = cut (ofTarget t).size t.toNat :=
  toNat_magnitude_ofTarget t

theorem toTarget_ofTarget (t : Target) : (ofTarget t).toTarget = .ok (rounded t) := by
  apply toTarget_of_sound
  refine ⟨value_ofTarget_lt t, fun h => ?_⟩
  rw [sign_ofTarget] at h
  exact Bool.false_ne_true h.1

theorem rounded_le (t : Target) : rounded t ≤ t := by
  rw [BitVec.le_def, toNat_rounded]
  exact cut_le _ _

theorem rounded_mono (h : t ≤ u) : rounded t ≤ rounded u :=
  ((isCanonical_ofTarget t).bits_le_iff (isCanonical_ofTarget u)).1 (bits_ofTarget_mono h)

/-- What some word decodes to has no digits that its own encoding cuts off, since the size of that
is no greater than the size of the word. -/
theorem rounded_of_toTarget (h : c.toTarget = .ok u) : rounded u = u := by
  obtain ⟨-, hu⟩ := toTarget_eq_ok_iff.1 h
  apply BitVec.eq_of_toNat_eq
  rw [toNat_rounded]
  apply Nat.le_antisymm (cut_le _ _)
  refine le_cut (fun hs => ?_) (Nat.le_refl _)
  rcases Nat.eq_zero_or_pos c.size with hzero | hpos
  · have hvalue := two_mul_value_lt 0 c.mantissa_lt
    rw [hzero] at hu
    have hu0 : u.toNat = 0 := by omega
    rw [hu0]
    exact Nat.dvd_zero _
  · have hsize : (ofTarget u).size ≤ c.size := by
      apply (isSize_ofTarget u).le_of_fits hpos
      rw [hu]
      exact two_mul_value_lt c.size c.mantissa_lt
    rw [hu]
    exact dvd_value hs hsize c.mantissa

/-- A target is rounded to the greatest number not above it that any word decodes to. -/
theorem isGreatest_rounded (t : Target) :
    IsGreatest {u | u ≤ t ∧ ∃ c : Compact, c.toTarget = .ok u} (rounded t) := by
  constructor
  · exact ⟨rounded_le t, ofTarget t, toTarget_ofTarget t⟩
  · rintro u ⟨hle, c, hc⟩
    rw [← rounded_of_toTarget hc]
    exact rounded_mono hle

/-- Rounding clears the low bytes, if the size leaves any. -/
theorem rounded_eq_shift (t : Target) :
    rounded t =
      if (ofTarget t).size ≤ 3 then t
      else t >>> (8 * ((ofTarget t).size - 3)) <<< (8 * ((ofTarget t).size - 3)) := by
  apply BitVec.eq_of_toNat_eq
  rw [toNat_rounded]
  split
  · next h => exact cut_of_le h _
  · next h =>
    have hle : t.toNat / 256 ^ ((ofTarget t).size - 3) * 256 ^ ((ofTarget t).size - 3) ≤ t.toNat :=
      Nat.div_mul_le_self _ _
    rw [BitVec.toNat_shiftLeft, BitVec.toNat_ushiftRight, Nat.shiftLeft_eq,
      Nat.shiftRight_eq_div_pow, two_pow_eight_mul, Nat.mod_eq_of_lt (hle.trans_lt t.isLt)]
    exact cut_of_ge (by omega) _

/-- What is lost is less than a unit of the last byte that is kept, and a target that loses anything
is at least `2 ^ 15` such units. -/
theorem sub_rounded_lt (h : rounded t < t) :
    t.toNat - (rounded t).toNat < t.toNat / 2 ^ 15 := by
  rw [BitVec.lt_def, toNat_rounded] at h
  rw [toNat_rounded]
  have hsize : 3 < (ofTarget t).size := by
    by_contra hle
    rw [cut_of_le (not_lt.1 hle)] at h
    exact Nat.lt_irrefl _ h
  obtain ⟨k, hk⟩ := Nat.exists_eq_add_of_lt hsize
  have hk3 : (ofTarget t).size - 3 = k + 1 := by omega
  have hlow : t.toNat - cut (ofTarget t).size t.toNat < 256 ^ (k + 1) := by
    have := Nat.mod_lt t.toNat (show 256 ^ (k + 1) > 0 by positivity)
    have := Nat.div_add_mod' t.toNat (256 ^ (k + 1))
    rw [cut_of_ge hsize.le, hk3]
    omega
  have hleast : 256 ^ (k + 3) ≤ 2 * t.toNat := by
    have := (isSize_ofTarget t).least
    rw [show (ofTarget t).size - 1 = k + 3 by omega] at this
    omega
  refine hlow.trans_le ((Nat.le_div_iff_mul_le (by positivity)).2 ?_)
  have hpow : 256 ^ (k + 3) = 2 * (256 ^ (k + 1) * 2 ^ 15) := by
    rw [pow_succ, pow_succ]
    omega
  omega

/-- The mask of an encoding selects none of the bytes that are lost. -/
theorem masked_rounded (t : Target) : (ofTarget t).masked (rounded t) = (ofTarget t).masked t := by
  have ht : t.toNat < 256 ^ (ofTarget t).size := (isSize_ofTarget t).lt
  apply BitVec.eq_of_toNat_eq
  rw [toNat_masked, toNat_masked, toNat_rounded, Nat.mod_eq_of_lt ht,
    Nat.mod_eq_of_lt ((cut_le _ _).trans_lt ht), cut_cut]

/-- Encoding never fails a check of its parts, and the encoding of a target decodes to the greatest
decodable number that does not exceed the target. At a size of up to three bytes that is the target
itself, and at a greater one the target with as many low bytes cleared as the size is above three.
A number that is less than the target is so by less than the target over `2 ^ 15`, and it has the
same bits where the mask of the encoding selects them. -/
theorem ofTarget_rounds_down (t : Target) :
    let c := ofTarget t
    ofTarget? t = some c ∧
      ∃ d, c.toTarget = .ok d ∧
        IsGreatest {u | u ≤ t ∧ ∃ b : Compact, b.toTarget = .ok u} d ∧
        d = (if c.size ≤ 3 then t else t >>> (8 * (c.size - 3)) <<< (8 * (c.size - 3))) ∧
        (d < t → t.toNat - d.toNat < t.toNat / 2 ^ 15) ∧
        d &&& c.precisionMask = t &&& c.precisionMask :=
  ⟨ofTarget?_eq_some t, rounded t, toTarget_ofTarget t, isGreatest_rounded t, rounded_eq_shift t,
    sub_rounded_lt, masked_rounded t⟩

/-- The greatest target takes a byte more than it has, and its mask is cut off at the width. -/
theorem ofTarget_rounds_down_greatest :
    let t : Target := BitVec.allOnes 256
    ofTarget? t = some ⟨0x2100ffff⟩ ∧ 0xffff <<< 240 < t ∧
      t.toNat - ((0xffff : Target) <<< 240).toNat < t.toNat / 2 ^ 15 := by
  intro t
  have hc : ofTarget t = ⟨0x2100ffff⟩ := by decide +kernel
  have hlt : (0xffff : Target) <<< 240 < t := by decide
  obtain ⟨henc, d, -, -, hd, hlost, -⟩ := ofTarget_rounds_down t
  rw [hc] at henc hd
  have hd240 : d = 0xffff <<< 240 := hd.trans (by decide +kernel)
  rw [hd240] at hlost
  exact ⟨henc, hlt, hlost hlt⟩

end Retarget.Compact
