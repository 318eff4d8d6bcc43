import Mathlib.Algebra.Group.Nat.Defs
import Retarget.Compact.Text

/-!
# Reading what is written

The text of a compact target is the marker and eight digits. Only one marker is dropped,
since no digit is an `x`, there is no sign in front of the digits, and the digits read back
as the number they were written from.
-/

namespace Retarget

namespace Numeral

theorem digitValue?_digitChar {d : Nat} (hd : d < 16) :
    digitValue? 16 (Nat.digitChar d) = some d := by
  have hall : ∀ d ∈ List.range 16, digitValue? 16 (Nat.digitChar d) = some d := by decide
  exact hall d (List.mem_range.2 hd)

/-- Fixed-width digits continue a number as positional notation says, by induction on the
number of digits. -/
theorem accumulate_hexDigits (limit k n acc : Nat)
    (hlimit : acc * 16 ^ k + n % 16 ^ k < limit) :
    accumulate 16 limit acc (hexDigits k n) = .ok (acc * 16 ^ k + n % 16 ^ k) := by
  induction k generalizing n with
  | zero =>
      rw [hexDigits, accumulate_nil, Nat.pow_zero, Nat.mul_one, Nat.mod_one, Nat.add_zero]
  | succ k ih =>
      have hlast : (acc * 16 ^ k + n / 16 % 16 ^ k) * 16 + n % 16 =
          acc * 16 ^ (k + 1) + n % 16 ^ (k + 1) := by
        rw [Nat.pow_succ, Nat.mul_comm (16 ^ k) 16, Nat.mod_mul, Nat.add_mul,
          Nat.mul_assoc acc, Nat.mul_comm (16 ^ k) 16]
        omega
      rw [← hlast] at hlimit ⊢
      have hdigit := digitValue?_digitChar (Nat.mod_lt n (by decide : 16 > 0))
      rw [hexDigits, accumulate_append, ih (n / 16) (by omega)]
      simp only [Except.bind, accumulate, hdigit]
      rw [if_pos hlimit]

theorem mem_hexDigits {k n : Nat} {c : Char} (hc : c ∈ hexDigits k n) :
    ∃ d < 16, c = Nat.digitChar d := by
  induction k generalizing n with
  | zero => cases hc
  | succ k ih =>
      rw [hexDigits, List.mem_append, List.mem_singleton] at hc
      rcases hc with hc | hc
      · exact ih hc
      · exact ⟨n % 16, Nat.mod_lt n (by decide), hc⟩

theorem not_mem_hexDigits {k n : Nat} {c : Char} (hc : digitValue? 16 c = none) :
    c ∉ hexDigits k n := by
  intro hmem
  obtain ⟨d, hd, rfl⟩ := mem_hexDigits hmem
  rw [digitValue?_digitChar hd] at hc
  cases hc

theorem read_eq_accumulate {radix limit : Nat} {cs : List Char} (hne : cs ≠ [])
    (hsign : '+' ∉ cs) : read radix limit cs = accumulate radix limit 0 cs := by
  unfold read
  split
  · exact absurd rfl hne
  · exact absurd (List.mem_singleton_self _) hsign
  · exact absurd List.mem_cons_self hsign
  · rfl

end Numeral

namespace Compact

/-- There is no marker without its second character. -/
theorem dropMarkers_eq_self {cs : List Char} (hx : 'x' ∉ cs) : dropMarkers cs = cs := by
  unfold dropMarkers
  split
  · exact absurd (List.mem_cons_of_mem _ List.mem_cons_self) hx
  · rfl

theorem parse_toText (c : Compact) : parse c.toText = .ok c := by
  have hlt := c.bits.toNat_lt
  have hchars : c.toText.toList = '0' :: 'x' :: Numeral.hexDigits 8 c.bits.toNat := by
    rw [toText, Numeral.hexWord, String.toList_append, String.toList_ofList,
      String.toList_ofList]
    rfl
  have hne : Numeral.hexDigits 8 c.bits.toNat ≠ [] := by
    intro hnil
    have hlength := Numeral.length_hexDigits 8 c.bits.toNat
    rw [hnil] at hlength
    cases hlength
  have hread : Numeral.accumulate 16 UInt32.size 0 (Numeral.hexDigits 8 c.bits.toNat) =
      .ok c.bits.toNat := by
    have hmod : 0 * 16 ^ 8 + c.bits.toNat % 16 ^ 8 = c.bits.toNat := by
      rw [Nat.zero_mul, Nat.zero_add]
      exact Nat.mod_eq_of_lt hlt
    have hdigits := Numeral.accumulate_hexDigits UInt32.size 8 c.bits.toNat 0
    rw [hmod] at hdigits
    exact hdigits hlt
  rw [parse, hchars, dropMarkers, dropMarkers_eq_self (Numeral.not_mem_hexDigits (by decide)),
    Numeral.read_eq_accumulate hne (Numeral.not_mem_hexDigits (by decide)), hread]
  simp only [UInt32.ofNat_toNat]

end Compact

end Retarget
