import Mathlib.Data.List.Forall2
import Mathlib.Data.Nat.Digits.Defs
import Mathlib.Tactic.Ring
import Retarget.Text.Numeral

/-!
# What is read as a number

A numeral is an optional plus sign and at least one digit, and its value is given by positional
notation. Reading a hexadecimal number accepts exactly the numerals of a value below the limit.
Since a value never shrinks when a digit is appended, it makes no difference that a number which
grows too large is refused in the middle of its digits.
-/

namespace Retarget.Numeral

/-- A hexadecimal digit of either case, and its value. -/
def IsHexDigit (c : Char) (d : Nat) : Prop :=
  d < 16 ∧ (c = Nat.digitChar d ∨ c = (Nat.digitChar d).toUpper)

/-- Digits, the most significant one first, and the number that they stand for. -/
def Spells (cs : List Char) (n : Nat) : Prop :=
  ∃ ds, List.Forall₂ IsHexDigit cs ds ∧ n = Nat.ofDigits 16 ds.reverse

def Denotes (cs : List Char) (n : Nat) : Prop :=
  ∃ sign digits, cs = sign ++ digits ∧ (sign = [] ∨ sign = ['+']) ∧ digits ≠ [] ∧ Spells digits n

variable {limit acc d n : Nat} {c : Char} {cs : List Char}

/-! ### Digits -/

theorem digitValue?_eq_some_iff {radix : Nat} :
    digitValue? radix c = some d ↔ d < radix ∧
      (c.toNat = d + 48 ∧ d < 10 ∨ (c.toNat = d + 87 ∨ c.toNat = d + 55) ∧ 10 ≤ d ∧ d < 36) := by
  have hle (a b : Char) : a ≤ b ↔ a.toNat ≤ b.toNat := UInt32.le_iff_toNat_le
  have h0 : '0'.toNat = 48 := rfl
  have h9 : '9'.toNat = 57 := rfl
  have ha : 'a'.toNat = 97 := rfl
  have hz : 'z'.toNat = 122 := rfl
  have hA : 'A'.toNat = 65 := rfl
  have hZ : 'Z'.toNat = 90 := rfl
  simp only [digitValue?, hle, h0, h9, ha, hz, hA, hZ, Option.filter_eq_some_iff,
    decide_eq_true_eq]
  rw [and_comm]
  refine and_congr_right fun _ => ?_
  split_ifs <;> simp only [Option.some.injEq, false_iff] <;> omega

theorem toNat_digitChar (hd : d < 16) :
    (Nat.digitChar d).toNat = (if d < 10 then d + 48 else d + 87) ∧
      (Nat.digitChar d).toUpper.toNat = if d < 10 then d + 48 else d + 55 := by
  have hall : ∀ d ∈ List.range 16,
      (Nat.digitChar d).toNat = (if d < 10 then d + 48 else d + 87) ∧
        (Nat.digitChar d).toUpper.toNat = if d < 10 then d + 48 else d + 55 := by decide
  exact hall d (List.mem_range.2 hd)

theorem isHexDigit_iff : IsHexDigit c d ↔ digitValue? 16 c = some d := by
  rw [digitValue?_eq_some_iff, IsHexDigit]
  refine and_congr_right fun hd => ?_
  rw [← Char.toNat_inj, ← Char.toNat_inj, (toNat_digitChar hd).1, (toNat_digitChar hd).2]
  split <;> omega

/-! ### Numbers -/

/-- A digit in front of others continues the number before it. -/
theorem ofDigits_reverse_cons (b acc d : Nat) (ds : List Nat) :
    acc * b ^ (d :: ds).length + Nat.ofDigits b (d :: ds).reverse =
      (acc * b + d) * b ^ ds.length + Nat.ofDigits b ds.reverse := by
  rw [List.reverse_cons, Nat.ofDigits_append, Nat.ofDigits_singleton, List.length_reverse,
    List.length_cons]
  ring

/-- The first digit joins the number before it, and the other digits continue that. -/
theorem exists_digits_cons (hd : digitValue? 16 c = some d) :
    (∃ ds, List.Forall₂ IsHexDigit (c :: cs) ds ∧
        n = acc * 16 ^ ds.length + Nat.ofDigits 16 ds.reverse) ↔
      ∃ ds, List.Forall₂ IsHexDigit cs ds ∧
        n = (acc * 16 + d) * 16 ^ ds.length + Nat.ofDigits 16 ds.reverse := by
  constructor
  · rintro ⟨_, hds, hn⟩
    obtain ⟨d', ds, hc, hcs, rfl⟩ := List.forall₂_cons_left_iff.1 hds
    cases hd.symm.trans (isHexDigit_iff.1 hc)
    exact ⟨ds, hcs, hn.trans (ofDigits_reverse_cons 16 acc d ds)⟩
  · rintro ⟨ds, hcs, hn⟩
    exact ⟨d :: ds, .cons (isHexDigit_iff.2 hd) hcs,
      hn.trans (ofDigits_reverse_cons 16 acc d ds).symm⟩

/-- Digits are read exactly if the number stays below the limit to the end. By induction on the
digits: a number that has reached the limit exceeds it ever after. -/
theorem accumulate_eq_ok_iff (hacc : acc < limit) :
    accumulate 16 limit acc cs = .ok n ↔
      n < limit ∧ ∃ ds, List.Forall₂ IsHexDigit cs ds ∧
        n = acc * 16 ^ ds.length + Nat.ofDigits 16 ds.reverse := by
  induction cs generalizing acc with
  | nil =>
      constructor
      · intro h
        cases h
        exact ⟨hacc, [], .nil, by simp⟩
      · rintro ⟨-, ds, hds, rfl⟩
        cases hds
        simp
  | cons c cs ih =>
      cases hd : digitValue? 16 c with
      | none =>
          simp only [accumulate, hd]
          refine iff_of_false (fun h => by cases h) ?_
          rintro ⟨-, ds, hds, -⟩
          obtain ⟨d, _, hc, -, -⟩ := List.forall₂_cons_left_iff.1 hds
          cases hd.symm.trans (isHexDigit_iff.1 hc)
      | some d =>
          rw [exists_digits_cons hd]
          simp only [accumulate, hd]
          split
          · next hlt => exact ih hlt
          · next hge =>
            refine iff_of_false (fun h => by cases h) ?_
            rintro ⟨hn, ds, -, rfl⟩
            have hpow := Nat.le_mul_of_pos_right (acc * 16 + d) (Nat.pow_pos (n := ds.length)
              (by decide : 0 < 16))
            omega

/-- From nothing before them, digits are read as the number that they spell. -/
theorem accumulate_zero (hlimit : 0 < limit) :
    accumulate 16 limit 0 cs = .ok n ↔ n < limit ∧ Spells cs n := by
  simp only [accumulate_eq_ok_iff hlimit, Nat.zero_mul, Nat.zero_add, Spells]

theorem not_spells_plus : ¬ Spells ('+' :: cs) n := by
  rintro ⟨ds, hds, -⟩
  obtain ⟨d, _, hc, -, -⟩ := List.forall₂_cons_left_iff.1 hds
  cases isHexDigit_iff.1 hc

theorem denotes_plus : Denotes ('+' :: cs) n ↔ cs ≠ [] ∧ Spells cs n := by
  constructor
  · rintro ⟨_, digits, hcs, rfl | rfl, hne, hdigits⟩
    · rw [List.nil_append] at hcs
      exact absurd (hcs ▸ hdigits) not_spells_plus
    · cases hcs
      exact ⟨hne, hdigits⟩
  · rintro ⟨hne, hcs⟩
    exact ⟨['+'], cs, rfl, .inr rfl, hne, hcs⟩

/-- Without a sign in front, a numeral consists of digits. -/
theorem denotes_iff_spells (hsign : ∀ digits, cs ≠ '+' :: digits) :
    Denotes cs n ↔ cs ≠ [] ∧ Spells cs n := by
  constructor
  · rintro ⟨_, digits, hcs, rfl | rfl, hne, hdigits⟩
    · rw [List.nil_append] at hcs
      exact hcs ▸ ⟨hne, hdigits⟩
    · exact absurd hcs (hsign digits)
  · rintro ⟨hne, hcs⟩
    exact ⟨[], cs, rfl, .inl rfl, hne, hcs⟩

theorem read_eq_ok_iff (hlimit : 0 < limit) :
    read 16 limit cs = .ok n ↔ n < limit ∧ Denotes cs n := by
  unfold read
  split
  · exact iff_of_false (fun h => by cases h) fun h =>
      ((denotes_iff_spells (by simp)).1 h.2).1 rfl
  · exact iff_of_false (fun h => by cases h) fun h => (denotes_plus.1 h.2).1 rfl
  · next cs hcs =>
    rw [accumulate_zero hlimit, denotes_plus]
    exact and_congr_right fun _ => (and_iff_right hcs).symm
  · next hnil _ hsign =>
    rw [accumulate_zero hlimit, denotes_iff_spells hsign]
    exact and_congr_right fun _ => (and_iff_right hnil).symm

end Retarget.Numeral
