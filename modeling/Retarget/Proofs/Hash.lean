import Retarget.Hash
import Retarget.Proofs.Text.Hex

/-!
# The texts of hashes

A hash is written with its bytes in order or in reverse, and for either order there is a reader that
undoes the writer. It accepts exactly the texts of 32 bytes, so blanks and the case of the digits
make no difference, and says of every other text what is wrong with it.
-/

namespace Retarget.Hash

open Hex

/-- What is wrong with a text of no hash. A foreign character is reported whatever the length. -/
inductive Misfit (text : String) : Fault → Prop where
  | foreign {c : Char} {offset : Nat} (first : FirstForeign text.toList c offset) :
      Misfit text (.invalidCharacter c offset)
  | length (clean : ∀ c ∈ text.toList, ¬IsForeign c)
      (size : (significant text.toList).length ≠ 64) : Misfit text .invalidLength

/-- A reader and a writer of hashes that go with one order of the bytes. -/
structure Reads (order : List UInt8 → List UInt8) (read : String → Except Fault Hash)
    (write : Hash → String) : Prop where
  /-- What is written is read back. -/
  undoes : ∀ h, read (write h) = .ok h
  /-- The digits stand for the bytes in the order. -/
  digits : ∀ text h, read text = .ok h ↔ Denotes text.toList (order h.bytes)
  /-- A text is accepted if it has 64 digits and else only blanks. -/
  accepts : ∀ text, (∃ h, read text = .ok h) ↔
    (significant text.toList).length = 64 ∧ ∀ c ∈ significant text.toList, IsDigit c
  /-- The hash is written with the digits of the text in lower case. -/
  lower : ∀ text h, read text = .ok h →
    (write h).toList = (significant text.toList).map Char.toLower
  /-- Any other text is refused for what is wrong with it. -/
  refuses : ∀ text fault, read text = .error fault ↔ Misfit text fault

variable {text : String} {h : Hash} {bytes : List UInt8} {fault : Fault}

@[simp] theorem toList_toText (h : Hash) : h.toText.toList = encode h.bytes :=
  String.toList_ofList

theorem ofBytes?_eq_some_iff : ofBytes? bytes = some h ↔ bytes = h.bytes := by
  constructor
  · intro hbytes
    rw [ofBytes?] at hbytes
    split at hbytes <;> cases hbytes
    rfl
  · rintro rfl
    exact ofBytes?_bytes h

theorem ofBytes?_eq_none_iff : ofBytes? bytes = none ↔ bytes.length ≠ 32 := by
  simp [ofBytes?]

theorem parse_eq_ok_iff : parse text = .ok h ↔ Denotes text.toList h.bytes := by
  rw [← decode_eq_ok_iff, parse]
  cases Hex.decode text.toList with
  | error fault => simp
  | ok bytes =>
      rw [Except.ok.injEq, ← ofBytes?_eq_some_iff]
      cases hbytes : ofBytes? bytes <;> simp [hbytes]

/-- What is refused is no text of bytes, or the bytes are no hash. -/
theorem parse_eq_error_iff_decode : parse text = .error fault ↔
    Hex.decode text.toList = .error fault ∨
      ∃ bytes, Hex.decode text.toList = .ok bytes ∧ bytes.length ≠ 32 ∧
        fault = .invalidLength := by
  simp only [parse, ← ofBytes?_eq_none_iff]
  cases Hex.decode text.toList with
  | error fault => simp
  | ok bytes => cases hbytes : ofBytes? bytes <;> simp [hbytes, eq_comm]

theorem parse_eq_error_iff : parse text = .error fault ↔ Misfit text fault := by
  rw [parse_eq_error_iff_decode]
  constructor
  · rintro (hdecode | ⟨bytes, hdecode, hlength, rfl⟩)
    · obtain ⟨c, n, first, rfl⟩ | ⟨clean, hodd, rfl⟩ := decode_eq_error_iff.1 hdecode
      · exact .foreign first
      · exact .length clean (by omega)
    · have hdenotes := decode_eq_ok_iff.1 hdecode
      have hsize := hdenotes.length_significant
      exact .length (forall_isDigit_iff.1 hdenotes.isDigit) (by omega)
  · intro hmisfit
    cases hmisfit with
    | foreign first => exact .inl (decode_eq_error_iff.2 (.inl ⟨_, _, first, rfl⟩))
    | length clean size =>
        cases hdecode : Hex.decode text.toList with
        | error fault =>
            obtain ⟨c, n, first, rfl⟩ | ⟨-, -, rfl⟩ := decode_eq_error_iff.1 hdecode
            · exact absurd first.isForeign (clean c first.mem)
            · exact .inl rfl
        | ok bytes =>
            have hsize := (decode_eq_ok_iff.1 hdecode).length_significant
            exact .inr ⟨bytes, rfl, by omega, rfl⟩

theorem exists_parse_iff : (∃ h, parse text = .ok h) ↔
    (significant text.toList).length = 64 ∧ ∀ c ∈ significant text.toList, IsDigit c := by
  constructor
  · rintro ⟨h, hparse⟩
    have hdenotes := parse_eq_ok_iff.1 hparse
    exact ⟨by rw [hdenotes.length_significant, h.length_bytes], hdenotes.isDigit⟩
  · rintro ⟨hsize, hdigits⟩
    cases hparse : parse text with
    | ok h => exact ⟨h, rfl⟩
    | error fault =>
        cases parse_eq_error_iff.1 hparse with
        | foreign first =>
            exact absurd first.isForeign (forall_isDigit_iff.1 hdigits _ first.mem)
        | length _ size => exact absurd hsize size

theorem byte_reversed (h : Hash) (i : Fin 32) : h.reversed.byte i = h.byte i.rev := by
  have hplace : h.bytes.length - 1 - i = 32 - (i + 1) := by
    have := h.length_bytes
    omega
  simp only [byte, List.get_eq_getElem, Fin.val_cast, Fin.val_rev]
  exact (List.getElem_reverse _).trans (getElem_congr_idx hplace)

theorem reads_parse : Reads id parse toText where
  undoes h := by
    rw [parse_eq_ok_iff, toList_toText]
    exact denotes_encode h.bytes
  digits _ _ := parse_eq_ok_iff
  accepts _ := exists_parse_iff
  lower text h hparse := by
    rw [toList_toText]
    exact (denotes_iff.1 (parse_eq_ok_iff.1 hparse)).symm
  refuses _ _ := parse_eq_error_iff

theorem parseReversed_eq_ok_iff : parseReversed text = .ok h ↔ parse text = .ok h.reversed := by
  rw [parseReversed, map_eq_ok_iff]
  constructor
  · rintro ⟨h, hparse, rfl⟩
    rw [reversed_reversed, hparse]
  · intro hparse
    exact ⟨h.reversed, hparse, reversed_reversed h⟩

/-- The bytes are reversed on both ways, so the other order is read as well as the plain one. -/
theorem reads_parseReversed : Reads List.reverse parseReversed toReversedText where
  undoes h := parseReversed_eq_ok_iff.2 (reads_parse.undoes h.reversed)
  digits text h := parseReversed_eq_ok_iff.trans (reads_parse.digits text h.reversed)
  accepts text := by
    simp only [parseReversed_eq_ok_iff]
    rw [← exists_parse_iff]
    constructor
    · rintro ⟨h, hparse⟩
      exact ⟨h.reversed, hparse⟩
    · rintro ⟨h, hparse⟩
      exact ⟨h.reversed, by rw [reversed_reversed, hparse]⟩
  lower text h hparse := reads_parse.lower text h.reversed (parseReversed_eq_ok_iff.1 hparse)
  refuses text fault := map_eq_error_iff.trans (reads_parse.refuses text fault)

/-- Both orders of the bytes are read back from what is written, and from every text that differs
from it in blanks and in the case of digits. Either order is the reverse of the other. -/
theorem reads_both_orders :
    Reads id parse toText ∧ Reads List.reverse parseReversed toReversedText ∧
    ∀ h : Hash, h.reversed.reversed = h ∧ ∀ i, h.reversed.byte i = h.byte i.rev :=
  ⟨reads_parse, reads_parseReversed, fun h => ⟨reversed_reversed h, h.byte_reversed⟩⟩

/-- Blanks may stand within a byte, and a foreign character counts before a missing digit. -/
example : parse "f F\t0" = .error .invalidLength ∧
    parseReversed "f F\tx0" = .error (.invalidCharacter 'x' 4) := by decide

end Retarget.Hash
