import Retarget.Proofs.Text.Numeral
import Retarget.Text.Hex

/-!
# What is read as a byte string

A text of bytes consists of digits of either case, two for the halves of each byte, and of blanks,
which mean nothing wherever they stand. Reading accepts exactly these texts, and they are the ones
that become the written form when the blanks are left out and the digits are taken in lower case. Of
the other texts, one with a foreign character is refused for the first of these, and one without for
its odd number of digits.
-/

namespace Retarget.Hex

open Numeral

def blanks : List Char := [' ', '\t', '\r', '\n']

def significant (cs : List Char) : List Char := cs.filter (· ∉ blanks)

def IsDigit (c : Char) : Prop := ∃ d, IsHexDigit c d

/-- A character that has no place in a text of bytes. -/
def IsForeign (c : Char) : Prop := c ∉ blanks ∧ ¬IsDigit c

/-- The first foreign character of a text and the size in UTF-8 of what stands before it. -/
def FirstForeign (cs : List Char) (c : Char) (offset : Nat) : Prop :=
  ∃ front back, cs = front ++ c :: back ∧ (∀ b ∈ front, ¬IsForeign b) ∧ IsForeign c ∧
    offset = (String.ofList front).utf8ByteSize

/-- The halves of all bytes, the high one of each in front. -/
def halves (bytes : List UInt8) : List Nat :=
  bytes.flatMap fun b => [b.toNat / 16, b.toNat % 16]

/-- A text and the bytes that its digits stand for. -/
def Denotes (cs : List Char) (bytes : List UInt8) : Prop :=
  List.Forall₂ IsHexDigit (significant cs) (halves bytes)

variable {cs : List Char} {b c : Char} {ds : List Nat} {d offset : Nat} {bytes : List UInt8}
  {fault : Fault}

/-! ### Blanks and foreign characters -/

theorem isSkipped_iff : isSkipped c = true ↔ c ∈ blanks := by
  simp [isSkipped, blanks, or_assoc]

@[simp] theorem significant_nil : significant [] = [] := rfl

theorem significant_cons_blank (hc : c ∈ blanks) : significant (c :: cs) = significant cs :=
  List.filter_cons_of_neg (by simpa using hc)

theorem significant_cons (hc : c ∉ blanks) : significant (c :: cs) = c :: significant cs :=
  List.filter_cons_of_pos (by simpa using hc)

theorem IsDigit.notMem_blanks (h : IsDigit c) : c ∉ blanks := by
  obtain ⟨d, hd⟩ := h
  intro hc
  have hnone : digitValue? 16 c = none := by
    simp only [blanks, List.mem_cons, List.not_mem_nil, or_false] at hc
    obtain rfl | rfl | rfl | rfl := hc <;> rfl
  cases hnone.symm.trans (isHexDigit_iff.1 hd)

theorem isForeign_iff (hc : c ∉ blanks) : IsForeign c ↔ digitValue? 16 c = none := by
  simp only [IsForeign, IsDigit, hc, isHexDigit_iff, not_false_eq_true, true_and, not_exists,
    Option.eq_none_iff_forall_ne_some, ne_eq]

/-- No foreign character means that all but the blanks are digits. -/
theorem forall_isDigit_iff : (∀ c ∈ significant cs, IsDigit c) ↔ ∀ c ∈ cs, ¬IsForeign c := by
  simp only [significant, List.mem_filter, decide_eq_true_eq, IsForeign, not_and, not_not, and_imp]

theorem FirstForeign.mem (h : FirstForeign cs c offset) : c ∈ cs := by
  obtain ⟨front, back, rfl, -⟩ := h
  exact List.mem_append_right front List.mem_cons_self

theorem FirstForeign.isForeign (h : FirstForeign cs c offset) : IsForeign c := by
  obtain ⟨_, _, -, -, hc, -⟩ := h
  exact hc

theorem not_firstForeign_nil : ¬FirstForeign [] c offset :=
  fun h => List.not_mem_nil h.mem

theorem firstForeign_cons_of_isForeign (hb : IsForeign b) :
    FirstForeign (b :: cs) c offset ↔ c = b ∧ offset = 0 := by
  constructor
  · rintro ⟨front, back, hcs, hfront, -, hoffset⟩
    cases front with
    | nil =>
        cases hcs
        exact ⟨rfl, hoffset⟩
    | cons _ front =>
        cases hcs
        exact absurd hb (hfront _ List.mem_cons_self)
  · rintro ⟨rfl, rfl⟩
    exact ⟨[], cs, rfl, by simp, hb, rfl⟩

theorem utf8ByteSize_ofList_cons (b : Char) (cs : List Char) :
    (String.ofList (b :: cs)).utf8ByteSize = b.utf8Size + (String.ofList cs).utf8ByteSize := by
  rw [← List.singleton_append, String.ofList_append, ← String.singleton_eq_ofList,
    String.utf8ByteSize_append, String.utf8ByteSize_singleton]

theorem firstForeign_cons (hb : ¬IsForeign b) :
    FirstForeign (b :: cs) c offset ↔ ∃ n, FirstForeign cs c n ∧ offset = b.utf8Size + n := by
  constructor
  · rintro ⟨front, back, hcs, hfront, hc, rfl⟩
    cases front with
    | nil =>
        cases hcs
        exact absurd hc hb
    | cons _ front =>
        cases hcs
        exact ⟨_, ⟨front, back, rfl, (List.forall_mem_cons.1 hfront).2, hc, rfl⟩,
          utf8ByteSize_ofList_cons b front⟩
  · rintro ⟨_, ⟨front, back, rfl, hfront, hc, rfl⟩, rfl⟩
    exact ⟨b :: front, back, rfl, List.forall_mem_cons.2 ⟨hb, hfront⟩, hc,
      (utf8ByteSize_ofList_cons b front).symm⟩

/-- A report on a text is the report on what follows its first character, unless that character
is the one to report. -/
theorem exists_firstForeign_cons (hb : ¬IsForeign b) :
    (∃ c n, FirstForeign (b :: cs) c n ∧ fault = .invalidCharacter c (offset + n)) ↔
      ∃ c n, FirstForeign cs c n ∧ fault = .invalidCharacter c (offset + b.utf8Size + n) := by
  simp only [firstForeign_cons hb]
  constructor
  · rintro ⟨c, _, ⟨n, hc, rfl⟩, rfl⟩
    exact ⟨c, n, hc, by rw [Nat.add_assoc]⟩
  · rintro ⟨c, n, hc, rfl⟩
    exact ⟨c, _, ⟨n, hc, rfl⟩, by rw [Nat.add_assoc]⟩

/-! ### Outcomes -/

section

variable {ε α β : Type} {x : Except ε α} {y : β} {e : ε}

theorem map_eq_ok_iff {f : α → β} : x.map f = .ok y ↔ ∃ a, x = .ok a ∧ f a = y := by
  cases x <;> simp [Except.map]

theorem map_eq_error_iff {f : α → β} : x.map f = .error e ↔ x = .error e := by
  cases x <;> simp [Except.map]

theorem bind_eq_ok_iff {f : α → Except ε β} :
    x.bind f = .ok y ↔ ∃ a, x = .ok a ∧ f a = .ok y := by
  cases x <;> simp [Except.bind]

theorem bind_eq_error_iff {f : α → Except ε β} :
    x.bind f = .error e ↔ x = .error e ∨ ∃ a, x = .ok a ∧ f a = .error e := by
  cases x <;> simp [Except.bind]

end

/-! ### Digits -/

theorem digits_cons_blank (hc : c ∈ blanks) :
    digits offset (c :: cs) = digits (offset + c.utf8Size) cs := by
  rw [digits, if_pos (isSkipped_iff.2 hc)]

theorem digits_cons (hc : c ∉ blanks) (hd : digitValue? 16 c = some d) :
    digits offset (c :: cs) = (digits (offset + c.utf8Size) cs).map (d :: ·) := by
  rw [digits, if_neg (mt isSkipped_iff.1 hc), hd]

theorem digits_cons_of_isForeign (hc : IsForeign c) :
    digits offset (c :: cs) = .error (.invalidCharacter c offset) := by
  rw [digits, if_neg (mt isSkipped_iff.1 hc.1), (isForeign_iff hc.1).1 hc]

theorem blank_or_digit_or_foreign (c : Char) :
    c ∈ blanks ∨ (c ∉ blanks ∧ ∃ d, digitValue? 16 c = some d) ∨ IsForeign c := by
  by_cases hc : c ∈ blanks
  · exact .inl hc
  · cases hd : digitValue? 16 c with
    | none => exact .inr (.inr ((isForeign_iff hc).2 hd))
    | some d => exact .inr (.inl ⟨hc, d, rfl⟩)

/-- The digits are read in their order, wherever the text starts. By induction on the text, since
a blank changes neither side and a foreign character refutes both. -/
theorem digits_eq_ok_iff :
    digits offset cs = .ok ds ↔ List.Forall₂ IsHexDigit (significant cs) ds := by
  induction cs generalizing offset ds with
  | nil => rw [digits, significant_nil, List.forall₂_nil_left_iff, Except.ok.injEq, eq_comm]
  | cons c cs ih =>
      obtain hc | ⟨hc, d, hd⟩ | hc := blank_or_digit_or_foreign c
      · rw [digits_cons_blank hc, significant_cons_blank hc, ih]
      · rw [digits_cons hc hd, significant_cons hc, map_eq_ok_iff, List.forall₂_cons_left_iff]
        simp only [ih, isHexDigit_iff, hd]
        constructor
        · rintro ⟨ds, hds, rfl⟩
          exact ⟨d, ds, rfl, hds, rfl⟩
        · rintro ⟨_, ds, ⟨⟩, hds, rfl⟩
          exact ⟨ds, hds, rfl⟩
      · rw [digits_cons_of_isForeign hc, significant_cons hc.1]
        refine iff_of_false (fun h => by cases h) fun h => ?_
        obtain ⟨d, _, hd, -, -⟩ := List.forall₂_cons_left_iff.1 h
        exact hc.2 ⟨d, hd⟩

/-- The first foreign character is reported with its place in the text. -/
theorem digits_eq_error_iff :
    digits offset cs = .error fault ↔
      ∃ c n, FirstForeign cs c n ∧ fault = .invalidCharacter c (offset + n) := by
  induction cs generalizing offset with
  | nil => simp [digits, not_firstForeign_nil]
  | cons b cs ih =>
      obtain hb | ⟨hb, d, hd⟩ | hb := blank_or_digit_or_foreign b
      · rw [digits_cons_blank hb, ih, exists_firstForeign_cons fun hforeign => hforeign.1 hb]
      · rw [digits_cons hb hd, map_eq_error_iff, ih,
          exists_firstForeign_cons fun hforeign => hforeign.2 ⟨d, isHexDigit_iff.2 hd⟩]
      · rw [digits_cons_of_isForeign hb]
        simp only [firstForeign_cons_of_isForeign hb]
        constructor
        · rintro ⟨⟩
          exact ⟨b, 0, ⟨rfl, rfl⟩, rfl⟩
        · rintro ⟨_, _, ⟨rfl, rfl⟩, rfl⟩
          rfl

/-! ### Bytes -/

@[simp] theorem halves_nil : halves [] = [] := rfl

@[simp] theorem halves_cons (b : UInt8) (bs : List UInt8) :
    halves (b :: bs) = b.toNat / 16 :: b.toNat % 16 :: halves bs := rfl

@[simp] theorem length_halves (bytes : List UInt8) : (halves bytes).length = 2 * bytes.length := by
  induction bytes with
  | nil => rfl
  | cons b bs ih => simp [ih]; omega

theorem halves_lt (bytes : List UInt8) : ∀ d ∈ halves bytes, d < 16 := by
  induction bytes with
  | nil => simp
  | cons b bs ih =>
      have hb := b.toNat_lt
      rw [halves_cons, List.forall_mem_cons, List.forall_mem_cons]
      exact ⟨by omega, by omega, ih⟩

theorem eq_ofNat_iff {b : UInt8} {high low : Nat} (hhigh : high < 16) (hlow : low < 16) :
    UInt8.ofNat (16 * high + low) = b ↔ high = b.toNat / 16 ∧ low = b.toNat % 16 := by
  have hb := b.toNat_lt
  rw [← UInt8.toNat_inj, UInt8.toNat_ofNat_of_lt' (by simp only [UInt8.size]; omega)]
  omega

theorem pairs_eq_ok_iff (hds : ∀ d ∈ ds, d < 16) : pairs ds = .ok bytes ↔ ds = halves bytes := by
  fun_induction pairs ds generalizing bytes with
  | case1 => cases bytes <;> simp
  | case2 => cases bytes <;> simp
  | case3 high low rest ih =>
      obtain ⟨hhigh, hlow, hrest⟩ : high < 16 ∧ low < 16 ∧ ∀ d ∈ rest, d < 16 := by
        simpa only [List.forall_mem_cons] using hds
      rw [map_eq_ok_iff]
      cases bytes with
      | nil => simp
      | cons b bs =>
          simp only [ih hrest, halves_cons, List.cons.injEq, eq_ofNat_iff hhigh hlow,
            exists_eq_right_right]
          tauto

theorem pairs_eq_error_iff : pairs ds = .error fault ↔
    ds.length % 2 = 1 ∧ fault = .invalidLength := by
  fun_induction pairs ds with
  | case1 => simp
  | case2 => simp [eq_comm]
  | case3 high low rest ih => rw [map_eq_error_iff, ih]; simp [Nat.add_assoc]

theorem encode_eq_map (bytes : List UInt8) :
    encode bytes = (halves bytes).map Nat.digitChar := by
  induction bytes with
  | nil => rfl
  | cons b bs ih =>
      have hb : b.toNat / 16 % 16 = b.toNat / 16 := Nat.mod_eq_of_lt (by have := b.toNat_lt; omega)
      rw [encode_cons, ih, halves_cons]
      simp [hexDigits, hb]

/-! ### Cases of digits -/

theorem toNat_toLower (c : Char) :
    c.toLower.toNat = if 65 ≤ c.toNat ∧ c.toNat ≤ 90 then c.toNat + 32 else c.toNat := by
  have hupper : c.val ≥ 'A'.val ∧ c.val ≤ 'Z'.val ↔ 65 ≤ c.toNat ∧ c.toNat ≤ 90 :=
    and_congr UInt32.le_iff_toNat_le UInt32.le_iff_toNat_le
  unfold Char.toLower
  split
  · next h =>
    have hc := hupper.1 h
    have hshift : ('a'.val - 'A'.val).toNat = 32 := rfl
    rw [if_pos hc, Char.toNat_mk, UInt32.toNat_add, hshift]
    exact Nat.mod_eq_of_lt (show c.toNat + 32 < 2 ^ 32 by omega)
  · next h => rw [if_neg (mt hupper.2 h)]

/-- Taken in lower case, a digit is the character that is written for its value. -/
theorem isHexDigit_iff_toLower : IsHexDigit c d ↔ d < 16 ∧ c.toLower = Nat.digitChar d := by
  refine and_congr_right fun hd => ?_
  rw [← Char.toNat_inj, ← Char.toNat_inj, ← Char.toNat_inj, (toNat_digitChar hd).1,
    (toNat_digitChar hd).2, toNat_toLower]
  split <;> split <;> omega

theorem forall₂_isHexDigit_iff : List.Forall₂ IsHexDigit cs ds ↔
    (∀ d ∈ ds, d < 16) ∧ cs.map Char.toLower = ds.map Nat.digitChar := by
  induction cs generalizing ds with
  | nil => cases ds <;> simp
  | cons c cs ih =>
      cases ds with
      | nil => simp
      | cons d ds =>
          simp only [List.forall₂_cons, isHexDigit_iff_toLower, ih, List.forall_mem_cons,
            List.map_cons, List.cons.injEq]
          tauto

theorem exists_forall₂_isHexDigit_iff :
    (∃ ds, List.Forall₂ IsHexDigit cs ds) ↔ ∀ c ∈ cs, IsDigit c := by
  induction cs with
  | nil => simp
  | cons c cs ih =>
      rw [List.forall_mem_cons, ← ih]
      simp only [List.forall₂_cons_left_iff]
      constructor
      · rintro ⟨_, d, ds, hc, hcs, rfl⟩
        exact ⟨⟨d, hc⟩, ds, hcs⟩
      · rintro ⟨⟨d, hc⟩, ds, hcs⟩
        exact ⟨_, d, ds, hc, hcs, rfl⟩

/-! ### Texts of bytes -/

/-- A text of bytes differs from their written form in blanks and in the case of digits. -/
theorem denotes_iff : Denotes cs bytes ↔ (significant cs).map Char.toLower = encode bytes := by
  rw [Denotes, forall₂_isHexDigit_iff, encode_eq_map, and_iff_right (halves_lt bytes)]

theorem Denotes.length_significant (h : Denotes cs bytes) :
    (significant cs).length = 2 * bytes.length := by
  rw [← length_halves]
  exact List.Forall₂.length_eq h

theorem Denotes.isDigit (h : Denotes cs bytes) : ∀ c ∈ significant cs, IsDigit c :=
  exists_forall₂_isHexDigit_iff.1 ⟨halves bytes, h⟩

theorem decode_eq_ok_iff : decode cs = .ok bytes ↔ Denotes cs bytes := by
  rw [decode, bind_eq_ok_iff]
  simp only [digits_eq_ok_iff]
  constructor
  · rintro ⟨ds, hds, hpairs⟩
    rw [pairs_eq_ok_iff (forall₂_isHexDigit_iff.1 hds).1] at hpairs
    subst hpairs
    exact hds
  · intro h
    exact ⟨halves bytes, h, (pairs_eq_ok_iff (halves_lt bytes)).2 rfl⟩

/-- A text is refused for its first foreign character, or for an odd number of digits if there
is no such character. -/
theorem decode_eq_error_iff : decode cs = .error fault ↔
    (∃ c n, FirstForeign cs c n ∧ fault = .invalidCharacter c n) ∨
    (∀ c ∈ cs, ¬IsForeign c) ∧ (significant cs).length % 2 = 1 ∧ fault = .invalidLength := by
  rw [decode, bind_eq_error_iff, digits_eq_error_iff]
  simp only [digits_eq_ok_iff, pairs_eq_error_iff, Nat.zero_add]
  refine or_congr_right ?_
  rw [← forall_isDigit_iff, ← exists_forall₂_isHexDigit_iff]
  constructor
  · rintro ⟨ds, hds, hodd, rfl⟩
    exact ⟨⟨ds, hds⟩, hds.length_eq ▸ hodd, rfl⟩
  · rintro ⟨⟨ds, hds⟩, hodd, rfl⟩
    exact ⟨ds, hds, hds.length_eq ▸ hodd, rfl⟩

/-- Writing uses no blanks, so all of what is written is significant. -/
theorem significant_encode (bytes : List UInt8) : significant (encode bytes) = encode bytes := by
  refine List.filter_eq_self.2 fun c hc => decide_eq_true ?_
  rw [encode_eq_map, List.mem_map] at hc
  obtain ⟨d, hd, rfl⟩ := hc
  exact IsDigit.notMem_blanks ⟨d, halves_lt bytes d hd, .inl rfl⟩

theorem denotes_encode (bytes : List UInt8) : Denotes (encode bytes) bytes := by
  rw [Denotes, significant_encode, encode_eq_map, List.forall₂_map_left_iff, List.forall₂_same]
  exact fun d hd => ⟨halves_lt bytes d hd, .inl rfl⟩

end Retarget.Hex
