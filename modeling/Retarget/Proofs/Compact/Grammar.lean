import Retarget.Proofs.Compact.Text
import Retarget.Proofs.Text.Numeral

/-!
# The texts of compact targets

A text of a compact target is a hexadecimal numeral below two to the 32nd power behind any number of
markers. No marker is lost among the digits, since a numeral contains no `x`, so it is safe to drop
markers as long as there are any. Each text has one target, and the text that a target is
written as is one of its own.
-/

namespace Retarget

/-- No digit and no sign is an `x`. -/
theorem Numeral.Denotes.notMem {cs : List Char} {n : Nat} (h : Denotes cs n) : 'x' ∉ cs := by
  obtain ⟨sign, digits, rfl, hsign, -, ds, hds, -⟩ := h
  have hdigit : ∀ c d, IsHexDigit c d → c ≠ 'x' ∧ IsHexDigit c d := by
    rintro c d hc
    refine ⟨?_, hc⟩
    rintro rfl
    cases isHexDigit_iff.1 hc
  have hdigits : ∀ c ∈ digits, c ≠ 'x' :=
    ((List.forall₂_and_left _ _).1 (hds.imp hdigit)).1
  intro hx
  obtain hx | hx := List.mem_append.1 hx
  · obtain rfl | rfl := hsign
    · cases hx
    · cases List.mem_singleton.1 hx
  · exact hdigits 'x' hx rfl

namespace Compact

def markers (k : Nat) : List Char := (List.replicate k ['0', 'x']).flatten

/-- A text of a compact target and the number that its numeral denotes. -/
def Denotes (text : String) (n : Nat) : Prop :=
  ∃ k cs, text.toList = markers k ++ cs ∧ Numeral.Denotes cs n

variable {text : String} {c : Compact} {n : Nat}

theorem exists_markers (cs : List Char) : ∃ k, cs = markers k ++ dropMarkers cs := by
  fun_induction dropMarkers cs with
  | case1 cs ih =>
      obtain ⟨k, hk⟩ := ih
      exact ⟨k + 1, congrArg ('0' :: 'x' :: ·) hk⟩
  | case2 cs => exact ⟨0, rfl⟩

theorem dropMarkers_markers (k : Nat) (cs : List Char) :
    dropMarkers (markers k ++ cs) = dropMarkers cs := by
  induction k with
  | zero => rfl
  | succ k ih => exact ih

/-- What a text denotes is the numeral behind all of its markers. -/
theorem denotes_iff : Denotes text n ↔ Numeral.Denotes (dropMarkers text.toList) n := by
  constructor
  · rintro ⟨k, cs, htext, hcs⟩
    rw [htext, dropMarkers_markers, dropMarkers_eq_self hcs.notMem]
    exact hcs
  · intro h
    obtain ⟨k, hk⟩ := exists_markers text.toList
    exact ⟨k, dropMarkers text.toList, hk, h⟩

theorem parse_eq_ok_iff : parse text = .ok c ↔ Denotes text c.bits.toNat := by
  rw [denotes_iff, parse]
  constructor
  · intro h
    cases hread : Numeral.read 16 UInt32.size (dropMarkers text.toList) with
    | error reason =>
        rw [hread] at h
        cases h
    | ok n =>
        rw [hread] at h
        cases h
        obtain ⟨hn, hdenotes⟩ := (Numeral.read_eq_ok_iff (by decide)).1 hread
        rw [UInt32.toNat_ofNat_of_lt' hn]
        exact hdenotes
  · intro h
    rw [(Numeral.read_eq_ok_iff (by decide)).2 ⟨c.bits.toNat_lt, h⟩]
    simp only [UInt32.ofNat_toNat]

/-- A text is read exactly if it consists of markers, or none, in front of a hexadecimal numeral
below two to the 32nd power, and then as the target of that number. A target is read back from its
own text. -/
theorem parse_exact :
    (∀ text c, parse text = .ok c ↔ Denotes text c.bits.toNat) ∧
    (∀ text, (∃ c, parse text = .ok c) ↔ ∃ n < 2 ^ 32, Denotes text n) ∧
    ∀ c, parse c.toText = .ok c := by
  refine ⟨fun text c => parse_eq_ok_iff, fun text => ?_, parse_toText⟩
  constructor
  · rintro ⟨c, hc⟩
    exact ⟨c.bits.toNat, c.bits.toNat_lt, parse_eq_ok_iff.1 hc⟩
  · rintro ⟨n, hn, hdenotes⟩
    refine ⟨⟨UInt32.ofNat n⟩, parse_eq_ok_iff.2 ?_⟩
    rw [UInt32.toNat_ofNat_of_lt' hn]
    exact hdenotes

/-- A sign stands behind the markers and never in front of one. -/
example : parse "0x0x+0001D00ffff" = .ok ⟨0x1d00ffff⟩ ∧
    parse "+0x1" = .error ⟨"+0x1", .invalidDigit⟩ := by decide

end Compact

end Retarget
