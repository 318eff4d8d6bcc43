import Mathlib.Data.List.SplitLengths
import Mathlib.Data.Nat.Digits.Lemmas
import Retarget.Header

/-!
# The identity of a header

The identity puts eight fields one after another, without separators or lengths. Their widths are
fixed, so a string of 116 bytes falls into fields in exactly one way, and since every field can hold
any bytes of its width, each such string is the identity of exactly one header. Two headers of one
hash are therefore the same header or a collision of the digest.
-/

namespace Retarget

def Sha256.Collide (a b : List UInt8) : Prop := a ≠ b ∧ doubleDigest a = doubleDigest b

/-! ### Words -/

theorem map_toNat_littleEndian (n : UInt32) : (littleEndian n).map UInt8.toNat =
    [n.toNat % 256, n.toNat / 256 % 256, n.toNat / 65536 % 256, n.toNat / 16777216 % 256] := by
  simp [littleEndian, Nat.shiftRight_eq_div_pow]

/-- The bytes of a word are its digits in base 256, the lowest one in front. -/
theorem littleEndian_eq_iff {n : UInt32} {bytes : List UInt8} :
    littleEndian n = bytes ↔
      bytes.length = 4 ∧ n.toNat = Nat.ofDigits 256 (bytes.map UInt8.toNat) := by
  have hn := n.toNat_lt
  constructor
  · rintro rfl
    refine ⟨rfl, ?_⟩
    simp only [map_toNat_littleEndian, Nat.ofDigits_cons, Nat.ofDigits_nil]
    omega
  · rintro ⟨hlength, hvalue⟩
    obtain ⟨a, b, c, d, rfl⟩ := List.length_eq_four.1 hlength
    have ha := a.toNat_lt
    have hb := b.toNat_lt
    have hc := c.toNat_lt
    have hd := d.toNat_lt
    simp only [List.map_cons, List.map_nil, Nat.ofDigits_cons, Nat.ofDigits_nil] at hvalue
    apply List.map_injective_iff.2 fun _ _ => UInt8.toNat_inj.1
    simp only [map_toNat_littleEndian, List.map_cons, List.map_nil, List.cons.injEq, and_true]
    omega

theorem littleEndian_injective : Function.Injective littleEndian := by
  intro m n h
  obtain ⟨-, hm⟩ := littleEndian_eq_iff.1 h
  obtain ⟨-, hn⟩ := littleEndian_eq_iff.1 (rfl : littleEndian n = littleEndian n)
  exact UInt32.toNat_inj.1 (hm.trans hn.symm)

theorem exists_littleEndian_eq {bytes : List UInt8} (hlength : bytes.length = 4) :
    ∃ n, littleEndian n = bytes := by
  have hbound : Nat.ofDigits 256 (bytes.map UInt8.toNat) < 256 ^ 4 := by
    rw [← hlength, ← List.length_map UInt8.toNat]
    refine Nat.ofDigits_lt_base_pow_length (by decide) fun d hd => ?_
    obtain ⟨b, -, rfl⟩ := List.mem_map.1 hd
    exact b.toNat_lt
  exact ⟨UInt32.ofNat _, littleEndian_eq_iff.2 ⟨hlength, UInt32.toNat_ofNat_of_lt' hbound⟩⟩

namespace Header

variable {x y : Header}

/-! ### Fields -/

/-- The bytes of each field, in the order of the identity. -/
def fields (h : Header) : List (List UInt8) :=
  [ littleEndian h.version, h.parent.bytes, h.merkleRoot.bytes, littleEndian h.time,
    littleEndian h.bits.bits, littleEndian h.nonce, h.stake.hash.bytes,
    littleEndian h.stake.index ]

def widths : List Nat := [4, 32, 32, 4, 4, 4, 32, 4]

theorem identity_eq_flatten (h : Header) : h.identity = h.fields.flatten := by
  simp [identity, fields]

/-- Words have their low byte in front, and work is marked by the null output at the end. -/
example : identity { version := 1, time := 4, bits := ⟨5⟩, nonce := 6 } =
    [1, 0, 0, 0] ++ List.replicate 64 0 ++ [4, 0, 0, 0, 5, 0, 0, 0, 6, 0, 0, 0] ++
      List.replicate 32 0 ++ [255, 255, 255, 255] := by decide

theorem map_length_fields (h : Header) : h.fields.map List.length = widths := by
  simp [fields, widths, Hash.length_bytes]

/-- No field of a header is left out or cut. -/
theorem fields_injective : Function.Injective fields := by
  rintro ⟨version, parent, merkleRoot, time, ⟨bits⟩, nonce, ⟨hash, index⟩⟩
    ⟨version', parent', merkleRoot', time', ⟨bits'⟩, nonce', ⟨hash', index'⟩⟩ h
  simp only [fields, List.cons.injEq, littleEndian_injective.eq_iff, ← Hash.ext_iff,
    and_true] at h
  obtain ⟨rfl, rfl, rfl, rfl, rfl, rfl, rfl, rfl⟩ := h
  rfl

theorem exists_fields_eq {parts : List (List UInt8)} (hparts : parts.map List.length = widths) :
    ∃ h : Header, h.fields = parts := by
  simp only [widths, List.map_eq_cons_iff, List.map_eq_nil_iff] at hparts
  obtain ⟨version, _, rfl, hversion, parent, _, rfl, hparent, merkleRoot, _, rfl, hmerkleRoot,
    time, _, rfl, htime, bits, _, rfl, hbits, nonce, _, rfl, hnonce, hash, _, rfl, hhash,
    index, _, rfl, hindex, rfl⟩ := hparts
  obtain ⟨version, rfl⟩ := exists_littleEndian_eq hversion
  obtain ⟨time, rfl⟩ := exists_littleEndian_eq htime
  obtain ⟨bits, rfl⟩ := exists_littleEndian_eq hbits
  obtain ⟨nonce, rfl⟩ := exists_littleEndian_eq hnonce
  obtain ⟨index, rfl⟩ := exists_littleEndian_eq hindex
  exact ⟨⟨version, ⟨parent, hparent⟩, ⟨merkleRoot, hmerkleRoot⟩, time, ⟨bits⟩, nonce,
    ⟨⟨hash, hhash⟩, index⟩⟩, rfl⟩

/-! ### Identities -/

theorem length_identity (h : Header) : h.identity.length = 116 := by
  rw [identity_eq_flatten, List.length_flatten, map_length_fields]
  rfl

/-- The widths tell where each field ends, so the fields are read off the identity. -/
theorem identity_injective : Function.Injective identity := by
  intro x y h
  rw [identity_eq_flatten, identity_eq_flatten] at h
  have hwidths : x.fields.map List.length = y.fields.map List.length := by
    rw [map_length_fields, map_length_fields]
  exact fields_injective (List.eq_iff_flatten_eq.2 ⟨h, hwidths⟩)

/-- Every string of the right length is an identity. -/
theorem exists_identity_eq {bytes : List UInt8} (hlength : bytes.length = 116) :
    ∃ h : Header, h.identity = bytes := by
  have hsum : widths.sum = bytes.length := hlength.symm
  obtain ⟨h, hfields⟩ := exists_fields_eq (List.map_splitLengths_length bytes widths hsum.le)
  refine ⟨h, ?_⟩
  rw [identity_eq_flatten, hfields, List.flatten_splitLengths bytes widths hsum.ge]

/-- Since headers are known by their identities, only a collision gives two headers one hash. -/
theorem hash_eq_iff (hne : x ≠ y) : x.hash = y.hash ↔ Sha256.Collide x.identity y.identity :=
  (and_iff_right (identity_injective.ne hne)).symm

/-- The identities are the strings of 116 bytes, and each belongs to one header, with its staked
output and its kind. So different headers have one hash exactly if their identities collide, and
headers of different kinds are never hashed from the same bytes. -/
theorem identity_faithful :
    (∀ x : Header, x.identity.length = 116) ∧
    (∀ bytes : List UInt8, bytes.length = 116 → ∃ x : Header, x.identity = bytes) ∧
    (∀ x y : Header, x.identity = y.identity → x = y) ∧
    (∀ x y : Header, x ≠ y → (x.hash = y.hash ↔ Sha256.Collide x.identity y.identity)) ∧
    ∀ x y : Header, x.kind = .work → y.kind = .stake → x.identity ≠ y.identity := by
  refine ⟨length_identity, fun _ => exists_identity_eq, fun _ _ h => identity_injective h,
    fun _ _ => hash_eq_iff, fun x y hx hy h => ?_⟩
  rw [identity_injective h, hy] at hx
  cases hx

end Header

end Retarget
