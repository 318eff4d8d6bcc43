import Mathlib.Algebra.Group.Nat.Defs
import Retarget.Proofs.Store.Insertions

/-!
# One insertion

An insertion asks three questions before it changes anything: whether the parent is stored, whether
there is a height above it, and whether the header itself is new. The first question that is
answered with no decides, and then nothing changes. Otherwise one entry is added under the hash of
the header and one is set under its height. An empty store asks nothing. None of this needs the
store to be consistent: headers may stand under foreign hashes, share a height or leave gaps.
-/

namespace Retarget

namespace Store

/-- The verdict on a header, by the first question that is answered with no. -/
inductive Judges (s : Store) (h : Header) : Except LinkError IndexedHeader → Prop
  | first (empty : s.isEmpty = true) : Judges s h (.ok (.ofHeader 0 h))
  | unknownParent (filled : s.isEmpty = false) (unknown : s.get? (.hash h.parent) = none) :
      Judges s h (.error (.unknownParent h.parent))
  | heightOverflow {p : IndexedHeader} (filled : s.isEmpty = false)
      (parent : s.get? (.hash h.parent) = some p) (top : p.height = 0xffffffff) :
      Judges s h (.error (.heightOverflow p.hash))
  | duplicate {p y : IndexedHeader} (filled : s.isEmpty = false)
      (parent : s.get? (.hash h.parent) = some p) (room : p.height ≠ 0xffffffff)
      (stored : s.get? (.hash h.hash) = some y) : Judges s h (.error (.duplicate h.hash))
  | child {p : IndexedHeader} (filled : s.isEmpty = false)
      (parent : s.get? (.hash h.parent) = some p) (room : p.height ≠ 0xffffffff)
      (new : s.get? (.hash h.hash) = none) : Judges s h (.ok (.ofHeader (p.height + 1) h))

/-- What becomes of a store that takes a header. -/
structure Adds (s : Store) (x : IndexedHeader) (t : Store) : Prop where
  new : s.byHash[x.hash]? = none
  stored : t.byHash[x.hash]? = some x
  otherHashes : ∀ k, k ≠ x.hash → t.byHash[k]? = s.byHash[k]?
  size : t.size = s.size + 1
  entry : t.byHeight[x.height]? = some x.hash
  otherHeights : ∀ n, n ≠ x.height → t.byHeight[n]? = s.byHeight[n]?
  foundByHash : t.get? (.hash x.hash) = some x
  foundByHeight : t.get? (.height x.height) = some x

/-- The exact conditions under which a store that is not empty gives each verdict. A fault is
reported exactly if it is there and none of those before it is. -/
structure Decides (s : Store) (h : Header) (verdict : Except LinkError IndexedHeader) : Prop where
  unknownParent : ∀ k, verdict = .error (.unknownParent k) ↔
    k = h.parent ∧ s.get? (.hash h.parent) = none
  heightOverflow : ∀ k, verdict = .error (.heightOverflow k) ↔
    ∃ p, s.get? (.hash h.parent) = some p ∧ p.height.toNat = 2 ^ 32 - 1 ∧ k = p.hash
  duplicate : ∀ k, verdict = .error (.duplicate k) ↔
    k = h.hash ∧ (∃ p, s.get? (.hash h.parent) = some p ∧ p.height.toNat ≠ 2 ^ 32 - 1) ∧
      ∃ y, s.get? (.hash h.hash) = some y
  inconsistentParent : ∀ k, verdict ≠ .error (.inconsistentParent k)
  ok : ∀ x, verdict = .ok x ↔
    ∃ p, s.get? (.hash h.parent) = some p ∧ p.height.toNat ≠ 2 ^ 32 - 1 ∧
      s.get? (.hash h.hash) = none ∧
      x.header = h ∧ x.hash = h.hash ∧ x.height.toNat = p.height.toNat + 1

variable {s : Store} {h : Header} {p x : IndexedHeader}
  {verdict : Except LinkError IndexedHeader}

/-- All that a link can say, and when. -/
theorem link_eq_iff : s.link h = verdict ↔ s.Judges h verdict := by
  constructor
  · rintro rfl
    unfold link
    split
    · next empty => exact .first empty
    · next filled =>
      rw [Bool.not_eq_true] at filled
      split
      · next unknown => exact .unknownParent filled unknown
      · next p parent =>
        split
        · next top => exact .heightOverflow filled parent top
        · next room =>
          rw [Std.TreeMap.contains_eq_isSome_getElem?]
          split
          · next stored =>
            obtain ⟨y, hy⟩ := Option.isSome_iff_exists.1 stored
            exact .duplicate filled parent room hy
          · next new =>
            exact .child filled parent room (Option.not_isSome_iff_eq_none.1 new)
  · intro judges
    unfold link
    cases judges with
    | first empty => exact if_pos empty
    | unknownParent filled unknown =>
        rw [get?_hash] at unknown
        simp [filled, unknown]
    | heightOverflow filled parent top =>
        rw [get?_hash] at parent
        simp [filled, parent, top]
    | duplicate filled parent room stored =>
        rw [get?_hash] at parent stored
        simp [filled, parent, room, Std.TreeMap.contains_eq_isSome_getElem?, stored]
    | child filled parent room new =>
        rw [get?_hash] at parent new
        simp [filled, parent, room, Std.TreeMap.contains_eq_isSome_getElem?, new]

/-- A header that is linked is new and displaces nothing but the entry of its height. -/
theorem adds_place (hlink : s.link h = .ok x) : s.Adds x (s.place x) where
  new := getElem?_of_link hlink
  stored := holds_place s x
  otherHashes k hk := (byHash_place s x k).trans (if_neg (Ne.symm hk))
  size := size_place (getElem?_of_link hlink)
  entry := (byHeight_place s x x.height).trans (if_pos rfl)
  otherHeights n hn := (byHeight_place s x n).trans (if_neg (Ne.symm hn))
  foundByHash := holds_place s x
  foundByHeight := by
    rw [get?_height, byHeight_place, if_pos rfl]
    exact holds_place s x

theorem height_eq_top_iff : p.height.toNat = 2 ^ 32 - 1 ↔ p.height = 0xffffffff :=
  UInt32.toNat_inj (b := 0xffffffff)

theorem eq_ofHeader_succ_iff (room : p.height ≠ 0xffffffff) :
    x = .ofHeader (p.height + 1) h ↔
      x.header = h ∧ x.hash = h.hash ∧ x.height.toNat = p.height.toNat + 1 := by
  have hsucc := toNat_height_succ room
  constructor
  · rintro rfl
    exact ⟨rfl, rfl, hsucc⟩
  · obtain ⟨hash, height, header⟩ := x
    rintro ⟨hheader, hhash, hheight⟩
    simp only [IndexedHeader.ofHeader, IndexedHeader.mk.injEq]
    exact ⟨hhash, UInt32.toNat_inj.1 (hheight.trans hsucc.symm), hheader⟩

/-- Each verdict has its constructor, so its condition is read off that. -/
theorem decides_link (filled : s.isEmpty = false) : s.Decides h (s.link h) where
  unknownParent k := by
    rw [link_eq_iff]
    constructor
    · intro judges
      cases judges with
      | unknownParent _ unknown => exact ⟨rfl, unknown⟩
    · rintro ⟨rfl, unknown⟩
      exact .unknownParent filled unknown
  heightOverflow k := by
    rw [link_eq_iff]
    constructor
    · intro judges
      cases judges with
      | heightOverflow _ parent top => exact ⟨_, parent, height_eq_top_iff.2 top, rfl⟩
    · rintro ⟨p, parent, top, rfl⟩
      exact .heightOverflow filled parent (height_eq_top_iff.1 top)
  duplicate k := by
    rw [link_eq_iff]
    constructor
    · intro judges
      cases judges with
      | duplicate _ parent room stored =>
          exact ⟨rfl, ⟨_, parent, mt height_eq_top_iff.1 room⟩, _, stored⟩
    · rintro ⟨rfl, ⟨p, parent, room⟩, y, stored⟩
      exact .duplicate filled parent (mt height_eq_top_iff.2 room) stored
  inconsistentParent k := by
    rw [Ne, link_eq_iff]
    intro judges
    cases judges
  ok x := by
    rw [link_eq_iff]
    constructor
    · intro judges
      cases judges with
      | first empty => cases empty.symm.trans filled
      | child _ parent room new =>
          exact ⟨_, parent, mt height_eq_top_iff.1 room, new, (eq_ofHeader_succ_iff room).1 rfl⟩
    · rintro ⟨p, parent, room, new, hx⟩
      have room := mt height_eq_top_iff.2 room
      obtain rfl := (eq_ofHeader_succ_iff room).2 hx
      exact .child filled parent room new

/-- In every state of a store, an insertion that fails changes nothing, and one that succeeds adds
its header under a new hash, sets the entry of its height and changes nothing else. An empty store
takes every header at height zero. Otherwise the parent must be stored, then there must be a
height above it, then the header must be new, and the first of these that fails is reported; a
header that passes stands one height above its parent. -/
theorem insert_exact (s : Store) (h : Header) :
    (∀ e, (s.insert h).1 = .error e → (s.insert h).2 = s) ∧
    (∀ x, (s.insert h).1 = .ok x →
      x.header = h ∧ x.hash = h.hash ∧ s.Adds x (s.insert h).2) ∧
    (s.isEmpty = true → (s.insert h).1 = .ok (.ofHeader 0 h)) ∧
    (s.isEmpty = false → s.Decides h (s.insert h).1) := by
  rw [fst_insert]
  refine ⟨fun e hlink => ?_, fun x hlink => ?_, fun empty => ?_, decides_link⟩
  · rw [insert_of_link_error hlink]
  · rw [insert_of_link_ok hlink]
    obtain ⟨hheader, hhash⟩ := eq_of_link hlink
    exact ⟨hheader, hhash, adds_place hlink⟩
  · exact link_eq_iff.2 (.first empty)

end Store

end Retarget
