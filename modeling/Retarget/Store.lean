import Retarget.Ancestry
import Std.Data.TreeMap

/-!
# The header store

A store keeps headers by hash, and for each height the hash of the header that was
placed there last. A header is linked on top of a stored parent; the first header of
an empty store becomes genesis. A header can also be placed without its parent,
at a given height, to start a store from a trusted point deep in the chain.

Of several faults a link reports the first in this order: the parent is not
stored, no height is left above it, the header is stored already.
-/

namespace Retarget

open Std (TreeMap)

/-- Headers by hash, and hashes by height. -/
structure Store where
  byHash : TreeMap Hash IndexedHeader
  byHeight : TreeMap UInt32 Hash

namespace Store

def empty : Store := ⟨∅, ∅⟩

instance : EmptyCollection Store := ⟨empty⟩

instance : Inhabited Store := ⟨empty⟩

def size (s : Store) : Nat := s.byHash.size

def isEmpty (s : Store) : Bool := s.byHash.isEmpty

/-- Looks a header up by hash, or by height through the hash last placed there. -/
def get? (s : Store) : BlockRef → Option IndexedHeader
  | .hash h => s.byHash[h]?
  | .height n => s.byHeight[n]?.bind (s.byHash[·]?)

def source (s : Store) : HeaderSource := s.get?

/-- The header at the greatest height. -/
def best? (s : Store) : Option IndexedHeader :=
  s.byHeight.maxKey?.bind fun n => s.get? (.height n)

/-- Stores an indexed header as it is. Neither height nor parent is checked, and an
earlier header of the same hash or height gives way. -/
def place (s : Store) (x : IndexedHeader) : Store where
  byHash := s.byHash.insert x.hash x
  byHeight := s.byHeight.insert x.height x.hash

/-- The height and hash that a header gets on top of its parent. -/
def link (s : Store) (h : Header) : Except LinkError IndexedHeader :=
  if s.isEmpty then .ok (.ofHeader 0 h)
  else
    match s.byHash[h.parent]? with
    | none => .error (.unknownParent h.parent)
    | some p =>
      if p.height = 0xffffffff then .error (.heightOverflow p.hash)
      else if s.byHash.contains h.hash then .error (.duplicate h.hash)
      else .ok (.ofHeader (p.height + 1) h)

/-- Stores a header on top of its parent. A header that does not link leaves the
store as it is. -/
def insert (s : Store) (h : Header) : Except LinkError IndexedHeader × Store :=
  match s.link h with
  | .error e => (.error e, s)
  | .ok x => (.ok x, s.place x)

/-- Stores a header at a given height, whether or not its parent is known. -/
def insertCheckpoint (s : Store) (height : UInt32) (h : Header) : Store :=
  s.place (.ofHeader height h)

/-- A store of one header at height zero. -/
def withGenesis (h : Header) : Store := empty.insertCheckpoint 0 h

def placeLog (x : IndexedHeader) : List Log.Record :=
  [{ level := .trace
     target := "storage"
     message :=
      "Inserting header " ++ x.hash.toReversedText ++ " at height " ++ toString x.height }]

/-- A header that links is told as it is placed. -/
def insertLog (s : Store) (h : Header) : List Log.Record :=
  match s.link h with
  | .error _ => []
  | .ok x => placeLog x

@[simp] theorem get?_hash (s : Store) (h : Hash) : s.get? (.hash h) = s.byHash[h]? := rfl

@[simp] theorem get?_height (s : Store) (n : UInt32) :
    s.get? (.height n) = s.byHeight[n]?.bind (s.byHash[·]?) := rfl

@[simp] theorem source_apply (s : Store) (ref : BlockRef) : s.source ref = s.get? ref := rfl

theorem byHash_place (s : Store) (x : IndexedHeader) (h : Hash) :
    (s.place x).byHash[h]? = if x.hash = h then some x else s.byHash[h]? := by
  simp [place, Std.TreeMap.getElem?_insert]

theorem byHeight_place (s : Store) (x : IndexedHeader) (n : UInt32) :
    (s.place x).byHeight[n]? = if x.height = n then some x.hash else s.byHeight[n]? := by
  simp [place, Std.TreeMap.getElem?_insert]

theorem insert_of_link_ok {s : Store} {h : Header} {x : IndexedHeader}
    (hx : s.link h = .ok x) : s.insert h = (.ok x, s.place x) := by
  simp [insert, hx]

theorem insert_of_link_error {s : Store} {h : Header} {e : LinkError}
    (he : s.link h = .error e) : s.insert h = (.error e, s) := by
  simp [insert, he]

@[simp] theorem fst_insert (s : Store) (h : Header) : (s.insert h).1 = s.link h := by
  cases hx : s.link h with
  | error e => rw [insert_of_link_error hx]
  | ok x => rw [insert_of_link_ok hx]

end Store

end Retarget
