import Retarget.Header
import Retarget.Log

/-!
# Ancestors of a header

A header source answers look-ups by hash and by height. Nothing is assumed about
it: links may be missing, circular, or lead to headers that claim any height. The
parent of a header is trusted only if it claims the height just below, and
therefore a walk from parent to parent takes no more steps than the height of its
start.

`lastOfKind` walks to the closest header of one kind, the start included, and
stops at height zero at the latest. `ancestors` lists a header and what its parent
links lead to, without a look at the heights in between.
-/

namespace Retarget

/-- What a header is looked up by. -/
inductive BlockRef where
  | height (n : UInt32)
  | hash (h : Hash)
deriving DecidableEq, Repr

/-- A read-only view of stored headers. -/
abbrev HeaderSource := BlockRef → Option IndexedHeader

/-- Why a header does not link to the stored ones. -/
inductive LinkError where
  /-- The parent is not stored. -/
  | unknownParent (hash : Hash)
  /-- The parent does not stand just below its child. -/
  | inconsistentParent (hash : Hash)
  /-- The header is stored already. -/
  | duplicate (hash : Hash)
  /-- No height is left above the parent. -/
  | heightOverflow (hash : Hash)
deriving DecidableEq, Repr

def LinkError.message : LinkError → String
  | .unknownParent h => "Block parent is unknown: " ++ h.toText
  | .inconsistentParent h => "Block parent " ++ h.toText ++ " is stored at inconsistent height"
  | .duplicate h => "Block is already known: " ++ h.toText
  | .heightOverflow h => "Block parent " ++ h.toText ++ " is at the greatest possible height"

namespace HeaderSource

def contains (source : HeaderSource) (ref : BlockRef) : Bool := (source ref).isSome

/-- The parent of a header, if it is stored just below it. -/
def parent (source : HeaderSource) (x : IndexedHeader) : Except LinkError IndexedHeader :=
  match source (.hash x.header.parent) with
  | none => .error (.unknownParent x.header.parent)
  | some p =>
    if p.height.toNat + 1 = x.height.toNat then .ok p
    else .error (.inconsistentParent x.header.parent)

/-- The closest header of a kind within so many steps towards the root. -/
def lastOfKindWithin (source : HeaderSource) (kind : Kind) :
    Nat → IndexedHeader → Except LinkError IndexedHeader
  | 0, x => .ok x
  | n + 1, x =>
    if x.kind = kind then .ok x
    else
      match source.parent x with
      | .error e => .error e
      | .ok p => lastOfKindWithin source kind n p

/-- The closest header of a kind at or below `x`, or the one at height zero if
there is none. -/
def lastOfKind (source : HeaderSource) (kind : Kind) (x : IndexedHeader) :
    Except LinkError IndexedHeader :=
  source.lastOfKindWithin kind x.height.toNat x

/-- At most `limit` headers along the parent links, the newest first. The list ends
at height zero or at a header that is not stored. -/
def ancestors (source : HeaderSource) : Nat → BlockRef → List IndexedHeader
  | 0, _ => []
  | limit + 1, ref =>
    match source ref with
    | none => []
    | some x => x :: if x.isGenesis then [] else source.ancestors limit (.hash x.header.parent)

/-- A successful walk is told in one record. -/
def lastOfKindLog (source : HeaderSource) (kind : Kind) (x : IndexedHeader) : List Log.Record :=
  match source.lastOfKind kind x with
  | .error _ => []
  | .ok found =>
    [{ level := .trace
       target := "storage"
       message :=
        "Last " ++ kind.label ++ " header before " ++ toString x.height ++ " is " ++
          found.hash.toReversedText ++ " at height " ++ toString found.height }]

/-- A parent is exactly one height below its child. -/
theorem parent_eq_ok {source : HeaderSource} {x p : IndexedHeader} :
    source.parent x = .ok p ↔
      source (.hash x.header.parent) = some p ∧ p.height.toNat + 1 = x.height.toNat := by
  unfold parent
  cases source (.hash x.header.parent) with
  | none => simp
  | some q =>
    simp only [Option.some_inj]
    constructor
    · intro h
      split at h
      · cases h
        exact ⟨rfl, by assumption⟩
      · cases h
    · rintro ⟨rfl, h⟩
      rw [if_pos h]

/-- The steps allowed to a walk never run out before its height does. -/
theorem lastOfKindWithin_succ {source : HeaderSource} {kind : Kind} {n : Nat} {x : IndexedHeader}
    (h : x.kind ≠ kind) :
    source.lastOfKindWithin kind (n + 1) x =
      (source.parent x).bind (source.lastOfKindWithin kind n) := by
  rw [lastOfKindWithin, if_neg h]
  cases source.parent x <;> rfl

@[simp] theorem ancestors_zero (source : HeaderSource) (ref : BlockRef) :
    source.ancestors 0 ref = [] := rfl

end HeaderSource

end Retarget
