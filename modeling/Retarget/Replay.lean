import Retarget.Requirement
import Retarget.Store

/-!
# Replaying headers

A replay grows a store from a list of entries, oldest first. The first header is
placed at a given height without a parent; every other stands on the one before.
The leading headers are trusted, the others are checked before they are stored. The
replay ends at the first header that is rejected; other errors leave no summary.
-/

namespace Retarget.Replay

/-- What a replay knows of a header. -/
structure Entry where
  time : UInt32
  /-- The text of the declared compact target. -/
  bits : String
  kind : Kind := .work
deriving DecidableEq, Repr

structure File where
  /-- The height of the first header. -/
  height : UInt32 := 0
  /-- How many leading headers are stored without a check; the first always is. -/
  trusted : Nat := 1
  entries : List Entry
deriving DecidableEq, Repr

structure Summary where
  /-- How many headers passed a check. -/
  accepted : Nat
  /-- The proof-of-work headers of the chain. -/
  work : Nat
  /-- The proof-of-stake headers of the chain. -/
  stake : Nat
  /-- Height and fault of the header that ended the replay. -/
  rejected : Option (UInt32 × WorkError)
deriving DecidableEq, Repr

inductive Failure where
  | noHeaders
  /-- No height is left for the header of this index. -/
  | aboveGreatestHeight (index : Nat)
  | bits (fault : Compact.Fault)
  | work (e : WorkError)
  | link (e : LinkError)
deriving DecidableEq, Repr

def Failure.message : Failure → String
  | .noHeaders => "Replay file contains no headers"
  | .aboveGreatestHeight index =>
    "Header " ++ toString index ++ " is above the greatest block height"
  | .bits fault => fault.message
  | .work e => e.message
  | .link e => e.message

/-- The header of an entry, on top of a parent. A stake refers to the parent. -/
def Entry.header (e : Entry) (parent : Hash) (height : UInt32) : Except Failure Header :=
  match Compact.parse e.bits with
  | .error fault => .error (.bits fault)
  | .ok bits =>
    .ok
      { parent := parent
        time := e.time
        bits := bits
        nonce := height
        stake :=
          match e.kind with
          | .work => OutPoint.null
          | .stake => ⟨parent, 0⟩ }

/-- The chain replayed so far. -/
structure Progress where
  store : Store
  tip : IndexedHeader
  accepted : Nat := 0
  rejected : Option (UInt32 × WorkError) := none

/-- Judges the next header; what is accepted is counted unless it is trusted. -/
def Progress.judge (p : Progress) (c : Consensus) (isTrusted : Bool) (h : Header) :
    Except WorkError Nat :=
  if isTrusted then .ok p.accepted
  else (c.check p.store.source p.tip h).map fun _ => p.accepted + 1

/-- Grows a chain by the entries from an index on. -/
def Progress.extend (c : Consensus) (trusted : Nat) :
    (index : Nat) → List Entry → Progress → Except Failure Progress
  | _, [], p => .ok p
  | index, e :: es, p =>
    if p.tip.height = 0xffffffff then .error (.aboveGreatestHeight index)
    else
      match e.header p.tip.hash (p.tip.height + 1) with
      | .error f => .error f
      | .ok h =>
        match p.judge c (index < trusted) h with
        | .error (.difficulty expected actual) =>
          .ok { p with rejected := some (p.tip.height + 1, .difficulty expected actual) }
        | .error e => .error (.work e)
        | .ok accepted =>
          match p.store.insert h with
          | (.error e, _) => .error (.link e)
          | (.ok x, store) =>
            extend c trusted (index + 1) es
              { p with store := store, tip := x, accepted := accepted }

def Progress.start (height : UInt32) (e : Entry) : Except Failure Progress :=
  match e.header Hash.zero height with
  | .error f => .error f
  | .ok h =>
    let x := IndexedHeader.ofHeader height h
    .ok { store := Store.empty.place x, tip := x }

/-- The headers of the chain that ends at the tip, the newest first. -/
def Progress.chain (p : Progress) : List IndexedHeader :=
  p.store.source.ancestors p.store.size (.hash p.tip.hash)

def Progress.summary (p : Progress) : Summary where
  accepted := p.accepted
  work := p.chain.countP (·.kind = .work)
  stake := p.chain.countP (·.kind = .stake)
  rejected := p.rejected

/-- Replays all entries and keeps the chain. -/
def File.progress (f : File) (c : Consensus) : Except Failure Progress :=
  match f.entries with
  | [] => .error .noHeaders
  | e :: es =>
    match Progress.start f.height e with
    | .error failure => .error failure
    | .ok p => p.extend c (max f.trusted 1) 1 es

def File.run (f : File) (c : Consensus) : Except Failure Summary :=
  (f.progress c).map Progress.summary

end Retarget.Replay
