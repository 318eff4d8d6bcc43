import Retarget.Requirement.Log
import Retarget.Store

/-!
# Mining

Blocks are mined on top of a header by declaring the required target of each and
storing it. Mining ends early where no target can be required, or where the store
does not take a block.
-/

namespace Retarget.Mining

/-- A block to be mined: seconds after its parent, and its kind. -/
structure Order where
  spacing : Int64
  kind : Kind
deriving DecidableEq, Repr

/-- What came of an order. -/
inductive Yield where
  /-- The declared target, and whether a check accepts it. -/
  | block (bits : Compact) (accepted : Bool)
  | failed (e : WorkError)
deriving DecidableEq, Repr

/-- The store so far and what happened to it. -/
structure Progress where
  store : Store
  tip : IndexedHeader
  yields : List Yield := []
  /-- Why the store refused the last block. -/
  refusal : Option LinkError := none
  log : List Log.Record := []

/-- The header of a block on top of a tip. Its time wraps around. -/
def Order.header (o : Order) (tip : IndexedHeader) (bits : Compact) : Header where
  parent := tip.hash
  time := (signed tip.header.time + o.spacing).toUInt64.toUInt32
  bits := bits
  nonce := tip.height + 1
  stake :=
    match o.kind with
    | .work => OutPoint.null
    | .stake => ⟨tip.hash, 0⟩

def mine (c : Consensus) : List Order → Progress → Progress
  | [], p => p
  | o :: os, p =>
    let told := p.log ++ c.requiredTargetLog p.store.source o.kind p.tip
    match c.requiredTarget p.store.source o.kind p.tip with
    | .error e => { p with yields := p.yields ++ [.failed e], log := told }
    | .ok work =>
      let h := o.header p.tip (Compact.ofTarget work)
      let accepted := (c.check p.store.source p.tip h).isOk
      let mined : Progress :=
        { p with
          yields := p.yields ++ [.block h.bits accepted]
          log := told ++ c.checkLog p.store.source p.tip h ++ p.store.insertLog h }
      match p.store.insert h with
      | (.error e, _) => { mined with refusal := some e }
      | (.ok x, store) => mine c os { mined with store := store, tip := x }

end Retarget.Mining
