import Retarget.Header

/-!
# Drafts of headers

A draft says which fields of a header are chosen; the others come from a base. A
chosen kind has the last word on the staked output: a stake is marked by an output
that depends on nothing but the nonce, and proof of work by the null output.
-/

namespace Retarget

/-- The header with the staked output that marks it as of the given kind. -/
def Header.ofKind (h : Header) : Kind → Header
  | .work => { h with stake := OutPoint.null }
  | .stake => { h with stake := ⟨Hash.ofByte 1, h.nonce⟩ }

/-- The chosen fields of a header. -/
structure Draft where
  parent : Option Hash := none
  time : Option UInt32 := none
  bits : Option Compact := none
  nonce : Option UInt32 := none
  stake : Option OutPoint := none
  kind : Option Kind := none

def Draft.complete (d : Draft) (base : Header) : Header :=
  let h : Header :=
    { base with
      parent := d.parent.getD base.parent
      time := d.time.getD base.time
      bits := d.bits.getD base.bits
      nonce := d.nonce.getD base.nonce
      stake := d.stake.getD base.stake }
  match d.kind with
  | none => h
  | some kind => h.ofKind kind

end Retarget
