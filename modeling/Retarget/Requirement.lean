import Retarget.Adjustment

/-!
# The required target

The target that the next header of a kind must meet is found from the headers
below it. With fewer than two headers of that kind above genesis it is the limit
of the kind. Otherwise it is the target of the last one, adjusted to the time
since the one before, unless the parameters forbid retargeting. An adjusted target
that is zero or above the limit is replaced by the limit.

A header is accepted when the required target, cut down to the precision of the
declared compact target, encodes to exactly what is declared.
-/

namespace Retarget

/-- What the headers below say about the next one of a kind. -/
inductive History where
  /-- Fewer than two headers of the kind stand above genesis. -/
  | short
  /-- The newest header of the kind and the one before it. -/
  | pair (last previous : IndexedHeader)
deriving DecidableEq, Repr

/-- The two newest headers of a kind at or below `x`. -/
def HeaderSource.history (source : HeaderSource) (kind : Kind) (x : IndexedHeader) :
    Except LinkError History :=
  match source.lastOfKind kind x with
  | .error e => .error e
  | .ok last =>
    if last.isGenesis then .ok .short
    else
      match source.parent last with
      | .error e => .error e
      | .ok below =>
        match source.lastOfKind kind below with
        | .error e => .error e
        | .ok previous => if previous.isGenesis then .ok .short else .ok (.pair last previous)

/-- The height of the next header; above the greatest height it stays there. -/
def IndexedHeader.nextHeight (x : IndexedHeader) : UInt32 :=
  if x.height = 0xffffffff then 0xffffffff else x.height + 1

namespace Consensus

/-- The target of the last header, adjusted by the rule in force at a height. -/
def adjusted (c : Consensus) (height : UInt32) (last previous : IndexedHeader) :
    Except WorkError WideTarget :=
  match c.interval? height with
  | none => .error .divisionByZero
  | some interval =>
    let target := last.header.bits.magnitude
    let actual := signed last.header.time - signed previous.header.time
    let spacing := signed (c.spacing height)
    if c.isQip9 height then
      Adjustment.exponential target
        (Adjustment.constrain actual spacing Adjustment.exponentialMultiplier)
        spacing (signed interval) (signed (c.stakeMask height))
    else
      .ok (Adjustment.linear target
        (Adjustment.constrain actual spacing Adjustment.linearMultiplier)
        spacing (signed interval))

/-- An adjusted target, if it is neither zero nor above the limit. -/
def withinLimit? (limit : Target) (t : WideTarget) : Option Target :=
  match t.narrow? with
  | none => none
  | some u => if u ≠ 0 ∧ u ≤ limit then some u else none

/-- An adjusted target, or the limit in place of one that is out of range. -/
def limited (limit : Target) (t : WideTarget) : Target := (withinLimit? limit t).getD limit

/-- The target that the next header of a kind on top of `parent` must meet. -/
def requiredTarget (c : Consensus) (source : HeaderSource) (kind : Kind)
    (parent : IndexedHeader) : Except WorkError Target :=
  let height := parent.nextHeight
  match source.history kind parent with
  | .error e => .error (.link e)
  | .ok .short => .ok (c.maxTarget height kind)
  | .ok (.pair last previous) =>
    if c.noRetargeting kind then .ok last.header.bits.magnitude
    else
      match c.adjusted height last previous with
      | .error e => .error e
      | .ok t => .ok (limited (c.maxTarget height kind) t)

/-- Checks that a header on top of `parent` declares the required target. -/
def check (c : Consensus) (source : HeaderSource) (parent : IndexedHeader) (h : Header) :
    Except WorkError Unit :=
  match c.requiredTarget source h.kind parent with
  | .error e => .error e
  | .ok work =>
    let expected := Compact.ofTarget (h.bits.masked work)
    if expected = h.bits then .ok () else .error (.difficulty expected h.bits)

theorem check_eq_ok_iff {c : Consensus} {source : HeaderSource} {parent : IndexedHeader}
    {h : Header} {work : Target} (hw : c.requiredTarget source h.kind parent = .ok work) :
    c.check source parent h = .ok () ↔ Compact.ofTarget (h.bits.masked work) = h.bits := by
  simp only [check, hw]
  split <;> simp_all

end Consensus

end Retarget
