import Retarget.Requirement

/-!
# What a requirement tells

Finding the required target tells each successful walk, how an exponential series
went, whether the limit took effect, and the result of an adjustment. A check adds
a warning when it rejects a header.
-/

namespace Retarget

def HeaderSource.historyLog (source : HeaderSource) (kind : Kind) (x : IndexedHeader) :
    List Log.Record :=
  source.lastOfKindLog kind x ++
    match source.lastOfKind kind x with
    | .error _ => []
    | .ok last =>
      if last.isGenesis then []
      else
        match source.parent last with
        | .error _ => []
        | .ok below => source.lastOfKindLog kind below

namespace Consensus

def adjustedLog (c : Consensus) (height : UInt32) (last previous : IndexedHeader) :
    List Log.Record :=
  match c.interval? height with
  | none => []
  | some interval =>
    let actual := signed last.header.time - signed previous.header.time
    let spacing := signed (c.spacing height)
    if c.isQip9 height then
      Adjustment.exponentialLog last.header.bits.magnitude
        (Adjustment.constrain actual spacing Adjustment.exponentialMultiplier)
        spacing (signed interval) (signed (c.stakeMask height))
    else []

/-- The record of an adjusted target that the limit replaces. -/
def limitedLog (limit : Target) (height : UInt32) (kind : Kind) (t : WideTarget) :
    List Log.Record :=
  match withinLimit? limit t with
  | some _ => []
  | none =>
    [{ level := .info
       target := "verification"
       message :=
        "Difficulty hit limit for " ++ kind.label ++ " block at height " ++ toString height ++
          ": " ++ Numeral.hex t.toNat }]

def requiredTargetLog (c : Consensus) (source : HeaderSource) (kind : Kind)
    (parent : IndexedHeader) : List Log.Record :=
  let height := parent.nextHeight
  source.historyLog kind parent ++
    match source.history kind parent with
    | .ok (.pair last previous) =>
      if c.noRetargeting kind then []
      else
        c.adjustedLog height last previous ++
          match c.adjusted height last previous with
          | .error _ => []
          | .ok t =>
            let limit := c.maxTarget height kind
            limitedLog limit height kind t ++
              [{ level := .debug
                 target := "verification"
                 message :=
                  "Work required for " ++ kind.label ++ " block at height " ++ toString height ++
                    ": " ++ Numeral.hex (limited limit t).toNat }]
    | _ => []

def checkLog (c : Consensus) (source : HeaderSource) (parent : IndexedHeader) (h : Header) :
    List Log.Record :=
  c.requiredTargetLog source h.kind parent ++
    match c.check source parent h with
    | .error (.difficulty expected actual) =>
      [{ level := .warn
         target := "verification"
         message :=
          "Rejected " ++ h.kind.label ++ " header at height " ++ toString parent.nextHeight ++
            ": expected bits " ++ expected.toText ++ ", got " ++ actual.toText }]
    | _ => []

end Consensus

end Retarget
