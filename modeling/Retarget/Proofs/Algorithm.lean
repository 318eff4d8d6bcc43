import Retarget.Requirement
import Retarget.Proofs.Series.Taylor

/-!
# The algorithm over unbounded integers

The next target of a kind as an algorithm on integers of any size and either sign. Every
division truncates towards zero, and no height is the greatest. The headers below are found
by the same walks and their targets are decoded alike, but no arithmetic is shared with the
computation in fixed widths.
-/

namespace Retarget

namespace Exact

def constrain (actual spacing multiplier : ℤ) : ℤ :=
  if actual < 0 then spacing else min actual (spacing * multiplier)

def linear (target actual spacing interval : ℤ) : ℤ :=
  (target * ((interval - 1) * spacing + 2 * actual)).tdiv ((interval + 1) * spacing)

/-- The numerator `p` of the exponent. -/
def deviation (actual spacing mask : ℤ) : ℤ := (2 * (actual - spacing)).tdiv (mask + 1)

/-- The denominator `q` of the exponent. -/
def window (spacing interval mask : ℤ) : ℤ := ((interval + 1) * spacing).tdiv (mask + 1)

/-- The exponential rule. It says nothing when the exponent has the denominator zero. -/
def exponential (target actual spacing interval mask : ℤ) : Except WorkError ℤ :=
  if window spacing interval mask = 0 then
    .error (.diverged (Int64.ofInt (deviation actual spacing mask)) 0)
  else
    .ok (Taylor.sum target (deviation actual spacing mask) (window spacing interval mask))

/-- An adjusted target, or the limit in place of one that is out of range. -/
def limited (limit target : ℤ) : ℤ :=
  if target ≤ 0 ∨ limit < target then limit else target

end Exact

namespace Consensus

variable (c : Consensus)

/-- The epoch of an unbounded height. -/
def epochAt (height : ℕ) : Epoch :=
  if height < c.qip9Height.toNat then .initial
  else if height < c.reducedBlockTimeHeight.toNat then .qip9
  else .reducedBlockTime

def spacingAt (height : ℕ) : ℤ :=
  if c.reducedBlockTimeHeight.toNat ≤ height then c.reducedTargetSpacing.toNat
  else c.targetSpacing.toNat

def timespanAt (height : ℕ) : ℤ :=
  match c.epochAt height with
  | .initial => c.initialTimespan.toNat
  | .qip9 => c.qip9Timespan.toNat
  | .reducedBlockTime => c.reducedTimespan.toNat

def intervalAt (height : ℕ) : ℤ := (c.timespanAt height).tdiv (c.spacingAt height)

def stakeMaskAt (height : ℕ) : ℤ :=
  if c.reducedBlockTimeHeight.toNat ≤ height then c.reducedStakeTimestampMask.toNat
  else c.stakeTimestampMask.toNat

def maxTargetAt (height : ℕ) : Kind → ℤ
  | .work => c.workMaxTarget.toNat
  | .stake =>
    match c.epochAt height with
    | .initial => c.initialStakeMaxTarget.toNat
    | .qip9 => c.qip9StakeMaxTarget.toNat
    | .reducedBlockTime => c.reducedStakeMaxTarget.toNat

def adjustedAt (height : ℕ) (last previous : IndexedHeader) : Except WorkError ℤ :=
  let target : ℤ := last.header.bits.magnitude.toNat
  let actual : ℤ := last.header.time.toNat - previous.header.time.toNat
  let spacing := c.spacingAt height
  if height < c.qip9Height.toNat then
    .ok (Exact.linear target (Exact.constrain actual spacing 10) spacing (c.intervalAt height))
  else
    Exact.exponential target (Exact.constrain actual spacing 20) spacing (c.intervalAt height)
      (c.stakeMaskAt height)

/-- The target that the next header of a kind on top of `parent` must meet. -/
def nextTarget (source : HeaderSource) (kind : Kind) (parent : IndexedHeader) :
    Except WorkError ℤ := do
  let height := parent.height.toNat + 1
  let limit := c.maxTargetAt height kind
  let last ← (source.lastOfKind kind parent).mapError .link
  if last.height = 0 then
    return limit
  let below ← (source.parent last).mapError .link
  let previous ← (source.lastOfKind kind below).mapError .link
  if previous.height = 0 then
    return limit
  if c.noRetargeting kind then
    return last.header.bits.magnitude.toNat
  let target ← c.adjustedAt height last previous
  return Exact.limited limit target

end Consensus

end Retarget
