import Retarget.Header
import Retarget.Network

/-!
# Consensus parameters

The parameters of difficulty changed twice in the life of a chain. From the QIP9
height on, difficulty follows an exponential instead of a linear rule; from the
reduced-block-time height on, blocks come four times as often. A parameter is
selected by the height of the block it applies to, and each transition height
belongs to the newer rules. Some selectors look at both heights through the epoch,
others only at the one that concerns them.
-/

namespace Retarget

/-- A stretch of heights with one set of parameters. -/
inductive Epoch where
  | initial
  | qip9
  | reducedBlockTime
deriving DecidableEq, Repr

def Epoch.name : Epoch → String
  | .initial => "original"
  | .qip9 => "qip9"
  | .reducedBlockTime => "reduced block time"

/-- Blocks between two halvings of the block reward, the same on every network. -/
def rewardHalvingInterval : Nat := 985500

/-- The parameters that influence which headers are valid. -/
structure Consensus where
  network : Network
  /-- The first height of the exponential rule. -/
  qip9Height : UInt32
  /-- The first height of the shorter block time. -/
  reducedBlockTimeHeight : UInt32
  /-- Expected seconds between two blocks. -/
  targetSpacing : UInt32
  reducedTargetSpacing : UInt32
  /-- The seconds over which difficulty is averaged. -/
  initialTimespan : UInt32
  qip9Timespan : UInt32
  reducedTimespan : UInt32
  /-- The bits that must be unset in the time of a proof of stake. -/
  stakeTimestampMask : UInt32
  reducedStakeTimestampMask : UInt32
  /-- The easiest target of a proof-of-work block, at every height. -/
  workMaxTarget : Target
  /-- The easiest target of a proof-of-stake block in each epoch. -/
  initialStakeMaxTarget : Target
  qip9StakeMaxTarget : Target
  reducedStakeMaxTarget : Target
  /-- Whether the target of a kind never changes. -/
  workNoRetargeting : Bool
  stakeNoRetargeting : Bool
  /-- Confirmations before a block reward can be spent. -/
  coinbaseDepth : UInt32
  reducedCoinbaseDepth : UInt32
  /-- Blocks between two decreases of the subsidy. -/
  subsidyDecreaseInterval : UInt32
deriving DecidableEq, Repr

namespace Consensus

def mainnet : Consensus where
  network := .mainnet
  qip9Height := 466600
  reducedBlockTimeHeight := 845000
  targetSpacing := 128
  reducedTargetSpacing := 32
  initialTimespan := 960
  qip9Timespan := 4000
  reducedTimespan := 1000
  stakeTimestampMask := 15
  reducedStakeTimestampMask := 3
  workMaxTarget := Network.mainnet.maxTarget
  initialStakeMaxTarget := (Compact.mk 0x1d00ffff).magnitude
  qip9StakeMaxTarget := (Compact.mk 0x1a1fffff).magnitude
  reducedStakeMaxTarget := (Compact.mk 0x1a3fffff).magnitude
  workNoRetargeting := true
  stakeNoRetargeting := false
  coinbaseDepth := 500
  reducedCoinbaseDepth := 2000
  subsidyDecreaseInterval := 985500

/-- The test network changes its rules earlier and has a wider stake limit at first. -/
def testnet : Consensus :=
  { mainnet with
    network := .testnet
    qip9Height := 446320
    reducedBlockTimeHeight := 806600
    workMaxTarget := Network.testnet.maxTarget
    initialStakeMaxTarget := (Compact.mk 0x1f00ffff).magnitude }

/-- The private network has the newest rules from the start, one limit for
everything, and no retargeting. -/
def regtest : Consensus :=
  { mainnet with
    network := .regtest
    qip9Height := 0
    reducedBlockTimeHeight := 0
    workMaxTarget := Network.regtest.maxTarget
    initialStakeMaxTarget := Network.regtest.maxTarget
    qip9StakeMaxTarget := Network.regtest.maxTarget
    reducedStakeMaxTarget := Network.regtest.maxTarget
    stakeNoRetargeting := true
    subsidyDecreaseInterval := 150 }

/-- The test network with open proof of work and short intervals. -/
def unitest : Consensus :=
  { testnet with
    network := .unitest
    workMaxTarget := Network.unitest.maxTarget
    coinbaseDepth := 5
    reducedCoinbaseDepth := 5
    subsidyDecreaseInterval := 100 }

def ofNetwork : Network → Consensus
  | .mainnet => mainnet
  | .testnet => testnet
  | .regtest => regtest
  | .unitest => unitest

def epoch (c : Consensus) (height : UInt32) : Epoch :=
  if height < c.qip9Height then .initial
  else if height < c.reducedBlockTimeHeight then .qip9
  else .reducedBlockTime

/-- Whether the exponential rule holds at a height. -/
def isQip9 (c : Consensus) (height : UInt32) : Bool := c.qip9Height ≤ height

/-- Whether blocks come at the shorter spacing at a height. -/
def isReducedBlockTime (c : Consensus) (height : UInt32) : Bool :=
  c.reducedBlockTimeHeight ≤ height

/-- Expected seconds between two blocks of one kind. -/
def spacing (c : Consensus) (height : UInt32) : UInt32 :=
  if c.isReducedBlockTime height then c.reducedTargetSpacing else c.targetSpacing

/-- The seconds over which difficulty is averaged. -/
def timespan (c : Consensus) (height : UInt32) : UInt32 :=
  match c.epoch height with
  | .initial => c.initialTimespan
  | .qip9 => c.qip9Timespan
  | .reducedBlockTime => c.reducedTimespan

/-- Whole blocks in the timespan, undefined when the spacing is zero. -/
def interval? (c : Consensus) (height : UInt32) : Option UInt32 :=
  if c.spacing height = 0 then none else some (c.timespan height / c.spacing height)

/-- The bits that must be unset in the time of a proof of stake. -/
def stakeMask (c : Consensus) (height : UInt32) : UInt32 :=
  if c.isReducedBlockTime height then c.reducedStakeTimestampMask else c.stakeTimestampMask

/-- The easiest target allowed for a block of a kind. -/
def maxTarget (c : Consensus) (height : UInt32) : Kind → Target
  | .work => c.workMaxTarget
  | .stake =>
    match c.epoch height with
    | .initial => c.initialStakeMaxTarget
    | .qip9 => c.qip9StakeMaxTarget
    | .reducedBlockTime => c.reducedStakeMaxTarget

/-- Whether the target of a kind never changes. -/
def noRetargeting (c : Consensus) : Kind → Bool
  | .work => c.workNoRetargeting
  | .stake => c.stakeNoRetargeting

/-- Confirmations before a block reward can be spent. -/
def spendableDepth (c : Consensus) (height : UInt32) : UInt32 :=
  if c.isReducedBlockTime height then c.reducedCoinbaseDepth else c.coinbaseDepth

/-- Whether the block after the given height halves the reward. -/
def isRewardHalvingPoint (_ : Consensus) (height : UInt32) : Bool :=
  (height.toNat + 1) % rewardHalvingInterval == 0

theorem interval?_eq_none {c : Consensus} {height : UInt32} :
    c.interval? height = none ↔ c.spacing height = 0 := by
  simp [interval?]

end Consensus

end Retarget
