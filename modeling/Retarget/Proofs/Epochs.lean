import Retarget.Proofs.Adjustment.Networks

/-!
# One epoch for each height

Some selectors of parameters ask for the epoch of a height, which lies in one of three stretches.
Others compare the height with one transition only. They all mean the same epoch as long as the
transitions come in order, that is, the exponential rule no later than the shorter block time, and
then a transition height belongs to the newer epoch. If the shorter block time comes first, the
heights up to the exponential rule have parameters of two epochs at once: the timespan and the
stake limit of the first, and the spacing, the stake mask and the spendable depth of the last.
-/

namespace Retarget

structure Rules where
  exponential : Bool
  spacing : UInt32
  timespan : UInt32
  stakeMask : UInt32
  stakeMaxTarget : Target
  spendableDepth : UInt32
deriving DecidableEq

def Epoch.index : Epoch → Nat
  | .initial => 0
  | .qip9 => 1
  | .reducedBlockTime => 2

namespace Consensus

def rules (c : Consensus) : Epoch → Rules
  | .initial =>
    { exponential := false
      spacing := c.targetSpacing
      timespan := c.initialTimespan
      stakeMask := c.stakeTimestampMask
      stakeMaxTarget := c.initialStakeMaxTarget
      spendableDepth := c.coinbaseDepth }
  | .qip9 =>
    { exponential := true
      spacing := c.targetSpacing
      timespan := c.qip9Timespan
      stakeMask := c.stakeTimestampMask
      stakeMaxTarget := c.qip9StakeMaxTarget
      spendableDepth := c.coinbaseDepth }
  | .reducedBlockTime =>
    { exponential := true
      spacing := c.reducedTargetSpacing
      timespan := c.reducedTimespan
      stakeMask := c.reducedStakeTimestampMask
      stakeMaxTarget := c.reducedStakeMaxTarget
      spendableDepth := c.reducedCoinbaseDepth }

/-- What the selectors give at a height, each by itself. -/
def rulesAt (c : Consensus) (height : UInt32) : Rules where
  exponential := c.isQip9 height
  spacing := c.spacing height
  timespan := c.timespan height
  stakeMask := c.stakeMask height
  stakeMaxTarget := c.maxTarget height .stake
  spendableDepth := c.spendableDepth height

/-- The parameters of the first epoch, with those of the last one in the place of all that is
chosen by the transition to the shorter block time alone. -/
def mixedRules (c : Consensus) : Rules :=
  { c.rules .initial with
    spacing := c.reducedTargetSpacing
    stakeMask := c.reducedStakeTimestampMask
    spendableDepth := c.reducedCoinbaseDepth }

/-- All selectors mean one epoch at a height. Epochs may have a parameter in common, so which one a
selector means shows only when the parameters vary and the transitions stay. -/
def AgreeAt (c : Consensus) (height : UInt32) : Prop :=
  ∃ e : Epoch, ∀ d : Consensus, d.qip9Height = c.qip9Height →
    d.reducedBlockTimeHeight = c.reducedBlockTimeHeight → d.rulesAt height = d.rules e

/-- The epoch of a height tells all its parameters. The epochs come one after another, and each
begins at its transition height. -/
structure FollowsEpochs (c : Consensus) : Prop where
  rulesAt_eq : ∀ height, c.rulesAt height = c.rules (c.epoch height)
  initial_iff : ∀ height, c.epoch height = .initial ↔ height < c.qip9Height
  reduced_iff : ∀ height, c.epoch height = .reducedBlockTime ↔ c.reducedBlockTimeHeight ≤ height
  mono : ∀ {m n : UInt32}, m ≤ n → (c.epoch m).index ≤ (c.epoch n).index

variable {c : Consensus} {height m n : UInt32}

theorem epoch_eq_initial_iff : c.epoch height = .initial ↔ height < c.qip9Height := by
  have h := @isQip9_eq_epoch c height
  rw [isQip9, decide_eq_decide, ← UInt32.not_lt] at h
  exact not_iff_not.1 h.symm

theorem epoch_eq_reduced_iff (order : c.qip9Height ≤ c.reducedBlockTimeHeight) :
    c.epoch height = .reducedBlockTime ↔ c.reducedBlockTimeHeight ≤ height :=
  (decide_eq_decide.1 (isReducedBlockTime_eq_epoch order)).symm

/-- Later heights have later epochs, also when the transitions are out of order: then there is no
second epoch. -/
theorem index_epoch_mono (h : m ≤ n) : (c.epoch m).index ≤ (c.epoch n).index := by
  by_cases hinitial : m < c.qip9Height
  · rw [epoch_eq_initial_iff.2 hinitial]
    exact Nat.zero_le _
  · have hinitial' : ¬ n < c.qip9Height := fun hn => hinitial (UInt32.lt_of_le_of_lt h hn)
    simp only [epoch, if_neg hinitial, if_neg hinitial']
    by_cases hearly : m < c.reducedBlockTimeHeight
    · rw [if_pos hearly]
      split <;> decide
    · have hearly' : ¬ n < c.reducedBlockTimeHeight :=
        fun hn => hearly (UInt32.lt_of_le_of_lt h hn)
      rw [if_neg hearly, if_neg hearly']

/-- Where the transitions are in order, each comparison can be made with the epoch instead. -/
theorem rulesAt_eq_rules (order : c.qip9Height ≤ c.reducedBlockTimeHeight) (height : UInt32) :
    c.rulesAt height = c.rules (c.epoch height) := by
  simp only [rulesAt, spacing, timespan, stakeMask, maxTarget, spendableDepth, isQip9_eq_epoch,
    isReducedBlockTime_eq_epoch order]
  cases c.epoch height <;> rfl

/-- Between transitions that are out of order the comparison with the second one holds already. -/
theorem rulesAt_eq_mixedRules (hreduced : c.reducedBlockTimeHeight ≤ height)
    (hqip9 : height < c.qip9Height) : c.rulesAt height = c.mixedRules := by
  have hinitial := epoch_eq_initial_iff.2 hqip9
  have hlate : c.isReducedBlockTime height = true := decide_eq_true hreduced
  have hearly : c.isQip9 height = false := decide_eq_false (UInt32.not_le.2 hqip9)
  simp only [rulesAt, spacing, timespan, stakeMask, maxTarget, spendableDepth, hinitial, hlate,
    hearly, if_true]
  rfl

/-- The parameters of two epochs at once are those of none, for instance on the main network. -/
theorem mixedRules_mainnet_ne (e : Epoch) : mainnet.mixedRules ≠ mainnet.rules e := by
  cases e <;> decide

theorem transitions_ofNetwork (network : Network) :
    (ofNetwork network).qip9Height ≤ (ofNetwork network).reducedBlockTimeHeight := by
  cases network <;> decide

/-- At the transition to the shorter block time the selectors mean two epochs if the exponential
rule comes later. -/
theorem agreeAt_iff :
    (∀ height, c.AgreeAt height) ↔ c.qip9Height ≤ c.reducedBlockTimeHeight := by
  constructor
  · intro agree
    refine UInt32.not_lt.1 fun hgap => ?_
    obtain ⟨e, he⟩ := agree c.reducedBlockTimeHeight
    let d : Consensus :=
      { mainnet with
        qip9Height := c.qip9Height
        reducedBlockTimeHeight := c.reducedBlockTimeHeight }
    have hmixed : d.rulesAt c.reducedBlockTimeHeight = d.mixedRules :=
      rulesAt_eq_mixedRules (c := d) UInt32.le_rfl hgap
    -- The parameters of an epoch do not depend on where it begins.
    exact mixedRules_mainnet_ne e (hmixed.symm.trans (he d rfl rfl))
  · intro order height
    refine ⟨c.epoch height, fun d hqip9 hreduced => ?_⟩
    have hepoch : d.epoch height = c.epoch height := by simp only [epoch, hqip9, hreduced]
    exact hepoch ▸ rulesAt_eq_rules (hqip9.symm ▸ hreduced.symm ▸ order) height

/-- The selectors mean one epoch at every height exactly if the transitions are in order. Then all
parameters are those of the epoch of the height, which begins at its transition and never goes
back. If they are out of order, the heights between them belong to the first epoch but have
parameters of the last one. The transitions of the built-in networks are in order. -/
theorem agreeAt_iff_transitions_ordered (c : Consensus) :
    ((∀ height, c.AgreeAt height) ↔ c.qip9Height ≤ c.reducedBlockTimeHeight) ∧
    (c.qip9Height ≤ c.reducedBlockTimeHeight → c.FollowsEpochs) ∧
    (∀ height, c.reducedBlockTimeHeight ≤ height → height < c.qip9Height →
      c.epoch height = .initial ∧ c.rulesAt height = c.mixedRules) ∧
    ∀ network,
      (ofNetwork network).qip9Height ≤ (ofNetwork network).reducedBlockTimeHeight := by
  refine ⟨agreeAt_iff, fun order => ?_, fun height hreduced hqip9 => ?_, transitions_ofNetwork⟩
  · exact ⟨rulesAt_eq_rules order, fun _ => epoch_eq_initial_iff,
      fun _ => epoch_eq_reduced_iff order, index_epoch_mono⟩
  · exact ⟨epoch_eq_initial_iff.2 hqip9, rulesAt_eq_mixedRules hreduced hqip9⟩

/-- A main network whose blocks come faster from height 5 on, before its rule changes at 10. -/
example :
    let c := { mainnet with qip9Height := 10, reducedBlockTimeHeight := 5 }
    c.epoch 7 = .initial ∧ c.rulesAt 7 = c.mixedRules := by decide

end Consensus

end Retarget
