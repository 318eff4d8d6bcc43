import Retarget.Proofs.Agreement

/-!
# Networks whose series always converges

The exponential rule fails only where its window is shorter than the granularity of stake
times. On the built-in networks it is at least 64 times as long at every height, so wherever
the headers below are known, so is the required target.
-/

namespace Retarget.Consensus

/-- At every height the spacing and the window of the exponential rule are positive. -/
def Converges (c : Consensus) : Prop :=
  ∀ height : ℕ, c.spacingAt height ≠ 0 ∧
    Exact.window (c.spacingAt height) (c.intervalAt height) (c.stakeMaskAt height) ≠ 0

/-- When the transitions are in order, the last one alone tells the last epoch. -/
theorem reduced_le_iff {c : Consensus}
    (order : c.qip9Height.toNat ≤ c.reducedBlockTimeHeight.toNat) (height : ℕ) :
    c.reducedBlockTimeHeight.toNat ≤ height ↔ c.epochAt height = .reducedBlockTime := by
  rw [epochAt]
  split
  · exact iff_of_false (by omega) (by simp)
  · split
    · exact iff_of_false (by omega) (by simp)
    · exact iff_of_true (by omega) rfl

theorem isReducedBlockTime_eq_epoch {c : Consensus} {height : UInt32}
    (order : c.qip9Height ≤ c.reducedBlockTimeHeight) :
    c.isReducedBlockTime height = decide (c.epoch height = .reducedBlockTime) := by
  rw [isReducedBlockTime, decide_eq_decide, epoch]
  simp only [UInt32.le_iff_toNat_le, UInt32.lt_iff_toNat_lt] at order ⊢
  split
  · exact iff_of_false (by omega) (by simp)
  · split
    · exact iff_of_false (by omega) (by simp)
    · exact iff_of_true (by omega) rfl

theorem isQip9_eq_epoch {c : Consensus} {height : UInt32} :
    c.isQip9 height = decide (c.epoch height ≠ .initial) := by
  rw [isQip9, decide_eq_decide, epoch, ← UInt32.not_lt]
  split
  · next h => exact iff_of_false (not_not.2 h) (by simp)
  · next h =>
    refine iff_of_true h ?_
    split <;> simp

theorem converges_ofNetwork (n : Network) : (ofNetwork n).Converges := by
  intro height
  have order : (ofNetwork n).qip9Height.toNat ≤ (ofNetwork n).reducedBlockTimeHeight.toNat := by
    cases n <;> decide
  rw [intervalAt, timespanAt, spacingAt, stakeMaskAt]
  simp only [reduced_le_iff order]
  generalize (ofNetwork n).epochAt height = epoch
  cases n <;> cases epoch <;> decide

theorem spacing_ofNetwork_ne_zero (n : Network) (height : UInt32) :
    (ofNetwork n).spacing height ≠ 0 := by
  rw [spacing]
  split <;> cases n <;> decide

/-- The exponential rule has two sets of parameters on the built-in networks. They differ in the
scale of time alone. -/
theorem qip9Parameters_ofNetwork (n : Network) {height : UInt32}
    (h : (ofNetwork n).isQip9 height = true) :
    (ofNetwork n).spacing height = 128 ∧ (ofNetwork n).timespan height = 4000 ∧
        (ofNetwork n).stakeMask height = 15 ∨
      (ofNetwork n).spacing height = 32 ∧ (ofNetwork n).timespan height = 1000 ∧
        (ofNetwork n).stakeMask height = 3 := by
  have order : (ofNetwork n).qip9Height ≤ (ofNetwork n).reducedBlockTimeHeight := by
    cases n <;> decide
  rw [isQip9_eq_epoch] at h
  rw [stakeMask, timespan, spacing, isReducedBlockTime_eq_epoch order]
  generalize (ofNetwork n).epoch height = epoch at h ⊢
  cases epoch with
  | initial => cases h
  | qip9 => cases n <;> decide
  | reducedBlockTime => cases n <;> decide

variable {c : Consensus} {source : HeaderSource} {kind : Kind} {parent : IndexedHeader}

theorem Converges.exists_adjusted (hc : c.Converges) (parent last previous : IndexedHeader) :
    ∃ t, c.adjusted parent.nextHeight last previous = .ok t := by
  obtain ⟨hspacing, hwindow⟩ := hc (parent.height.toNat + 1)
  have hadjusted := toNat_adjusted hspacing last previous
  cases ht : c.adjusted parent.nextHeight last previous with
  | ok t => exact ⟨t, rfl⟩
  | error e =>
      rw [ht, adjustedAt] at hadjusted
      split at hadjusted
      · cases hadjusted
      · rw [Exact.exponential, if_neg hwindow] at hadjusted
        cases hadjusted

theorem Converges.exists_requiredTarget {history : History} (hc : c.Converges)
    (hhistory : source.history kind parent = .ok history) :
    ∃ work, c.requiredTarget source kind parent = .ok work := by
  rw [requiredTarget, hhistory]
  cases history with
  | short => exact ⟨_, rfl⟩
  | pair last previous =>
      obtain ⟨t, ht⟩ := hc.exists_adjusted parent last previous
      simp only [ht]
      split
      · exact ⟨_, rfl⟩
      · exact ⟨_, rfl⟩

end Retarget.Consensus
