import Retarget.Proofs.Adjustment.Networks
import Retarget.Proofs.Series.Monotone

/-!
# Slower blocks never make the next block harder

The greater the measured spacing, the greater the adjusted target, before the limit is applied
to it. For the linear rule this holds of all parameters. The exponential rule sums a series
whose terms are truncated one by one, and for spacings below the expected one it is monotone
only where the exponents are small enough. The built-in networks have the same least exponent
and the same window at all heights of that rule, and they are.
-/

namespace Retarget

namespace Exact

variable {spacing interval mask multiplier x y target : ℤ}

theorem constrain_mono (hx : 0 ≤ x) (h : x ≤ y) :
    constrain x spacing multiplier ≤ constrain y spacing multiplier := by
  rw [constrain, constrain, if_neg (by omega), if_neg (by omega)]
  exact min_le_min_right _ h

theorem linear_mono (htarget : 0 ≤ target) (hdenominator : 0 < (interval + 1) * spacing)
    (h : x ≤ y) : linear target x spacing interval ≤ linear target y spacing interval := by
  apply Int.tdiv_le_tdiv hdenominator
  apply mul_le_mul_of_nonneg_left _ htarget
  omega

theorem deviation_mono (hmask : 0 ≤ mask) (h : x ≤ y) :
    deviation x spacing mask ≤ deviation y spacing mask := by
  apply Int.tdiv_le_tdiv
  · omega
  · omega

end Exact

namespace Adjustment

/-- There is a window, and it is long for the exponents: the numerator of the least one, which
belongs to the measured spacing zero, has a square of at most twice the window. -/
def Smooth (spacing interval mask : ℤ) : Prop :=
  Exact.window spacing interval mask ≠ 0 ∧
    Exact.deviation 0 spacing mask ^ 2 ≤ 2 * Exact.window spacing interval mask

instance (spacing interval mask : ℤ) : Decidable (Smooth spacing interval mask) :=
  inferInstanceAs (Decidable (_ ∧ _))

variable {spacing interval mask x y : Int64}

theorem linear_constrain_mono (h : Bounded spacing.toInt interval.toInt mask.toInt)
    (target : Target) (hx : 0 ≤ x) (hle : x ≤ y) :
    linear target (constrain x spacing linearMultiplier) spacing interval ≤
      linear target (constrain y spacing linearMultiplier) spacing interval := by
  rw [Int64.le_iff_toInt_le] at hx hle
  rw [BitVec.le_def, toNat_linear_constrain h, toNat_linear_constrain h]
  apply Int.toNat_le_toNat
  apply Exact.linear_mono (Int.natCast_nonneg _)
  · exact h.spacing_pos.trans_le h.spacing_le_denominator
  · exact Exact.constrain_mono hx hle

theorem exists_exponential_constrain (h : Bounded spacing.toInt interval.toInt mask.toInt)
    (hwindow : Exact.window spacing.toInt interval.toInt mask.toInt ≠ 0) (target : Target)
    (x : Int64) :
    ∃ t, exponential target (constrain x spacing exponentialMultiplier) spacing interval mask =
        .ok t ∧
      t.toNat = (Taylor.sum target.toNat
        (Exact.deviation (Exact.constrain x.toInt spacing.toInt 20) spacing.toInt mask.toInt)
        (Exact.window spacing.toInt interval.toInt mask.toInt)).toNat := by
  have hexact := toNat_exponential_constrain h target x
  rw [Exact.exponential, if_neg hwindow] at hexact
  cases ht : exponential target (constrain x spacing exponentialMultiplier) spacing interval
      mask with
  | error e =>
      rw [ht] at hexact
      cases hexact
  | ok t =>
      rw [ht] at hexact
      exact ⟨t, rfl, Except.ok.inj hexact⟩

theorem exponential_constrain_mono (h : Bounded spacing.toInt interval.toInt mask.toInt)
    (hsmooth : Smooth spacing.toInt interval.toInt mask.toInt) (target : Target) (hx : 0 ≤ x)
    (hle : x ≤ y) :
    ∃ t u, exponential target (constrain x spacing exponentialMultiplier) spacing interval
          mask = .ok t ∧
        exponential target (constrain y spacing exponentialMultiplier) spacing interval
          mask = .ok u ∧
        t ≤ u := by
  obtain ⟨hwindow, hsq⟩ := hsmooth
  obtain ⟨t, ht, htsum⟩ := exists_exponential_constrain h hwindow target x
  obtain ⟨u, hu, husum⟩ := exists_exponential_constrain h hwindow target y
  refine ⟨t, u, ht, hu, ?_⟩
  rw [BitVec.le_def, htsum, husum]
  apply Int.toNat_le_toNat
  rw [Int64.le_iff_toInt_le] at hx hle
  have hmask := h.mask_nonneg
  -- No constrained spacing is below zero, so no exponent is below that of zero.
  have hleast : Exact.deviation 0 spacing.toInt mask.toInt ≤
      Exact.deviation (Exact.constrain x.toInt spacing.toInt 20) spacing.toInt mask.toInt :=
    Exact.deviation_mono hmask (h.constrain_mem (by omega) x.toInt).1
  apply Taylor.sum_mono (Int.natCast_nonneg _) (h.window_pos hwindow)
  · intro hneg
    refine le_trans ?_ hsq
    rw [← neg_sq, ← neg_sq (Exact.deviation 0 _ _)]
    exact pow_le_pow_left₀ (by omega) (by omega) 2
  · exact Exact.deviation_mono hmask (Exact.constrain_mono hx hle)

end Adjustment

namespace Consensus

/-- A target adjusted to a measured spacing by the rule in force at a height. -/
def adjustedFor (c : Consensus) (height : UInt32) (target : Target) (actual : Int64) :
    Except WorkError WideTarget :=
  match c.interval? height with
  | none => .error .divisionByZero
  | some interval =>
    let spacing := signed (c.spacing height)
    if c.isQip9 height then
      Adjustment.exponential target
        (Adjustment.constrain actual spacing Adjustment.exponentialMultiplier)
        spacing (signed interval) (signed (c.stakeMask height))
    else
      .ok (Adjustment.linear target
        (Adjustment.constrain actual spacing Adjustment.linearMultiplier)
        spacing (signed interval))

/-- What is adjusted is the target of the last header, to the spacing of the last two. -/
theorem adjusted_eq_adjustedFor (c : Consensus) (height : UInt32)
    (last previous : IndexedHeader) :
    c.adjusted height last previous =
      c.adjustedFor height last.header.bits.magnitude
        (signed last.header.time - signed previous.header.time) :=
  rfl

/-- At every height of the exponential rule the window is long enough. -/
def Smooth (c : Consensus) : Prop :=
  ∀ height, c.spacing height ≠ 0 ∧
    (c.isQip9 height = true →
      Adjustment.Smooth (c.spacing height).toNat
        ((c.timespan height).toNat / (c.spacing height).toNat : ℕ) (c.stakeMask height).toNat)

theorem smooth_ofNetwork (n : Network) : (ofNetwork n).Smooth := by
  intro height
  refine ⟨spacing_ofNetwork_ne_zero n height, fun hqip9 => ?_⟩
  rcases qip9Parameters_ofNetwork n hqip9 with ⟨hs, ht, hm⟩ | ⟨hs, ht, hm⟩
  · rw [hs, ht, hm]
    decide
  · rw [hs, ht, hm]
    decide

variable {c : Consensus} {height : UInt32} {x y : Int64}

/-- Where the window is long enough, an adjusted target exists and grows with the measured
spacing. -/
theorem Smooth.adjustedFor_mono (hc : c.Smooth) (height : UInt32) (target : Target) (hx : 0 ≤ x)
    (hle : x ≤ y) :
    ∃ t u, c.adjustedFor height target x = .ok t ∧ c.adjustedFor height target y = .ok u ∧
      t ≤ u := by
  obtain ⟨hspacing, hsmooth⟩ := hc height
  cases hi : c.interval? height with
  | none => exact absurd (interval?_eq_none.1 hi) hspacing
  | some interval =>
      have hbounded := c.bounded hi
      simp only [adjustedFor, hi]
      split
      · next hqip9 =>
        have hwindow := hsmooth hqip9
        rw [← toNat_interval hi, ← toInt_signed, ← toInt_signed, ← toInt_signed] at hwindow
        exact Adjustment.exponential_constrain_mono hbounded hwindow target hx hle
      · exact ⟨_, _, rfl, rfl, Adjustment.linear_constrain_mono hbounded target hx hle⟩

/-- On a built-in network, at every height and for every target, a greater spacing never gives
a smaller adjusted target. -/
theorem adjustedFor_mono_ofNetwork (n : Network) (height : UInt32) (target : Target)
    {fast slow : Int64} (hfast : 0 ≤ fast) (hle : fast ≤ slow) :
    ∃ t u, (ofNetwork n).adjustedFor height target fast = .ok t ∧
      (ofNetwork n).adjustedFor height target slow = .ok u ∧ t ≤ u :=
  (smooth_ofNetwork n).adjustedFor_mono height target hfast hle

/-- Two stakes that come too early on the main network, by 28 and by 16 seconds. -/
theorem adjustedFor_mono_early_stakes :
    (0 : Int64) ≤ 100 ∧ (100 : Int64) ≤ 112 ∧
      ∃ t u, mainnet.adjustedFor 500000 (Compact.mk 0x1a0a3d1c).magnitude 100 = .ok t ∧
        mainnet.adjustedFor 500000 (Compact.mk 0x1a0a3d1c).magnitude 112 = .ok u ∧ t ≤ u :=
  ⟨by decide, by decide,
    adjustedFor_mono_ofNetwork .mainnet 500000 (Compact.mk 0x1a0a3d1c).magnitude (by decide)
      (by decide)⟩

end Consensus

end Retarget
