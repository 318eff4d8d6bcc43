import Retarget.Proofs.Adjustment.Checked
import Retarget.Proofs.Adjustment.Networks

/-!
# Adjustments never overflow

Whatever the parameters are, as long as the expected spacing is not zero, no expression of an
adjustment leaves its width: with a check after every operation the adjustment has the same
result. It fails only under the exponential rule, exactly where the averaging window is shorter
than the granularity of stake times. On the built-in networks no window is.
-/

namespace Retarget

namespace Adjustment

section Window

variable {s i m : ℤ}

theorem Bounded.window_eq_zero_iff (h : Bounded s i m) :
    Exact.window s i m = 0 ↔ (i + 1) * s < m + 1 := by
  have hunit : 0 < m + 1 := by
    have := h.mask_nonneg
    omega
  have hlength : 0 ≤ (i + 1) * s := h.spacing_pos.le.trans h.spacing_le_denominator
  rw [Exact.window, Int.tdiv_eq_ediv_of_nonneg hlength]
  constructor
  · intro hzero
    rw [← one_mul (m + 1), ← Int.ediv_lt_iff_lt_mul hunit, hzero]
    exact Int.one_pos
  · exact Int.ediv_eq_zero_of_lt hlength

end Window

variable {actual spacing interval mask : Int64}

/-- The exponential rule fails exactly where the window is shorter than the granularity. -/
theorem exponential_diverges_iff (h : Bounded spacing.toInt interval.toInt mask.toInt)
    (hlo : 0 ≤ actual.toInt) (hhi : actual.toInt ≤ spacing.toInt * 20) (target : Target) :
    (∃ p q, exponential target actual spacing interval mask = .error (.diverged p q)) ↔
      (interval.toInt + 1) * spacing.toInt < mask.toInt + 1 := by
  have hexact := toNat_exponential h target hlo hhi
  rw [← h.window_eq_zero_iff]
  rw [Exact.exponential] at hexact
  split at hexact
  · next hzero =>
    refine iff_of_true ?_ hzero
    cases hresult : exponential target actual spacing interval mask with
    | error e =>
        rw [hresult] at hexact
        cases hexact
        exact ⟨_, _, rfl⟩
    | ok t =>
        rw [hresult] at hexact
        cases hexact
  · next hne =>
    refine iff_of_false ?_ hne
    rintro ⟨p, q, hresult⟩
    rw [hresult] at hexact
    cases hexact

end Adjustment

namespace Consensus

open Adjustment

variable {c : Consensus} {height : UInt32}

/-- The target of the last header, adjusted by the rule in force at a height, as long as no
expression leaves its width. -/
def adjusted? (c : Consensus) (height : UInt32) (last previous : IndexedHeader) :
    Option (Except WorkError WideTarget) :=
  match c.interval? height with
  | none => return .error .divisionByZero
  | some interval => do
    let target := last.header.bits.magnitude
    let spacing := signed (c.spacing height)
    let actual ← fit? ((signed last.header.time).toInt - (signed previous.header.time).toInt)
    if c.isQip9 height then
      let constrained ← constrain? actual spacing exponentialMultiplier
      exponential? target constrained spacing (signed interval) (signed (c.stakeMask height))
    else
      let constrained ← constrain? actual spacing linearMultiplier
      return .ok (← linear? target constrained spacing (signed interval))

/-- The check never fails: every expression of an adjustment is exact. -/
theorem adjusted?_eq_some (c : Consensus) (height : UInt32) (last previous : IndexedHeader) :
    c.adjusted? height last previous = some (c.adjusted height last previous) := by
  rw [adjusted?, adjusted]
  cases hi : c.interval? height with
  | none => rfl
  | some interval =>
      have hbounded := c.bounded hi
      have hactual : fit? ((signed last.header.time).toInt - (signed previous.header.time).toInt) =
          some (signed last.header.time - signed previous.header.time) := by
        rw [fit?_eq_some, toInt_actual, toInt_signed, toInt_signed]
      simp only [hactual, Option.bind_eq_bind, Option.bind_some]
      split
      · obtain ⟨hlo, hhi⟩ := toInt_constrain_mem hbounded
          (signed last.header.time - signed previous.header.time) exponentialMultiplier
          (by decide) (by decide)
        rw [constrain?_eq_some hbounded (by decide) (by decide), Option.bind_some,
          exponential?_eq_some hbounded hlo hhi]
      · obtain ⟨hlo, hhi⟩ := toInt_constrain_mem hbounded
          (signed last.header.time - signed previous.header.time) linearMultiplier
          (by decide) (by decide)
        rw [constrain?_eq_some hbounded (by decide) (by decide), Option.bind_some,
          linear?_eq_some hbounded hlo hhi]
        rfl

/-- An adjustment fails only under the exponential rule, and there exactly where the window
is shorter than the granularity. -/
theorem adjusted_diverges_iff (hspacing : c.spacing height ≠ 0) (last previous : IndexedHeader) :
    (∃ p q, c.adjusted height last previous = .error (.diverged p q)) ↔
      c.isQip9 height = true ∧
        ((c.timespan height).toNat / (c.spacing height).toNat + 1) * (c.spacing height).toNat <
          (c.stakeMask height).toNat + 1 := by
  cases hi : c.interval? height with
  | none => exact absurd (interval?_eq_none.1 hi) hspacing
  | some interval =>
      have hbounded := c.bounded hi
      rw [adjusted, hi, ← toNat_interval hi]
      simp only
      split
      · next hqip9 =>
        obtain ⟨hlo, hhi⟩ := toInt_constrain_mem hbounded
          (signed last.header.time - signed previous.header.time) exponentialMultiplier
          (by decide) (by decide)
        rw [exponential_diverges_iff hbounded hlo hhi, toInt_signed, toInt_signed, toInt_signed]
        have hcast : ((interval.toNat : ℤ) + 1) * (c.spacing height).toNat <
            (c.stakeMask height).toNat + 1 ↔
            (interval.toNat + 1) * (c.spacing height).toNat < (c.stakeMask height).toNat + 1 := by
          exact_mod_cast Iff.rfl
        rw [hcast]
        exact (and_iff_right hqip9).symm
      · next hlinear =>
        refine iff_of_false ?_ (fun h => hlinear h.1)
        rintro ⟨p, q, h⟩
        cases h

theorem granularity_pos (hspacing : c.spacing height ≠ 0) :
    0 < granularity (signed (c.stakeMask height)) := by
  cases hi : c.interval? height with
  | none => exact absurd (interval?_eq_none.1 hi) hspacing
  | some interval =>
      have hbounded := c.bounded hi
      have := hbounded.mask_nonneg
      rw [Int64.lt_iff_toInt_lt, toInt_granularity hbounded, Int64.toInt_zero]
      omega

variable {source : HeaderSource} {kind : Kind} {parent : IndexedHeader} {p q : Int64}

theorem Converges.requiredTarget_ne (hc : c.Converges) :
    c.requiredTarget source kind parent ≠ .error (.diverged p q) := by
  intro hdiverged
  cases hhistory : source.history kind parent with
  | error e =>
      rw [requiredTarget, hhistory] at hdiverged
      cases hdiverged
  | ok history =>
      obtain ⟨work, hwork⟩ := hc.exists_requiredTarget hhistory
      rw [hwork] at hdiverged
      cases hdiverged

theorem Converges.check_ne {h : Header} (hc : c.Converges) :
    c.check source parent h ≠ .error (.diverged p q) := by
  intro hdiverged
  rw [check] at hdiverged
  cases hwork : c.requiredTarget source h.kind parent with
  | error e =>
      rw [hwork] at hdiverged
      cases hdiverged
      exact hc.requiredTarget_ne hwork
  | ok work =>
      rw [hwork] at hdiverged
      simp only at hdiverged
      split at hdiverged
      · cases hdiverged
      · cases hdiverged

/-- With an expected spacing that is not zero no expression of an adjustment overflows, and
the exponential rule fails exactly where the averaging window is shorter than the granularity
of stake times. On the built-in networks neither a required target nor a check ever fails
for that. -/
theorem adjusted_never_overflows :
    (∀ (c : Consensus) (height : UInt32), c.spacing height ≠ 0 →
      ∀ last previous : IndexedHeader,
        c.adjusted? height last previous = some (c.adjusted height last previous) ∧
        0 < granularity (signed (c.stakeMask height)) ∧
        ((∃ p q, c.adjusted height last previous = .error (.diverged p q)) ↔
          c.isQip9 height = true ∧
            ((c.timespan height).toNat / (c.spacing height).toNat + 1) *
                (c.spacing height).toNat <
              (c.stakeMask height).toNat + 1)) ∧
    ∀ (n : Network) (source : HeaderSource) (kind : Kind) (parent : IndexedHeader) (h : Header)
      (p q : Int64),
      (ofNetwork n).requiredTarget source kind parent ≠ .error (.diverged p q) ∧
        (ofNetwork n).check source parent h ≠ .error (.diverged p q) := by
  constructor
  · intro c height hspacing last previous
    exact ⟨adjusted?_eq_some c height last previous, granularity_pos hspacing,
      adjusted_diverges_iff hspacing last previous⟩
  · intro n source kind parent h p q
    have hc := converges_ofNetwork n
    exact ⟨hc.requiredTarget_ne, hc.check_ne⟩

/-- A window of one second where stake times are 64 seconds apart. The measured spacing is the
greatest that two times can have. -/
theorem adjusted_never_overflows_short_window :
    let c : Consensus :=
      { regtest with reducedTargetSpacing := 1, reducedTimespan := 0,
                     reducedStakeTimestampMask := 63 }
    let previous : IndexedHeader := ⟨Hash.zero, 1, {}⟩
    let last : IndexedHeader :=
      ⟨Hash.zero, 2, { time := 0xffffffff, bits := ⟨0x217fffff⟩ }⟩
    c.spacing 3 ≠ 0 ∧ c.adjusted? 3 last previous = some (c.adjusted 3 last previous) ∧
      ∃ p q, c.adjusted 3 last previous = .error (.diverged p q) := by
  intro c previous last
  have hspacing : c.spacing 3 ≠ 0 := by decide
  obtain ⟨hsafe, -, hdiverges⟩ := adjusted_never_overflows.1 c 3 hspacing last previous
  exact ⟨hspacing, hsafe, hdiverges.2 (by decide)⟩

end Consensus

end Retarget
