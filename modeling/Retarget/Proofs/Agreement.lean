import Retarget.Proofs.Adjustment.Exact
import Retarget.Proofs.Walk

/-!
# The required target is the one of the algorithm

The computation of the required target saturates the height, works in 64 and 512 bits, keeps
the signs of terms apart, and stops early where a result is out of range anyway. None of this
is visible: it agrees with the algorithm over unbounded integers on every source of headers,
as long as the expected spacing is not zero.
-/

namespace Retarget

/-! ### Heights -/

namespace IndexedHeader

variable {x : IndexedHeader} {k : UInt32}

/-- No threshold tells a saturated height from the one above the greatest. -/
theorem le_nextHeight : k ≤ x.nextHeight ↔ k.toNat ≤ x.height.toNat + 1 := by
  have hk := k.toNat_lt
  rw [nextHeight, UInt32.le_iff_toNat_le]
  by_cases hx : x.height = 0xffffffff
  · have hheight : x.height.toNat = 0xffffffff := by rw [hx]; rfl
    rw [if_pos hx, hheight]
    change k.toNat ≤ 0xffffffff ↔ _
    omega
  · rw [if_neg hx, toNat_height_succ hx]

theorem nextHeight_lt : x.nextHeight < k ↔ x.height.toNat + 1 < k.toNat := by
  rw [← UInt32.not_le, le_nextHeight, Nat.not_le]

end IndexedHeader

namespace Consensus

variable {c : Consensus} {x : IndexedHeader}

theorem epoch_nextHeight : c.epoch x.nextHeight = c.epochAt (x.height.toNat + 1) := by
  simp only [epoch, epochAt, IndexedHeader.nextHeight_lt]

theorem isQip9_nextHeight :
    c.isQip9 x.nextHeight = decide (¬x.height.toNat + 1 < c.qip9Height.toNat) := by
  simp only [isQip9, IndexedHeader.le_nextHeight, Nat.not_lt]

theorem spacing_nextHeight :
    ((c.spacing x.nextHeight).toNat : ℤ) = c.spacingAt (x.height.toNat + 1) := by
  simp only [spacing, isReducedBlockTime, IndexedHeader.le_nextHeight, decide_eq_true_eq,
    spacingAt]
  split <;> rfl

theorem stakeMask_nextHeight :
    ((c.stakeMask x.nextHeight).toNat : ℤ) = c.stakeMaskAt (x.height.toNat + 1) := by
  simp only [stakeMask, isReducedBlockTime, IndexedHeader.le_nextHeight, decide_eq_true_eq,
    stakeMaskAt]
  split <;> rfl

theorem timespan_nextHeight :
    ((c.timespan x.nextHeight).toNat : ℤ) = c.timespanAt (x.height.toNat + 1) := by
  rw [timespan, timespanAt, epoch_nextHeight]
  cases c.epochAt (x.height.toNat + 1) <;> rfl

theorem maxTarget_nextHeight (kind : Kind) :
    ((c.maxTarget x.nextHeight kind).toNat : ℤ) = c.maxTargetAt (x.height.toNat + 1) kind := by
  cases kind with
  | work => rfl
  | stake =>
      rw [maxTarget, maxTargetAt, epoch_nextHeight]
      cases c.epochAt (x.height.toNat + 1) <;> rfl

/-! ### Parameters -/

variable {height i : UInt32}

theorem toNat_interval (h : c.interval? height = some i) :
    i.toNat = (c.timespan height).toNat / (c.spacing height).toNat := by
  rw [interval?] at h
  split at h
  · cases h
  · cases h
    exact UInt32.toNat_div _ _

theorem bounded (h : c.interval? height = some i) :
    Adjustment.Bounded (signed (c.spacing height)).toInt (signed i).toInt
      (signed (c.stakeMask height)).toInt := by
  have hspacing : (c.spacing height).toNat ≠ 0 := by
    intro hzero
    rw [interval?_eq_none.2 (UInt32.toNat_inj.1 hzero)] at h
    cases h
  have htimespan : i.toNat * (c.spacing height).toNat < 2 ^ 32 := by
    rw [toNat_interval h]
    exact lt_of_le_of_lt (Nat.div_mul_le_self _ _) (c.timespan height).toNat_lt
  have hlt := (c.spacing height).toNat_lt
  have hmask := (c.stakeMask height).toNat_lt
  rw [toInt_signed, toInt_signed, toInt_signed]
  exact
    { spacing_pos := by omega
      spacing_lt := by omega
      interval_nonneg := Int.natCast_nonneg _
      timespan_lt := by exact_mod_cast htimespan
      mask_nonneg := Int.natCast_nonneg _
      mask_lt := by omega }

/-! ### Results -/

theorem toInt_actual (last previous : IndexedHeader) :
    (signed last.header.time - signed previous.header.time).toInt =
      (last.header.time.toNat : ℤ) - previous.header.time.toNat := by
  have hlast := last.header.time.toNat_lt
  have hprevious := previous.header.time.toNat_lt
  rw [toInt_sub, toInt_signed, toInt_signed]
  rw [toInt_signed, toInt_signed]
  constructor <;> omega

/-- The adjusted target is that of the algorithm, or zero in place of a negative one. -/
theorem toNat_adjusted (hspacing : c.spacingAt (x.height.toNat + 1) ≠ 0)
    (last previous : IndexedHeader) :
    (c.adjusted x.nextHeight last previous).map BitVec.toNat =
      (c.adjustedAt (x.height.toNat + 1) last previous).map Int.toNat := by
  cases hi : c.interval? x.nextHeight with
  | none =>
      have hzero := interval?_eq_none.1 hi
      rw [← spacing_nextHeight, hzero] at hspacing
      exact absurd rfl hspacing
  | some interval =>
      have hbounded := c.bounded hi
      have hinterval : (signed interval).toInt = c.intervalAt (x.height.toNat + 1) := by
        rw [toInt_signed, toNat_interval hi, intervalAt, ← timespan_nextHeight,
          ← spacing_nextHeight]
        rfl
      have hs : (signed (c.spacing x.nextHeight)).toInt = c.spacingAt (x.height.toNat + 1) := by
        rw [toInt_signed, spacing_nextHeight]
      have hm : (signed (c.stakeMask x.nextHeight)).toInt =
          c.stakeMaskAt (x.height.toNat + 1) := by
        rw [toInt_signed, stakeMask_nextHeight]
      rw [adjusted, hi, adjustedAt, ← toInt_actual, ← hinterval, ← hs, ← hm]
      simp only [isQip9_nextHeight, decide_eq_true_eq, ite_not]
      split
      · exact congrArg Except.ok (Adjustment.toNat_linear_constrain hbounded _ _)
      · exact Adjustment.toNat_exponential_constrain hbounded _ _

/-- An adjusted target is kept exactly when it is positive and at most the limit. -/
theorem withinLimit?_eq_some {limit u : Target} {t : WideTarget} :
    withinLimit? limit t = some u ↔
      u.toNat = t.toNat ∧ 0 < t.toNat ∧ t.toNat ≤ limit.toNat := by
  have hpos : ∀ v : Target, v ≠ 0 ↔ 0 < v.toNat := by
    intro v
    rw [Ne, ← Unsigned.toNat_eq_zero]
    omega
  rw [withinLimit?, ← WideTarget.narrow?_eq_some]
  cases hv : t.narrow? with
  | none => exact iff_of_false (by simp) (by simp)
  | some v =>
      rw [← WideTarget.narrow?_eq_some.1 hv]
      simp only [hpos, BitVec.le_def]
      split
      · next hmem => exact ⟨fun h => ⟨h, hmem⟩, And.left⟩
      · next hmem => exact ⟨fun h => (by cases h), fun h => absurd h.2 hmem⟩

/-- The limit is the answer in place of zero, of a negative number and of a greater one. -/
theorem toNat_limited (limit : Target) {t : WideTarget} {target : ℤ}
    (h : t.toNat = target.toNat) :
    ((limited limit t).toNat : ℤ) = Exact.limited limit.toNat target := by
  rw [limited, Exact.limited]
  cases hu : withinLimit? limit t with
  | some u =>
      obtain ⟨hval, hpos, hle⟩ := withinLimit?_eq_some.1 hu
      rw [if_neg (by omega), Option.getD_some]
      omega
  | none =>
      have hout : target ≤ 0 ∨ (limit.toNat : ℤ) < target := by
        by_contra hin
        have hlt := limit.isLt
        have hmem : withinLimit? limit t = some (BitVec.ofNat 256 t.toNat) := by
          rw [withinLimit?_eq_some, BitVec.toNat_ofNat, Nat.mod_eq_of_lt (by omega)]
          omega
        rw [hu] at hmem
        cases hmem
      rw [if_pos hout]
      rfl

theorem nextTarget_eq (source : HeaderSource) (kind : Kind) (parent : IndexedHeader) :
    c.nextTarget source kind parent =
      match source.history kind parent with
      | .error e => .error (.link e)
      | .ok .short => .ok (c.maxTargetAt (parent.height.toNat + 1) kind)
      | .ok (.pair last previous) =>
        if c.noRetargeting kind then .ok last.header.bits.magnitude.toNat
        else
          (c.adjustedAt (parent.height.toNat + 1) last previous).map
            (Exact.limited (c.maxTargetAt (parent.height.toNat + 1) kind)) := by
  rw [nextTarget, HeaderSource.history]
  cases source.lastOfKind kind parent with
  | error e => rfl
  | ok last =>
      simp only [Except.mapError, bind, Except.bind, pure, Except.pure,
        IndexedHeader.isGenesis_iff]
      by_cases hlast : last.height = 0
      · rw [if_pos hlast, if_pos hlast]
      · rw [if_neg hlast, if_neg hlast]
        cases source.parent last with
        | error e => rfl
        | ok below =>
            simp only
            cases source.lastOfKind kind below with
            | error e => rfl
            | ok previous =>
                simp only
                by_cases hprevious : previous.height = 0
                · rw [if_pos hprevious, if_pos hprevious]
                · rw [if_neg hprevious, if_neg hprevious]
                  rfl

/-- Two computations that agree in one reading of their values agree in every coarser one. -/
theorem map_eq_map {ε α β γ δ : Type} {x : Except ε α} {y : Except ε β} {f : α → γ} {g : β → γ}
    {f' : α → δ} {g' : β → δ} (h : x.map f = y.map g)
    (hfg : ∀ a b, f a = g b → f' a = g' b) : x.map f' = y.map g' := by
  cases x with
  | error e =>
      cases y with
      | error e' =>
          cases h
          rfl
      | ok b => cases h
  | ok a =>
      cases y with
      | error e' => cases h
      | ok b => exact congrArg Except.ok (hfg a b (Except.ok.inj h))

/-- The required target is the next target of the algorithm, and an error exactly where the
algorithm has none. -/
theorem requiredTarget_eq_nextTarget (source : HeaderSource) (kind : Kind)
    (parent : IndexedHeader) (hspacing : c.spacingAt (parent.height.toNat + 1) ≠ 0) :
    (c.requiredTarget source kind parent).map (fun t => (t.toNat : ℤ)) =
      c.nextTarget source kind parent := by
  have hlimit := c.maxTarget_nextHeight (x := parent) kind
  rw [nextTarget_eq, requiredTarget]
  cases source.history kind parent with
  | error e => rfl
  | ok history =>
      cases history with
      | short => exact congrArg Except.ok hlimit
      | pair last previous =>
          simp only
          split
          · rfl
          · have hlimited := map_eq_map (toNat_adjusted hspacing last previous)
              fun t target => toNat_limited (c.maxTarget parent.nextHeight kind)
            rw [← hlimit, ← hlimited]
            cases c.adjusted parent.nextHeight last previous <;> rfl

/-- The first two stakes under the exponential rule, 28 seconds too close to each other. -/
theorem requiredTarget_eq_nextTarget_stakes :
    let older : IndexedHeader :=
      ⟨Hash.zero, 466600, { time := 1000, stake := ⟨Hash.zero, 0⟩ }⟩
    let newer : IndexedHeader :=
      ⟨Hash.zero, 466601, { time := 1100, bits := ⟨0x1a0fffff⟩, stake := ⟨Hash.zero, 0⟩ }⟩
    mainnet.spacingAt 466602 ≠ 0 ∧
      mainnet.nextTarget (fun _ => some older) .stake newer =
        .ok 0xfd046bb31642667e36afeb9e44dc70925c73e4c147672ea50ec := by
  intro older newer
  refine ⟨by decide, ?_⟩
  rw [← requiredTarget_eq_nextTarget (fun _ => some older) .stake newer (by decide)]
  decide +kernel

end Consensus

end Retarget
