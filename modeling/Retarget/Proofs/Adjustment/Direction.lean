import Retarget.Proofs.Adjustment.Monotone
import Retarget.Proofs.Adjustment.Safety
import Retarget.Proofs.Series.Direction

/-!
# Fast blocks make the next one harder, slow blocks make it easier

Before the limit is applied to it, a target that is adjusted to a spacing below the expected one
does not grow, and one that is adjusted to a spacing above it does not shrink. A punctual block
leaves its target as it is. The order of targets is kept. This holds of both rules wherever the
timespan is at least one spacing long and the window at least one granularity, however small the
target is. For the exponential rule the reason is that no exponent is then below minus one.
-/

namespace Retarget

namespace Exact

variable {spacing interval mask target other x : ℤ}

section Linear

variable (hdenominator : 0 < (interval + 1) * spacing)
include hdenominator

theorem linear_punctual : linear target spacing spacing interval = target := by
  have hnumerator : (interval - 1) * spacing + 2 * spacing = (interval + 1) * spacing := by ring
  rw [linear, hnumerator, Int.mul_tdiv_cancel _ hdenominator.ne']

theorem linear_le (htarget : 0 ≤ target) (h : x ≤ spacing) :
    linear target x spacing interval ≤ target :=
  (linear_mono htarget hdenominator h).trans_eq (linear_punctual hdenominator)

theorem le_linear (htarget : 0 ≤ target) (h : spacing ≤ x) :
    target ≤ linear target x spacing interval :=
  (linear_punctual hdenominator).symm.trans_le (linear_mono htarget hdenominator h)

theorem linear_mono_target (hnumerator : 0 ≤ (interval - 1) * spacing + 2 * x)
    (h : target ≤ other) : linear target x spacing interval ≤ linear other x spacing interval :=
  Int.tdiv_le_tdiv hdenominator (mul_le_mul_of_nonneg_right h hnumerator)

end Linear

@[simp] theorem deviation_punctual : deviation spacing spacing mask = 0 := by
  rw [deviation, sub_self, mul_zero, Int.zero_tdiv]

theorem deviation_nonpos (hmask : 0 ≤ mask) (h : x ≤ spacing) : deviation x spacing mask ≤ 0 :=
  (deviation_mono hmask h).trans_eq deviation_punctual

theorem deviation_nonneg (hmask : 0 ≤ mask) (h : spacing ≤ x) : 0 ≤ deviation x spacing mask :=
  deviation_punctual.symm.trans_le (deviation_mono hmask h)

/-- The least deviation is that of no spacing at all, and twice the expected spacing is no longer
than the window. -/
theorem neg_window_le_deviation (hspacing : 0 ≤ spacing) (hinterval : 1 ≤ interval)
    (hmask : 0 ≤ mask) (hx : 0 ≤ x) :
    -window spacing interval mask ≤ deviation x spacing mask := by
  have hlength : 2 * spacing ≤ (interval + 1) * spacing :=
    mul_le_mul_of_nonneg_right (by omega) hspacing
  calc -window spacing interval mask
      = (-((interval + 1) * spacing)).tdiv (mask + 1) := by rw [window, Int.neg_tdiv]
    _ ≤ deviation x spacing mask := Int.tdiv_le_tdiv (by omega) (by omega)

end Exact

namespace Adjustment

/-- A rule that adjusts targets to the spacing `x`, where `s` is expected, moves each of them the
right way and keeps their order. -/
structure Directed (x s : Int64) (adjust : Target → Except WorkError WideTarget) : Prop where
  fast : x ≤ s → ∀ a, ∃ t, adjust a = .ok t ∧ t ≤ a.widen
  slow : s ≤ x → ∀ a, ∃ t, adjust a = .ok t ∧ a.widen ≤ t
  punctual : x = s → ∀ a, adjust a = .ok a.widen
  mono : ∀ a b, a ≤ b → ∃ t u, adjust a = .ok t ∧ adjust b = .ok u ∧ t ≤ u

variable {spacing interval mask x : Int64}
  (h : Bounded spacing.toInt interval.toInt mask.toInt) (hinterval : 1 ≤ interval.toInt)
  (hlo : 0 ≤ x.toInt) (hhi : x.toInt ≤ spacing.toInt * 20)
include h hinterval hlo hhi

theorem linear_directed : Directed x spacing fun a => .ok (linear a x spacing interval) := by
  have hdenominator : 0 < (interval.toInt + 1) * spacing.toInt :=
    h.spacing_pos.trans_le h.spacing_le_denominator
  have fast : ∀ a, x ≤ spacing → linear a x spacing interval ≤ a.widen := by
    intro a hx
    have := Exact.linear_le hdenominator (Int.natCast_nonneg a.toNat) (Int64.le_iff_toInt_le.1 hx)
    rw [BitVec.le_def, toNat_linear h a hlo hhi, Target.toNat_widen]
    omega
  have slow : ∀ a, spacing ≤ x → a.widen ≤ linear a x spacing interval := by
    intro a hx
    have := Exact.le_linear hdenominator (Int.natCast_nonneg a.toNat) (Int64.le_iff_toInt_le.1 hx)
    rw [BitVec.le_def, toNat_linear h a hlo hhi, Target.toNat_widen]
    omega
  constructor
  case fast => exact fun hx a => ⟨_, rfl, fast a hx⟩
  case slow => exact fun hx a => ⟨_, rfl, slow a hx⟩
  case punctual =>
    rintro rfl a
    congr 1
    exact BitVec.le_antisymm (fast a (Int64.le_refl _)) (slow a (Int64.le_refl _))
  case mono =>
    intro a b hab
    have hnumerator : 0 ≤ (interval.toInt - 1) * spacing.toInt + 2 * x.toInt := by
      have := mul_nonneg (show 0 ≤ interval.toInt - 1 by omega) h.spacing_pos.le
      omega
    refine ⟨_, _, rfl, rfl, ?_⟩
    rw [BitVec.le_def, toNat_linear h a hlo hhi, toNat_linear h b hlo hhi]
    apply Int.toNat_le_toNat
    exact Exact.linear_mono_target hdenominator hnumerator (Int.ofNat_le.2 (BitVec.le_def.1 hab))

/-- The exponent has the sign of the deviation, and there is an exponential of it. -/
theorem exponential_directed
    (hlength : mask.toInt + 1 ≤ (interval.toInt + 1) * spacing.toInt) :
    Directed x spacing fun a => exponential a x spacing interval mask := by
  have hwindow : Exact.window spacing.toInt interval.toInt mask.toInt ≠ 0 := by
    rw [Ne, h.window_eq_zero_iff]
    exact not_lt.2 hlength
  have hdeviation := toInt_deviation h hlo hhi
  have hratio := h.deviation_le hlo hhi hwindow
  have hbound := Exact.neg_window_le_deviation h.spacing_pos.le hinterval h.mask_nonneg hlo
  have hpos := h.window_pos hwindow
  rw [← hdeviation, ← toInt_window h] at hratio hbound
  rw [← toInt_window h] at hpos
  have moves : ∀ a, ∃ t, exponential a x spacing interval mask = .ok t ∧
      Moves a (deviation x spacing mask) (window spacing interval mask) t := by
    intro a
    obtain ⟨t, ht, -⟩ := mulExp_eq_ok (a := a) hpos hratio
    exact ⟨t, (exponential_eq_mulExp h a x).trans ht, moves_of_mulExp hbound ht⟩
  constructor
  case fast =>
    intro hx a
    obtain ⟨t, ht, hmoves⟩ := moves a
    refine ⟨t, ht, hmoves.le ?_⟩
    rw [Int64.le_iff_toInt_le, hdeviation, Int64.toInt_zero]
    exact Exact.deviation_nonpos h.mask_nonneg (Int64.le_iff_toInt_le.1 hx)
  case slow =>
    intro hx a
    obtain ⟨t, ht, hmoves⟩ := moves a
    refine ⟨t, ht, hmoves.ge hpos ?_⟩
    rw [Int64.le_iff_toInt_le, hdeviation, Int64.toInt_zero]
    exact Exact.deviation_nonneg h.mask_nonneg (Int64.le_iff_toInt_le.1 hx)
  case punctual =>
    rintro rfl a
    obtain ⟨t, ht, hmoves⟩ := moves a
    rw [ht, hmoves.rest]
    rw [← Int64.toInt_inj, hdeviation, Exact.deviation_punctual, Int64.toInt_zero]
  case mono =>
    intro a b hab
    obtain ⟨t, ht, -⟩ := moves a
    obtain ⟨u, hu, -⟩ := moves b
    refine ⟨t, u, ht, hu, ?_⟩
    rw [exponential_eq_mulExp h] at ht hu
    exact mulExp_le_mulExp hbound hab ht hu

end Adjustment

namespace Consensus

open Adjustment

/-- Where the interval is at least one block and the window at least one granularity, both rules
move every target the right way and keep the order of targets, for every spacing that is brought
into their range. For the exponential rule this rests on what an exponential does whose exponent is
not below minus one. -/
theorem adjustment_directed :
    (∀ (c : Consensus) (height interval : UInt32), c.interval? height = some interval →
      1 ≤ interval →
      (c.stakeMask height).toNat + 1 ≤ (interval.toNat + 1) * (c.spacing height).toNat →
      ∀ actual : Int64,
        let spacing := signed (c.spacing height)
        let x := constrain actual spacing linearMultiplier
        let y := constrain actual spacing exponentialMultiplier
        Directed x spacing (fun a => .ok (linear a x spacing (signed interval))) ∧
          Directed y spacing
            (fun a => exponential a y spacing (signed interval) (signed (c.stakeMask height)))) ∧
    ∀ p q : Int64, 0 < q → -q.toInt ≤ p.toInt →
      (∀ a t, mulExp a p q = .ok t → Moves a p q t) ∧
        ∀ a b t u, a ≤ b → mulExp a p q = .ok t → mulExp b p q = .ok u → t ≤ u := by
  constructor
  · intro c height interval hi hinterval hlength actual spacing x y
    have hbounded := c.bounded hi
    have hone : 1 ≤ (signed interval).toInt := by
      rw [toInt_signed]
      exact Int.ofNat_le.2 (UInt32.le_iff_toNat_le.1 hinterval)
    have hlong : (signed (c.stakeMask height)).toInt + 1 ≤
        ((signed interval).toInt + 1) * spacing.toInt := by
      rw [toInt_signed, toInt_signed, toInt_signed]
      exact_mod_cast hlength
    constructor
    · obtain ⟨hlo, hhi⟩ :=
        toInt_constrain_mem hbounded actual linearMultiplier (by decide) (by decide)
      exact linear_directed hbounded hone hlo hhi
    · obtain ⟨hlo, hhi⟩ :=
        toInt_constrain_mem hbounded actual exponentialMultiplier (by decide) (by decide)
      exact exponential_directed hbounded hone hlo hhi hlong
  · intro p q _ hp
    exact ⟨fun a t ht => moves_of_mulExp hp ht,
      fun a b t u hab ht hu => mulExp_le_mulExp hp hab ht hu⟩

/-- A stake that comes 32 seconds early on the main network. It has the exponent `-4 / 256`, and
targets as small as 1000 have one term of it. -/
theorem adjustment_directed_early_stake :
    let spacing := signed (mainnet.spacing 500000)
    let mask := signed (mainnet.stakeMask 500000)
    let y := constrain 96 spacing exponentialMultiplier
    let a : Target := 1000
    let b : Target := 1001
    let p : Int64 := -4
    let q : Int64 := 256
    mainnet.interval? 500000 = some 31 ∧ (1 : UInt32) ≤ 31 ∧
      (mainnet.stakeMask 500000).toNat + 1 ≤
        ((31 : UInt32).toNat + 1) * (mainnet.spacing 500000).toNat ∧
      y ≤ spacing ∧ (∃ t, exponential a y spacing (signed 31) mask = .ok t ∧ t ≤ a.widen) ∧
      0 < q ∧ -q.toInt ≤ p.toInt ∧ a ≤ b ∧
      mulExp a p q = .ok 985 ∧ Moves a p q 985 ∧
      mulExp b p q = .ok 986 ∧ (985 : WideTarget) ≤ 986 := by
  intro spacing mask y a b p q
  have hinterval : mainnet.interval? 500000 = some 31 := by decide
  have hone : (1 : UInt32) ≤ 31 := by decide
  have hlength : (mainnet.stakeMask 500000).toNat + 1 ≤
      ((31 : UInt32).toNat + 1) * (mainnet.spacing 500000).toNat := by decide
  have hearly : y ≤ spacing := by decide
  have hq : 0 < q := by decide
  have hp : -q.toInt ≤ p.toInt := by decide
  have hab : a ≤ b := by decide
  have ha : mulExp a p q = .ok 985 := by decide +kernel
  have hb : mulExp b p q = .ok 986 := by decide +kernel
  obtain ⟨rules, exponentials⟩ := adjustment_directed
  obtain ⟨-, directed⟩ := rules mainnet 500000 31 hinterval hone hlength 96
  obtain ⟨moves, mono⟩ := exponentials p q hq hp
  exact ⟨hinterval, hone, hlength, hearly, directed.fast hearly a, hq, hp, hab, ha, moves a 985 ha,
    hb, mono a b 985 986 hab ha hb⟩

end Consensus

end Retarget
