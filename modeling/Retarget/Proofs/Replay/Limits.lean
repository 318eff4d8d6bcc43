import Retarget.Proofs.Acceptance
import Retarget.Proofs.Agreement
import Retarget.Proofs.Replay.Span

/-!
# No accepted header is easier than its limit

Without retargeting the required target is what the last header of the kind declares, and
it is not compared with the limit. That a chain never gets past its limits is therefore an
invariant of the whole replay: the last header was accepted as well, and where targets do
not change, neither do limits. The first header declares what it likes, but it stands at
height zero, where no walk takes a target from.
-/

namespace Retarget

namespace Consensus

/-- Where the target of a kind never changes, its limit does not either. -/
def KeepsLimits (c : Consensus) : Prop :=
  c.stakeNoRetargeting = false ∨
    (c.initialStakeMaxTarget = c.qip9StakeMaxTarget ∧
      c.qip9StakeMaxTarget = c.reducedStakeMaxTarget)

instance (c : Consensus) : Decidable c.KeepsLimits := by
  unfold KeepsLimits
  infer_instance

theorem keepsLimits_ofNetwork (n : Network) : (ofNetwork n).KeepsLimits := by
  cases n with
  | mainnet => exact .inl rfl
  | testnet => exact .inl rfl
  | regtest => exact .inr ⟨rfl, rfl⟩
  | unitest => exact .inl rfl

variable {c : Consensus} {kind : Kind}

theorem maxTarget_eq_of_noRetargeting (hc : c.KeepsLimits) (h : c.noRetargeting kind = true)
    (m n : UInt32) : c.maxTarget m kind = c.maxTarget n kind := by
  cases kind with
  | work => rfl
  | stake =>
      obtain ⟨hinitial, hqip9⟩ := hc.resolve_left (ne_true_of_eq_false · h)
      have hconst : ∀ k, c.maxTarget k .stake = c.reducedStakeMaxTarget := by
        intro k
        rw [maxTarget]
        cases c.epoch k with
        | initial => exact hinitial.trans hqip9
        | qip9 => exact hqip9
        | reducedBlockTime => rfl
      rw [hconst, hconst]

theorem limited_le (limit : Target) (t : WideTarget) : limited limit t ≤ limit := by
  rw [limited]
  cases hu : withinLimit? limit t with
  | none => exact BitVec.le_refl limit
  | some u =>
      obtain ⟨hval, -, hle⟩ := withinLimit?_eq_some.1 hu
      rw [Option.getD_some, BitVec.le_def, hval]
      exact hle

/-- All headers above height zero are within the limits of their heights. -/
def Bounds (c : Consensus) (s : Store) : Prop :=
  ∀ x, s.Holds x → x.height ≠ 0 → x.header.bits.magnitude ≤ c.maxTarget x.height x.kind

/-- On a store within the limits no required target exceeds its own limit. -/
theorem Bounds.requiredTarget_le {s : Store} {root parent : IndexedHeader} {work : Target}
    (hs : c.Bounds s) (hc : c.KeepsLimits) (linked : s.Linked root) (hroot : root.height = 0)
    (hparent : s.Holds parent) (hw : c.requiredTarget s.source kind parent = .ok work) :
    work ≤ c.maxTarget parent.nextHeight kind := by
  obtain ⟨history, hhistory, hpair⟩ := linked.exists_history hroot kind hparent
  rw [requiredTarget, hhistory] at hw
  cases history with
  | short =>
      cases hw
      exact BitVec.le_refl _
  | pair last previous =>
      obtain ⟨⟨hlast, hkind, hheight⟩, -⟩ := hpair last previous rfl
      simp only at hw
      split at hw
      · next hfixed =>
        -- The limit of the height of `last` is the limit of every height.
        cases hw
        rw [maxTarget_eq_of_noRetargeting hc hfixed _ last.height, ← hkind]
        exact hs last hlast hheight
      · split at hw
        · cases hw
        · cases hw
          exact limited_le _ _

/-- The first header alone is within the limits: it stands at height zero. -/
theorem bounds_place_empty {x : IndexedHeader} (hx : x.height = 0) :
    c.Bounds (Store.empty.place x) := by
  intro y hy hheight
  rw [Store.eq_of_holds_place_empty hy] at hheight
  exact absurd hx hheight

/-- A header that passes its check keeps a store within the limits. -/
theorem Bounds.place {s : Store} {root parent x : IndexedHeader} {h : Header}
    (hs : c.Bounds s) (hc : c.KeepsLimits) (linked : s.Linked root) (hroot : root.height = 0)
    (hparent : s.Holds parent) (hheight : parent.height ≠ 0xffffffff)
    (hx : x = .ofHeader (parent.height + 1) h)
    (hcheck : c.check s.source parent h = .ok ()) :
    x.header.bits.magnitude ≤ c.maxTarget x.height x.kind ∧ c.Bounds (s.place x) := by
  obtain ⟨work, hw, hbits⟩ := exists_of_check hcheck
  have hwork := hs.requiredTarget_le hc linked hroot hparent hw
  have hmagnitude : x.header.bits.magnitude ≤ c.maxTarget x.height x.kind := by
    rw [IndexedHeader.nextHeight, if_neg hheight] at hwork
    rw [hx]
    exact BitVec.le_trans (Compact.magnitude_le hbits) hwork
  refine ⟨hmagnitude, fun y hy hyHeight => ?_⟩
  obtain rfl | hy := Store.eq_or_holds_of_place hy
  · exact hmagnitude
  · exact hs y hy hyHeight

end Consensus

namespace Replay

variable {c : Consensus} {f : File} {i : Nat} {p : Progress} {x : IndexedHeader}

/-- The header of an index passes its check: the replay counts one accepted header more,
which is the new tip. -/
def File.Accepts (f : File) (c : Consensus) (i : Nat) (x : IndexedHeader) : Prop :=
  ∃ p q, (f.upTo i).progress c = .ok p ∧ (f.upTo (i + 1)).progress c = .ok q ∧
    q.accepted = p.accepted + 1 ∧ q.tip = x

/-- Whether any header of an index is accepted is seen from the two chains around it. -/
theorem File.exists_accepts_iff {p q : Progress} (hp : (f.upTo i).progress c = .ok p)
    (hq : (f.upTo (i + 1)).progress c = .ok q) :
    (∃ x, f.Accepts c i x) ↔ q.accepted = p.accepted + 1 := by
  constructor
  · rintro ⟨x, p', q', hp', hq', hcount, -⟩
    rw [hp] at hp'
    rw [hq] at hq'
    cases hp'
    cases hq'
    exact hcount
  · intro hcount
    exact ⟨q.tip, p, q, hp, hq, hcount, rfl⟩

instance (f : File) (c : Consensus) (i : Nat) : Decidable (∃ x, f.Accepts c i x) :=
  match hp : (f.upTo i).progress c, hq : (f.upTo (i + 1)).progress c with
  | .ok p, .ok q => decidable_of_iff (q.accepted = p.accepted + 1)
      (File.exists_accepts_iff hp hq).symm
  | .error _, _ => .isFalse <| by
      rintro ⟨x, p, q, hp', -⟩
      rw [hp] at hp'
      cases hp'
  | .ok _, .error _ => .isFalse <| by
      rintro ⟨x, p, q, -, hq', -⟩
      rw [hq] at hq'
      cases hq'

theorem File.Accepts.exists_growth (accepts : f.Accepts c i x) :
    ∃ e p h, 1 ≤ i ∧ f.entries[i]? = some e ∧ (f.upTo i).progress c = .ok p ∧
      p.rejected = none ∧ Progress.Grows c false e p h x (p.accepted + 1) := by
  obtain ⟨p, q, hp, hq, hcount, rfl⟩ := accepts
  have hi := File.pos_of_progress hp
  obtain ⟨p', hp', advances⟩ := (File.progress_succ_eq_ok hi).1 hq
  rw [hp] at hp'
  cases hp'
  cases advances with
  | stay _ => exact absurd hcount (Nat.ne_of_lt (Nat.lt_succ_self _))
  | step he hrejected step =>
      cases step with
      | reject _ _ _ => exact absurd hcount (Nat.ne_of_lt (Nat.lt_succ_self _))
      | @grow h x n growth =>
          have hjudge := Progress.judge_eq_ok.1 growth.verdict
          change n = p.accepted + 1 at hcount
          cases htrusted : decide (i < max f.trusted 1) with
          | true =>
              rw [htrusted, if_pos rfl] at hjudge
              omega
          | false =>
              rw [htrusted, hcount] at growth
              exact ⟨_, p, _, hi, he, hp, hrejected, growth⟩

theorem File.accepts_of_progress {q : Progress} (hi : max f.trusted 1 ≤ i)
    (hlt : i < f.entries.length) (hq : (f.upTo (i + 1)).progress c = .ok q)
    (hrejected : q.rejected = none) : f.Accepts c i q.tip := by
  have hchecked : decide (i < max f.trusted 1) = false := decide_eq_false (by omega)
  obtain ⟨p, hp, advances⟩ := (progress_succ_eq_ok (by omega)).1 hq
  cases advances with
  | stay ended =>
      rw [List.getElem?_eq_getElem hlt] at ended
      exact absurd hrejected (ended.resolve_left (Option.some_ne_none _))
  | step he _ step =>
      cases step with
      | reject _ _ _ => cases hrejected
      | grow growth =>
          have hjudge := Progress.judge_eq_ok.1 growth.verdict
          rw [hchecked, if_neg Bool.false_ne_true] at hjudge
          exact ⟨p, _, hp, hq, hjudge.2, rfl⟩

/-- A header that passes its check keeps the chain within the limits. -/
theorem Progress.bounds_grown {e : Entry} {h : Header} {root : IndexedHeader} {n accepted : Nat}
    (hc : c.KeepsLimits) (hp : c.Bounds p.store) (spans : p.Spans root n)
    (hroot : root.height = 0) (growth : Grows c false e p h x accepted) :
    x.header.bits.magnitude ≤ c.maxTarget x.height x.kind ∧ c.Bounds (p.grown x accepted).store :=
  hp.place hc spans.linked hroot spans.holds_tip growth.room (growth.link_eq spans.holds_tip).1
    (judge_eq_ok.1 growth.verdict).1

/-- With nothing trusted but the first header, all chains of a replay are within the limits. -/
theorem File.bounds_progress (hc : c.KeepsLimits) (hheight : f.height = 0)
    (htrusted : f.trusted ≤ 1) (hi : 1 ≤ i) (hle : i ≤ f.entries.length)
    (hp : (f.upTo i).progress c = .ok p) (hrejected : p.rejected = none) : c.Bounds p.store := by
  refine progress_induction (motive := fun _ p => c.Bounds p.store) ?_ ?_ hi hle hp hrejected
  · intro e p _ hstart
    obtain ⟨h, -, rfl⟩ := Progress.start_eq_ok hstart
    exact Consensus.bounds_place_empty hheight
  · intro i e p h x accepted hi he hp hrejected hbounds growth
    have hle : i ≤ f.entries.length := (List.getElem?_eq_some_iff.1 he).1.le
    have hchecked : decide (i < max f.trusted 1) = false := decide_eq_false (by omega)
    obtain ⟨root, hroot, hspans⟩ := exists_spans hi hle hp hrejected
    rw [hchecked] at growth
    exact (Progress.bounds_grown hc hbounds hspans (hroot.trans hheight) growth).2

/-- On a network whose limits change only where its targets do, no replay from height zero
accepts a header that is easier than the limit of its height and kind. The built-in networks
are all of this sort. -/
theorem accepted_le_maxTarget :
    (∀ n, (Consensus.ofNetwork n).KeepsLimits) ∧
      ∀ c : Consensus, c.KeepsLimits → ∀ f : File, f.height = 0 → f.trusted ≤ 1 →
        ∀ i x, f.Accepts c i x → x.header.bits.magnitude ≤ c.maxTarget x.height x.kind := by
  refine ⟨Consensus.keepsLimits_ofNetwork, fun c hc f hheight htrusted i x accepts => ?_⟩
  obtain ⟨e, p, h, hi, he, hp, hrejected, growth⟩ := accepts.exists_growth
  have hle : i ≤ f.entries.length := (List.getElem?_eq_some_iff.1 he).1.le
  obtain ⟨root, hroot, hspans⟩ := File.exists_spans hi hle hp hrejected
  have hbounds := File.bounds_progress hc hheight htrusted hi hle hp hrejected
  exact (Progress.bounds_grown hc hbounds hspans (hroot.trans hheight) growth).1

/-- Without retargeting the fourth header must declare the target of the third, which is as
easy as the limit allows. -/
theorem accepted_le_maxTarget_regtest :
    let e : Entry := { time := 0, bits := "0x207fffff" }
    ∃ x, File.Accepts { entries := [e, e, e, e] } Consensus.regtest 3 x ∧
      x.header.bits = ⟨0x207fffff⟩ ∧
      x.header.bits.magnitude ≤ Consensus.regtest.maxTarget x.height x.kind := by
  intro e
  have after : ((File.upTo { entries := [e, e, e, e] } 4).progress Consensus.regtest).map
      (fun q => (q.rejected, q.tip.header.bits)) = .ok (none, ⟨0x207fffff⟩) := by decide +kernel
  cases hq : (File.upTo { entries := [e, e, e, e] } 4).progress Consensus.regtest with
  | error fault =>
      rw [hq] at after
      cases after
  | ok q =>
      rw [hq] at after
      obtain ⟨hrejected, hbits⟩ := Prod.ext_iff.1 (Except.ok.inj after)
      have accepts := File.accepts_of_progress (i := 3) (by decide) (by decide) hq hrejected
      exact ⟨q.tip, accepts, hbits, accepted_le_maxTarget.2 _ (by decide) _ rfl le_rfl 3 _ accepts⟩

end Replay

end Retarget
