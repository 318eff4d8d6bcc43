import Retarget.Proofs.Replay.Counts
import Retarget.Proofs.Replay.Limits
import Retarget.Proofs.Store.Insertions
import Retarget.Proofs.Store.Lines

/-!
# Where the required target is zero

An adjusted target of zero is replaced by the limit, so a kind that retargets never requires zero.
A kind that does not retarget requires again what its last header declares, and a required target
whose last byte is zero can be met by a header that declares zero: the comparison takes place at
the precision of that one byte. Hence zero is required in exactly one case, which is seen from the
entries alone: the last of at least two headers of the kind, the first header apart, declares the
canonical encoding of zero.
-/

namespace Retarget

/-- Zero has one canonical encoding. -/
theorem Compact.magnitude_eq_zero_iff {bits : Compact} (canonical : bits.canonical = bits) :
    bits.magnitude = 0 ↔ bits = ⟨0x01000000⟩ := by
  constructor
  · intro hzero
    rw [← canonical, Compact.canonical, hzero]
    decide
  · rintro rfl
    decide

namespace Consensus

variable {c : Consensus} {source : HeaderSource} {kind : Kind} {parent : IndexedHeader}

def PositiveLimits (c : Consensus) : Prop := ∀ height kind, c.maxTarget height kind ≠ 0

theorem positiveLimits_ofNetwork (n : Network) : (ofNetwork n).PositiveLimits := by
  intro height kind
  cases kind with
  | work =>
      change (ofNetwork n).workMaxTarget ≠ 0
      cases n <;> decide
  | stake =>
      rw [maxTarget]
      generalize (ofNetwork n).epoch height = epoch
      cases n <;> cases epoch <;> decide

theorem limited_ne_zero {limit : Target} (hlimit : limit ≠ 0) (t : WideTarget) :
    limited limit t ≠ 0 := by
  rw [limited]
  cases hu : withinLimit? limit t with
  | none => exact hlimit
  | some u =>
      obtain ⟨hval, hpos, -⟩ := withinLimit?_eq_some.1 hu
      rw [Option.getD_some]
      rintro rfl
      exact Nat.ne_of_lt hpos hval

/-- Zero is required where targets do not change and the last header declares it. -/
theorem PositiveLimits.requiredTarget_eq_zero_iff {work : Target} {history : History}
    (hc : c.PositiveLimits) (hhistory : source.history kind parent = .ok history)
    (hw : c.requiredTarget source kind parent = .ok work) :
    work = 0 ↔ c.noRetargeting kind = true ∧
      ∃ last previous, history = .pair last previous ∧ last.header.bits.magnitude = 0 := by
  rw [requiredTarget, hhistory] at hw
  cases history with
  | short =>
      cases hw
      refine iff_of_false (hc _ kind) ?_
      rintro ⟨-, last, previous, hpair, -⟩
      cases hpair
  | pair last previous =>
      simp only at hw
      split at hw
      · next hfixed =>
        cases hw
        constructor
        · intro hzero
          exact ⟨hfixed, last, previous, rfl, hzero⟩
        · rintro ⟨-, _, _, hpair, hzero⟩
          cases hpair
          exact hzero
      · next hretargets =>
        split at hw
        · cases hw
        · cases hw
          refine iff_of_false (limited_ne_zero (hc _ kind) _) ?_
          rintro ⟨hfixed, -⟩
          exact hretargets hfixed

end Consensus

namespace Replay

variable {c : Consensus} {f : File} {p : Progress} {i : Nat} {kind : Kind}

/-- The entries of a kind among the first `n` but without the very first, the newest first. -/
def File.line (f : File) (kind : Kind) (n : Nat) : List Entry :=
  ((f.entries.take n).drop 1).reverse.filter (·.kind = kind)

theorem File.line_succ {e : Entry} (hi : 1 ≤ i) (he : f.entries[i]? = some e) :
    f.line kind (i + 1) = if e.kind = kind then e :: f.line kind i else f.line kind i := by
  have hlt := (List.getElem?_eq_some_iff.1 he).1
  have hlength : 1 ≤ (f.entries.take i).length := by
    rw [List.length_take]
    omega
  rw [line, take_succ_of_getElem? he, List.drop_append_of_le_length hlength, List.reverse_append,
    List.reverse_singleton, List.singleton_append, List.filter_cons]
  simp only [decide_eq_true_eq]
  rfl

/-- The line of a kind on the tip consists of the headers of the entries of that kind. By induction
on the number of entries. -/
theorem File.describes_line (hheight : f.height = 0) (kind : Kind) (hi : 1 ≤ i)
    (hle : i ≤ f.entries.length) (hp : (f.upTo i).progress c = .ok p)
    (hrejected : p.rejected = none) :
    List.Forall₂ Entry.Describes (f.line kind i) (p.store.line kind p.tip) := by
  refine progress_induction
    (motive := fun i p => List.Forall₂ Entry.Describes (f.line kind i) (p.store.line kind p.tip))
    ?_ ?_ hi hle hp hrejected
  · intro e p _ hstart
    have spans := (Progress.spans_start hstart).1
    have hgenesis : p.tip.height = 0 := (Progress.spans_start hstart).2.trans hheight
    have hline : f.line kind 1 = [] := by
      rw [line, List.drop_eq_nil_of_le (List.length_take_le 1 _)]
      rfl
    rw [hline, Store.line_of_height_zero spans.holds_tip hgenesis]
    exact .nil
  · intro i e p h x accepted hi he hp hrejected described growth
    have hle := (List.getElem?_eq_some_iff.1 he).1.le
    obtain ⟨root, hroot, spans⟩ := exists_spans hi hle hp hrejected
    have grown := spans.grown growth
    have hdescribes : e.Describes x := by
      rw [(growth.link_eq spans.holds_tip).1]
      exact Entry.describes_of_header growth.header
    have hbelow : (p.grown x accepted).store.line kind p.tip = p.store.line kind p.tip :=
      congrArg (List.filter _) (spans.ancestors_grown growth (.inl (hroot.trans hheight)) _)
    have hline : (p.grown x accepted).store.line kind x =
        if x.kind = kind then x :: p.store.line kind p.tip else p.store.line kind p.tip := by
      rw [← hbelow]
      exact Store.line_of_parent grown.linked grown.holds_tip (spans.parent_grown growth)
    change List.Forall₂ _ _ ((p.grown x accepted).store.line kind x)
    rw [line_succ hi he, hline, hdescribes.kind]
    split
    · exact .cons hdescribes described
    · exact described

/-- All headers above height zero declare canonical targets. -/
def Canonical (s : Store) : Prop :=
  ∀ x, s.Holds x → x.height ≠ 0 → x.header.bits.canonical = x.header.bits

/-- With nothing trusted but the first header, whatever stands on it declares a canonical target:
no other passes its check. By induction on the number of entries. -/
theorem File.canonical_progress (hheight : f.height = 0) (htrusted : f.trusted ≤ 1) (hi : 1 ≤ i)
    (hle : i ≤ f.entries.length) (hp : (f.upTo i).progress c = .ok p)
    (hrejected : p.rejected = none) : Canonical p.store := by
  refine progress_induction (motive := fun _ p => Canonical p.store) ?_ ?_ hi hle hp hrejected
  · intro e p _ hstart x hx hne
    obtain ⟨h, -, rfl⟩ := Progress.start_eq_ok hstart
    rw [Store.eq_of_holds_place_empty hx] at hne
    exact absurd hheight hne
  · intro i e p h x accepted hi he hp hrejected canonical growth y hy hne
    obtain rfl | hy := Store.eq_or_holds_of_place hy
    · have hchecked : decide (i < max f.trusted 1) = false := decide_eq_false (by omega)
      rw [hchecked] at growth
      obtain ⟨work, -, hbits⟩ := Consensus.exists_of_check (Progress.judge_eq_ok.1 growth.verdict).1
      rw [(Store.eq_of_link growth.link).1]
      exact (Compact.ofTarget_masked_eq_iff.1 hbits).1
    · exact canonical y hy hne

theorem Entry.Describes.magnitude_eq_zero_iff {e : Entry} {x : IndexedHeader}
    (describes : e.Describes x) (canonical : x.header.bits.canonical = x.header.bits) :
    x.header.bits.magnitude = 0 ↔ Compact.parse e.bits = .ok ⟨0x01000000⟩ := by
  rw [Compact.magnitude_eq_zero_iff canonical, describes.bits, Except.ok.injEq]

/-- A history and the line that it is the head of say the same of zero. -/
theorem Entry.exists_zero_iff {es : List Entry} {xs : List IndexedHeader}
    (described : List.Forall₂ Entry.Describes es xs)
    (canonical : ∀ last previous, History.ofLine xs = .pair last previous →
      last.header.bits.canonical = last.header.bits) :
    (∃ last previous, History.ofLine xs = .pair last previous ∧
        last.header.bits.magnitude = 0) ↔
      ∃ last previous older, es = last :: previous :: older ∧
        Compact.parse last.bits = .ok ⟨0x01000000⟩ := by
  constructor
  · rintro ⟨last, previous, hpair, hzero⟩
    cases described with
    | nil => cases hpair
    | cons head rest =>
        cases rest with
        | nil => cases hpair
        | cons _ _ =>
            have hcanonical := canonical last previous hpair
            cases hpair
            exact ⟨_, _, _, rfl, (head.magnitude_eq_zero_iff hcanonical).1 hzero⟩
  · rintro ⟨last, previous, older, rfl, hzero⟩
    cases described with
    | cons head rest =>
        cases rest with
        | cons _ _ =>
            exact ⟨_, _, rfl, (head.magnitude_eq_zero_iff (canonical _ _ rfl)).2 hzero⟩

/-- On a built-in network, whatever chain a replay from height zero has accepted, the next header of
each kind has a required target, which is within the limit. It is zero in one case only: the kind
does not retarget, at least two headers of the kind stand on the first header, and the last of them
declares zero. -/
theorem File.exists_required_within_limit (n : Network) (hheight : f.height = 0)
    (htrusted : f.trusted ≤ 1) (hle : i ≤ f.entries.length)
    (hp : (f.upTo i).progress (.ofNetwork n) = .ok p) (hrejected : p.rejected = none)
    (kind : Kind) :
    ∃ work, (Consensus.ofNetwork n).requiredTarget p.store.source kind p.tip = .ok work ∧
      work ≤ (Consensus.ofNetwork n).maxTarget p.tip.nextHeight kind ∧
      (work = 0 ↔ (Consensus.ofNetwork n).noRetargeting kind = true ∧
        ∃ last previous older, f.line kind i = last :: previous :: older ∧
          Compact.parse last.bits = .ok ⟨0x01000000⟩) := by
  have hi := pos_of_progress hp
  obtain ⟨root, hroot, spans⟩ := exists_spans hi hle hp hrejected
  have hgenesis : root.height = 0 := hroot.trans hheight
  have hhistory := spans.linked.history_eq hgenesis kind spans.holds_tip
  obtain ⟨work, hw⟩ := (Consensus.converges_ofNetwork n).exists_requiredTarget hhistory
  have bounds := bounds_progress (Consensus.keepsLimits_ofNetwork n) hheight htrusted hi hle hp
    hrejected
  have canonical := canonical_progress hheight htrusted hi hle hp hrejected
  have described := describes_line hheight kind hi hle hp hrejected
  refine ⟨work, hw, bounds.requiredTarget_le (Consensus.keepsLimits_ofNetwork n) spans.linked
    hgenesis spans.holds_tip hw, ?_⟩
  rw [(Consensus.positiveLimits_ofNetwork n).requiredTarget_eq_zero_iff hhistory hw]
  refine and_congr_right fun _ => Entry.exists_zero_iff described ?_
  intro last previous hpair
  obtain ⟨history, hfound, stored⟩ := spans.linked.exists_history hgenesis kind spans.holds_tip
  rw [hhistory] at hfound
  cases hfound
  obtain ⟨⟨hlast, -, hheight⟩, -⟩ := stored last previous hpair
  exact canonical last hlast hheight

/-- Three headers that declare one and the same target on the private network, where targets do not
change: the next one has to declare it too. -/
theorem exists_required_within_limit_regtest :
    let e : Entry := { time := 0, bits := "0x207fffff" }
    let f : File := { entries := [e, e, e] }
    ∃ p, (f.upTo 3).progress (.ofNetwork .regtest) = .ok p ∧ p.rejected = none ∧
      ∃ work, (Consensus.ofNetwork .regtest).requiredTarget p.store.source .work p.tip = .ok work ∧
        work ≤ (Consensus.ofNetwork .regtest).maxTarget p.tip.nextHeight .work ∧ work ≠ 0 := by
  intro e f
  have after : ((f.upTo 3).progress (.ofNetwork .regtest)).map Progress.rejected = .ok none := by
    decide +kernel
  cases hp : (f.upTo 3).progress (.ofNetwork .regtest) with
  | error fault =>
      rw [hp] at after
      cases after
  | ok p =>
      rw [hp] at after
      have hrejected : p.rejected = none := Except.ok.inj after
      obtain ⟨work, hw, hle, hzero⟩ :=
        File.exists_required_within_limit .regtest rfl le_rfl le_rfl hp hrejected .work
      refine ⟨p, rfl, hrejected, work, hw, hle, ?_⟩
      intro hwork
      obtain ⟨-, last, previous, older, hline, parsed⟩ := hzero.1 hwork
      cases hline
      revert parsed
      decide

/-- Two headers that declare zero are accepted on the main network, because the limit of proof of
work ends in a zero byte. After them zero is required. -/
theorem required_zero_mainnet :
    let first : Entry := { time := 1000, bits := "1f00ffff" }
    let zero : Entry := { time := 1128, bits := "01000000" }
    let f : File := { entries := [first, zero, zero] }
    f.height = 0 ∧ f.trusted ≤ 1 ∧
      ∃ p, (f.upTo 3).progress (.ofNetwork .mainnet) = .ok p ∧ p.rejected = none ∧
        p.accepted = 2 ∧
        ¬ ∃ work, (Consensus.ofNetwork .mainnet).requiredTarget p.store.source .work p.tip =
          .ok work ∧ 0 < work := by
  intro first zero f
  have after : ((f.upTo 3).progress (.ofNetwork .mainnet)).map (fun p => (p.rejected, p.accepted,
      (Consensus.ofNetwork .mainnet).requiredTarget p.store.source .work p.tip)) =
      .ok (none, 2, .ok 0) := by
    decide +kernel
  cases hp : (f.upTo 3).progress (.ofNetwork .mainnet) with
  | error fault =>
      rw [hp] at after
      cases after
  | ok p =>
      rw [hp] at after
      obtain ⟨hrejected, hrest⟩ := Prod.ext_iff.1 (Except.ok.inj after)
      obtain ⟨haccepted, hzero⟩ := Prod.ext_iff.1 hrest
      refine ⟨rfl, le_rfl, p, rfl, hrejected, haccepted, ?_⟩
      rintro ⟨work, hwork, hpos⟩
      change (Consensus.ofNetwork .mainnet).requiredTarget p.store.source .work p.tip = .ok 0 at hzero
      rw [hzero] at hwork
      cases hwork
      exact absurd hpos (by decide)

end Replay

end Retarget
