import Mathlib.Data.Nat.Count
import Retarget.Proofs.Replay.Honest
import Retarget.Proofs.Replay.Limits
import Retarget.Proofs.Simulation

/-!
# Replay from a later entry

A chain can be replayed from a later entry on as if the others did not exist. The headers then
have other hashes, because the first one has no parent, and the headers before it are not
known. But headers that stand at one height in the two stores are of the same entry, and a
parent that the shorter replay finds is matched by one in the full replay. The first header of
the shorter replay is not taken for genesis, because its height is the same in both: a walk
that would need earlier headers fails. What the shorter replay requires of a header is
therefore required by the full replay as well.
-/

namespace Retarget.Replay

def File.suffix (f : File) (k trusted : Nat) : File where
  height := f.height + UInt32.ofNat k
  trusted := trusted
  entries := f.entries.drop k

@[simp] theorem File.length_suffix (f : File) (k trusted : Nat) :
    (f.suffix k trusted).entries.length = f.entries.length - k := List.length_drop

@[simp] theorem File.getElem?_suffix (f : File) (k trusted j : Nat) :
    (f.suffix k trusted).entries[j]? = f.entries[k + j]? := List.getElem?_drop

variable {c : Consensus} {f : File} {e : Entry} {p q q' : Progress} {x y : IndexedHeader}
  {i j k t : Nat}

theorem Entry.Describes.agrees (hx : e.Describes x) (hy : e.Describes y)
    (height : x.height = y.height) : x.Agrees y where
  height := height
  kind := hx.kind.trans hy.kind.symm
  time := hx.time.trans hy.time.symm
  bits := Except.ok.inj (hx.bits.symm.trans hy.bits)

/-! ### Two stores with the same entries -/

structure Level (part whole : Store) (x y : IndexedHeader) : Prop where
  holds_left : part.Holds x
  holds_right : whole.Holds y
  height : x.height = y.height

namespace File

/-- A chain of more than `k` headers leaves room for the height of the entry `k`. -/
theorem toNat_height_suffix {root : IndexedHeader} (spans : p.Spans root i)
    (hroot : root.height = f.height) (hki : k < i) :
    (f.suffix k t).height.toNat = f.height.toNat + k := by
  have htip := spans.tip_height
  have hlt := p.tip.height.toNat_lt
  rw [hroot] at htip
  change (f.height + UInt32.ofNat k).toNat = _
  rw [UInt32.toNat_add, UInt32.toNat_ofNat', Nat.add_mod_mod]
  exact Nat.mod_eq_of_lt (by omega)

/-- Headers of one height agree, and the parents that the shorter replay finds are found in the
full replay. -/
theorem simulation (hj : 1 ≤ j) (hle : k + j ≤ f.entries.length)
    (hp : (f.upTo (k + j)).progress c = .ok p) (hpRejected : p.rejected = none)
    (hq : ((f.suffix k t).upTo j).progress c = .ok q) (hqRejected : q.rejected = none) :
    Simulation q.store.source p.store.source (Level q.store p.store) ∧
      Level q.store p.store q.tip p.tip := by
  have hlength : j ≤ (f.suffix k t).entries.length := by
    rw [length_suffix]
    omega
  obtain ⟨root, hroot, spans⟩ := exists_spans (by omega) hle hp hpRejected
  obtain ⟨root', hroot', spans'⟩ := exists_spans hj hlength hq hqRejected
  have hbase : (f.suffix k t).height.toNat = f.height.toNat + k :=
    toNat_height_suffix spans hroot (by omega)
  have reads := reads_progress (by omega) hle hp hpRejected
  have reads' := reads_progress hj hlength hq hqRejected
  refine ⟨⟨?_, ?_⟩, ?_⟩
  · -- The entry of a header is found from its height.
    intro x y level
    obtain ⟨m, e, hm, he, describes⟩ := reads' x level.holds_left
    obtain ⟨n, e', hn, he', describes'⟩ := reads y level.holds_right
    have hindex : k + m = n := by
      rw [level.height] at hm
      omega
    rw [getElem?_suffix, hindex, he'] at he
    cases he
    exact describes.agrees describes' level.height
  · -- The first header of the full replay has none of the heights of the shorter one.
    intro x y x' level hparent
    obtain ⟨hfound, hbelow⟩ := HeaderSource.parent_eq_ok.1 hparent
    have hx' := spans'.linked.holds hfound
    obtain ⟨m, e, hm, -, -⟩ := reads' x' hx'
    have hne : y ≠ root := by
      rintro rfl
      rw [level.height, hroot] at hbelow
      omega
    obtain ⟨y', hfound', hbelow'⟩ := spans.linked.parent level.holds_right hne
    refine ⟨y', HeaderSource.parent_eq_ok.2 ⟨hfound', hbelow'⟩, hx', spans.linked.holds hfound', ?_⟩
    rw [level.height] at hbelow
    exact UInt32.toNat_inj.1 (by omega)
  · refine ⟨spans'.holds_tip, spans.holds_tip, UInt32.toNat_inj.1 ?_⟩
    have htip := spans.tip_height
    have htip' := spans'.tip_height
    rw [hroot] at htip
    rw [hroot', hbase] at htip'
    omega

end File

/-! ### One entry -/

/-- Two chains after one entry more: both have rejected it or neither, and both have counted it
or neither. -/
structure Progress.SameStep (p p' q q' : Progress) : Prop where
  rejected : p'.rejected = q'.rejected
  accepted : p'.accepted = p.accepted + 1 ∧ q'.accepted = q.accepted + 1 ∨
    p'.accepted = p.accepted ∧ q'.accepted = q.accepted

/-- What a checked entry does to the shorter chain, it does to the full one. -/
theorem Progress.Step.exists_sameStep
    (sim : Simulation q.store.source p.store.source (Level q.store p.store))
    (tips : Level q.store p.store q.tip p.tip) (hrejected : p.rejected = none)
    (hqRejected : q.rejected = none)
    (hnew : ∀ h, e.header p.tip.hash (p.tip.height + 1) = .ok h →
      p.store.byHash[h.hash]? = none)
    (step : Step c false e q q') : ∃ p', Step c false e p p' ∧ SameStep p p' q q' := by
  -- In both cases the headers that the entry gives on either tip are of one kind and target.
  have common : ∀ {h}, e.header q.tip.hash (q.tip.height + 1) = .ok h →
      ∃ h', e.header p.tip.hash (p.tip.height + 1) = .ok h' ∧ h'.parent = p.tip.hash ∧
        h.kind = h'.kind ∧ h.bits = h'.bits := by
    intro h header
    obtain ⟨-, hkind, parsed⟩ := Entry.header_eq_ok header
    obtain ⟨h', header', hparent, hkind', hbits⟩ :=
      Entry.exists_header parsed p.tip.hash (p.tip.height + 1)
    exact ⟨h', header', hparent, hkind.trans hkind'.symm, hbits.symm⟩
  cases step with
  | @grow h x accepted growth =>
      obtain ⟨h', header', hparent, hkind, hbits⟩ := common growth.header
      obtain ⟨hcheck, haccepted⟩ := judge_eq_ok.1 growth.verdict
      obtain ⟨work, hw, -⟩ := Consensus.exists_of_check hcheck
      have room : p.tip.height ≠ 0xffffffff := by
        rw [← tips.height]
        exact growth.room
      have hcheck' : c.check p.store.source p.tip h' = .ok () := by
        rw [sim.check_eq tips hkind hbits hw, hcheck]
      have growth' : Grows c false e p h' (.ofHeader (p.tip.height + 1) h') (p.accepted + 1) :=
        ⟨room, header', judge_eq_ok.2 ⟨hcheck', rfl⟩,
          link_tip tips.holds_right room hparent (hnew h' header')⟩
      exact ⟨_, .grow growth', hrejected.trans hqRejected.symm, .inl ⟨rfl, haccepted⟩⟩
  | @reject h expected actual room header verdict =>
      obtain ⟨h', header', -, hkind, hbits⟩ := common header
      obtain ⟨-, hcheck⟩ := judge_eq_error.1 verdict
      obtain ⟨work, hw⟩ := Consensus.exists_of_check_difficulty hcheck
      have hcheck' : c.check p.store.source p.tip h' = .error (.difficulty expected actual) := by
        rw [sim.check_eq tips hkind hbits hw, hcheck]
      rw [tips.height] at room
      refine ⟨_, .reject room header' (judge_eq_error.2 ⟨rfl, hcheck'⟩), ?_, .inr ⟨rfl, rfl⟩⟩
      simp only [tips.height]

/-! ### The whole replay -/

namespace File

/-- Whether the header of an index is accepted, and not before a given one. -/
abbrev AcceptedFrom (f : File) (c : Consensus) (s i : ℕ) : Prop := s ≤ i ∧ ∃ x, f.Accepts c i x

def acceptedFrom (f : File) (c : Consensus) (s : ℕ) : ℕ :=
  Nat.count (f.AcceptedFrom c s) f.entries.length

/-- No header is accepted past the end of the file. -/
theorem count_acceptedFrom {s n : ℕ} (hn : f.entries.length ≤ n) :
    Nat.count (f.AcceptedFrom c s) n = f.acceptedFrom c s := by
  induction hn with
  | refl => rfl
  | @step n hn ih =>
      have hno : ¬ f.AcceptedFrom c s n := by
        rintro ⟨-, x, accepts⟩
        obtain ⟨e, -, -, -, he, -⟩ := accepts.exists_growth
        rw [List.getElem?_eq_none hn] at he
        cases he
      rw [Nat.count_succ, if_neg hno, ih, Nat.add_zero]

/-- With one entry more, as many accepted headers are counted as the replay counts. -/
theorem count_acceptedFrom_succ {s : ℕ} {p' : Progress} (hs : s ≤ i)
    (hp : (f.upTo i).progress c = .ok p) (hp' : (f.upTo (i + 1)).progress c = .ok p')
    (step : p'.accepted = p.accepted + 1 ∨ p'.accepted = p.accepted) :
    Nat.count (f.AcceptedFrom c s) (i + 1) + p.accepted =
      Nat.count (f.AcceptedFrom c s) i + p'.accepted := by
  have haccepts := exists_accepts_iff hp hp'
  rw [Nat.count_succ]
  rcases step with hgrown | hkept
  · have hyes : f.AcceptedFrom c s i := ⟨hs, haccepts.2 hgrown⟩
    rw [if_pos hyes, hgrown]
    omega
  · have hno : ¬ f.AcceptedFrom c s i := by
      rintro ⟨-, accepts⟩
      have hgrown := haccepts.1 accepts
      omega
    rw [if_neg hno, hkept, Nat.add_zero]

/-- From the first checked entry on the two replays go the same way. By induction on the number
of entries. -/
theorem exists_progress_of_suffix (htrusted : f.trusted ≤ k + max t 1)
    (start : ∃ p, (f.upTo (k + max t 1)).progress c = .ok p ∧ p.rejected = none)
    (fresh : f.Fresh c) (hj : max t 1 ≤ j) (hq : ((f.suffix k t).upTo j).progress c = .ok q) :
    ∃ p, (f.upTo (k + j)).progress c = .ok p ∧ p.rejected = q.rejected ∧
      Nat.count (f.AcceptedFrom c (k + max t 1)) (k + j) = q.accepted := by
  induction j, hj using Nat.le_induction generalizing q with
  | base =>
      obtain ⟨hqRejected, hqAccepted⟩ := progress_trusted (le_max_right t 1) le_rfl hq
      obtain ⟨p, hp, hpRejected⟩ := start
      refine ⟨p, hp, hpRejected.trans hqRejected.symm, ?_⟩
      rw [hqAccepted]
      apply Nat.count_of_forall_not
      intro i hi accepted
      exact absurd accepted.1 (Nat.not_le.2 hi)
  | succ j hj ih =>
      have hj1 : 1 ≤ j := (le_max_right t 1).trans hj
      have hpos : 1 ≤ k + j := hj1.trans (Nat.le_add_left j k)
      have hchecked : k + max t 1 ≤ k + j := Nat.add_le_add_left hj k
      obtain ⟨q₀, hq₀, advances⟩ := (progress_succ_eq_ok hj1).1 hq
      obtain ⟨p₀, hp₀, hrejected, hcount⟩ := ih hq₀
      cases advances with
      | stay ended =>
          rw [getElem?_suffix, ← hrejected] at ended
          have hp := (progress_succ_eq_ok hpos).2 ⟨p₀, hp₀, .stay ended⟩
          have hsucc := count_acceptedFrom_succ hchecked hp₀ hp (.inr rfl)
          exact ⟨p₀, hp, hrejected, (Nat.add_right_cancel hsucc).trans hcount⟩
      | step he hqRejected step =>
          rw [getElem?_suffix] at he
          have hpRejected := hrejected.trans hqRejected
          have hlt := (List.getElem?_eq_some_iff.1 he).1
          have hflag' : decide (j < max (f.suffix k t).trusted 1) = false :=
            decide_eq_false (Nat.not_lt.2 hj)
          have hflag : decide (k + j < max f.trusted 1) = false := decide_eq_false (by omega)
          obtain ⟨sim, tips⟩ := simulation hj1 hlt.le hp₀ hpRejected hq₀ hqRejected
          rw [hflag'] at step
          obtain ⟨p, step', same⟩ := step.exists_sameStep sim tips hpRejected hqRejected
            (fresh (k + j) _ p₀ · he hp₀ hpRejected)
          rw [← hflag] at step'
          have hp := (progress_succ_eq_ok hpos).2 ⟨p₀, hp₀, .step he hpRejected step'⟩
          have hsucc := count_acceptedFrom_succ hchecked hp₀ hp
            (same.accepted.imp And.left And.left)
          refine ⟨p, hp, same.rejected, ?_⟩
          have haccepted := same.accepted
          rw [← Nat.add_assoc]
          omega

/-- If a replay from a later entry has an outcome, then so has the full replay: it rejects the
same header for the same reason, or none, and it accepts as many of the headers that both of
them check. The full replay must check all that the shorter one checks, and must come to the
first of these headers without a rejection. -/
theorem run_of_run_suffix (htrusted : f.trusted ≤ k + max t 1)
    (start : ∃ s, (f.upTo (k + max t 1)).run c = .ok s ∧ s.rejected = none) (fresh : f.Fresh c)
    {s' : Summary} (hrun : (f.suffix k t).run c = .ok s') :
    ∃ s, f.run c = .ok s ∧ s.rejected = s'.rejected ∧
      s'.accepted = f.acceptedFrom c (k + max t 1) := by
  obtain ⟨s, hstart, hrejected⟩ := start
  obtain ⟨p₀, hp₀, rfl⟩ := run_eq_ok.1 hstart
  obtain ⟨q, hq, rfl⟩ := run_eq_ok.1 hrun
  -- So many entries are the whole of both files.
  obtain ⟨j, hj, hlength⟩ : ∃ j, max t 1 ≤ j ∧ f.entries.length ≤ k + j :=
    ⟨max t 1 + f.entries.length, Nat.le_add_right _ _, by omega⟩
  have hsuffix : (f.suffix k t).entries.length ≤ j := by
    rw [length_suffix]
    omega
  rw [← upTo_of_length_le hsuffix] at hq
  obtain ⟨p, hp, same, hcount⟩ :=
    exists_progress_of_suffix htrusted ⟨p₀, hp₀, hrejected⟩ fresh hj hq
  rw [upTo_of_length_le hlength] at hp
  rw [count_acceptedFrom hlength] at hcount
  exact ⟨p.summary, run_eq_ok.2 ⟨p, hp, rfl⟩, same, hcount.symm⟩

/-- The last of five stakes declares a wrong target. The replay of the last four trusts the
first two of them. -/
theorem run_of_run_suffix_rejected :
    let stake (time : UInt32) (bits : String) : Entry :=
      { time := time, bits := bits, kind := .stake }
    let f : File :=
      { height := 500007
        trusted := 3
        entries := [stake 872 "1a0a3d1c", stake 1000 "1a0a3d1c", stake 1144 "1a0a3d1c",
          stake 1272 "1a0a51aa", stake 1400 "1a0a51ab"] }
    ∃ s s' : Summary, (f.suffix 1 2).run .testnet = .ok s' ∧ s'.accepted = 1 ∧
      s'.rejected = some (500011, .difficulty ⟨0x1a0a51aa⟩ ⟨0x1a0a51ab⟩) ∧
      f.run .testnet = .ok s ∧ s.rejected = s'.rejected ∧
      s'.accepted = f.acceptedFrom .testnet 3 := by
  intro stake f
  let s' : Summary :=
    { accepted := 1, work := 0, stake := 3
      rejected := some (500011, .difficulty ⟨0x1a0a51aa⟩ ⟨0x1a0a51ab⟩) }
  let s₀ : Summary := { accepted := 0, work := 0, stake := 3, rejected := none }
  have facts : (f.suffix 1 2).run .testnet = .ok s' ∧ (f.upTo 3).run .testnet = .ok s₀ ∧
      (f.headers.map Header.hash).Nodup := by
    decide +kernel
  obtain ⟨hrun, hstart, distinct⟩ := facts
  obtain ⟨s, hs, hrejected, haccepted⟩ := run_of_run_suffix (k := 1) (t := 2) (by decide)
    ⟨s₀, hstart, rfl⟩ (fresh_of_nodup distinct) hrun
  exact ⟨s, s', hrun, rfl, rfl, hs, hrejected, haccepted⟩

end File

end Retarget.Replay
