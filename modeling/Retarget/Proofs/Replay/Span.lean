import Retarget.Proofs.Replay.Steps

/-!
# The chain of a replay

After so many entries the store holds as many headers, all linked down to the first one,
and the tip stands above the first one by all others. When the first header stands at
height zero, the whole chain is found from the tip.
-/

namespace Retarget.Replay

namespace Progress

/-- A chain of `n` headers from the root to the tip. -/
structure Spans (p : Progress) (root : IndexedHeader) (n : Nat) : Prop where
  linked : p.store.Linked root
  holds_tip : p.store.Holds p.tip
  tip_height : p.tip.height.toNat + 1 = root.height.toNat + n
  size_eq : p.store.size = n

variable {c : Consensus} {isTrusted : Bool} {accepted n : Nat} {e : Entry} {p : Progress}
  {h : Header} {root x : IndexedHeader}

theorem start_eq_ok {height : UInt32} (hp : start height e = .ok p) :
    ∃ h, e.header Hash.zero height = .ok h ∧
      p = { store := Store.empty.place (.ofHeader height h), tip := .ofHeader height h } := by
  rw [start] at hp
  split at hp
  · cases hp
  · next h header =>
    cases hp
    exact ⟨h, header, rfl⟩

theorem spans_start {height : UInt32} (hp : start height e = .ok p) :
    p.Spans p.tip 1 ∧ p.tip.height = height := by
  obtain ⟨h, -, rfl⟩ := start_eq_ok hp
  refine ⟨⟨Store.linked_place_empty rfl, Store.holds_place _ _, rfl, ?_⟩, rfl⟩
  exact Store.size_place (s := Store.empty) rfl

theorem Spans.grown (hp : p.Spans root n) (growth : Grows c isTrusted e p h x accepted) :
    (p.grown x accepted).Spans root (n + 1) := by
  obtain ⟨hx, hnew⟩ := growth.link_eq hp.holds_tip
  refine ⟨hp.linked.place growth.link, Store.holds_place _ _, ?_, ?_⟩
  · have hheight : x.height = p.tip.height + 1 := by rw [hx]; rfl
    have htip := hp.tip_height
    change x.height.toNat + 1 = _
    rw [hheight, toNat_height_succ growth.room]
    omega
  · exact (Store.size_place hnew).trans (congrArg (· + 1) hp.size_eq)

/-- From height zero on, the whole chain is found from the tip. -/
theorem Spans.length_chain (hp : p.Spans root n) (hroot : root.height = 0) :
    p.chain.length = n := by
  have htip := hp.tip_height
  rw [hroot] at htip
  change p.tip.height.toNat + 1 = 0 + n at htip
  have hlimit : p.tip.height.toNat < p.store.size := by
    rw [hp.size_eq]
    omega
  rw [chain, hp.linked.length_ancestors hroot hp.holds_tip hlimit]
  omega

/-- Every header of a chain is of one of the two kinds. -/
theorem work_add_stake (p : Progress) : p.summary.work + p.summary.stake = p.chain.length := by
  have hstake : (fun x : IndexedHeader => decide (x.kind = .stake)) =
      fun x => decide ¬decide (x.kind = .work) := by
    funext x
    cases x.kind <;> rfl
  rw [List.length_eq_countP_add_countP (fun x : IndexedHeader => decide (x.kind = .work)),
    ← hstake]
  rfl

end Progress

/-- Every chain that a replay goes through spans the entries replayed so far, from a first header
that has no parent. -/
theorem File.exists_root {f : File} {c : Consensus} {i : Nat} {p : Progress} (hi : 1 ≤ i)
    (hle : i ≤ f.entries.length) (hp : (f.upTo i).progress c = .ok p)
    (hrejected : p.rejected = none) :
    ∃ root, root.height = f.height ∧ root.header.parent = Hash.zero ∧ p.Spans root i := by
  refine progress_induction (motive := fun i p => ∃ root, root.height = f.height ∧
    root.header.parent = Hash.zero ∧ p.Spans root i) ?_ ?_ hi hle hp hrejected
  · intro e p _ hstart
    obtain ⟨hspans, hheight⟩ := Progress.spans_start hstart
    obtain ⟨h, header, rfl⟩ := Progress.start_eq_ok hstart
    exact ⟨_, hheight, (Entry.header_eq_ok header).1, hspans⟩
  · intro i e p h x accepted _ _ _ _ ⟨root, hroot, hparent, hspans⟩ growth
    exact ⟨root, hroot, hparent, hspans.grown growth⟩

theorem File.exists_spans {f : File} {c : Consensus} {i : Nat} {p : Progress} (hi : 1 ≤ i)
    (hle : i ≤ f.entries.length) (hp : (f.upTo i).progress c = .ok p)
    (hrejected : p.rejected = none) : ∃ root, root.height = f.height ∧ p.Spans root i := by
  obtain ⟨root, hroot, -, hspans⟩ := exists_root hi hle hp hrejected
  exact ⟨root, hroot, hspans⟩

/-- While entries are trusted, none is rejected or counted. -/
theorem File.progress_trusted {f : File} {c : Consensus} {i : Nat} {p : Progress} (hi : 1 ≤ i)
    (hle : i ≤ max f.trusted 1) (hp : (f.upTo i).progress c = .ok p) :
    p.rejected = none ∧ p.accepted = 0 := by
  induction hi generalizing p with
  | refl =>
      cases hes : f.entries with
      | nil =>
          rw [progress, upTo, hes] at hp
          cases hp
      | cons e es =>
          rw [progress_upTo_one (e := e) (by rw [hes]; rfl)] at hp
          obtain ⟨h, -, rfl⟩ := Progress.start_eq_ok hp
          exact ⟨rfl, rfl⟩
  | @step i hi ih =>
      have htrusted : decide (i < max f.trusted 1) = true := decide_eq_true hle
      obtain ⟨q, hq, advances⟩ := (progress_succ_eq_ok hi).1 hp
      obtain ⟨hrejected, haccepted⟩ := ih (Nat.le_of_lt hle) hq
      cases advances with
      | stay _ => exact ⟨hrejected, haccepted⟩
      | step he _ step =>
          rw [htrusted] at step
          cases step with
          | grow growth => exact ⟨hrejected, (Progress.judge_eq_ok.1 growth.verdict).trans haccepted⟩
          | reject _ _ verdict => cases (Progress.judge_eq_error.1 verdict).1

structure Entry.Describes (e : Entry) (x : IndexedHeader) : Prop where
  time : x.header.time = e.time
  kind : x.kind = e.kind
  bits : Compact.parse e.bits = .ok x.header.bits

theorem Entry.describes_of_header {e : Entry} {parent : Hash} {height n : UInt32} {h : Header}
    (header : e.header parent height = .ok h) : e.Describes (.ofHeader n h) := by
  obtain ⟨-, hkind, parsed⟩ := header_eq_ok header
  refine ⟨?_, hkind, parsed⟩
  rw [Entry.header, parsed] at header
  rw [← Except.ok.inj header]
  rfl

/-- Every stored header stands as far above the first one as its entry stands behind the
first entry. -/
def Progress.Reads (p : Progress) (f : File) : Prop :=
  ∀ x, p.store.Holds x → ∃ i e, x.height.toNat = f.height.toNat + i ∧ f.entries[i]? = some e ∧
    e.Describes x

/-- A replay stores nothing but what its entries say. By induction on the number of entries. -/
theorem File.reads_progress {f : File} {c : Consensus} {i : Nat} {p : Progress} (hi : 1 ≤ i)
    (hle : i ≤ f.entries.length) (hp : (f.upTo i).progress c = .ok p)
    (hrejected : p.rejected = none) : p.Reads f := by
  refine progress_induction (motive := fun _ p => p.Reads f) ?_ ?_ hi hle hp hrejected
  · intro e p he hstart y hy
    obtain ⟨h, header, rfl⟩ := Progress.start_eq_ok hstart
    rw [Store.eq_of_holds_place_empty hy]
    exact ⟨0, e, rfl, he, Entry.describes_of_header header⟩
  · intro i e p h x accepted hi he hp hrejected reads growth y hy
    have hle : i ≤ f.entries.length := Nat.le_of_lt (List.getElem?_eq_some_iff.1 he).1
    obtain ⟨root, hroot, spans⟩ := exists_spans hi hle hp hrejected
    obtain rfl | hy := Store.eq_or_holds_of_place hy
    · have htip := spans.tip_height
      rw [(growth.link_eq spans.holds_tip).1]
      refine ⟨i, e, ?_, he, Entry.describes_of_header growth.header⟩
      rw [IndexedHeader.height_ofHeader, toNat_height_succ growth.room, htip, hroot]
    · exact reads y hy

end Retarget.Replay
