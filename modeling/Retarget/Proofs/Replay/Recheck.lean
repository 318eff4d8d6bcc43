import Retarget.Proofs.Replay.Limits
import Retarget.Proofs.Store.Insertions

/-!
# Checking again later

A store that grows by insertions gives no earlier answer up: a header that is found keeps its
height, and only a failure for want of a parent can turn into something else. Nothing is assumed
of the store to begin with. A replay grows its store in the same way, so a header that passed its
check on top of the tip of its time passes the same check in every later store of the replay.
-/

namespace Retarget

namespace Replay

variable {c : Consensus} {isTrusted : Bool} {e : Entry} {f : File} {i n : Nat} {p q : Progress}
  {x : IndexedHeader}

theorem Progress.Step.extends_store (step : Step c isTrusted e p q) :
    q.store.source.Extends p.store.source := by
  cases step with
  | grow growth => exact Store.extends_place growth.link
  | reject _ _ _ => exact .refl _

theorem File.Advances.extends_store (advances : f.Advances c i p q) :
    q.store.source.Extends p.store.source := by
  cases advances with
  | step _ _ step => exact step.extends_store
  | stay _ => exact .refl _

/-- What the store holds after some entries it holds after more of them. By induction on their
number. -/
theorem File.extends_progress (hin : i ≤ n) (hp : (f.upTo i).progress c = .ok p)
    (hq : (f.upTo n).progress c = .ok q) : q.store.source.Extends p.store.source := by
  have hi := pos_of_progress hp
  induction n, hin using Nat.le_induction generalizing q with
  | base =>
      rw [hp] at hq
      cases hq
      exact .refl _
  | succ n hin ih =>
      obtain ⟨r, hr, advances⟩ := (progress_succ_eq_ok (hi.trans hin)).1 hq
      exact (ih hr).trans advances.extends_store

/-- An accepted header passed its check on top of its parent, the tip of its time. In the store
after more entries that parent is still found, and the header passes again. -/
theorem File.Accepts.recheck (accepts : f.Accepts c i x) (hin : i < n)
    (hq : (f.upTo n).progress c = .ok q) :
    ∃ p, (f.upTo i).progress c = .ok p ∧ c.check p.store.source p.tip x.header = .ok () ∧
      q.store.get? (.hash x.header.parent) = some p.tip ∧
      c.check q.store.source p.tip x.header = .ok () := by
  obtain ⟨e, p, h, hi, he, hp, hrejected, growth⟩ := accepts.exists_growth
  have hle : i ≤ f.entries.length := (List.getElem?_eq_some_iff.1 he).1.le
  obtain ⟨root, -, spans⟩ := exists_spans hi hle hp hrejected
  have hext := extends_progress hin.le hp hq
  have hcheck := (Progress.judge_eq_ok.1 growth.verdict).1
  rw [(Store.eq_of_link growth.link).1, (Entry.header_eq_ok growth.header).1]
  refine ⟨p, hp, hcheck, hext spans.holds_tip, ?_⟩
  rw [hext.keeps.check c p.tip h, hcheck]
  intro k hk
  rw [hcheck] at hk
  cases hk

/-- Growth changes no earlier answer. Insertions into any store, whether they succeed or fail, keep
every header that is found under a hash, and every parent, walk, required target and verdict but the
failures for want of a parent. A header that a replay accepts passes the same check on top of the
same parent in the store after any more entries, and so in the last one. -/
theorem growth_keeps_answers :
    (∀ (s : Store) (headers : List Header), (s.insertAll headers).source.Keeps s.source) ∧
      ∀ (f : File) (c : Consensus) (i n : Nat) (x : IndexedHeader) (q : Progress),
        f.Accepts c i x → i < n → (f.upTo n).progress c = .ok q →
          ∃ p, (f.upTo i).progress c = .ok p ∧ c.check p.store.source p.tip x.header = .ok () ∧
            q.store.get? (.hash x.header.parent) = some p.tip ∧
            c.check q.store.source p.tip x.header = .ok () := by
  refine ⟨fun s headers => (Store.extends_insertAll s headers).keeps, ?_⟩
  intro f c i n x q accepts hin hq
  exact accepts.recheck hin hq

/-- The second of three headers is checked again when the third is stored. -/
theorem growth_keeps_answers_regtest :
    let e : Entry := { time := 0, bits := "0x207fffff" }
    let f : File := { entries := [e, e, e] }
    ∃ (x : IndexedHeader) (p q : Progress), f.Accepts Consensus.regtest 1 x ∧
      (f.upTo 3).progress Consensus.regtest = .ok q ∧ q.store.size = 3 ∧
      q.store.get? (.hash x.header.parent) = some p.tip ∧
      Consensus.regtest.check q.store.source p.tip x.header = .ok () := by
  intro e f
  have after : ((f.upTo 2).progress Consensus.regtest).map Progress.rejected = .ok none ∧
      ((f.upTo 3).progress Consensus.regtest).map (·.store.size) = .ok 3 := by decide +kernel
  cases hr : (f.upTo 2).progress Consensus.regtest with
  | error fault =>
      rw [hr] at after
      cases after.1
  | ok r =>
      cases hq : (f.upTo 3).progress Consensus.regtest with
      | error fault =>
          rw [hq] at after
          cases after.2
      | ok q =>
          rw [hr, hq] at after
          have accepts := File.accepts_of_progress (i := 1) (by decide) (by decide) hr
            (Except.ok.inj after.1)
          obtain ⟨p, -, -, hparent, hcheck⟩ :=
            growth_keeps_answers.2 f Consensus.regtest 1 3 r.tip q accepts (by decide) hq
          exact ⟨r.tip, p, q, accepts, rfl, Except.ok.inj after.2, hparent, hcheck⟩

end Replay

end Retarget
