import Retarget.Proofs.Replay.Honest

/-!
# What a replay counts

A summary is put together from two counts. Accepted headers are counted one by one as they pass
their checks; the headers of each kind are counted at the end, on the way from the tip down along
the parent links. Both count the entries that were replayed: each growth puts one header in front
of the ancestors of the tip, so that the ancestors are the replayed entries, the newest first. The
walk ends at the first header because that one stands at height zero or names a parent that no
stored header hashes to.

What ends a replay ends it for good, whatever entries follow.
-/

namespace Retarget

/-- A new header changes no ancestors but its own, unless the root takes it for its parent. By
induction on the number of ancestors. -/
theorem Store.Linked.ancestors_place {s : Store} {root x : IndexedHeader} {limit : Nat} {k : Hash}
    (hs : s.Linked root) (hnew : s.byHash[x.hash]? = none)
    (ends : root.height = 0 ∨ root.header.parent ≠ x.hash) (hk : x.hash ≠ k) :
    (s.place x).source.ancestors limit (.hash k) = s.source.ancestors limit (.hash k) := by
  induction limit generalizing k with
  | zero => rfl
  | succ limit ih =>
      have hget : (s.place x).source (.hash k) = s.source (.hash k) := by
        simp only [source_apply, get?_hash, byHash_place, if_neg hk]
      cases hy : s.source (.hash k) with
      | none => simp only [HeaderSource.ancestors, hget, hy]
      | some y =>
          simp only [HeaderSource.ancestors, hget, hy]
          by_cases hgenesis : y.isGenesis
          · simp only [if_pos hgenesis]
          · have hparent : x.hash ≠ y.header.parent := by
              intro hx
              by_cases hroot : y = root
              · subst hroot
                exact ends.elim (fun h => hgenesis (IndexedHeader.isGenesis_iff.2 h))
                  fun h => h hx.symm
              · obtain ⟨q, hq, -⟩ := hs.parent (hs.holds hy) hroot
                rw [← hx, hnew] at hq
                cases hq
            simp only [if_neg hgenesis, ih hparent]

namespace Replay

variable {c : Consensus} {isTrusted : Bool} {e : Entry} {f : File} {p q : Progress} {h : Header}
  {root x : IndexedHeader} {i n accepted : Nat}

/-! ### Ancestors of the tip -/

/-- No header that is stored on the way hashes to `k`. -/
def File.Avoids (f : File) (c : Consensus) (k : Hash) : Prop :=
  ∀ i p x, i ≤ f.entries.length → (f.upTo i).progress c = .ok p → p.rejected = none →
    p.store.Holds x → x.hash ≠ k

/-- It is enough that none of the headers which the file describes hashes to `k`. -/
theorem File.avoids_of_notMem {k : Hash} (hk : k ∉ f.headers.map Header.hash) : f.Avoids c k := by
  rintro i p x hle hp hrejected hx rfl
  obtain ⟨before, hheaders, stored⟩ := follows_progress (pos_of_progress hp) hle hp hrejected
  apply hk
  rw [hheaders, List.map_append]
  exact List.mem_append_left _ (stored x.hash x hx)

theorem Progress.chain_start {height : UInt32} (hp : start height e = .ok p) :
    p.chain = [p.tip] := by
  have spans := (spans_start hp).1
  have hget : p.store.source (.hash p.tip.hash) = some p.tip := spans.holds_tip
  simp only [chain, spans.size_eq, HeaderSource.ancestors, hget, ite_self]

theorem Progress.Spans.parent_grown (hp : p.Spans root n)
    (growth : Grows c isTrusted e p h x accepted) :
    (p.grown x accepted).store.source.parent x = .ok p.tip := by
  obtain ⟨hx, hnew⟩ := growth.link_eq hp.holds_tip
  refine HeaderSource.parent_eq_ok.2 ⟨?_, ?_⟩
  · have hparent : x.header.parent = p.tip.hash := by
      rw [hx]
      exact (Entry.header_eq_ok growth.header).1
    rw [hparent]
    exact Store.getElem?_place_of_some hnew hp.holds_tip
  · rw [hx]
    exact (toNat_height_succ growth.room).symm

/-- The ancestors of the old tip stay what they were. -/
theorem Progress.Spans.ancestors_grown (hp : p.Spans root n)
    (growth : Grows c isTrusted e p h x accepted)
    (ends : root.height = 0 ∨ root.header.parent ≠ x.hash) (limit : Nat) :
    (p.grown x accepted).store.source.ancestors limit (.hash p.tip.hash) =
      p.store.source.ancestors limit (.hash p.tip.hash) := by
  have hnew := (growth.link_eq hp.holds_tip).2
  refine hp.linked.ancestors_place hnew ends ?_
  intro htip
  rw [htip, hp.holds_tip] at hnew
  cases hnew

theorem Progress.Spans.chain_grown (hp : p.Spans root n)
    (growth : Grows c isTrusted e p h x accepted)
    (ends : root.height = 0 ∨ root.header.parent ≠ x.hash) :
    (p.grown x accepted).chain = x :: p.chain := by
  have grown := hp.grown growth
  calc (p.grown x accepted).chain
      = (p.grown x accepted).store.source.ancestors (p.store.size + 1) (.hash x.hash) := by
        rw [hp.size_eq, ← grown.size_eq]
        rfl
    _ = x :: (p.grown x accepted).store.source.ancestors p.store.size (.hash p.tip.hash) :=
        grown.linked.ancestors_of_parent grown.holds_tip (hp.parent_grown growth)
    _ = x :: p.chain := congrArg (x :: ·) (hp.ancestors_grown growth ends _)

/-- The chain of a replay consists of the headers of the entries, the newest first. By induction
on the number of entries. -/
theorem File.describes_chain (avoids : f.height ≠ 0 → f.Avoids c Hash.zero) (hi : 1 ≤ i)
    (hle : i ≤ f.entries.length) (hp : (f.upTo i).progress c = .ok p)
    (hrejected : p.rejected = none) :
    List.Forall₂ Entry.Describes (f.entries.take i).reverse p.chain := by
  refine progress_induction
    (motive := fun i p => List.Forall₂ Entry.Describes (f.entries.take i).reverse p.chain)
    ?_ ?_ hi hle hp hrejected
  · intro e p he hstart
    rw [take_succ_of_getElem? he, Progress.chain_start hstart]
    obtain ⟨h, header, rfl⟩ := Progress.start_eq_ok hstart
    exact .cons (Entry.describes_of_header header) .nil
  · intro i e p h x accepted hi he hp hrejected described growth
    have hlt := (List.getElem?_eq_some_iff.1 he).1
    obtain ⟨root, hroot, hparent, spans⟩ := exists_root hi hlt.le hp hrejected
    have hgrown : (f.upTo (i + 1)).progress c = .ok (p.grown x accepted) :=
      (progress_succ_eq_ok hi).2 ⟨p, hp, .step he hrejected (.grow growth)⟩
    have ends : root.height = 0 ∨ root.header.parent ≠ x.hash := by
      by_cases hzero : f.height = 0
      · exact .inl (hroot.trans hzero)
      · right
        rw [hparent]
        exact (avoids hzero (i + 1) _ x hlt hgrown hrejected (Store.holds_place _ _)).symm
    rw [take_succ_of_getElem? he, List.reverse_append, spans.chain_grown growth ends]
    rw [(growth.link_eq spans.holds_tip).1]
    exact .cons (Entry.describes_of_header growth.header) described

/-! ### Counts -/

theorem Entry.countP_kind {es : List Entry} {xs : List IndexedHeader}
    (described : List.Forall₂ Entry.Describes es xs) (kind : Kind) :
    xs.countP (·.kind = kind) = es.countP (·.kind = kind) := by
  induction described with
  | nil => rfl
  | cons head _ ih => simp only [List.countP_cons, ih, head.kind]

/-- Of the replayed entries all but the trusted ones were accepted. By induction on their number. -/
theorem File.accepted_progress (hi : 1 ≤ i) (hle : i ≤ f.entries.length)
    (hp : (f.upTo i).progress c = .ok p) (hrejected : p.rejected = none) :
    p.accepted = i - max f.trusted 1 := by
  refine progress_induction (motive := fun i p => p.accepted = i - max f.trusted 1)
    ?_ ?_ hi hle hp hrejected
  · intro e p _ hstart
    obtain ⟨h, -, rfl⟩ := Progress.start_eq_ok hstart
    exact (Nat.sub_eq_zero_of_le (le_max_right _ _)).symm
  · intro i e p h x accepted _ _ _ _ hcount growth
    have hjudge := Progress.judge_eq_ok.1 growth.verdict
    change accepted = i + 1 - max f.trusted 1
    by_cases htrusted : i < max f.trusted 1
    · rw [decide_eq_true htrusted, if_pos rfl] at hjudge
      omega
    · rw [decide_eq_false htrusted, if_neg Bool.false_ne_true] at hjudge
      omega

/-- A summary that counts the first `n` entries of a file and no other: all but the trusted ones
as accepted, and each of them under its kind. -/
structure Summary.Covers (s : Summary) (f : File) (n : Nat) : Prop where
  accepted : s.accepted = n - min n (max f.trusted 1)
  work : s.work = (f.entries.take n).countP (·.kind = .work)
  stake : s.stake = (f.entries.take n).countP (·.kind = .stake)

theorem File.covers_progress (avoids : f.height ≠ 0 → f.Avoids c Hash.zero) (hi : 1 ≤ i)
    (hle : i ≤ f.entries.length) (hp : (f.upTo i).progress c = .ok p)
    (hrejected : p.rejected = none) : p.summary.Covers f i := by
  have described := describes_chain avoids hi hle hp hrejected
  refine ⟨?_, ?_, ?_⟩
  · have hcount := accepted_progress hi hle hp hrejected
    change p.accepted = _
    omega
  · exact (Entry.countP_kind described .work).trans (List.countP_reverse ..)
  · exact (Entry.countP_kind described .stake).trans (List.countP_reverse ..)

/-! ### Rejections -/

/-- A replay that ends with a rejection had come to the rejected entry without one, and rejected
what that entry declares. -/
theorem File.exists_reject (hn : 1 ≤ n) (hq : (f.upTo n).progress c = .ok q)
    (hrejected : q.rejected ≠ none) :
    ∃ i e p expected actual, max f.trusted 1 ≤ i ∧ f.entries[i]? = some e ∧
      (f.upTo i).progress c = .ok p ∧ p.rejected = none ∧ p.tip.height ≠ 0xffffffff ∧
      Compact.parse e.bits = .ok actual ∧
      q = { p with rejected := some (p.tip.height + 1, .difficulty expected actual) } := by
  induction n, hn using Nat.le_induction generalizing q with
  | base => exact absurd (progress_trusted le_rfl (le_max_right _ _) hq).1 hrejected
  | succ n hn ih =>
      obtain ⟨p, hp, advances⟩ := (progress_succ_eq_ok hn).1 hq
      cases advances with
      | stay _ => exact ih hp hrejected
      | step he hpRejected step =>
          cases step with
          | grow growth => exact absurd hpRejected hrejected
          | reject room header verdict =>
              obtain ⟨htrusted, hcheck⟩ := Progress.judge_eq_error.1 verdict
              obtain rfl := Consensus.actual_eq_of_check hcheck
              exact ⟨n, _, p, _, _, Nat.not_lt.1 (of_decide_eq_false htrusted), he, hp,
                hpRejected, room, (Entry.header_eq_ok header).2.2, rfl⟩

/-! ### Endings -/

/-- What follows on the end of a replay does not change it. -/
theorem File.progress_append (hne : f.entries ≠ [])
    (ended : ∀ p, f.progress c = .ok p → p.rejected ≠ none) (more : List Entry) :
    ({ f with entries := f.entries ++ more } : File).progress c = f.progress c := by
  cases hes : f.entries with
  | nil => exact absurd hes hne
  | cons e es =>
      simp only [progress, hes, List.cons_append] at ended ⊢
      cases hstart : Progress.start f.height e with
      | error fault => rfl
      | ok p =>
          simp only [hstart] at ended ⊢
          simp only [Progress.extend_append (rejected_of_start hstart)]
          cases hend : p.extend c (max f.trusted 1) 1 es with
          | error fault => rfl
          | ok q => exact if_neg (ended q hend)

/-- What is counted in the summary of a replay are the entries that were replayed: all of them, or
those before the one that was rejected, of which the summary tells the height, and the target that
the entry declares. Once a replay has ended with a rejection or without a summary, no entries that
follow change it. -/
theorem File.run_covers (f : File) (c : Consensus) (avoids : f.height ≠ 0 → f.Avoids c Hash.zero) :
    (∀ s, f.run c = .ok s →
      (s.rejected = none → s.Covers f f.entries.length) ∧
      ∀ height fault, s.rejected = some (height, fault) →
        ∃ i e expected actual, max f.trusted 1 ≤ i ∧ f.entries[i]? = some e ∧
          height.toNat = f.height.toNat + i ∧ Compact.parse e.bits = .ok actual ∧
          fault = .difficulty expected actual ∧ s.accepted = i - max f.trusted 1 ∧
          s.Covers f i) ∧
    (f.entries ≠ [] → (∀ s, f.run c = .ok s → s.rejected ≠ none) → ∀ more : List Entry,
      ({ f with entries := f.entries ++ more } : File).run c = f.run c) := by
  refine ⟨?_, ?_⟩
  · intro s hrun
    obtain ⟨q, hq, rfl⟩ := run_eq_ok.1 hrun
    rw [← upTo_of_length_le (f := f) le_rfl] at hq
    have hn := pos_of_progress hq
    refine ⟨fun hrejected => covers_progress avoids hn le_rfl hq hrejected, ?_⟩
    intro height fault hrejected
    change q.rejected = some (height, fault) at hrejected
    obtain ⟨i, e, p, expected, actual, hi, he, hp, hpRejected, room, parsed, rfl⟩ :=
      exists_reject hn hq (by rw [hrejected]; exact Option.some_ne_none _)
    cases hrejected
    have hpos : 1 ≤ i := (le_max_right _ _).trans hi
    have hle : i ≤ f.entries.length := (List.getElem?_eq_some_iff.1 he).1.le
    obtain ⟨root, hroot, spans⟩ := exists_spans hpos hle hp hpRejected
    have htip := spans.tip_height
    have covers : p.summary.Covers f i := covers_progress avoids hpos hle hp hpRejected
    refine ⟨i, e, expected, actual, hi, he, ?_, parsed, rfl, ?_, covers.1, covers.2, covers.3⟩
    · rw [toNat_height_succ room, htip, hroot]
    · exact accepted_progress hpos hle hp hpRejected
  · intro hne ended more
    rw [run, run, progress_append hne ?_ more]
    intro p hp
    exact ended p.summary (run_eq_ok.2 ⟨p, hp, rfl⟩)

/-- The third of four stakes on a checkpoint declares a wrong target. Whatever follows on it, two
stakes are counted. -/
theorem run_covers_stakes :
    let stake (time : UInt32) (bits : String) : Entry :=
      { time := time, bits := bits, kind := .stake }
    let f : File :=
      { height := 500008
        trusted := 2
        entries := [stake 1000 "1a0a3d1c", stake 1144 "1a0a3d1c", stake 1272 "1a0a51ab",
          stake 1400 "1a0a51aa"] }
    (f.height ≠ 0 → f.Avoids .testnet Hash.zero) ∧
      ∃ s : Summary, f.run .testnet = .ok s ∧
        s.rejected = some (500010, .difficulty ⟨0x1a0a51aa⟩ ⟨0x1a0a51ab⟩) ∧
        (∃ i e expected actual, max f.trusted 1 ≤ i ∧ f.entries[i]? = some e ∧
          (500010 : UInt32).toNat = f.height.toNat + i ∧ Compact.parse e.bits = .ok actual ∧
          WorkError.difficulty ⟨0x1a0a51aa⟩ ⟨0x1a0a51ab⟩ = .difficulty expected actual ∧
          s.accepted = i - max f.trusted 1 ∧ s.Covers f i) ∧
        ∀ more : List Entry,
          ({ f with entries := f.entries ++ more } : File).run .testnet = .ok s := by
  intro stake f
  let s : Summary :=
    { accepted := 0, work := 0, stake := 2
      rejected := some (500010, .difficulty ⟨0x1a0a51aa⟩ ⟨0x1a0a51ab⟩) }
  have facts : f.run .testnet = .ok s ∧ Hash.zero ∉ f.headers.map Header.hash := by
    decide +kernel
  obtain ⟨hrun, hzero⟩ := facts
  have avoids : f.height ≠ 0 → f.Avoids .testnet Hash.zero := fun _ => File.avoids_of_notMem hzero
  have covers := File.run_covers f .testnet avoids
  refine ⟨avoids, s, hrun, rfl, (covers.1 s hrun).2 _ _ rfl, fun more => ?_⟩
  rw [covers.2 (List.cons_ne_nil _ _) ?_ more, hrun]
  intro s' hs'
  rw [hrun] at hs'
  cases hs'
  exact Option.some_ne_none _

end Replay

end Retarget
