import Retarget.Proofs.Store.Linked
import Retarget.Replay

/-!
# The steps of a replay

A replay takes in one entry after another. `Step` says all that one entry can do to the
chain: it grows the chain by a header, or it ends the replay with a rejection. The chain
after the leading entries of a file is what a replay of those entries alone gives, so a
property of all chains that a replay goes through is proved by induction on their number.
-/

namespace Retarget.Replay

def File.upTo (f : File) (n : Nat) : File := { f with entries := f.entries.take n }

theorem take_succ_of_getElem? {es : List Entry} {e : Entry} {i : Nat} (he : es[i]? = some e) :
    es.take (i + 1) = es.take i ++ [e] := by
  rw [List.take_add_one, he]
  rfl

theorem Entry.header_eq_ok {e : Entry} {parent : Hash} {height : UInt32} {h : Header}
    (header : e.header parent height = .ok h) :
    h.parent = parent ∧ h.kind = e.kind ∧ Compact.parse e.bits = .ok h.bits := by
  rw [Entry.header] at header
  split at header
  · cases header
  · next bits parsed =>
    cases header
    refine ⟨rfl, ?_, parsed⟩
    rw [Header.kind]
    cases e.kind with
    | work =>
        have hnull : OutPoint.null.isNull = true := by decide
        simp only [hnull, if_true]
    | stake =>
        have hindex : OutPoint.isNull ⟨parent, 0⟩ = false := Bool.and_false _
        simp only [hindex, Bool.false_eq_true, if_false]

namespace Progress

def grown (p : Progress) (x : IndexedHeader) (accepted : Nat) : Progress :=
  { p with store := p.store.place x, tip := x, accepted := accepted }

theorem link_tip {p : Progress} {h : Header} (tip : p.store.Holds p.tip)
    (room : p.tip.height ≠ 0xffffffff) (hparent : h.parent = p.tip.hash)
    (hnew : p.store.byHash[h.hash]? = none) :
    p.store.link h = .ok (.ofHeader (p.tip.height + 1) h) := by
  rw [Store.link_eq_ok (Store.isEmpty_eq_false tip)]
  refine ⟨p.tip, ?_, room, hnew, rfl⟩
  rw [hparent]
  exact tip

/-- The header `h` of an entry passes its check, unless it is trusted, and links as `x`. -/
structure Grows (c : Consensus) (isTrusted : Bool) (e : Entry) (p : Progress) (h : Header)
    (x : IndexedHeader) (accepted : Nat) : Prop where
  room : p.tip.height ≠ 0xffffffff
  header : e.header p.tip.hash (p.tip.height + 1) = .ok h
  verdict : p.judge c isTrusted h = .ok accepted
  link : p.store.link h = .ok x

inductive Step (c : Consensus) (isTrusted : Bool) (e : Entry) (p : Progress) : Progress → Prop
  | grow {h : Header} {x : IndexedHeader} {accepted : Nat}
      (growth : Grows c isTrusted e p h x accepted) : Step c isTrusted e p (p.grown x accepted)
  | reject {h : Header} {expected actual : Compact} (room : p.tip.height ≠ 0xffffffff)
      (header : e.header p.tip.hash (p.tip.height + 1) = .ok h)
      (verdict : p.judge c isTrusted h = .error (.difficulty expected actual)) :
      Step c isTrusted e p
        { p with rejected := some (p.tip.height + 1, .difficulty expected actual) }

variable {c : Consensus} {isTrusted : Bool} {trusted index accepted : Nat} {e : Entry}
  {es fs : List Entry} {p q : Progress} {h : Header} {x : IndexedHeader}

/-- A trusted header is not counted, and one that passes its check is. -/
theorem judge_eq_ok :
    p.judge c isTrusted h = .ok accepted ↔
      if isTrusted then accepted = p.accepted
      else c.check p.store.source p.tip h = .ok () ∧ accepted = p.accepted + 1 := by
  rw [judge]
  cases isTrusted with
  | true =>
      simp only [if_true, Except.ok.injEq]
      exact eq_comm
  | false =>
      simp only [Bool.false_eq_true, if_false]
      cases c.check p.store.source p.tip h with
      | error fault => exact iff_of_false (fun h => by cases h) (fun h => by cases h.1)
      | ok _ => simp [Except.map, eq_comm]

/-- Only a check fails, and what is trusted is not checked. -/
theorem judge_eq_error {fault : WorkError} :
    p.judge c isTrusted h = .error fault ↔
      isTrusted = false ∧ c.check p.store.source p.tip h = .error fault := by
  rw [judge]
  cases isTrusted with
  | true => exact iff_of_false (fun h => by cases h) (fun h => by cases h.1)
  | false =>
      simp only [Bool.false_eq_true, if_false, true_and]
      cases c.check p.store.source p.tip h with
      | error fault' => simp [Except.map]
      | ok _ => exact iff_of_false (fun h => by cases h) (fun h => by cases h)

/-- A header that grows a chain is new and stands one above the tip. -/
theorem Grows.link_eq (growth : Grows c isTrusted e p h x accepted)
    (tip : p.store.Holds p.tip) :
    x = .ofHeader (p.tip.height + 1) h ∧ p.store.byHash[x.hash]? = none := by
  have hempty := Store.isEmpty_eq_false tip
  have hnew := Store.not_mem_of_link hempty growth.link
  obtain ⟨parent, hparent, -, -, rfl⟩ := (Store.link_eq_ok hempty).1 growth.link
  rw [(Entry.header_eq_ok growth.header).1, tip] at hparent
  cases hparent
  exact ⟨rfl, hnew⟩

theorem extend_singleton :
    p.extend c trusted index [e] = .ok q ↔ Step c (index < trusted) e p q := by
  constructor
  · intro run
    rw [extend] at run
    split at run
    · cases run
    · next room =>
      split at run
      · cases run
      · next h header =>
        split at run
        · next verdict =>
          cases run
          exact .reject room header verdict
        · cases run
        · next accepted verdict =>
          cases hlink : p.store.link h with
          | error fault =>
              rw [Store.insert_of_link_error hlink] at run
              cases run
          | ok x =>
              rw [Store.insert_of_link_ok hlink] at run
              cases run
              exact .grow ⟨room, header, verdict, hlink⟩
  · intro step
    cases step with
    | grow growth =>
        rw [extend, if_neg growth.room, growth.header]
        simp only [growth.verdict, Store.insert_of_link_ok growth.link]
        rfl
    | reject room header verdict =>
        rw [extend, if_neg room, header]
        simp only [verdict]

/-- A chain is extended by the first entries and then, unless one of them is rejected, by
the others. -/
theorem extend_append (hp : p.rejected = none) :
    p.extend c trusted index (es ++ fs) =
      (p.extend c trusted index es).bind fun q =>
        if q.rejected = none then q.extend c trusted (index + es.length) fs else .ok q := by
  induction es generalizing index p with
  | nil =>
      rw [List.nil_append, extend]
      simp only [Except.bind, hp, if_true, List.length_nil, Nat.add_zero]
  | cons e es ih =>
      rw [List.cons_append, extend, extend]
      split
      · rfl
      · split
        · rfl
        · next h header =>
          split
          · rfl
          · rfl
          · next accepted verdict =>
            cases hlink : p.store.link h with
            | error fault =>
                rw [Store.insert_of_link_error hlink]
                rfl
            | ok x =>
                rw [Store.insert_of_link_ok hlink]
                rw [List.length_cons, Nat.add_comm es.length 1, ← Nat.add_assoc]
                exact ih (p := p.grown x accepted) hp

end Progress

namespace File

variable {f : File} {c : Consensus} {e : Entry} {p : Progress} {i : Nat}

theorem upTo_of_length_le (hlength : f.entries.length ≤ i) : f.upTo i = f := by
  rw [upTo, List.take_of_length_le hlength]

theorem run_eq_ok {s : Summary} :
    f.run c = .ok s ↔ ∃ p, f.progress c = .ok p ∧ p.summary = s := by
  rw [run]
  cases f.progress c with
  | error fault =>
      refine iff_of_false (fun h => by cases h) ?_
      rintro ⟨p, h, -⟩
      cases h
  | ok p => simp [Except.map]

/-- Without an entry there is no chain. -/
theorem pos_of_progress (hp : (f.upTo i).progress c = .ok p) : 1 ≤ i := by
  apply Nat.pos_of_ne_zero
  rintro rfl
  cases hp

theorem progress_upTo_one (he : f.entries[0]? = some e) :
    (f.upTo 1).progress c = Progress.start f.height e := by
  rw [progress, upTo]
  cases hes : f.entries with
  | nil =>
      rw [hes] at he
      cases he
  | cons e' es =>
      rw [hes] at he
      cases he
      rw [List.take_succ_cons, List.take_zero]
      simp only
      cases Progress.start f.height e <;> rfl

theorem rejected_of_start {height : UInt32} (hp : Progress.start height e = .ok p) :
    p.rejected = none := by
  rw [Progress.start] at hp
  split at hp
  · cases hp
  · cases hp
    rfl

theorem progress_upTo_succ (hi : 1 ≤ i) (he : f.entries[i]? = some e) :
    (f.upTo (i + 1)).progress c =
      ((f.upTo i).progress c).bind fun p =>
        if p.rejected = none then p.extend c (max f.trusted 1) i [e] else .ok p := by
  obtain ⟨j, rfl⟩ : ∃ j, i = j + 1 := ⟨i - 1, by omega⟩
  cases hes : f.entries with
  | nil =>
      rw [hes] at he
      cases he
  | cons e' es =>
      rw [hes, List.getElem?_cons_succ] at he
      have hlength : (es.take j).length = j :=
        List.length_take_of_le (Nat.le_of_lt (List.getElem?_eq_some_iff.1 he).1)
      rw [progress, progress, upTo, upTo, hes, List.take_succ_cons, List.take_succ_cons,
        take_succ_of_getElem? he]
      simp only
      cases hp : Progress.start f.height e' with
      | error fault => rfl
      | ok p =>
          simp only
          rw [Progress.extend_append (rejected_of_start hp), hlength, Nat.add_comm 1 j]

/-- What the entry of an index does to the chain before it: a step, unless the replay is at
its end. -/
inductive Advances (f : File) (c : Consensus) (i : Nat) (p : Progress) : Progress → Prop
  | step {e : Entry} {q : Progress} (he : f.entries[i]? = some e) (hrejected : p.rejected = none)
      (step : Progress.Step c (i < max f.trusted 1) e p q) : Advances f c i p q
  | stay (ended : f.entries[i]? = none ∨ p.rejected ≠ none) : Advances f c i p p

/-- The chain of one entry more is what that entry makes of the chain before. -/
theorem progress_succ_eq_ok {q : Progress} (hi : 1 ≤ i) :
    (f.upTo (i + 1)).progress c = .ok q ↔
      ∃ p, (f.upTo i).progress c = .ok p ∧ f.Advances c i p q := by
  cases he : f.entries[i]? with
  | none =>
      -- Past the end both prefixes are the whole file.
      have hlength : f.entries.length ≤ i := List.getElem?_eq_none_iff.1 he
      rw [upTo_of_length_le hlength, upTo_of_length_le (Nat.le_succ_of_le hlength)]
      constructor
      · intro hq
        exact ⟨q, hq, .stay (.inl he)⟩
      · rintro ⟨p, hp, advances⟩
        cases advances with
        | step he' _ _ =>
            rw [he] at he'
            cases he'
        | stay _ => exact hp
  | some e =>
      rw [progress_upTo_succ hi he]
      constructor
      · intro hq
        cases hp : (f.upTo i).progress c with
        | error fault =>
            rw [hp] at hq
            cases hq
        | ok p =>
            rw [hp] at hq
            simp only [Except.bind] at hq
            split at hq
            · next hrejected =>
              exact ⟨p, rfl, .step he hrejected (Progress.extend_singleton.1 hq)⟩
            · next hrejected =>
              cases hq
              exact ⟨q, rfl, .stay (.inr hrejected)⟩
      · rintro ⟨p, hp, advances⟩
        rw [hp]
        simp only [Except.bind]
        cases advances with
        | step he' hrejected step =>
            rw [he] at he'
            cases he'
            rw [if_pos hrejected]
            exact Progress.extend_singleton.2 step
        | stay ended =>
            rw [if_neg (ended.resolve_left (by rw [he]; exact Option.some_ne_none e))]

/-- What holds of the chain of the first header and is kept by growth holds of every chain
that a replay goes through. By induction on the number of entries. -/
theorem progress_induction {motive : Nat → Progress → Prop}
    (start : ∀ e p, f.entries[0]? = some e → Progress.start f.height e = .ok p → motive 1 p)
    (grow : ∀ i e p h x accepted, 1 ≤ i → f.entries[i]? = some e →
      (f.upTo i).progress c = .ok p → p.rejected = none → motive i p →
      Progress.Grows c (i < max f.trusted 1) e p h x accepted →
      motive (i + 1) (p.grown x accepted))
    (hi : 1 ≤ i) (hle : i ≤ f.entries.length) (hp : (f.upTo i).progress c = .ok p)
    (hrejected : p.rejected = none) : motive i p := by
  induction hi generalizing p with
  | refl =>
      have he : f.entries[0]? = some f.entries[0] := List.getElem?_eq_getElem hle
      rw [progress_upTo_one he] at hp
      exact start _ p he hp
  | @step i hi ih =>
      obtain ⟨q, hq, advances⟩ := (progress_succ_eq_ok hi).1 hp
      cases advances with
      | step he hqRejected step =>
          have hmotive := ih (Nat.le_of_lt hle) hq hqRejected
          cases step with
          | grow growth => exact grow i _ q _ _ _ hi he hq hqRejected hmotive growth
          | reject _ _ _ => cases hrejected
      | stay ended =>
          rw [List.getElem?_eq_getElem hle] at ended
          exact absurd hrejected (ended.resolve_left (Option.some_ne_none _))

end File

end Retarget.Replay
