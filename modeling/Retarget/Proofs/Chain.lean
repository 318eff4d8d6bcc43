import Retarget.Chain
import Retarget.Proofs.Replay.Span
import Retarget.Proofs.Store.Straight

/-!
# Chains and replays grow at the tip

A chain appends each pushed header on top of its tip, and so does a replay. Their stores never
fork, hence what is found by height is what the parent links lead to. What a push appends is the
candidate that the chain names beforehand: a header of the wanted kind and bits, as many seconds
after the tip as were asked for.
-/

namespace Retarget

theorem Header.kind_ofKind (h : Header) (kind : Kind) : (h.ofKind kind).kind = kind := by
  cases kind with
  | work =>
      have hnull : OutPoint.null.isNull = true := by decide
      simp only [ofKind, Header.kind, hnull, if_true]
  | stake =>
      have hzero : (Hash.ofByte 1).isZero = false := by decide
      simp only [ofKind, Header.kind, OutPoint.isNull, hzero, Bool.false_and, Bool.false_eq_true,
        if_false]

@[simp] theorem Header.parent_ofKind (h : Header) (kind : Kind) :
    (h.ofKind kind).parent = h.parent := by
  cases kind <;> rfl

@[simp] theorem Header.bits_ofKind (h : Header) (kind : Kind) :
    (h.ofKind kind).bits = h.bits := by
  cases kind <;> rfl

@[simp] theorem Header.time_ofKind (h : Header) (kind : Kind) :
    (h.ofKind kind).time = h.time := by
  cases kind <;> rfl

/-- A header on top of a tip, of a kind, so many seconds after it. -/
structure Header.IsNext (h : Header) (tip : IndexedHeader) (kind : Kind) (spacing : Int64)
    (bits : Compact) : Prop where
  parent : h.parent = tip.hash
  kind : h.kind = kind
  bits : h.bits = bits
  time : (h.time.toNat : Int) = tip.header.time.toNat + spacing.toInt

namespace Chain

variable {c d : Chain} {kind : Kind} {spacing : Int64} {bits : Compact} {h : Header}

/-- A time that fits its field is the exact sum: one that wraps around comes out negative. -/
theorem toNat_time {t : UInt32} (hlo : 0 ≤ signed t + spacing)
    (hhi : signed t + spacing ≤ 0xffffffff) :
    ((UInt32.ofNat (signed t + spacing).toInt.toNat).toNat : Int) = t.toNat + spacing.toInt := by
  have hmax : (0xffffffff : Int64).toInt = 0xffffffff := by decide
  rw [Int64.le_iff_toInt_le, Int64.toInt_zero] at hlo
  rw [Int64.le_iff_toInt_le, hmax] at hhi
  have hexact : (signed t + spacing).toInt = t.toNat + spacing.toInt := by
    have ht := t.toNat_lt
    have hleast := spacing.le_toInt
    have hgreatest := spacing.toInt_lt
    rw [Int64.toInt_add, toInt_signed, Int.bmod] at hlo ⊢
    split at hlo <;> omega
  rw [UInt32.toNat_ofNat', Nat.mod_eq_of_lt (by omega), Int.toNat_of_nonneg hlo, hexact]

theorem parent_of_next {x : IndexedHeader} (htip : c.tip? = some x) (hbase : c.next = .ok h) :
    h.parent = x.hash := by
  rw [next, htip] at hbase
  simp only at hbase
  split at hbase
  · cases hbase
  · cases hbase
    rfl

theorem isNext_of_candidate (hh : c.candidate kind spacing bits = .ok h) :
    ∃ tip, c.tip? = some tip ∧ h.IsNext tip kind spacing bits := by
  rw [candidate, tip] at hh
  cases htip : c.tip? with
  | none =>
      rw [htip] at hh
      cases hh
  | some x =>
      cases hbase : c.next with
      | error e =>
          rw [htip, hbase] at hh
          cases hh
      | ok base =>
          rw [htip, hbase] at hh
          simp only at hh
          split at hh
          · next htime =>
            cases hh
            refine ⟨x, rfl, ?_, Header.kind_ofKind _ kind, ?_, ?_⟩
            · rw [Header.parent_ofKind, parent_of_next htip hbase]
            · rw [Header.bits_ofKind]
            · rw [Header.time_ofKind]
              exact toNat_time htime.1 htime.2
          · cases hh

theorem push_eq_ok :
    c.push kind spacing bits = .ok d ↔
      ∃ h x, c.candidate kind spacing bits = .ok h ∧ c.store.link h = .ok x ∧
        d = ⟨c.store.place x, some x⟩ := by
  rw [push]
  cases hh : c.candidate kind spacing bits with
  | error e => simp
  | ok h => simp [append_eq_ok]

/-- The chains of a run: a draft or a checkpoint opens them, and everything else is pushed. -/
inductive Run : Chain → Prop
  | opening {d : Draft} {c : Chain} (opened : empty.appendDraft d = .ok c) : Run c
  | checkpoint (height time : UInt32) (bits : Compact) (kind : Kind) :
      Run (checkpoint height time bits kind)
  | push {c d : Chain} {kind : Kind} {spacing : Int64} {bits : Compact} (run : Run c)
      (pushed : c.push kind spacing bits = .ok d) : Run d

theorem Run.straight (run : c.Run) : ∃ o tip, c.tip? = some tip ∧ c.store.Straight o tip := by
  induction run with
  | @opening d c opened =>
      have happend : empty.append (d.complete {}) = .ok c := opened
      obtain ⟨x, hlink, rfl⟩ := append_eq_ok.1 happend
      cases hlink
      exact ⟨.insert (d.complete {}), _, rfl, .opening⟩
  | checkpoint height time bits kind =>
      exact ⟨.checkpoint height _, _, rfl, .opening⟩
  | @push c d kind spacing bits run pushed ih =>
      obtain ⟨o, tip, htip, straight⟩ := ih
      obtain ⟨h, x, hh, hlink, rfl⟩ := push_eq_ok.1 pushed
      obtain ⟨tip', htip', isNext⟩ := isNext_of_candidate hh
      rw [htip] at htip'
      cases htip'
      exact ⟨o, x, rfl, .insert straight isNext.parent (Store.insert_of_link_ok hlink)⟩

end Chain

/-- The store of a replay grows at the tip of the replay, from the height of the file on. By
induction on the number of entries. -/
theorem Replay.File.straight_progress {f : File} {c : Consensus} {i : Nat} {p : Progress}
    (hi : 1 ≤ i) (hp : (f.upTo i).progress c = .ok p) :
    ∃ o : Store.Opening, o.root.height = f.height ∧ p.store.Straight o p.tip := by
  induction hi generalizing p with
  | refl =>
      cases hes : f.entries with
      | nil =>
          rw [progress, upTo, hes] at hp
          cases hp
      | cons e es =>
          rw [progress_upTo_one (e := e) (by rw [hes]; rfl)] at hp
          obtain ⟨h, -, rfl⟩ := Progress.start_eq_ok hp
          exact ⟨.checkpoint f.height h, rfl, .opening⟩
  | @step i hi ih =>
      obtain ⟨q, hq, advances⟩ := (progress_succ_eq_ok hi).1 hp
      obtain ⟨o, hroot, straight⟩ := ih hq
      cases advances with
      | stay _ => exact ⟨o, hroot, straight⟩
      | step _ _ step =>
          cases step with
          | reject _ _ _ => exact ⟨o, hroot, straight⟩
          | grow growth =>
              have onTip := (Entry.header_eq_ok growth.header).1
              exact ⟨o, hroot, .insert straight onTip (Store.insert_of_link_ok growth.link)⟩

namespace Chain

/-- In a store that grows at its tip, look-ups by height and the ancestors of the tip show the same
headers, and the tip is the best one. So it is with every replay and every chain of pushes. Each
push that succeeds appends the candidate that the chain had named for it, to the store as it was:
the next header on top of the tip, which was not stored before. -/
theorem straight_growth :
    (∀ (o : Store.Opening) (s : Store) (tip : IndexedHeader), s.Straight o tip →
      s.Aligned o.root tip) ∧
    (∀ (f : Replay.File) (c : Consensus) (p : Replay.Progress), f.progress c = .ok p →
      ∃ o : Store.Opening, o.root.height = f.height ∧ p.store.Straight o p.tip) ∧
    ∀ c : Chain, c.Run →
      (∃ o tip, c.tip? = some tip ∧ c.store.Straight o tip) ∧
      ∀ kind spacing bits d, c.push kind spacing bits = .ok d →
        ∃ tip h x, c.tip? = some tip ∧ c.candidate kind spacing bits = .ok h ∧
          h.IsNext tip kind spacing bits ∧ d.tip? = some x ∧ x.header = h ∧
          c.store.get? (.hash h.hash) = none ∧ c.store.insert h = (.ok x, d.store) := by
  refine ⟨?_, ?_, ?_⟩
  · intro o s tip straight
    exact straight.column.aligned
  · intro f c p hp
    rw [← Replay.File.upTo_of_length_le (f := f) Nat.le.refl] at hp
    exact Replay.File.straight_progress (Replay.File.pos_of_progress hp) hp
  · intro c run
    refine ⟨run.straight, ?_⟩
    intro kind spacing bits d pushed
    obtain ⟨h, x, hh, hlink, rfl⟩ := push_eq_ok.1 pushed
    obtain ⟨tip, htip, isNext⟩ := isNext_of_candidate hh
    obtain ⟨hheader, hhash⟩ := Store.eq_of_link hlink
    have hnew := Store.getElem?_of_link hlink
    rw [hhash] at hnew
    exact ⟨tip, h, x, htip, hh, isNext, rfl, hheader, hnew, Store.insert_of_link_ok hlink⟩

/-- A proof of work and then a stake are pushed on a checkpoint. The stake is older than the header
it stands on. -/
theorem straight_growth_checkpoint :
    let c := checkpoint 500000 1000 ⟨0x1a0a3d1c⟩ .stake
    ∃ d e o x, c.push .work 128 ⟨0x1f00ffff⟩ = .ok d ∧ d.push .stake (-10) ⟨0x1a0a3d1c⟩ = .ok e ∧
      e.Run ∧ e.tip? = some x ∧ e.store.Straight o x ∧ e.store.Aligned o.root x ∧
      ∃ tip h, d.tip? = some tip ∧ d.candidate .stake (-10) ⟨0x1a0a3d1c⟩ = .ok h ∧
        h.IsNext tip .stake (-10) ⟨0x1a0a3d1c⟩ ∧ x.header = h ∧
        d.store.get? (.hash h.hash) = none ∧ d.store.insert h = (.ok x, e.store) := by
  dsimp only
  have succeeds : (((checkpoint 500000 1000 ⟨0x1a0a3d1c⟩ .stake).push .work 128
      ⟨0x1f00ffff⟩).bind fun d => d.push .stake (-10) ⟨0x1a0a3d1c⟩).isOk = true := by
    decide +kernel
  cases hd : (checkpoint 500000 1000 ⟨0x1a0a3d1c⟩ .stake).push .work 128 ⟨0x1f00ffff⟩ with
  | error fault =>
      rw [hd] at succeeds
      cases succeeds
  | ok d =>
      rw [hd] at succeeds
      cases he : d.push .stake (-10) ⟨0x1a0a3d1c⟩ with
      | error fault =>
          rw [Except.bind, he] at succeeds
          cases succeeds
      | ok e =>
          have run : d.Run := (Run.checkpoint 500000 1000 ⟨0x1a0a3d1c⟩ .stake).push hd
          obtain ⟨o, x, hx, straight⟩ := (straight_growth.2.2 e (run.push he)).1
          obtain ⟨tip, h, x', htip, hh, isNext, hx', hrest⟩ :=
            (straight_growth.2.2 d run).2 _ _ _ _ he
          rw [hx] at hx'
          cases hx'
          exact ⟨d, e, o, x, rfl, he, run.push he, hx, straight,
            straight_growth.1 o e.store x straight, tip, h, htip, hh, isNext, hrest⟩

end Chain

end Retarget
