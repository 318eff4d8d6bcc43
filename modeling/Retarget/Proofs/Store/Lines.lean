import Retarget.Proofs.Simulation
import Retarget.Proofs.Store.Linked

/-!
# The line of a kind

The line of a kind on top of a header consists of the headers of that kind in its lineage,
the newest first, without the one at height zero. In a store that insertions build up, the
history of a kind is the head of its line. What the next header of the kind must meet then
depends on two headers of the line and on the height, and on nothing else that is stored: the
difficulties of the two kinds do not influence each other.
-/

namespace Retarget

namespace Store

variable {s t : Store} {root x y p : IndexedHeader} {h : Header} {kind : Kind}

/-- The stores that insertions build up. -/
inductive Grown : Store → Prop
  | empty : Grown empty
  | insert {s t : Store} {h : Header} {x : IndexedHeader} (grown : Grown s)
      (inserted : s.insert h = (.ok x, t)) : Grown t

theorem insert_empty (h : Header) : empty.insert h = (.ok (.ofHeader 0 h), withGenesis h) :=
  insert_of_link_ok rfl

theorem Grown.withGenesis (h : Header) : (withGenesis h).Grown := .insert .empty (insert_empty h)

/-- An insertion never ends the growth: what does not link leaves the store as it is. -/
theorem Grown.snd_insert (grown : s.Grown) (h : Header) : (s.insert h).2.Grown := by
  cases hlink : s.link h with
  | error e =>
      rw [insert_of_link_error hlink]
      exact grown
  | ok x =>
      rw [insert_of_link_ok hlink]
      exact .insert grown (insert_of_link_ok hlink)

/-- In a grown store every parent link leads one height down, as far as the genesis header. -/
theorem Grown.eq_empty_or_linked (grown : s.Grown) :
    s = .empty ∨ ∃ root, root.height = 0 ∧ s.Linked root := by
  induction grown with
  | empty => exact .inl rfl
  | @insert s t h x grown inserted ih =>
      right
      obtain rfl | ⟨root, hroot, hs⟩ := ih
      · rw [insert_empty] at inserted
        cases inserted
        exact ⟨.ofHeader 0 h, rfl, linked_place_empty rfl⟩
      · have hlink : s.link h = .ok x := by rw [← fst_insert, inserted]
        rw [insert_of_link_ok hlink] at inserted
        cases inserted
        exact ⟨root, hroot, hs.place hlink⟩

theorem Grown.exists_linked (grown : s.Grown) (hx : s.Holds x) :
    ∃ root, root.height = 0 ∧ s.Linked root := by
  refine grown.eq_empty_or_linked.resolve_left ?_
  rintro rfl
  cases hx

/-- The headers of a kind at or below a header and above height zero, the newest first. -/
def line (s : Store) (kind : Kind) (x : IndexedHeader) : List IndexedHeader :=
  (s.lineage x).filter fun y => y.kind = kind ∧ y.height ≠ 0

theorem line_of_height_zero (hx : s.Holds x) (hheight : x.height = 0) : s.line kind x = [] := by
  rw [line, lineage_of_height_zero hx hheight]
  simp [hheight]

/-- A header is on its own line if it is of the kind; the rest is the line of its parent. -/
theorem line_of_parent (hs : s.Linked root) (hx : s.Holds x) (hp : s.source.parent x = .ok p) :
    s.line kind x = if x.kind = kind then x :: s.line kind p else s.line kind p := by
  have hheight := HeaderSource.height_ne_zero_of_parent hp
  rw [line, hs.lineage_of_parent hx hp, List.filter_cons]
  simp only [hheight, ne_eq, not_false_eq_true, and_true, decide_eq_true_eq]
  rfl

namespace Linked

variable (hs : s.Linked root) (hroot : root.height = 0)
include hs hroot

/-- A walk to a kind ends at the head of its line, or at height zero if the line is empty. -/
theorem lastOfKind_line (kind : Kind) (hx : s.Holds x) :
    ∃ y, s.source.lastOfKind kind x = .ok y ∧
      ((y.height = 0 ∧ s.line kind x = []) ∨
        (y.height ≠ 0 ∧ ∃ p, s.source.parent y = .ok p ∧ s.Holds p ∧
          s.line kind x = y :: s.line kind p)) := by
  induction x using HeaderSource.walk_induction s.source kind with
  | stop x hstop =>
      refine ⟨x, HeaderSource.lastOfKind_of_stop hstop, ?_⟩
      by_cases hheight : x.height = 0
      · exact .inl ⟨hheight, line_of_height_zero hx hheight⟩
      · obtain ⟨p, hp, hpHolds⟩ := hs.exists_parent hroot hx hheight
        refine .inr ⟨hheight, p, hp, hpHolds, ?_⟩
        rw [line_of_parent hs hx hp, if_pos (hstop.resolve_right hheight)]
  | step x hkind hheight ih =>
      obtain ⟨p, hp, hpHolds⟩ := hs.exists_parent hroot hx hheight
      rw [HeaderSource.lastOfKind_of_step hkind hheight, hp, line_of_parent hs hx hp,
        if_neg hkind]
      exact ih p hp hpHolds

end Linked

end Store

def History.ofLine : List IndexedHeader → History
  | last :: previous :: _ => .pair last previous
  | _ => .short

theorem Store.Linked.history_eq {s : Store} {root x : IndexedHeader} (hs : s.Linked root)
    (hroot : root.height = 0) (kind : Kind) (hx : s.Holds x) :
    s.source.history kind x = .ok (.ofLine (s.line kind x)) := by
  obtain ⟨last, hlast, ⟨hheight, hline⟩ | ⟨hheight, below, hbelow, hbelowHolds, hline⟩⟩ :=
    hs.lastOfKind_line hroot kind hx
  · rw [hline]
    exact HeaderSource.history_eq_ok.2 (.none hlast hheight)
  · rw [hline]
    obtain ⟨previous, hprevious, ⟨hheight', hrest⟩ | ⟨hheight', _, -, -, hrest⟩⟩ :=
      hs.lastOfKind_line hroot kind hbelowHolds
    · rw [hrest]
      exact HeaderSource.history_eq_ok.2 (.one hlast hheight hbelow hprevious hheight')
    · rw [hrest]
      exact HeaderSource.history_eq_ok.2 (.two hlast hheight hbelow hprevious hheight')

/-- The bits of the newest header of a line and its time since the one before, if the line has
two headers. -/
def lead? : List IndexedHeader → Option (Compact × Int)
  | last :: previous :: _ =>
    some (last.header.bits, last.header.time.toNat - previous.header.time.toNat)
  | _ => none

theorem History.ofLine_eq_short {xs : List IndexedHeader} (h : lead? xs = none) :
    ofLine xs = .short := by
  cases xs with
  | nil => rfl
  | cons last xs =>
      cases xs with
      | nil => rfl
      | cons previous xs => cases h

theorem History.exists_ofLine_eq_pair {xs : List IndexedHeader} {bits : Compact} {time : Int}
    (h : lead? xs = some (bits, time)) :
    ∃ last previous, ofLine xs = .pair last previous ∧ last.header.bits = bits ∧
      last.header.time.toNat - previous.header.time.toNat = time := by
  cases xs with
  | nil => cases h
  | cons last xs =>
      cases xs with
      | nil => cases h
      | cons previous xs =>
          cases h
          exact ⟨last, previous, rfl, rfl, rfl⟩

namespace Consensus

variable {c : Consensus} {kind : Kind}

/-- In two grown stores, on top of headers of one height, the next header of a kind must meet
the same target if the lines of the kind have the same lead. -/
theorem requiredTarget_congr_line {s t : Store} {x y : IndexedHeader} (hs : s.Grown)
    (ht : t.Grown) (hx : s.Holds x) (hy : t.Holds y) (hheight : x.height = y.height)
    (lead : lead? (s.line kind x) = lead? (t.line kind y)) :
    c.requiredTarget s.source kind x = c.requiredTarget t.source kind y := by
  obtain ⟨_, hsRoot, hsLinked⟩ := hs.exists_linked hx
  obtain ⟨_, htRoot, htLinked⟩ := ht.exists_linked hy
  rw [requiredTarget, requiredTarget, hsLinked.history_eq hsRoot kind hx,
    htLinked.history_eq htRoot kind hy, IndexedHeader.nextHeight_congr hheight]
  cases hlead : lead? (t.line kind y) with
  | none => rw [History.ofLine_eq_short (lead.trans hlead), History.ofLine_eq_short hlead]
  | some v =>
      obtain ⟨bits, time⟩ := v
      obtain ⟨last, previous, hpair, hbits, htime⟩ :=
        History.exists_ofLine_eq_pair (lead.trans hlead)
      obtain ⟨last', previous', hpair', hbits', htime'⟩ := History.exists_ofLine_eq_pair hlead
      rw [← hbits'] at hbits
      rw [← htime'] at htime
      simp only [hpair, hpair', hbits, adjusted_congr hbits htime]

/-- A proof of work between two stakes and one on top of them, on different genesis headers
and with different bits before: the third stake must meet the same target. -/
theorem requiredTarget_congr_line_stakes :
    let g : Header := { time := 1000, bits := ⟨0x1f00ffff⟩ }
    let a : Header :=
      { parent := g.hash, time := 2000, bits := ⟨0x1a0a3d1c⟩, stake := ⟨g.hash, 0⟩ }
    let w : Header := { parent := a.hash, time := 2010, bits := ⟨0x1e0fffff⟩ }
    let b : Header :=
      { parent := w.hash, time := 2134, bits := ⟨0x1a0a3d1c⟩, stake := ⟨w.hash, 0⟩ }
    let g' : Header := { time := 7, stake := ⟨Hash.zero, 0⟩ }
    let a' : Header :=
      { parent := g'.hash, time := 500, bits := ⟨0x1b00ffff⟩, stake := ⟨g'.hash, 0⟩ }
    let b' : Header :=
      { parent := a'.hash, time := 634, bits := ⟨0x1a0a3d1c⟩, stake := ⟨a'.hash, 0⟩ }
    let w' : Header := { parent := b'.hash, time := 640, bits := ⟨0x1f00ffff⟩ }
    let s := ((((Store.withGenesis g).insert a).2.insert w).2.insert b).2
    let t := ((((Store.withGenesis g').insert a').2.insert b').2.insert w').2
    let x := IndexedHeader.ofHeader 3 b
    let y := IndexedHeader.ofHeader 3 w'
    s.Grown ∧ t.Grown ∧ s.Holds x ∧ t.Holds y ∧ x.height = y.height ∧
      lead? (s.line .stake x) = lead? (t.line .stake y) ∧
      mainnet.requiredTarget s.source .stake x = mainnet.requiredTarget t.source .stake y := by
  dsimp only
  have grown (g a b c : Header) :
      ((((Store.withGenesis g).insert a).2.insert b).2.insert c).2.Grown :=
    (((Store.Grown.withGenesis g).snd_insert a).snd_insert b).snd_insert c
  suffices facts : _ ∧ _ ∧ _ ∧ _ from
    ⟨grown _ _ _ _, grown _ _ _ _, facts.1, facts.2.1, facts.2.2.1, facts.2.2.2,
      requiredTarget_congr_line (grown _ _ _ _) (grown _ _ _ _) facts.1 facts.2.1 facts.2.2.1
        facts.2.2.2⟩
  decide +kernel

end Consensus

end Retarget
