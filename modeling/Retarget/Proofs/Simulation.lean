import Retarget.Proofs.Walk

/-!
# Sources that show less of a chain

Two sources may know the same chain by different hashes, and one of them may know less of it.
A relation between their headers is a simulation if related headers say the same and if every
parent that is found in the part is related to one that is found in the whole. A walk that
succeeds in the part then ends in the whole at a related header. What the part requires of the
next header, the whole requires too; the part can only fail to know it.
-/

namespace Retarget

/-- Headers that no required target tells apart. -/
structure IndexedHeader.Agrees (x y : IndexedHeader) : Prop where
  height : x.height = y.height
  kind : x.kind = y.kind
  time : x.header.time = y.header.time
  bits : x.header.bits = y.header.bits

/-- Of the last two headers an adjustment looks at the newer bits and at the time between. -/
theorem Consensus.adjusted_congr {c : Consensus} {height : UInt32}
    {last previous last' previous' : IndexedHeader}
    (bits : last.header.bits = last'.header.bits)
    (lead : (last.header.time.toNat : Int) - previous.header.time.toNat =
      (last'.header.time.toNat : Int) - previous'.header.time.toNat) :
    c.adjusted height last previous = c.adjusted height last' previous' := by
  have hactual : signed last.header.time - signed previous.header.time =
      signed last'.header.time - signed previous'.header.time := by
    apply Int64.toInt_inj.1
    simp only [Int64.toInt_sub, toInt_signed]
    rw [lead]
  simp only [adjusted, bits, hactual]

inductive History.Related (R : IndexedHeader → IndexedHeader → Prop) : History → History → Prop
  | short : Related R .short .short
  | pair {last last' previous previous' : IndexedHeader} (hlast : R last last')
      (hprevious : R previous previous') : Related R (.pair last previous) (.pair last' previous')

/-- Related headers agree, and the parents that `part` finds have related ones in `whole`. -/
structure Simulation (part whole : HeaderSource) (R : IndexedHeader → IndexedHeader → Prop) :
    Prop where
  agrees : ∀ {x y : IndexedHeader}, R x y → x.Agrees y
  parent : ∀ {x y p : IndexedHeader}, R x y → part.parent x = .ok p →
    ∃ q, whole.parent y = .ok q ∧ R p q

namespace Simulation

variable {part whole : HeaderSource} {R : IndexedHeader → IndexedHeader → Prop}
  {x x' y : IndexedHeader} {kind : Kind} {c : Consensus} {h h' : Header} {work : Target}

theorem lastOfKind (sim : Simulation part whole R) (related : R x y)
    (walk : part.lastOfKind kind x = .ok x') :
    ∃ y', whole.lastOfKind kind y = .ok y' ∧ R x' y' := by
  induction x using HeaderSource.walk_induction part kind generalizing y with
  | stop x stop =>
      rw [HeaderSource.lastOfKind_of_stop stop] at walk
      cases walk
      have agrees := sim.agrees related
      rw [agrees.kind, agrees.height] at stop
      exact ⟨y, HeaderSource.lastOfKind_of_stop stop, related⟩
  | step x hkind hheight ih =>
      rw [HeaderSource.lastOfKind_of_step hkind hheight] at walk
      cases hp : part.parent x with
      | error e =>
          rw [hp] at walk
          cases walk
      | ok p =>
          obtain ⟨q, hq, below⟩ := sim.parent related hp
          have agrees := sim.agrees related
          rw [agrees.kind] at hkind
          rw [agrees.height] at hheight
          rw [hp] at walk
          rw [HeaderSource.lastOfKind_of_step hkind hheight, hq]
          exact ih p hp below walk

theorem history {history : History} (sim : Simulation part whole R) (related : R x y)
    (found : part.history kind x = .ok history) :
    ∃ history', whole.history kind y = .ok history' ∧ History.Related R history history' := by
  have genesis_iff : ∀ {x y}, R x y → (x.height = 0 ↔ y.height = 0) := by
    intro x y related
    rw [(sim.agrees related).height]
  simp only [HeaderSource.history_eq_ok] at found ⊢
  cases found with
  | none walk genesis =>
      obtain ⟨last', walk', related⟩ := sim.lastOfKind related walk
      exact ⟨.short, .none walk' ((genesis_iff related).1 genesis), .short⟩
  | one walk above parent walkBelow genesis =>
      obtain ⟨last', walk', related⟩ := sim.lastOfKind related walk
      obtain ⟨below', parent', relatedBelow⟩ := sim.parent related parent
      obtain ⟨previous', walkBelow', relatedPrevious⟩ := sim.lastOfKind relatedBelow walkBelow
      exact ⟨.short, .one walk' (mt (genesis_iff related).2 above) parent' walkBelow'
        ((genesis_iff relatedPrevious).1 genesis), .short⟩
  | two walk above parent walkBelow aboveBelow =>
      obtain ⟨last', walk', related⟩ := sim.lastOfKind related walk
      obtain ⟨below', parent', relatedBelow⟩ := sim.parent related parent
      obtain ⟨previous', walkBelow', relatedPrevious⟩ := sim.lastOfKind relatedBelow walkBelow
      exact ⟨.pair last' previous', .two walk' (mt (genesis_iff related).2 above) parent'
        walkBelow' (mt (genesis_iff relatedPrevious).2 aboveBelow), .pair related relatedPrevious⟩

theorem requiredTarget (sim : Simulation part whole R) (related : R x y)
    (hw : c.requiredTarget part kind x = .ok work) :
    c.requiredTarget whole kind y = .ok work := by
  rw [Consensus.requiredTarget] at hw
  cases found : part.history kind x with
  | error e =>
      rw [found] at hw
      cases hw
  | ok history =>
      obtain ⟨history', found', relatedHistory⟩ := sim.history related found
      rw [found] at hw
      rw [Consensus.requiredTarget, found', ← hw,
        IndexedHeader.nextHeight_congr (sim.agrees related).height]
      cases relatedHistory with
      | short => rfl
      | @pair last last' previous previous' hlast hprevious =>
          have agrees := sim.agrees hlast
          have lead : (last.header.time.toNat : Int) - previous.header.time.toNat =
              (last'.header.time.toNat : Int) - previous'.header.time.toNat := by
            rw [agrees.time, (sim.agrees hprevious).time]
          simp only [Consensus.adjusted_congr agrees.bits lead, agrees.bits]

theorem check_eq (sim : Simulation part whole R) (related : R x y) (hkind : h.kind = h'.kind)
    (hbits : h.bits = h'.bits) (hw : c.requiredTarget part h.kind x = .ok work) :
    c.check whole y h' = c.check part x h := by
  have hw' := sim.requiredTarget related hw
  rw [hkind] at hw'
  rw [Consensus.check, Consensus.check, hw, hw', hbits]

end Simulation

end Retarget
