import Retarget.Proofs.Compact.Encoding
import Retarget.Requirement

/-!
# What a check accepts

The size byte of a declared target chooses the bits of the required target that it is
compared with. Whatever it chooses, an accepted target is canonical and agrees with the
required one on those bits, so no choice buys an easier target than required. The
encoding of the required target is always accepted, and nothing else of its size is.
-/

namespace Retarget

namespace Compact

variable {c d : Compact} {work : Target}

/-- The law of the comparison: what is declared encodes the part of the required target
that its own size selects. -/
theorem ofTarget_masked_eq_iff :
    ofTarget (c.masked work) = c ↔ c.canonical = c ∧ c.magnitude = c.masked work := by
  constructor
  · intro h
    have hm : c.magnitude = c.masked work := by
      apply BitVec.eq_of_toNat_eq
      calc c.magnitude.toNat = (ofTarget (c.masked work)).magnitude.toNat := by rw [h]
        _ = cut c.size (c.masked work).toNat := by rw [toNat_magnitude_ofTarget, h]
        _ = (c.masked work).toNat := by rw [toNat_masked, cut_cut]
    exact ⟨by rw [canonical, hm, h], hm⟩
  · rintro ⟨hc, hm⟩
    rw [← hm]
    exact hc

theorem masked_le (c : Compact) (t : Target) : c.masked t ≤ t := by
  rw [BitVec.le_def, toNat_masked]
  exact (cut_le _ _).trans (Nat.mod_le _ _)

/-- What encodes a selected part of a target is no easier than the target. -/
theorem magnitude_le (h : ofTarget (c.masked work) = c) : c.magnitude ≤ work := by
  obtain ⟨-, hm⟩ := ofTarget_masked_eq_iff.1 h
  rw [hm]
  exact masked_le c work

theorem masked_congr (h : c.size = d.size) (t : Target) : c.masked t = d.masked t := by
  apply BitVec.eq_of_toNat_eq
  rw [toNat_masked, toNat_masked, h]

/-- The encoding of a target agrees with it at its own precision. -/
theorem ofTarget_masked_ofTarget (t : Target) : ofTarget ((ofTarget t).masked t) = ofTarget t := by
  apply ofTarget_eq_of_cut
  rw [toNat_masked, Nat.mod_eq_of_lt (isSize_ofTarget t).lt]

end Compact

namespace Consensus

variable {c : Consensus} {source : HeaderSource} {parent : IndexedHeader} {h : Header}
  {work : Target}

/-- A rejected header is told what was expected at its own precision. -/
theorem check_of_ne (hw : c.requiredTarget source h.kind parent = .ok work)
    (hne : Compact.ofTarget (h.bits.masked work) ≠ h.bits) :
    c.check source parent h =
      .error (.difficulty (Compact.ofTarget (h.bits.masked work)) h.bits) := by
  simp only [check, hw]
  rw [if_neg hne]

theorem exists_of_check (hok : c.check source parent h = .ok ()) :
    ∃ work, c.requiredTarget source h.kind parent = .ok work ∧
      Compact.ofTarget (h.bits.masked work) = h.bits := by
  cases hw : c.requiredTarget source h.kind parent with
  | error e =>
      simp only [check, hw] at hok
      cases hok
  | ok work => exact ⟨work, rfl, (check_eq_ok_iff hw).1 hok⟩

/-- An adjustment fails by a zero divisor or by a series without a sum. -/
theorem eq_of_adjusted_error {height : UInt32} {last previous : IndexedHeader} {e : WorkError}
    (hfault : c.adjusted height last previous = .error e) :
    e = .divisionByZero ∨ ∃ p q, e = .diverged p q := by
  rw [adjusted] at hfault
  split at hfault
  · cases hfault
    exact .inl rfl
  · simp only [Adjustment.exponential, mulExp] at hfault
    split at hfault
    · split at hfault
      · cases hfault
        exact .inl rfl
      · split at hfault
        · cases hfault
          exact .inr ⟨_, _, rfl⟩
        · split at hfault
          · cases hfault
          · cases hfault
            exact .inr ⟨_, _, rfl⟩
          · cases hfault
            exact .inr ⟨_, _, rfl⟩
    · cases hfault

theorem history_of_requiredTarget_link {kind : Kind} {e : LinkError}
    (hfault : c.requiredTarget source kind parent = .error (.link e)) :
    source.history kind parent = .error e := by
  rw [requiredTarget] at hfault
  split at hfault
  · next hhistory =>
    cases hfault
    exact hhistory
  · cases hfault
  · split at hfault
    · cases hfault
    · split at hfault
      · next hadjusted =>
        cases hfault
        obtain h | ⟨p, q, h⟩ := eq_of_adjusted_error hadjusted <;> cases h
      · cases hfault

theorem requiredTarget_of_check_link {e : LinkError}
    (hfault : c.check source parent h = .error (.link e)) :
    c.requiredTarget source h.kind parent = .error (.link e) := by
  rw [check] at hfault
  split at hfault
  · next hw =>
    cases hfault
    exact hw
  · dsimp only at hfault
    split at hfault <;> cases hfault

theorem exists_of_check_difficulty {expected actual : Compact}
    (hfault : c.check source parent h = .error (.difficulty expected actual)) :
    ∃ work, c.requiredTarget source h.kind parent = .ok work := by
  cases hw : c.requiredTarget source h.kind parent with
  | ok work => exact ⟨work, rfl⟩
  | error e =>
      rw [check, hw] at hfault
      cases hfault
      rw [requiredTarget] at hw
      split at hw
      · cases hw
      · cases hw
      · split at hw
        · cases hw
        · split at hw
          · next hadjusted =>
            cases hw
            obtain h | ⟨p, q, h⟩ := eq_of_adjusted_error hadjusted <;> cases h
          · cases hw

theorem actual_eq_of_check {expected actual : Compact}
    (hfault : c.check source parent h = .error (.difficulty expected actual)) :
    actual = h.bits := by
  obtain ⟨work, hw⟩ := exists_of_check_difficulty hfault
  simp only [check, hw] at hfault
  split at hfault
  · cases hfault
  · cases hfault
    rfl

/-- No choice of the declared precision makes a header acceptable that asks for less than
is required: a check accepts exactly the canonical encodings of what they select from the
required target. -/
theorem check_eq_ok_iff_canonical (hw : c.requiredTarget source h.kind parent = .ok work) :
    (c.check source parent h = .ok () ↔
      h.bits.canonical = h.bits ∧ h.bits.magnitude = h.bits.masked work) ∧
    (c.check source parent h = .ok () →
      h.bits.magnitude ≤ work ∧
      h.bits.bits ≤ (Compact.ofTarget work).bits ∧
      (∀ g : Header, g.kind = h.kind → g.bits.size = h.bits.size →
        c.check source parent g = .ok () → g.bits = h.bits) ∧
      (h.bits.size = (Compact.ofTarget work).size → h.bits = Compact.ofTarget work)) ∧
    ((Compact.ofTarget work).size < h.bits.size ∨ h.bits.sign = true ∨ h.bits.size = 0 ∨
        h.bits.overflows = true ∨ ¬ h.bits.HasNormalMantissa →
      c.check source parent h =
        .error (.difficulty (Compact.ofTarget (h.bits.masked work)) h.bits)) := by
  have accepts := check_eq_ok_iff hw
  refine ⟨accepts.trans Compact.ofTarget_masked_eq_iff, ?_, ?_⟩
  · intro hok
    have hbits := accepts.1 hok
    refine ⟨Compact.magnitude_le hbits, ?_, ?_, ?_⟩
    · conv_lhs => rw [← hbits]
      exact Compact.bits_ofTarget_mono (Compact.masked_le _ _)
    · intro g hkind hsize hg
      have hgw : c.requiredTarget source g.kind parent = .ok work := by rw [hkind, hw]
      rw [← (check_eq_ok_iff hgw).1 hg, Compact.masked_congr hsize, hbits]
    · intro hsize
      rw [← Compact.ofTarget_masked_ofTarget work, ← Compact.masked_congr hsize, hbits]
  · intro hbad
    apply check_of_ne hw
    intro hbits
    rcases hbad with hbad | hbad | hbad | hbad | hbad
    · have hle : (Compact.ofTarget (h.bits.masked work)).size ≤ (Compact.ofTarget work).size :=
        (Compact.isSize_ofTarget _).mono (Compact.isSize_ofTarget _) (Compact.masked_le _ _)
      rw [hbits] at hle
      exact absurd hbad (Nat.not_lt.2 hle)
    · rw [← hbits, Compact.sign_ofTarget] at hbad
      exact absurd hbad (by decide)
    · have := (Compact.isSize_ofTarget (h.bits.masked work)).one_le
      rw [hbits, hbad] at this
      exact absurd this (by decide)
    · rw [← hbits, Compact.overflows_ofTarget] at hbad
      exact absurd hbad (by decide)
    · exact hbad (hbits ▸ Compact.hasNormalMantissa_ofTarget _)

/-- The limit of proof of work ends in zero bytes, so a header that declares its last byte
alone is accepted, with the hardest target there is. -/
theorem check_accepts_low_byte :
    mainnet.requiredTarget (fun _ => none) .work ⟨Hash.zero, 0, {}⟩ =
        .ok Network.mainnet.maxTarget ∧
      mainnet.check (fun _ => none) ⟨Hash.zero, 0, {}⟩ { bits := ⟨0x01000000⟩ } = .ok () ∧
      (Compact.mk 0x01000000).magnitude ≤ Network.mainnet.maxTarget := by
  have hw : mainnet.requiredTarget (fun _ => none) .work ⟨Hash.zero, 0, {}⟩ =
      .ok Network.mainnet.maxTarget := rfl
  have law := check_eq_ok_iff_canonical (h := { bits := ⟨0x01000000⟩ }) hw
  have hok := law.1.2 ⟨by decide, by decide⟩
  exact ⟨hw, hok, (law.2.1 hok).1⟩

end Consensus

end Retarget
