import Retarget.Proofs.Extension
import Retarget.Proofs.Simulation

/-!
# Sources that no verdict tells apart

Two sources may hold one chain with other hashes, and with all times shifted by the same number of
seconds. Between them a relation of headers is a bisimulation if the parents of related headers are
related again, or are missing in the same way. Then every walk ends in both sources alike, also
with the same error, and what is required of the next header is the same: an adjustment looks at
the time between two headers and at nothing else of their times.
-/

namespace Retarget

/-- Two outcomes that are alike: the same error, or two related results. -/
inductive Corresponds {ε α β : Type} (R : α → β → Prop) : Except ε α → Except ε β → Prop
  | error (e : ε) : Corresponds R (.error e) (.error e)
  | ok {a : α} {b : β} (related : R a b) : Corresponds R (.ok a) (.ok b)

namespace Corresponds

variable {ε α β γ δ : Type} {R : α → β → Prop} {S : γ → δ → Prop} {u : Except ε α} {v : Except ε β}

/-- From outcomes that are alike two computations go on alike, if they do so from related
results. -/
theorem bind {f : α → Except ε γ} {g : β → Except ε δ} (corresponds : Corresponds R u v)
    (step : ∀ a b, u = .ok a → v = .ok b → R a b → Corresponds S (f a) (g b)) :
    Corresponds S (u.bind f) (v.bind g) := by
  cases corresponds with
  | error e => exact .error e
  | ok related => exact step _ _ rfl rfl related

theorem imp {S : α → β → Prop} (corresponds : Corresponds R u v)
    (step : ∀ a b, u = .ok a → v = .ok b → R a b → S a b) : Corresponds S u v := by
  cases corresponds with
  | error e => exact .error e
  | ok related => exact .ok (step _ _ rfl rfl related)

/-- Outcomes that are alike are equal if all that is kept of the results is. -/
theorem map_eq {f : α → γ} {g : β → γ} (corresponds : Corresponds R u v)
    (keeps : ∀ a b, R a b → f a = g b) : u.map f = v.map g := by
  cases corresponds with
  | error e => rfl
  | ok related => exact congrArg Except.ok (keeps _ _ related)

end Corresponds

/-- Headers that differ in their hashes and by a shift of their times. -/
structure IndexedHeader.Shifted (d : Int) (x y : IndexedHeader) : Prop where
  height : x.height = y.height
  kind : x.kind = y.kind
  bits : x.header.bits = y.header.bits
  time : (y.header.time.toNat : Int) = x.header.time.toNat + d

/-- Related headers differ by the shift, and above height zero their parents are related or are
missing alike. -/
structure Bisimulation (s t : HeaderSource) (d : Int) (R : IndexedHeader → IndexedHeader → Prop) :
    Prop where
  shifted : ∀ {x y : IndexedHeader}, R x y → x.Shifted d y
  parent : ∀ {x y : IndexedHeader}, R x y → x.height ≠ 0 →
    Corresponds R (s.parent x) (t.parent y)

namespace Bisimulation

variable {s t : HeaderSource} {d : Int} {R : IndexedHeader → IndexedHeader → Prop}
  {x y : IndexedHeader} {kind : Kind} {c : Consensus} {h h' : Header}

theorem isGenesis_eq (bis : Bisimulation s t d R) (related : R x y) :
    x.isGenesis = y.isGenesis := by
  rw [IndexedHeader.isGenesis, IndexedHeader.isGenesis, (bis.shifted related).height]

/-- Walks from related headers end alike. By induction along the parent links of one source. -/
theorem lastOfKind (bis : Bisimulation s t d R) (related : R x y) :
    Corresponds R (s.lastOfKind kind x) (t.lastOfKind kind y) := by
  induction x using HeaderSource.walk_induction s kind generalizing y with
  | stop x stop =>
      rw [HeaderSource.lastOfKind_of_stop stop]
      rw [(bis.shifted related).kind, (bis.shifted related).height] at stop
      rw [HeaderSource.lastOfKind_of_stop stop]
      exact .ok related
  | step x hkind hheight ih =>
      have parents := bis.parent related hheight
      rw [HeaderSource.lastOfKind_of_step hkind hheight]
      rw [(bis.shifted related).kind] at hkind
      rw [(bis.shifted related).height] at hheight
      rw [HeaderSource.lastOfKind_of_step hkind hheight]
      exact parents.bind fun p q hp _ below => ih p hp below

theorem history (bis : Bisimulation s t d R) (related : R x y) :
    Corresponds (History.Related R) (s.history kind x) (t.history kind y) := by
  rw [HeaderSource.history_eq_bind, HeaderSource.history_eq_bind]
  refine (bis.lastOfKind related).bind fun last last' _ _ hlast => ?_
  rw [bis.isGenesis_eq hlast]
  split
  · exact .ok .short
  · next above =>
    have hheight : last.height ≠ 0 := by
      rw [← bis.isGenesis_eq hlast, IndexedHeader.isGenesis_iff] at above
      exact above
    refine (bis.parent hlast hheight).bind fun below below' _ _ hbelow => ?_
    refine (bis.lastOfKind hbelow).bind fun previous previous' _ _ hprevious => ?_
    rw [bis.isGenesis_eq hprevious]
    split
    · exact .ok .short
    · exact .ok (.pair hlast hprevious)

theorem requiredTarget_eq (bis : Bisimulation s t d R) (related : R x y) :
    c.requiredTarget s kind x = c.requiredTarget t kind y := by
  have found : Corresponds (History.Related R) (s.history kind x) (t.history kind y) :=
    bis.history related
  rw [Consensus.requiredTarget, Consensus.requiredTarget,
    IndexedHeader.nextHeight_congr (bis.shifted related).height]
  generalize s.history kind x = u, t.history kind y = v at found ⊢
  cases found with
  | error e => rfl
  | ok histories =>
      cases histories with
      | short => rfl
      | @pair last last' previous previous' hlast hprevious =>
          have bits := (bis.shifted hlast).bits
          -- The shift cancels in the time between the two headers.
          have lead : (last.header.time.toNat : Int) - previous.header.time.toNat =
              (last'.header.time.toNat : Int) - previous'.header.time.toNat := by
            rw [(bis.shifted hlast).time, (bis.shifted hprevious).time]
            omega
          simp only [Consensus.adjusted_congr bits lead, bits]

theorem check_eq (bis : Bisimulation s t d R) (related : R x y) (hkind : h.kind = h'.kind)
    (hbits : h.bits = h'.bits) : c.check s x h = c.check t y h' := by
  rw [Consensus.check, Consensus.check, hkind, hbits, bis.requiredTarget_eq related]

end Bisimulation

end Retarget
