import Retarget.Proofs.Acceptance
import Retarget.Proofs.Store.Insertions
import Retarget.Proofs.Store.Lines

/-!
# The lineage of a header

Ancestors are read in two ways: the list of ancestors follows parent hashes until nothing is
found or height zero is reached, and never looks at heights on the way; a walk to a kind counts
heights and fails where a link is broken. In a store that insertions build up the two agree. The
list goes down one height at a time and ends at height zero, each header in it is the parent that
the walk finds of the one before, and the walk ends at the first header of the list where it may
stop. No walk fails, so the next header always has a required target unless an adjustment fails.
-/

namespace Retarget

namespace Store

variable {s : Store} {root x p : IndexedHeader} {kind : Kind}

namespace Linked

variable (hs : s.Linked root) (hroot : root.height = 0)
include hs hroot

theorem isChain_lineage (hx : s.Holds x) :
    (s.lineage x).IsChain fun y p => s.source.parent y = .ok p := by
  induction x, hx using hs.genesis_induction hroot with
  | genesis x hx hheight =>
      rw [lineage_of_height_zero hx hheight]
      exact .singleton x
  | child x p hx hpHolds hp ih =>
      obtain ⟨below, hbelow⟩ := List.head?_eq_some_iff.1 (head?_lineage hpHolds)
      rw [hs.lineage_of_parent hx hp, hbelow]
      rw [hbelow] at ih
      exact .cons_cons hp ih

/-- A walk to a kind ends at the first header of the lineage that is of the kind or at height
zero. -/
theorem lastOfKind_lineage (kind : Kind) (hx : s.Holds x) :
    ∃ y, (s.lineage x).find? (fun y => y.kind = kind ∨ y.height = 0) = some y ∧
      s.source.lastOfKind kind x = .ok y := by
  induction x, hx using hs.genesis_induction hroot with
  | genesis x hx hheight =>
      refine ⟨x, ?_, HeaderSource.lastOfKind_of_stop (.inr hheight)⟩
      rw [lineage_of_height_zero hx hheight]
      exact List.find?_cons_of_pos (decide_eq_true (.inr hheight))
  | child x p hx _ hp ih =>
      rw [hs.lineage_of_parent hx hp]
      by_cases hstop : x.kind = kind ∨ x.height = 0
      · exact ⟨x, List.find?_cons_of_pos (decide_eq_true hstop),
          HeaderSource.lastOfKind_of_stop hstop⟩
      · obtain ⟨y, hfind, hwalk⟩ := ih
        refine ⟨y, ?_, ?_⟩
        · rw [List.find?_cons_of_neg (by simpa using hstop), hfind]
        · rw [not_or] at hstop
          rw [HeaderSource.lastOfKind_of_step hstop.1 hstop.2, hp]
          exact hwalk

end Linked

/-- Both ways to read the ancestors of a header find its lineage, down to height zero, and no
requirement on top of the header wants a link. -/
structure ReachesGenesis (s : Store) (x : IndexedHeader) : Prop where
  ancestors : ∀ limit, s.source.ancestors limit (.hash x.hash) = (s.lineage x).take limit
  head : (s.lineage x).head? = some x
  heights : (s.lineage x).map (·.height.toNat) = (List.range (x.height.toNat + 1)).reverse
  parents : (s.lineage x).IsChain fun y p => s.source.parent y = .ok p
  lastOfKind : ∀ kind, ∃ y,
    (s.lineage x).find? (fun y => y.kind = kind ∨ y.height = 0) = some y ∧
      s.source.lastOfKind kind x = .ok y
  requiredTarget : ∀ (c : Consensus) kind e, c.requiredTarget s.source kind x ≠ .error (.link e)
  check : ∀ (c : Consensus) h e, c.check s.source x h ≠ .error (.link e)

theorem Grown.insertAll (grown : s.Grown) (headers : List Header) : (s.insertAll headers).Grown :=
  insertAll_induction (P := Grown) (fun grown hlink => .insert grown (insert_of_link_ok hlink))
    grown headers

/-- In a store that insertions build up, the ancestors of a stored header are its lineage: the
header itself and all others down to height zero, one at each height, each the parent of the one
before. A walk to a kind ends at the first of them that is of the kind or at height zero. Neither
the required target of the next header nor its check fails for want of a link. -/
theorem Grown.lineage_reaches_genesis (grown : s.Grown) (hx : s.Holds x) :
    s.ReachesGenesis x := by
  obtain ⟨root, hroot, hs⟩ := grown.exists_linked hx
  have required : ∀ (c : Consensus) kind e,
      c.requiredTarget s.source kind x ≠ .error (.link e) := by
    intro c kind e hfault
    have hhistory := Consensus.history_of_requiredTarget_link hfault
    rw [hs.history_eq hroot kind hx] at hhistory
    cases hhistory
  refine ⟨hs.ancestors_eq_take hroot hx, head?_lineage hx, hs.heights_lineage hroot hx,
    hs.isChain_lineage hroot hx, fun kind => hs.lastOfKind_lineage hroot kind hx, required, ?_⟩
  intro c h e hfault
  exact required c h.kind e (Consensus.requiredTarget_of_check_link hfault)

/-- A proof of work and a stake fork on genesis, a third header stands on the stake, and a fourth
has no parent. The third stands at height two. -/
theorem lineage_reaches_genesis_fork :
    let g : Header := { time := 1000, bits := ⟨0x1f00ffff⟩ }
    let a : Header :=
      { parent := g.hash, time := 2000, bits := ⟨0x1a0a3d1c⟩, stake := ⟨g.hash, 0⟩ }
    let b : Header := { parent := g.hash, time := 2010, bits := ⟨0x1e0fffff⟩ }
    let d : Header := { parent := a.hash, time := 2134, bits := ⟨0x1e0fffff⟩ }
    let orphan : Header := { parent := Hash.ofByte 1, time := 2200 }
    let s := (Store.withGenesis g).insertAll [a, b, orphan, d]
    let x := IndexedHeader.ofHeader 2 d
    s.Grown ∧ s.Holds x ∧ s.ReachesGenesis x := by
  dsimp only
  have grown (g : Header) (headers : List Header) :
      ((Store.withGenesis g).insertAll headers).Grown := (Grown.withGenesis g).insertAll headers
  suffices hx : Holds _ _ from ⟨grown _ _, hx, (grown _ _).lineage_reaches_genesis hx⟩
  decide +kernel

end Store

end Retarget
