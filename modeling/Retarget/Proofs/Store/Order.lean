import Retarget.Proofs.Store.Heights

/-!
# The order of insertions

The same headers can be inserted in many orders, as long as each comes after its parent. The height
of a header is computed from the parent that is stored when it arrives, and the entry of a height
is the header that came last. Still the order shows only there: once all headers are in, both
stores hold the same headers at the same heights. The proof does not exchange neighbours, because
an exchange may part a header from its parent. It compares the two ends: what one store holds, the
other holds, by induction from the root upwards.
-/

namespace Retarget

attribute [ext] IndexedHeader

namespace Store

variable {s t : Store} {root x : IndexedHeader} {n : UInt32} {headers headers' : List Header}

/-- Two stores that differ at most in which header of a height came last. -/
structure Agrees (s t : Store) : Prop where
  get?_hash : ∀ k, s.get? (.hash k) = t.get? (.hash k)
  size : s.size = t.size
  heights : ∀ n, n ∈ s.byHeight ↔ n ∈ t.byHeight
  best : ∃ top top', s.best? = some top ∧ t.best? = some top' ∧ top.height = top'.height
  parent : ∀ x, s.source.parent x = t.source.parent x
  lastOfKind : ∀ kind x, s.source.lastOfKind kind x = t.source.lastOfKind kind x
  requiredTarget : ∀ (c : Consensus) kind x,
    c.requiredTarget s.source kind x = c.requiredTarget t.source kind x
  check : ∀ (c : Consensus) x h, c.check s.source x h = c.check t.source x h
  get?_height : ∀ n, (∀ x y, s.Holds x → s.Holds y → x.height = n → y.height = n → x = y) →
    s.get? (.height n) = t.get? (.height n)

namespace Linked

/-- If every header of a store is known to another store of the same root, it stands at the same
height there: so do the parents, from the root upwards. -/
theorem holds_of_known (hs : s.Linked root) (ht : t.Linked root)
    (known : ∀ x, s.Holds x → x ≠ root → ∃ y, t.byHash[x.hash]? = some y ∧ y.header = x.header)
    (hx : s.Holds x) : t.Holds x := by
  induction x, hx using hs.stored_induction with
  | base => exact ht.holds_root
  | step x p hx _ hne hp hbelow ih =>
      obtain ⟨y, hy, hheader⟩ := known x hx hne
      have hhash := (ht.hash_eq hy).1
      have hyne : y ≠ root := by
        rintro rfl
        have hroot := hs.holds_root
        rw [Holds, hhash, hx] at hroot
        exact hne (Option.some.inj hroot)
      -- Both headers name the parent `p`, which stands at one height in the two stores.
      obtain ⟨q, hq, hbelow'⟩ := ht.parent (ht.holds hy) hyne
      rw [hheader, ← (hs.hash_eq hp).1, ih] at hq
      cases hq
      have hheight : y.height = x.height := UInt32.toNat_inj.1 (hbelow'.symm.trans hbelow)
      rw [IndexedHeader.ext hhash hheight hheader] at hy
      exact hy

theorem sameByHash (hs : s.Linked root) (ht : t.Linked root)
    (same : ∀ x, s.Holds x ↔ t.Holds x) : s.source.SameByHash t.source := by
  intro k
  apply Option.ext
  intro x
  constructor
  · intro hx
    rw [← (hs.hash_eq hx).1]
    exact (same x).1 (hs.holds hx)
  · intro hx
    rw [← (ht.hash_eq hx).1]
    exact (same x).2 (ht.holds hx)

end Linked

/-- Stores with the same headers agree on everything but on which header of a height came last. -/
theorem agrees_of_holds (hs : s.Linked root) (ht : t.Linked root) (hsIndexed : s.Indexed)
    (htIndexed : t.Indexed) (hsize : s.size = t.size) (same : ∀ x, s.Holds x ↔ t.Holds x) :
    s.Agrees t := by
  have sources := hs.sameByHash ht same
  have heights : ∀ n, n ∈ s.byHeight ↔ n ∈ t.byHeight := by
    intro n
    rw [hsIndexed.mem_byHeight_iff, htIndexed.mem_byHeight_iff]
    exact exists_congr fun x => and_congr_left fun _ => same x
  obtain ⟨top, hbest, htop, hmax⟩ := hsIndexed.exists_best hs.holds_root
  obtain ⟨top', hbest', htop', hmax'⟩ := htIndexed.exists_best ht.holds_root
  refine ⟨sources, hsize, heights, ⟨top, top', hbest, hbest', ?_⟩, sources.parent,
    sources.lastOfKind, sources.requiredTarget, sources.check, ?_⟩
  · exact UInt32.le_antisymm (hmax' top ((same top).1 htop)) (hmax top' ((same top').2 htop'))
  · intro n single
    by_cases hn : n ∈ s.byHeight
    · obtain ⟨x, hget, hx, hheight⟩ := hsIndexed.exists_get?_height hn
      obtain ⟨y, hget', hy, hheight'⟩ := htIndexed.exists_get?_height ((heights n).1 hn)
      rw [hget, hget', single x y hx ((same y).2 hy) hheight hheight']
    · rw [get?_height_of_notMem hn, get?_height_of_notMem (mt (heights n).2 hn)]

/-- What one order of insertions has stored, any order in which all insertions succeed has
stored. -/
theorem holds_of_perm (o : Opening) (perm : headers.Perm headers')
    (all' : ∀ v ∈ o.store.verdicts headers', v.isOk = true)
    (hx : (o.store.insertAll headers).Holds x) : (o.store.insertAll headers').Holds x := by
  have hs := o.linked_store.insertAll headers
  refine hs.holds_of_known (o.linked_store.insertAll headers') ?_ hx
  intro y hy hne
  obtain hroot | hmem := holds_or_mem_of_insertAll hy
  · rw [o.store_eq] at hroot
    exact absurd (eq_of_holds_place_empty hroot) hne
  · obtain ⟨z, hz, hheader⟩ := exists_of_verdicts all' (perm.mem_iff.1 hmem)
    rw [(hs.hash_eq hy).2] at hz
    exact ⟨z, hz, hheader⟩

/-- Two orders in which all insertions on top of one root succeed lead to stores that agree: they
hold the same headers at the same heights and answer alike, except that a height with several
headers may be represented by another of them. -/
theorem agrees_of_perm (o : Opening) (perm : headers.Perm headers')
    (all : ∀ v ∈ o.store.verdicts headers, v.isOk = true)
    (all' : ∀ v ∈ o.store.verdicts headers', v.isOk = true) :
    (o.store.insertAll headers).Agrees (o.store.insertAll headers') := by
  have hsize : (o.store.insertAll headers).size = (o.store.insertAll headers').size := by
    rw [size_insertAll, size_insertAll, List.countP_eq_length.2 all, List.countP_eq_length.2 all',
      length_verdicts, length_verdicts, perm.length_eq]
  exact agrees_of_holds (o.linked_store.insertAll headers) (o.linked_store.insertAll headers')
    (o.indexed_store.insertAll headers) (o.indexed_store.insertAll headers') hsize
    fun x => ⟨holds_of_perm o perm all', holds_of_perm o perm.symm all⟩

/-- On a checkpoint stand a stake and a proof of work, and one more header on each of them. The
two branches arrive one after the other, or by turns. -/
theorem agrees_of_perm_branches :
    let g : Header := { parent := Hash.ofByte 9, time := 1000, bits := ⟨0x1f00ffff⟩ }
    let o := Opening.checkpoint 500000 g
    let a : Header :=
      { parent := g.hash, time := 1100, bits := ⟨0x1a0a3d1c⟩, stake := ⟨g.hash, 0⟩ }
    let b : Header := { parent := g.hash, time := 1200, bits := ⟨0x1e0fffff⟩ }
    let a' : Header :=
      { parent := a.hash, time := 1300, bits := ⟨0x1a0a3d1c⟩, stake := ⟨a.hash, 0⟩ }
    let b' : Header := { parent := b.hash, time := 1400, bits := ⟨0x1e0fffff⟩ }
    [a, a', b, b'].Perm [b, a, b', a'] ∧
      (∀ v ∈ o.store.verdicts [a, a', b, b'], v.isOk = true) ∧
      (∀ v ∈ o.store.verdicts [b, a, b', a'], v.isOk = true) ∧
      (o.store.insertAll [a, a', b, b']).Agrees (o.store.insertAll [b, a, b', a']) := by
  dsimp only
  suffices facts : _ ∧ _ ∧ _ from
    ⟨facts.1, facts.2.1, facts.2.2, agrees_of_perm _ facts.1 facts.2.1 facts.2.2⟩
  decide +kernel

end Store

end Retarget
