import Retarget.Proofs.Store.Heights

/-!
# Stores under all operations

Besides linking a header on top of its parent, a store can place one at a chosen height, and
then it does not ask whether the header is stored already. If it is, it now stands at the new
height, but the entry of the old height still names it. Whatever the operations, each entry leads
to a stored header and the height of each stored header has an entry. But only as long as no
operation moves a header in this way do entries and headers agree on the heights, and then the best
header is one of the greatest height.
-/

namespace Retarget

namespace Store

inductive Operation where
  | withGenesis (h : Header)
  | insert (h : Header)
  | insertCheckpoint (height : UInt32) (h : Header)
  | insertIndexed (x : IndexedHeader)

namespace Operation

/-- What an operation makes of a store. Opening one by a genesis header forgets the old one. -/
def apply (s : Store) : Operation → Store
  | withGenesis h => .withGenesis h
  | insert h => (s.insert h).2
  | insertCheckpoint height h => s.insertCheckpoint height h
  | insertIndexed x => s.place x

/-- Whether an operation places a header at another height than an entry that names it. -/
def Moves (s : Store) : Operation → Prop
  | withGenesis _ => False
  | insert _ => False
  | insertCheckpoint height h => ∃ n, s.byHeight[n]? = some h.hash ∧ n ≠ height
  | insertIndexed x => ∃ n, s.byHeight[n]? = some x.hash ∧ n ≠ x.height

end Operation

def perform (s : Store) (ops : List Operation) : Store := ops.foldl Operation.apply s

/-- The heights of the headers are those they are looked up by, and the best header is a stored
one that none exceeds. -/
structure Consistent (s : Store) : Prop where
  height : ∀ {n : UInt32} {x : IndexedHeader}, s.get? (.height n) = some x → x.height = n
  best : ∀ {k : Hash} {y : IndexedHeader}, s.get? (.hash k) = some y →
    ∃ top, s.best? = some top ∧ s.get? (.hash top.hash) = some top ∧ y.height ≤ top.height

/-- Headers are stored under their hashes, each entry leads to one, and the height of each has an
entry. The heights need not agree. -/
structure Anchored (s : Store) : Prop where
  hash_eq : ∀ {k : Hash} {x : IndexedHeader}, s.byHash[k]? = some x → x.hash = k
  entry : ∀ {n : UInt32} {k : Hash}, s.byHeight[n]? = some k → ∃ x, s.byHash[k]? = some x
  occupied : ∀ {x : IndexedHeader}, s.Holds x → x.height ∈ s.byHeight

variable {s : Store} {x : IndexedHeader} {n : UInt32}

@[simp] theorem perform_nil (s : Store) : s.perform [] = s := rfl

@[simp] theorem perform_cons (s : Store) (op : Operation) (ops : List Operation) :
    s.perform (op :: ops) = (op.apply s).perform ops := rfl

theorem anchored_empty : empty.Anchored where
  hash_eq hk := by cases hk
  entry hk := by cases hk
  occupied hx := by cases hx

namespace Anchored

/-- Placing a header, new or not, leaves each entry with a stored header. -/
theorem place (hs : s.Anchored) (x : IndexedHeader) : (s.place x).Anchored where
  hash_eq := by
    intro k y hy
    rw [byHash_place] at hy
    split at hy
    · next hk =>
      cases hy
      exact hk
    · exact hs.hash_eq hy
  entry := by
    intro n k hk
    rw [byHash_place]
    split
    · exact ⟨x, rfl⟩
    · next hne =>
      rw [byHeight_place] at hk
      split at hk
      · exact absurd (Option.some.inj hk) hne
      · exact hs.entry hk
  occupied := by
    intro y hy
    obtain rfl | hy := eq_or_holds_of_place hy
    · exact mem_byHeight_place.2 (.inl rfl)
    · exact mem_byHeight_place.2 (.inr (hs.occupied hy))

/-- Every operation places a header in the store or in an empty one, or changes nothing. -/
theorem apply (hs : s.Anchored) (op : Operation) : (op.apply s).Anchored := by
  cases op with
  | withGenesis h => exact anchored_empty.place _
  | insert h =>
      -- An insertion is a sequence of one.
      exact insertAll_induction (P := Anchored) (fun hs _ => hs.place _) hs [h]
  | insertCheckpoint height h => exact hs.place _
  | insertIndexed x => exact hs.place x

theorem perform (hs : s.Anchored) (ops : List Operation) : (s.perform ops).Anchored := by
  induction ops generalizing s with
  | nil => exact hs
  | cons op ops ih => exact ih (hs.apply op)

theorem exists_get?_height (hs : s.Anchored) (hn : n ∈ s.byHeight) :
    ∃ x, s.get? (.height n) = some x ∧ s.Holds x := by
  obtain ⟨k, hk⟩ := Option.isSome_iff_exists.1 (Std.TreeMap.isSome_getElem?_iff_mem.2 hn)
  obtain ⟨x, hx⟩ := hs.entry hk
  obtain rfl := hs.hash_eq hx
  refine ⟨x, ?_, hx⟩
  rw [get?_height, hk]
  exact hx

theorem exists_best (hs : s.Anchored) (hx : s.Holds x) :
    ∃ top, s.best? = some top ∧ s.Holds top := by
  obtain ⟨n, hn, -, hbest⟩ := exists_greatest (hs.occupied hx)
  obtain ⟨top, hget, htop⟩ := hs.exists_get?_height hn
  exact ⟨top, hbest.trans hget, htop⟩

/-- A store whose entries lead to headers at all is consistent if they lead to headers of their
own heights. -/
theorem consistent_iff_indexed (hs : s.Anchored) : s.Consistent ↔ s.Indexed := by
  constructor
  · intro consistent
    refine ⟨?_, hs.occupied⟩
    intro n k hk
    obtain ⟨x, hx⟩ := hs.entry hk
    have hheight : x.height = n := by
      apply consistent.height
      rw [get?_height, hk]
      exact hx
    obtain rfl := hs.hash_eq hx
    exact ⟨x, hx, rfl, hheight⟩
  · intro indexed
    refine ⟨?_, ?_⟩
    · intro n x hx
      have hn : n ∈ s.byHeight := by
        rw [get?_height] at hx
        obtain ⟨k, hk, -⟩ := Option.bind_eq_some_iff.1 hx
        exact Std.TreeMap.isSome_getElem?_iff_mem.1 (Option.isSome_of_eq_some hk)
      obtain ⟨y, hy, -, hheight⟩ := indexed.exists_get?_height hn
      rw [hx] at hy
      cases hy
      exact hheight
    · intro k y hy
      obtain rfl := hs.hash_eq hy
      obtain ⟨top, hbest, htop, hmax⟩ := indexed.exists_best hy
      exact ⟨top, hbest, htop, hmax y hy⟩

end Anchored

/-- Linked headers are new, so only an operation that moves a header makes the entries wrong. -/
theorem Indexed.apply_iff (hs : s.Indexed) (op : Operation) :
    (op.apply s).Indexed ↔ ¬ op.Moves s := by
  cases op with
  | withGenesis h => exact iff_of_true (indexed_empty.place rfl) not_false
  | insert h => exact iff_of_true (hs.insertAll [h]) not_false
  | insertCheckpoint height h => exact hs.place_iff
  | insertIndexed x => exact hs.place_iff

/-- By induction on the operations: all stores on the way are right if the first one is and no
operation moves a header. -/
theorem indexed_perform_iff (s : Store) (ops : List Operation) :
    (∀ n, (s.perform (ops.take n)).Indexed) ↔
      s.Indexed ∧
        ∀ n (op : Operation), ops[n]? = some op → ¬ op.Moves (s.perform (ops.take n)) := by
  induction ops generalizing s with
  | nil => simp
  | cons op ops ih =>
      calc (∀ n, (s.perform ((op :: ops).take n)).Indexed)
          ↔ s.Indexed ∧ ∀ n, ((op.apply s).perform (ops.take n)).Indexed :=
            Nat.and_forall_add_one.symm
        _ ↔ s.Indexed ∧ (op.apply s).Indexed ∧ ∀ n (next : Operation), ops[n]? = some next →
              ¬ next.Moves ((op.apply s).perform (ops.take n)) := and_congr_right' (ih _)
        _ ↔ s.Indexed ∧ ¬ op.Moves s ∧ ∀ n (next : Operation), ops[n]? = some next →
              ¬ next.Moves ((op.apply s).perform (ops.take n)) :=
            and_congr_right fun hs => and_congr_left' (hs.apply_iff op)
        _ ↔ s.Indexed ∧ ∀ n (next : Operation), (op :: ops)[n]? = some next →
              ¬ next.Moves (s.perform ((op :: ops).take n)) := by
            rw [← Nat.and_forall_add_one (p := fun n => ∀ next : Operation,
              (op :: ops)[n]? = some next → ¬ next.Moves (s.perform ((op :: ops).take n)))]
            simp

/-- Whatever is done with a store that is empty at first, a look-up by the height of a stored
header succeeds, and so does one for the best header. What is found stands at the height it was
looked up by, and the best header at the greatest height, in all stores on the way exactly if no
operation moves a header. -/
theorem consistent_perform_iff (ops : List Operation) :
    (∀ k x, (empty.perform ops).get? (.hash k) = some x → x.hash = k ∧
      (∃ y, (empty.perform ops).get? (.height x.height) = some y ∧ (empty.perform ops).Holds y) ∧
      ∃ top, (empty.perform ops).best? = some top ∧ (empty.perform ops).Holds top) ∧
    ((∀ n, (empty.perform (ops.take n)).Consistent) ↔
      ∀ n (op : Operation), ops[n]? = some op → ¬ op.Moves (empty.perform (ops.take n))) := by
  have anchored : (empty.perform ops).Anchored := anchored_empty.perform ops
  refine ⟨?_, ?_⟩
  · intro k x hx
    obtain rfl := anchored.hash_eq hx
    exact ⟨rfl, anchored.exists_get?_height (anchored.occupied hx), anchored.exists_best hx⟩
  · simp only [(anchored_empty.perform _).consistent_iff_indexed, indexed_perform_iff,
      indexed_empty, true_and]

/-- A checkpoint at height 7 is placed again at height 5, after another one at height 6. The entry
of height 7 still leads to it, so the best header stands below the other checkpoint. -/
theorem not_consistent_checkpoint_again :
    let x : Header := { parent := Hash.ofByte 9, time := 1000, bits := ⟨0x1f00ffff⟩ }
    let y : Header := { parent := Hash.ofByte 8, time := 1100, bits := ⟨0x1f00ffff⟩ }
    let s := empty.perform [.insertCheckpoint 7 x, .insertCheckpoint 6 y, .insertCheckpoint 5 x]
    s.get? (.height 7) = some (.ofHeader 5 x) ∧ s.best? = some (.ofHeader 5 x) ∧
      s.get? (.hash y.hash) = some (.ofHeader 6 y) ∧ ¬ s.Consistent := by
  intro x y s
  have hseven : s.get? (.height 7) = some (.ofHeader 5 x) := by decide +kernel
  have hheights : ∀ m, m ∈ s.byHeight ↔ 5 = m ∨ 6 = m ∨ 7 = m := by
    intro m
    simp [s, Operation.apply, insertCheckpoint, mem_byHeight_place, empty]
  have hgreatest : ∀ m ∈ s.byHeight, m ≤ 7 := by
    intro m hm
    obtain rfl | rfl | rfl := (hheights m).1 hm <;> decide
  obtain ⟨m, hm, hmax, hbest⟩ := exists_greatest ((hheights 7).2 (by decide))
  obtain rfl := UInt32.le_antisymm (hgreatest m hm) (hmax 7 ((hheights 7).2 (by decide)))
  refine ⟨hseven, hbest.trans hseven, by decide +kernel, ?_⟩
  intro consistent
  exact absurd (consistent.height hseven) (by decide)

end Store

end Retarget
