import Retarget.Proofs.Extension
import Retarget.Proofs.Store.Linked

/-!
# Sequences of insertions

A store is opened by one header, at height zero or at a chosen height, and then headers are
inserted one after another. Some of them may not link; these leave the store as it is. What every
link preserves, the whole sequence therefore preserves. A header that links is new, so no
insertion takes away or changes what is stored.
-/

namespace Retarget

namespace Store

/-- How a store gets its first header. -/
inductive Opening where
  | insert (h : Header)
  | genesis (h : Header)
  | checkpoint (height : UInt32) (h : Header)

namespace Opening

def root : Opening → IndexedHeader
  | insert h => .ofHeader 0 h
  | genesis h => .ofHeader 0 h
  | checkpoint height h => .ofHeader height h

def store : Opening → Store
  | insert h => (empty.insert h).2
  | genesis h => withGenesis h
  | checkpoint height h => empty.insertCheckpoint height h

theorem store_eq (o : Opening) : o.store = empty.place o.root := by
  cases o <;> rfl

theorem linked_store (o : Opening) : o.store.Linked o.root := by
  rw [store_eq]
  exact linked_place_empty (by cases o <;> rfl)

theorem size_store (o : Opening) : o.store.size = 1 := by
  rw [store_eq]
  exact size_place (s := empty) rfl

end Opening

/-- Inserts headers one after another, whatever becomes of each. -/
def insertAll (s : Store) : List Header → Store
  | [] => s
  | h :: headers => insertAll (s.insert h).2 headers

def verdicts (s : Store) : List Header → List (Except LinkError IndexedHeader)
  | [] => []
  | h :: headers => (s.insert h).1 :: verdicts (s.insert h).2 headers

variable {s : Store} {root x : IndexedHeader} {h : Header} {headers : List Header}

@[simp] theorem insertAll_cons (s : Store) (h : Header) (headers : List Header) :
    s.insertAll (h :: headers) = (s.insert h).2.insertAll headers := rfl

@[simp] theorem verdicts_cons (s : Store) (h : Header) (headers : List Header) :
    s.verdicts (h :: headers) = s.link h :: (s.insert h).2.verdicts headers := by
  rw [verdicts, fst_insert]

theorem eq_of_link (hlink : s.link h = .ok x) : x.header = h ∧ x.hash = h.hash := by
  cases hs : s.isEmpty with
  | true =>
      rw [link, if_pos hs] at hlink
      cases hlink
      exact ⟨rfl, rfl⟩
  | false =>
      obtain ⟨p, -, -, -, rfl⟩ := (link_eq_ok hs).1 hlink
      exact ⟨rfl, rfl⟩

/-- A header that links is new, in an empty store as in any other. -/
theorem getElem?_of_link (hlink : s.link h = .ok x) : s.byHash[x.hash]? = none := by
  cases hs : s.isEmpty with
  | true => exact Std.TreeMap.getElem?_of_isEmpty hs
  | false => exact not_mem_of_link hs hlink

theorem extends_place (hlink : s.link h = .ok x) : (s.place x).source.Extends s.source :=
  fun _ _ hy => getElem?_place_of_some (getElem?_of_link hlink) hy

/-- What each link preserves, a sequence of insertions preserves. By induction on the sequence:
a header that does not link changes nothing. -/
theorem insertAll_induction {P : Store → Prop}
    (link : ∀ {s h x}, P s → s.link h = .ok x → P (s.place x)) (hs : P s)
    (headers : List Header) : P (s.insertAll headers) := by
  induction headers generalizing s with
  | nil => exact hs
  | cons h headers ih =>
      rw [insertAll_cons]
      cases hlink : s.link h with
      | error e =>
          rw [insert_of_link_error hlink]
          exact ih hs
      | ok x =>
          rw [insert_of_link_ok hlink]
          exact ih (link hs hlink)

theorem Linked.insertAll (hs : s.Linked root) (headers : List Header) :
    (s.insertAll headers).Linked root :=
  insertAll_induction (P := (·.Linked root)) (fun hs hlink => hs.place hlink) hs headers

theorem extends_insertAll (s : Store) (headers : List Header) :
    (s.insertAll headers).source.Extends s.source :=
  insertAll_induction (P := fun t => t.source.Extends s.source)
    (fun hext hlink => hext.trans (extends_place hlink)) (.refl s.source) headers

theorem size_insertAll (s : Store) (headers : List Header) :
    (s.insertAll headers).size = s.size + (s.verdicts headers).countP Except.isOk := by
  induction headers generalizing s with
  | nil => rfl
  | cons h headers ih =>
      rw [insertAll_cons, verdicts_cons, List.countP_cons, ih]
      cases hlink : s.link h with
      | error e =>
          rw [insert_of_link_error hlink]
          rfl
      | ok x =>
          rw [insert_of_link_ok hlink, size_place (getElem?_of_link hlink)]
          simp only [Except.isOk, Except.toBool, if_true]
          omega

theorem length_verdicts (s : Store) (headers : List Header) :
    (s.verdicts headers).length = headers.length := by
  induction headers generalizing s with
  | nil => rfl
  | cons h headers ih => rw [verdicts_cons, List.length_cons, List.length_cons, ih]

theorem holds_or_mem_of_insertAll (hx : (s.insertAll headers).Holds x) :
    s.Holds x ∨ x.header ∈ headers := by
  induction headers generalizing s with
  | nil => exact .inl hx
  | cons h headers ih =>
      rw [insertAll_cons] at hx
      obtain hx | hmem := ih hx
      · cases hlink : s.link h with
        | error e =>
            rw [insert_of_link_error hlink] at hx
            exact .inl hx
        | ok y =>
            rw [insert_of_link_ok hlink] at hx
            obtain rfl | hx := eq_or_holds_of_place hx
            · rw [(eq_of_link hlink).1]
              exact .inr List.mem_cons_self
            · exact .inl hx
      · exact .inr (List.mem_cons_of_mem h hmem)

theorem exists_of_verdicts (all : ∀ v ∈ s.verdicts headers, v.isOk = true) (hh : h ∈ headers) :
    ∃ x, (s.insertAll headers).byHash[h.hash]? = some x ∧ x.header = h := by
  induction headers generalizing s with
  | nil => cases hh
  | cons h' headers ih =>
      rw [verdicts_cons, List.forall_mem_cons] at all
      obtain ⟨hfirst, hrest⟩ := all
      rw [insertAll_cons]
      cases hlink : s.link h' with
      | error e =>
          rw [hlink] at hfirst
          cases hfirst
      | ok x =>
          rw [insert_of_link_ok hlink] at hrest ⊢
          obtain rfl | hmem := List.mem_cons.1 hh
          · obtain ⟨hheader, hhash⟩ := eq_of_link hlink
            have hx := holds_place s x
            rw [Holds, hhash] at hx
            exact ⟨x, extends_insertAll _ headers hx, hheader⟩
          · exact ih hrest hmem

end Store

end Retarget
