import Retarget.Header.Draft
import Retarget.Store

/-!
# Chains that grow at the tip

A chain is a store together with the header appended last. Headers are appended one
on top of another; their times are given as spacings from the tip, so a negative
spacing makes a header older than its parent. A header marks its place by a nonce
equal to its height.
-/

namespace Retarget

/-- A store and the tip on which it grows. -/
structure Chain where
  store : Store := ∅
  tip? : Option IndexedHeader := none

/-- Why a chain cannot answer or grow. -/
inductive ChainFault where
  /-- The chain has no header yet. -/
  | noTip
  /-- No height is left above the tip. -/
  | noHeight
  /-- The time of a header would not fit its field. -/
  | timeOutOfRange
  /-- No header stands at the height. -/
  | missing (height : UInt32)
  /-- The store does not take the header. -/
  | refused (e : LinkError)
deriving DecidableEq, Repr

namespace Chain

def empty : Chain := {}

def tip (c : Chain) : Except ChainFault IndexedHeader :=
  match c.tip? with
  | none => .error .noTip
  | some x => .ok x

def at? (c : Chain) (height : UInt32) : Except ChainFault IndexedHeader :=
  match c.store.get? (.height height) with
  | none => .error (.missing height)
  | some x => .ok x

/-- A header on top of the tip, with nothing chosen but its place. -/
def next (c : Chain) : Except ChainFault Header :=
  match c.tip? with
  | none => .ok {}
  | some x =>
    if x.height = 0xffffffff then .error .noHeight
    else .ok { parent := x.hash, nonce := x.height + 1 }

def append (c : Chain) (h : Header) : Except ChainFault Chain :=
  match c.store.insert h with
  | (.error e, _) => .error (.refused e)
  | (.ok x, store) => .ok ⟨store, some x⟩

/-- Appends a draft that is filled in from the header on top of the tip. The draft
may choose another parent, but above the greatest height there is nothing to fill in. -/
def appendDraft (c : Chain) (d : Draft) : Except ChainFault Chain :=
  match c.next with
  | .error e => .error e
  | .ok base => c.append (d.complete base)

/-- A chain of one proof-of-work header at height zero. -/
def genesis (time : UInt32) (bits : Compact) : Except ChainFault Chain :=
  empty.appendDraft { time := some time, bits := some bits }

/-- A chain that starts at a height, with unknown ancestors. -/
def checkpoint (height time : UInt32) (bits : Compact) (kind : Kind) : Chain :=
  let x := IndexedHeader.ofHeader height
    (Header.ofKind { time := time, bits := bits, nonce := height } kind)
  ⟨Store.empty.place x, some x⟩

/-- The header that `push` would append. -/
def candidate (c : Chain) (kind : Kind) (spacing : Int64) (bits : Compact) :
    Except ChainFault Header :=
  match c.tip, c.next with
  | .error e, _ => .error e
  | _, .error e => .error e
  | .ok x, .ok base =>
    let time := Int64.ofNat x.header.time.toNat + spacing
    if 0 ≤ time ∧ time ≤ 0xffffffff then
      .ok ({ base with time := UInt32.ofNat time.toInt.toNat, bits := bits }.ofKind kind)
    else .error .timeOutOfRange

/-- Appends a header of a kind, so many seconds after the tip. -/
def push (c : Chain) (kind : Kind) (spacing : Int64) (bits : Compact) :
    Except ChainFault Chain :=
  match c.candidate kind spacing bits with
  | .error e => .error e
  | .ok h => c.append h

/-- What is appended becomes the tip, and only the store decides about it. -/
theorem append_eq_ok {c d : Chain} {h : Header} :
    c.append h = .ok d ↔
      ∃ x, c.store.link h = .ok x ∧ d = ⟨c.store.place x, some x⟩ := by
  unfold append
  cases hx : c.store.link h with
  | error e => simp [Store.insert_of_link_error hx]
  | ok x => simp [Store.insert_of_link_ok hx, eq_comm]

end Chain

end Retarget
