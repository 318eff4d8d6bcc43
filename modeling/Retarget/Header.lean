import Retarget.Compact
import Retarget.Hash.Sha256

/-!
# Block headers

A header names its parent by hash and declares the compact target it claims to
meet. A proof-of-stake header also refers to the transaction output it stakes; a
proof-of-work header carries the null output in that place, and this alone tells
the two kinds apart. The hash of a header is the double digest of its identity,
a fixed layout of all its fields.
-/

namespace Retarget

/-- How a block is proved. The two kinds of one chain have separate difficulties. -/
inductive Kind where
  | work
  | stake
deriving DecidableEq, Repr

def Kind.label : Kind → String
  | .work => "PoW"
  | .stake => "PoS"

/-- A reference to a transaction output. -/
structure OutPoint where
  hash : Hash
  index : UInt32
deriving DecidableEq, Repr

namespace OutPoint

def null : OutPoint := ⟨Hash.zero, 0xffffffff⟩

def isNull (o : OutPoint) : Bool := o.hash.isZero && o.index == 0xffffffff

instance : Inhabited OutPoint := ⟨null⟩

end OutPoint

/-- A block header. The defaults are those of an unlinked proof-of-work header. -/
structure Header where
  version : UInt32 := 1
  parent : Hash := Hash.zero
  merkleRoot : Hash := Hash.zero
  time : UInt32 := 0
  bits : Compact := ⟨0⟩
  nonce : UInt32 := 0
  stake : OutPoint := OutPoint.null
deriving DecidableEq, Repr

/-- A word as four bytes, low byte first. -/
def littleEndian (n : UInt32) : List UInt8 :=
  [n.toUInt8, (n >>> 8).toUInt8, (n >>> 16).toUInt8, (n >>> 24).toUInt8]

@[simp] theorem length_littleEndian (n : UInt32) : (littleEndian n).length = 4 := rfl

namespace Header

/-- A header that stakes an output is proved by stake. -/
def kind (h : Header) : Kind := if h.stake.isNull then .work else .stake

/-- All fields in order, in 116 bytes. -/
def identity (h : Header) : List UInt8 :=
  littleEndian h.version ++ h.parent.bytes ++ h.merkleRoot.bytes ++ littleEndian h.time ++
    littleEndian h.bits.bits ++ littleEndian h.nonce ++ h.stake.hash.bytes ++
    littleEndian h.stake.index

def hash (h : Header) : Hash := Sha256.doubleDigest h.identity

end Header

/-- A header with the hash and the height it is known by. -/
structure IndexedHeader where
  hash : Hash
  height : UInt32
  header : Header
deriving DecidableEq, Repr

namespace IndexedHeader

def ofHeader (height : UInt32) (h : Header) : IndexedHeader := ⟨h.hash, height, h⟩

def isGenesis (x : IndexedHeader) : Bool := x.height == 0

def kind (x : IndexedHeader) : Kind := x.header.kind

/-- Whether two indexed headers carry the same hash, whatever else they say. -/
def sameAs (x y : IndexedHeader) : Bool := x.hash == y.hash

theorem isGenesis_iff {x : IndexedHeader} : x.isGenesis = true ↔ x.height = 0 := beq_iff_eq

@[simp] theorem height_ofHeader (height : UInt32) (h : Header) :
    (ofHeader height h).height = height := rfl

end IndexedHeader

end Retarget
