import Retarget.Header

/-!
# Headers as text

One line lists the fields of an indexed header by name. Hashes appear reversed,
as block explorers show them, and the staked output only as its presence.
-/

namespace Retarget

/-- The names and values of a record on one line. -/
def recordText (name : String) (fields : List (String × String)) : String :=
  name ++ " \x7b " ++ ", ".intercalate (fields.map fun (key, value) => key ++ ": " ++ value) ++ " \x7d"

def Header.describe (h : Header) : String :=
  recordText "BlockHeader"
    [ ("version", toString h.version),
      ("previous_header_hash", h.parent.toReversedText),
      ("merkle_root_hash", h.merkleRoot.toReversedText),
      ("time", toString h.time),
      ("bits", "Compact(" ++ toString h.bits.bits ++ ")"),
      ("nonce", toString h.nonce),
      ("proof_of_stake", toString (decide (h.kind = .stake))) ]

def IndexedHeader.describe (x : IndexedHeader) : String :=
  recordText "IndexedBlockHeader"
    [ ("hash", x.hash.toReversedText),
      ("height", toString x.height),
      ("raw", x.header.describe) ]

end Retarget
