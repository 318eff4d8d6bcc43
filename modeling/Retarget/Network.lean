import Retarget.Compact

/-!
# Networks

The networks on which the rules apply, with the constants that identify each and
its proof-of-work target limit.
-/

namespace Retarget

/-- A network of nodes that share one chain. -/
inductive Network where
  | mainnet
  | testnet
  /-- A private network on which difficulty never changes. -/
  | regtest
  /-- Parameters for tests, with the whole range of targets open to proof of work. -/
  | unitest
deriving DecidableEq, Repr

namespace Network

/-- The word that opens every message of the network. -/
def magic : Network → UInt32
  | mainnet => 0xf1cfa6d3
  | testnet => 0x0d221506
  | regtest => 0xfdddc6e1
  | unitest => 0x0d221506

/-- Where a node listens unless told otherwise. -/
def defaultPort : Network → UInt16
  | mainnet => 3888
  | testnet => 13888
  | regtest => 23888
  | unitest => 13888

/-- The easiest target of a proof-of-work block. -/
def maxTarget : Network → Target
  | mainnet => (Compact.mk 0x1f00ffff).magnitude
  | testnet => (Compact.mk 0x1f00ffff).magnitude
  | regtest => BitVec.allOnes 256 >>> 1
  | unitest => BitVec.allOnes 256

def name : Network → String
  | mainnet => "mainnet"
  | testnet => "testnet"
  | regtest => "regtest"
  | unitest => "unitest"

instance : ToString Network := ⟨name⟩

def all : List Network := [mainnet, testnet, regtest, unitest]

def ofName? (s : String) : Option Network := all.find? (·.name == s)

end Network

end Retarget
