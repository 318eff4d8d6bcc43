import Retarget.CommandLine.Arguments
import Retarget.Consensus.Report
import Retarget.Replay.File

/-!
# Commands

The options of an invocation make a configuration: a network, its consensus
parameters, and log filters that may also come from the environment. A command
prints lines and may end in failure.
-/

namespace Retarget.CommandLine

/-- What all commands share. -/
structure Config where
  network : Network
  consensus : Consensus
  log : String

inductive ConfigFault where
  | severalNetworks
deriving DecidableEq, Repr

def ConfigFault.message : ConfigFault → String
  | .severalNetworks => "Only one of testnet, regtest and unittest flags can be used"

def defaultFilters : String := "info"

/-- The configuration that options ask for. Log filters of the environment apply
where the options give none. -/
def Config.ofOptions (o : Options) (environment : Option String) : Except ConfigFault Config :=
  let log := (o.filters.head? <|> environment).getD defaultFilters
  let choose (n : Network) : Config := ⟨n, Consensus.ofNetwork n, log⟩
  match o.testnet != 0, o.regtest != 0, o.unittest != 0 with
  | true, false, false => .ok (choose .testnet)
  | false, true, false => .ok (choose .regtest)
  | false, false, true => .ok (choose .unitest)
  | false, false, false => .ok (choose .mainnet)
  | _, _, _ => .error .severalNetworks

/-- What a command prints, and why it failed if it did. -/
structure Report where
  lines : List String := []
  failure : Option String := none
deriving DecidableEq, Repr

def Report.failed (reason : String) : Report := { failure := some reason }

def policy (config : Config) (height : String) : Report :=
  match Numeral.read 10 UInt32.size height.toList with
  | .error reason => .failed ("Invalid block height: " ++ reason.message)
  | .ok n =>
    match config.consensus.describe? (UInt32.ofNat n) with
    | none => .failed WorkError.divisionByZero.message
    | some lines => { lines := lines }

def compact (bits : String) : Report :=
  match Compact.parse bits with
  | .error fault => .failed fault.message
  | .ok c => { lines := c.describe }

/-- Prints the summary of a replay; a rejected header is a failure after that. -/
def summarize (s : Replay.Summary) : Report where
  lines :=
    [ "accepted: " ++ toString s.accepted,
      "chain:    " ++ toString s.work ++ " PoW, " ++ toString s.stake ++ " PoS" ]
  failure :=
    s.rejected.map fun (height, e) =>
      "Rejected header at height " ++ toString height ++ ": " ++ e.message

/-- Replays the headers of a file, given its contents if it can be read. -/
def replay (config : Config) (path : String) (contents : Option String) : Report :=
  match contents with
  | none => .failed ("Cannot read " ++ path)
  | some text =>
    match Replay.File.parse? text with
    | none => .failed "Invalid replay file"
    | some file =>
      match file.run config.consensus with
      | .error failure => .failed failure.message
      | .ok summary => summarize summary

/-- Carries out a command; `contents` gives the text of a file that can be read. -/
def Command.run (config : Config) (contents : String → Option String) : Command → Report
  | .policy height => CommandLine.policy config height
  | .compact bits => CommandLine.compact bits
  | .replay path => CommandLine.replay config path (contents path)

end Retarget.CommandLine
