import Retarget.Unsigned
import Retarget.Text.Hex
import Retarget.Compact.Text
import Retarget.Header.Text
import Retarget.Consensus.Report
import Retarget.Store
import Retarget.Requirement.Log
import Retarget.Chain
import Retarget.Mining
import Retarget.Replay.File
import Retarget.Main
import Retarget.Proofs.Acceptance
import Retarget.Proofs.Agreement
import Retarget.Proofs.Replay.Honest
import Retarget.Proofs.Replay.Limits
import Retarget.Proofs.Series.Checked
import Retarget.Proofs.Adjustment.Checked
import Retarget.Proofs.Adjustment.Safety
import Retarget.Proofs.Adjustment.Monotone
import Retarget.Proofs.Store.Lines
import Retarget.Proofs.Simulation
import Retarget.Proofs.Store.Order
import Retarget.Proofs.Store.Lineage
import Retarget.Proofs.Replay.Suffix
import Retarget.Proofs.Replay.Recheck
import Retarget.Proofs.Replay.Counts
import Retarget.Proofs.Replay.Positive
import Retarget.Proofs.Bisimulation
import Retarget.Proofs.Store.Placements
import Retarget.Proofs.Replay.Shift
import Retarget.Proofs.Store.Straight
import Retarget.Proofs.Chain
import Retarget.Proofs.Series.Width
import Retarget.Proofs.Series.Direction
import Retarget.Proofs.Series.Exhaustion
import Retarget.Proofs.Adjustment.Direction
import Retarget.Proofs.Compact.Decoding
import Retarget.Proofs.Compact.Canonical
import Retarget.Proofs.Compact.Words
import Retarget.Proofs.Compact.Rounding
import Retarget.Proofs.Series.Accuracy
import Retarget.Proofs.Adjustment.Accuracy
import Retarget.Proofs.Trail
import Retarget.Proofs.Store.Insert
import Retarget.Proofs.Epochs
import Retarget.Proofs.Text.Numeral
import Retarget.Proofs.Compact.Grammar
import Retarget.Proofs.Hash
import Retarget.Proofs.Header
