import Retarget.Replay
import Retarget.Json.Reader

/-!
# Replay files

A replay file is a JSON record of the height of the first header, the number of
trusted headers and the list of headers. A header is a record of its time, its
compact target in hexadecimal and whether it is proved by stake. Height, trust and
proof may be missing.
-/

namespace Retarget.Replay

/-- Reads a field that has a default. -/
def optional {α : Type} (read : Json → Option α) (default : α) : Option Json → Option α
  | none => some default
  | some v => read v

def word? (v : Json) : Option UInt32 := (v.nat? UInt32.size).map UInt32.ofNat

def kind? (v : Json) : Option Kind := v.bool?.map fun b => if b then .stake else .work

def Entry.ofJson? (v : Json) : Option Entry :=
  match v.fields? ["time", "bits", "pos"] with
  | some [some time, some bits, pos] =>
    match word? time, bits.string?, optional kind? .work pos with
    | some time, some bits, some kind => some ⟨time, bits, kind⟩
    | _, _, _ => none
  | _ => none

def File.ofJson? (v : Json) : Option File :=
  match v.fields? ["height", "trusted", "headers"] with
  | some [height, trusted, some headers] =>
    match optional word? 0 height, optional (Json.nat? UInt64.size) 1 trusted,
        headers.array?.bind (·.mapM Entry.ofJson?) with
    | some height, some trusted, some entries => some ⟨height, trusted, entries⟩
    | _, _, _ => none
  | _ => none

def File.parse? (text : String) : Option File := (Json.parse? text).bind File.ofJson?

end Retarget.Replay
