import Retarget.CommandLine

/-!
# The program

Reads the arguments and, for a replay, the file; prints the report. Faults go to the
error stream and make the exit code one.
-/

namespace Retarget.CommandLine

def UsageFault.message : UsageFault → String
  | .unknownArgument => "Unknown argument"
  | .missingRequiredArgument => "Missing required argument"
  | .argumentConflict => "Conflicting arguments"
  | .unexpectedMultipleUsage => "Repeated argument"
  | .emptyValue => "Missing value"
  | .missingSubcommand => "Missing command"

/-- The text of the file a command needs, if it needs one and it can be read. -/
def Command.load : Command → IO (Option String)
  | .replay path => do
    match ← (IO.FS.readFile path).toBaseIO with
    | .ok text => return some text
    | .error _ => return none
  | _ => return none

/-- Prints a report and gives the exit code. -/
def Report.print (r : Report) : IO UInt32 := do
  for line in r.lines do
    IO.println line
  match r.failure with
  | none => return 0
  | some reason =>
    IO.eprintln reason
    return 1

end Retarget.CommandLine

open Retarget.CommandLine in
def main (args : List String) : IO UInt32 := do
  match Invocation.parse args with
  | .error fault =>
    IO.eprintln fault.message
    return 1
  | .ok invocation =>
    match Config.ofOptions invocation.options none with
    | .error fault =>
      IO.eprintln fault.message
      return 1
    | .ok config =>
      let contents ← invocation.command.load
      (invocation.command.run config fun _ => contents).print
