/-!
# Arguments of the command line

Options choose a network and log filters, a command follows with its one operand.
Options are spelled with two or more dashes; a value may be joined to its option by
an equals sign. An argument of two dashes ends the options. The faults of a command
are found first, then those of the options: an option without its value at the end,
networks that exclude each other, missing values, repetitions, and at last a command
that is missing altogether.
-/

namespace Retarget.CommandLine

inductive UsageFault where
  | unknownArgument
  | missingRequiredArgument
  | argumentConflict
  | unexpectedMultipleUsage
  | emptyValue
  | missingSubcommand
deriving DecidableEq, Repr

/-- What to do, with its operand as it was written. -/
inductive Command where
  /-- Print the consensus parameters at a height. -/
  | policy (height : String)
  /-- Decode a compact target. -/
  | compact (bits : String)
  /-- Check the headers in a file. -/
  | replay (path : String)
deriving DecidableEq, Repr

def Command.ofName? : String → Option (String → Command)
  | "policy" => some .policy
  | "compact" => some .compact
  | "replay" => some .replay
  | _ => none

/-- How often each option was given, and the values of the log filters. -/
structure Options where
  testnet : Nat := 0
  regtest : Nat := 0
  unittest : Nat := 0
  log : Nat := 0
  filters : List String := []
deriving DecidableEq, Repr

namespace Options

/-- The number of networks that were asked for. -/
def networks (o : Options) : Nat :=
  [o.testnet, o.regtest, o.unittest].countP (0 < ·)

def lacksFilters (o : Options) : Bool := 0 < o.log && o.filters.isEmpty

/-- Checks the options together. `pending` says that the last argument still waits
for its value. -/
def validate (o : Options) (exclusive pending : Bool) : Except UsageFault Unit :=
  if pending && o.filters.isEmpty then .error .emptyValue
  else if exclusive && 1 < o.networks then .error .argumentConflict
  else if o.lacksFilters then .error .emptyValue
  else if [o.testnet, o.regtest, o.unittest, o.log].any (1 < ·) then
    .error .unexpectedMultipleUsage
  else .ok ()

end Options

/-- Whether an argument is an option or ends the options; a single dash is neither. -/
def isOption (arg : String) : Bool := arg.startsWith "-" && arg != "-"

/-- Name and joined value of an option that is spelled with two or more dashes. -/
def splitOption (arg : String) : String × Option String :=
  let chars := arg.toList
  let name := String.ofList ((chars.takeWhile (· != '=')).dropWhile (· == '-'))
  match chars.dropWhile (· != '=') with
  | [] => (name, none)
  | _ :: value => (name, some (String.ofList (value.dropWhile (· == '='))))

/-- Adds an option. The flag says whether its value comes next. -/
def Options.add (o : Options) (arg : String) : Except UsageFault (Options × Bool) :=
  if !arg.startsWith "--" then .error .unknownArgument
  else
    match splitOption arg with
    | ("testnet", _) => .ok ({ o with testnet := o.testnet + 1 }, false)
    | ("regtest", _) => .ok ({ o with regtest := o.regtest + 1 }, false)
    | ("unittest", _) => .ok ({ o with unittest := o.unittest + 1 }, false)
    | ("log", none) => .ok ({ o with log := o.log + 1 }, true)
    | ("log", some v) => .ok ({ o with log := o.log + 1, filters := o.filters ++ [v] }, false)
    | _ => .error .unknownArgument

/-- Reads options up to the first argument that is none. The result holds the options,
whether the last one still waits for its value, and the arguments that are left;
`pending` says that the value of the log filters comes next. -/
def Options.scan (pending : Bool) (o : Options) :
    List String → Except UsageFault (Options × Bool × List String)
  | [] => .ok (o, pending, [])
  | arg :: args =>
    if arg == "--" then
      if args.isEmpty then .ok (o, pending, []) else .error .unknownArgument
    else if isOption arg then
      match o.add arg with
      | .error fault => .error fault
      | .ok (o, pending) => scan pending o args
    else if pending then scan false { o with filters := o.filters ++ [arg] } args
    else .ok (o, false, arg :: args)

/-- Reads options that stand alone. Here networks may contradict each other, and a
command is an argument too many. -/
def Options.parse (args : List String) : Except UsageFault Options :=
  match Options.scan false {} args with
  | .error fault => .error fault
  | .ok (_, _, _ :: _) => .error .unknownArgument
  | .ok (o, pending, []) => (o.validate false pending).map fun _ => o

def operand (ended : Bool) (found : Option String) : List String → Except UsageFault String
  | [] =>
    match found with
    | none => .error .missingRequiredArgument
    | some value => .ok value
  | arg :: args =>
    if !ended && arg == "--" then operand true found args
    else if !ended && isOption arg then .error .unknownArgument
    else
      match found with
      | none => operand ended (some arg) args
      | some _ => .error .unknownArgument

/-- Reads a command with its operand; without arguments there is none. -/
def Command.parse? : List String → Except UsageFault (Option Command)
  | [] => .ok none
  | name :: args =>
    match Command.ofName? name with
    | none => .error .unknownArgument
    | some command => (operand false none args).map fun value => some (command value)

structure Invocation where
  options : Options
  command : Command
deriving DecidableEq, Repr

def Invocation.parse (args : List String) : Except UsageFault Invocation :=
  match Options.scan false {} args with
  | .error fault => .error fault
  | .ok (o, pending, rest) =>
    match Command.parse? rest, o.validate true pending with
    | .error fault, _ => .error fault
    | _, .error fault => .error fault
    | .ok none, .ok _ => .error .missingSubcommand
    | .ok (some command), .ok _ => .ok ⟨o, command⟩

end Retarget.CommandLine
