/-!
# Log records

What happens while headers are stored and judged is told in records. A record has
a level, the part of the program it comes from, and a message. As a line it is
preceded by its time; on a terminal the time is dimmed and the level coloured. A
process installs its logger once.
-/

namespace Retarget.Log

inductive Level where
  | error
  | warn
  | info
  | debug
  | trace
deriving DecidableEq, Repr

def Level.name : Level → String
  | .error => "ERROR"
  | .warn => "WARN"
  | .info => "INFO"
  | .debug => "DEBUG"
  | .trace => "TRACE"

def Level.ofName? (s : String) : Option Level :=
  [error, warn, info, debug, trace].find? (·.name == s)

structure Record where
  level : Level
  /-- The part of the program that tells it. -/
  target : String
  message : String
deriving DecidableEq, Repr

def Record.line (r : Record) (time : String) : String :=
  time ++ " " ++ r.level.name ++ " " ++ r.target ++ " " ++ r.message

/-- A text in a terminal style, given by the numbers of the style. -/
def styled (style text : String) : String :=
  "\x1b[" ++ style ++ "m" ++ text ++ "\x1b[0m"

/-- The style of a level: red, yellow, green, cyan and blue, the first two bold. -/
def Level.style : Level → String
  | .error => "1;31"
  | .warn => "1;33"
  | .info => "32"
  | .debug => "36"
  | .trace => "34"

def Record.colouredLine (r : Record) (time : String) : String :=
  styled "1;30" time ++ " " ++ styled r.level.style r.level.name ++ " " ++ r.target ++ " " ++
    r.message

/-- Whether a process has a logger, and with which filters. -/
inductive Logger where
  | absent
  | installed (filters : String)
deriving DecidableEq, Repr

inductive InstallFault where
  | alreadyInstalled
deriving DecidableEq, Repr

def InstallFault.message : InstallFault → String
  | .alreadyInstalled => "Logger can be initialized only once"

def Logger.install (filters : String) : Logger → Except InstallFault Logger
  | .absent => .ok (.installed filters)
  | .installed _ => .error .alreadyInstalled

end Retarget.Log
