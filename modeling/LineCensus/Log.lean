/-!
# Log records

A record has a level, the part of the program that it comes from, and a message. `Record.line` is
how it stands in the log.
-/

namespace LineCensus.Log

/-- The levels from the gravest to the most talkative. -/
inductive Level where
  | error
  | warn
  | info
  | debug
  | trace
  deriving DecidableEq, Repr

namespace Level

def rank : Level → Nat
  | .error => 1
  | .warn => 2
  | .info => 3
  | .debug => 4
  | .trace => 5

def name : Level → String
  | .error => "ERROR"
  | .warn => "WARN"
  | .info => "INFO"
  | .debug => "DEBUG"
  | .trace => "TRACE"

def ofName? (text : String) : Option Level :=
  [error, warn, info, debug, trace].find? fun level =>
    text.toList.map Char.toUpper == level.name.toList

end Level

inductive Source where
  | program
  | scan
  | walk
  deriving DecidableEq, Repr

def Source.name : Source → String
  | .program => "line_tally"
  | .scan => "line_tally_engine"
  | .walk => "line_tally_engine::filesystem"

structure Record where
  level : Level
  source : Source
  message : String
  deriving DecidableEq, Repr

def indent (message : String) : String :=
  String.ofList (message.toList.flatMap fun c => if c = '\n' then "\n    ".toList else [c])

/-- The level in five columns and the source in brackets, then the message. -/
def Record.line (r : Record) : String :=
  let level := String.ofList (r.level.name.toList.rightpad 5 ' ')
  s!"[{level} {r.source.name}] {indent r.message}"

end LineCensus.Log
