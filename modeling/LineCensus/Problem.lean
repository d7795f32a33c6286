import LineCensus.Path
import LineCensus.Tally

/-!
# Problems

Everything that can go wrong, as its cause, and how it is reported.
-/

namespace LineCensus

inductive Problem where
  | invalidRoot (root : Path)
  | file (path : Path) (fault : Tally.Fault)
  | settings (text : String)
  | prompt (cause : ReadFault)
  | noRoot
  deriving DecidableEq, Repr

namespace Problem

def message : Problem → String
  | .invalidRoot root => s!"{root.text} is not a valid directory"
  | .file path (.unreadable cause) => s!"Failed to read file '{path.text}': {cause.message}"
  | .file path (.undecodable line cause) =>
    s!"Failed to read file '{path.text}': invalid UTF-8 on line {line}: {cause.message}"
  | .settings text => s!"Invalid configuration: {text}"
  | .prompt cause => s!"Failed to read root path: {cause.message}"
  | .noRoot => "No root path given"

def cause : Problem → Option String
  | .file _ (.unreadable cause) => some cause.message
  | .file _ (.undecodable _ cause) => some cause.message
  | .prompt cause => some cause.message
  | _ => none

end Problem

end LineCensus
