import LineCensus.FileTree.Listing
import LineCensus.Program

/-!
# Command line

Runs the program with the arguments of the command line in the tree that a listing describes. The
standard input holds the listing, an empty line, and the input of the program.
-/

namespace LineCensus

def logVariable : String := "LINE_CENSUS_LOG"

partial def readLines (stdin : IO.FS.Stream) (lines : Array String) : IO (List String) := do
  let line ← stdin.getLine
  let text := String.ofList (line.toList.takeWhile (· != '\n'))
  if text.isEmpty then return lines.toList
  readLines stdin (lines.push text)

partial def readBytes (stdin : IO.FS.Stream) (bytes : ByteArray) : IO (List UInt8) := do
  let more ← stdin.read 65536
  if more.isEmpty then return bytes.toList
  readBytes stdin (bytes ++ more)

end LineCensus

open LineCensus in
def main (args : List String) : IO UInt32 := do
  let stdin ← IO.getStdin
  match FileTree.ofListing (← readLines stdin #[]) with
  | .error fault =>
    IO.eprintln fault.message
    return 2
  | .ok tree =>
    let input ← readBytes stdin ByteArray.empty
    let outcome := Program.run tree (Invocation.programName :: args) (Stream.ofBytes input)
      (← IO.getEnv logVariable)
    IO.print outcome.stdout
    IO.eprint outcome.errorText
    return UInt32.ofNat outcome.exitCode
