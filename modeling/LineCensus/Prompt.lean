import LineCensus.Problem
import LineCensus.Stream
import LineCensus.Text.Blank

/-!
# Asking for the root

`Prompt.ask` writes the question and reads one line as the answer, without its surrounding
White_Space. It takes one piece of the input, whatever becomes of it; the rest is left for later.
`askTimes` asks several times in a row, and `askTimes_add` says that this can be cut between two
questions.
-/

namespace LineCensus.Prompt

def question : String := "Enter the project root directory: "

/-- Where the question is written to, with the failure of its writing or its flushing. -/
structure Output where
  writeFailure : Option String := none
  flushFailure : Option String := none
  deriving DecidableEq, Repr

structure Answer where
  written : String
  root : Except Problem Path
  rest : Stream

/-- What several questions in a row bring. -/
structure Answers where
  written : String
  roots : List (Except Problem Path)
  rest : Stream

def readLine (line : Stream.Piece) : Except Problem Path :=
  match line.failure with
  | some report => .error (.prompt (.reported report))
  | none =>
    match Text.Utf8.decode line.bytes with
    | .ok text => .ok ⟨String.ofList (Text.trim text)⟩
    | .error _ => .error (.prompt .notText)

def ask (output : Output) (input : Stream) : Answer :=
  match output.writeFailure, output.flushFailure with
  | some report, _ => { written := "", root := .error (.prompt (.reported report)), rest := input }
  | none, some report =>
    { written := question, root := .error (.prompt (.reported report)), rest := input }
  | none, none =>
    match input.readPiece with
    | none => { written := question, root := .error .noRoot, rest := [] }
    | some (line, rest) => { written := question, root := readLine line, rest }

def askTimes (output : Output) : Nat → Stream → Answers
  | 0, input => { written := "", roots := [], rest := input }
  | n + 1, input =>
    let first := ask output input
    let later := askTimes output n first.rest
    { written := first.written ++ later.written
      roots := first.root :: later.roots
      rest := later.rest }

/-- Asking goes on where the questions before have left the input. -/
theorem askTimes_add (output : Output) (m n : Nat) (input : Stream) :
    askTimes output (m + n) input =
      let first := askTimes output m input
      let later := askTimes output n first.rest
      { written := first.written ++ later.written
        roots := first.roots ++ later.roots
        rest := later.rest } := by
  induction m generalizing input with
  | zero => simp [askTimes]
  | succ m ih =>
    rw [Nat.succ_add, askTimes, askTimes, ih]
    simp only [String.append_assoc, List.cons_append]

end LineCensus.Prompt
