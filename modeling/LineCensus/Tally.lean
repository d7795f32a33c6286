import LineCensus.Counts
import LineCensus.ReadFault
import LineCensus.Stream
import LineCensus.Text.Lines
import LineCensus.Text.Utf8

/-!
# Counting the lines of a stream

`Tally.count` counts a stream piece by piece: a piece is decoded as a whole and its lines are
recorded. The first piece that is no text, or that a failure cuts short, ends the counting, and
nothing of the counts so far is kept. `addPieces_append` says that counting can be cut between
pieces.
-/

namespace LineCensus

/-- The counts so far and the number of the line recorded last. -/
structure Tally where
  counts : Counts := {}
  line : Nat := 0
  deriving DecidableEq, Repr

namespace Tally

/-- Why a stream cannot be counted. A stream has no name; `Problem.file` tells of the fault with the
path of the file. -/
inductive Fault where
  | unreadable (cause : ReadFault)
  /-- `line` follows the last line recorded. -/
  | undecodable (line : Nat) (cause : Text.Utf8.Fault)
  deriving DecidableEq, Repr

def addLine (tally : Tally) (line : List Char) : Tally where
  counts := tally.counts.record (Line.classify line)
  line := tally.line + 1

def addPiece (tally : Tally) (piece : Stream.Piece) : Except Fault Tally :=
  match piece.failure with
  | some report => .error (.unreadable (.reported report))
  | none =>
    match Text.Utf8.decode piece.bytes with
    | .ok text => .ok ((Text.pieceLines text).foldl addLine tally)
    | .error fault => .error (.undecodable (tally.line + 1) fault)

def addPieces (tally : Tally) : List Stream.Piece → Except Fault Tally
  | [] => .ok tally
  | piece :: rest =>
    match tally.addPiece piece with
    | .ok next => addPieces next rest
    | .error fault => .error fault

def count (stream : Stream) : Except Fault Counts :=
  (addPieces {} stream.pieces).map Tally.counts

def countBytes (bytes : List UInt8) : Except Fault Counts :=
  count (Stream.ofBytes bytes)

theorem addPieces_append (tally : Tally) (xs ys : List Stream.Piece) :
    tally.addPieces (xs ++ ys) =
      match tally.addPieces xs with
      | .ok next => next.addPieces ys
      | .error fault => .error fault := by
  induction xs generalizing tally with
  | nil => rfl
  | cons piece rest ih =>
    simp only [List.cons_append, addPieces]
    cases tally.addPiece piece with
    | error fault => rfl
    | ok next => exact ih next

end Tally

end LineCensus
