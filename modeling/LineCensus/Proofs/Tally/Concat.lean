import LineCensus.Proofs.Tally.Delivery
import LineCensus.Proofs.Tally.FaultLine

/-!
# Counting in parts

Lines that were recorded before are added to the counts, and they move the line of a fault
(`addPieces_behind`). So bytes can be counted in two parts, if the first one ends with the end of a line
(`countBytes_append`).
-/

namespace LineCensus

namespace Counts

theorem add_record (c d : Counts) (kind : Line.Kind) : c + d.record kind = (c + d).record kind := by
  cases kind <;> rfl

theorem add_recordLines (c d : Counts) (lines : List (List Char)) :
    c + d.recordLines lines = (c + d).recordLines lines := by
  induction lines generalizing d with
  | nil => rfl
  | cons line rest ih =>
    show c + (d.record (Line.classify line)).recordLines rest = _
    rw [ih, add_record]
    rfl

theorem ofLines_append (xs ys : List (List Char)) : ofLines (xs ++ ys) = ofLines xs + ofLines ys := by
  have later : ofLines xs + ofLines ys = (ofLines xs).recordLines ys := add_recordLines _ {} ys
  rw [later]
  exact List.foldl_append

end Counts

namespace Tally
open Text

/-- The tally when other lines were recorded before. -/
def behind (tally before : Tally) : Tally where
  counts := before.counts + tally.counts
  line := before.line + tally.line

/-- The fault when other lines were recorded before. -/
def Fault.behind (lines : Nat) : Fault → Fault
  | .unreadable cause => .unreadable cause
  | .undecodable line cause => .undecodable (lines + line) cause

theorem addLines_behind (tally before : Tally) (lines : List (List Char)) :
    (tally.behind before).addLines lines = (tally.addLines lines).behind before := by
  rw [addLines_eq, addLines_eq]
  simp only [behind, Counts.add_recordLines, Nat.add_assoc]

theorem addPiece_behind (tally before : Tally) (piece : Stream.Piece) :
    (tally.behind before).addPiece piece =
      match tally.addPiece piece with
      | .ok next => .ok (next.behind before)
      | .error fault => .error (fault.behind before.line) := by
  unfold addPiece
  cases piece.failure with
  | some report => rfl
  | none =>
    cases Utf8.decode piece.bytes with
    | ok text => exact congrArg Except.ok (addLines_behind tally before _)
    | error fault => rfl

theorem addPieces_behind (tally before : Tally) (pieces : List Stream.Piece) :
    (tally.behind before).addPieces pieces =
      match tally.addPieces pieces with
      | .ok next => .ok (next.behind before)
      | .error fault => .error (fault.behind before.line) := by
  induction pieces generalizing tally with
  | nil => rfl
  | cons piece rest ih =>
    have first := addPiece_behind tally before piece
    cases added : tally.addPiece piece with
    | ok next =>
      rw [added] at first
      rw [addPieces_cons_ok first, addPieces_cons_ok added, ih]
    | error fault =>
      rw [added] at first
      rw [addPieces_cons_error first, addPieces_cons_error added]

/-! ### The number of the last line -/

theorem addPiece_eq_ok {tally next : Tally} {piece : Stream.Piece} (added : tally.addPiece piece = .ok next) :
    ∃ text, Utf8.decode piece.bytes = .ok text ∧ next = tally.addLines (pieceLines text) := by
  unfold addPiece at added
  split at added
  · cases added
  · split at added
    · next text decoded => exact ⟨text, decoded, (Except.ok.inj added).symm⟩
    · cases added

theorem line_addPiece {tally next : Tally} {piece : Stream.Piece}
    (all : tally.line = tally.counts.total) (added : tally.addPiece piece = .ok next) :
    next.line = next.counts.total := by
  obtain ⟨text, _, rfl⟩ := addPiece_eq_ok added
  rw [addLines_eq, Counts.total_recordLines, all]

theorem line_addPieces {tally next : Tally} {pieces : List Stream.Piece}
    (all : tally.line = tally.counts.total) (added : tally.addPieces pieces = .ok next) :
    next.line = next.counts.total := by
  induction pieces generalizing tally with
  | nil =>
    obtain rfl := Except.ok.inj added
    exact all
  | cons piece rest ih =>
    unfold addPieces at added
    split at added
    · next middle first => exact ih (line_addPiece all first) added
    · cases added

/-! ### Two parts -/

theorem pieces_append {first : List UInt8}
    (ends : first = [] ∨ first.getLast? = some Stream.newline) (second : List UInt8) :
    Stream.pieces (.ofBytes (first ++ second)) =
      Stream.pieces (.ofBytes first) ++ Stream.pieces (.ofBytes second) := by
  rw [Stream.pieces_ofBytes, Stream.pieces_ofBytes, Stream.pieces_ofBytes, List.map_append,
    Stream.cut_append ends]

theorem countBytes_append_of_newline {first : List UInt8}
    (ends : first = [] ∨ first.getLast? = some Stream.newline) (second : List UInt8) :
    countBytes (first ++ second) =
      match countBytes first with
      | .error fault => .error fault
      | .ok before =>
        match countBytes second with
        | .error fault => .error (fault.behind before.total)
        | .ok after => .ok (before + after) := by
  unfold countBytes count
  rw [pieces_append ends, addPieces_append]
  cases added : addPieces {} (Stream.pieces (.ofBytes first)) with
  | error fault => rfl
  | ok before =>
    have start : before = behind {} before := rfl
    have last : before.line = before.counts.total := line_addPieces rfl added
    show (before.addPieces _).map counts = _
    conv => lhs; rw [start, addPieces_behind, last]
    cases addPieces {} (Stream.pieces (.ofBytes second)) <;> rfl

theorem countBytes_of_decode {bytes : List UInt8} {text : List Char}
    (decoded : Utf8.decode bytes = .ok text) :
    countBytes bytes = .ok (Counts.ofLines (universalLines text)) := by
  unfold countBytes count
  rw [addPieces_of_decode decoded, addLines_eq]
  rfl

/-- A lone carriage return ends a line, although the piece goes on behind it. -/
theorem countBytes_append_of_return {first second : List UInt8} (isText : Utf8.IsText first)
    (isText' : Utf8.IsText second) (ends : first.getLast? = some Stream.carriageReturn)
    (apart : second.head? ≠ some Stream.newline) :
    ∃ before after, countBytes first = .ok before ∧ countBytes second = .ok after ∧
      countBytes (first ++ second) = .ok (before + after) := by
  obtain ⟨text, rfl⟩ := isText
  obtain ⟨more, rfl⟩ := isText'
  have cut : LineEnds text more := by
    right
    obtain ⟨body, split⟩ := List.getLast?_eq_some_iff.mp ends
    obtain ⟨line, rfl, _⟩ := Utf8.text_of_single (by decide) split.symm
    refine ⟨List.getLast?_concat, fun first => ?_⟩
    obtain ⟨rest, rfl⟩ := List.head?_eq_some_iff.mp first
    exact apart rfl
  have whole := countBytes_of_decode (Utf8.decode_encode (text ++ more))
  rw [Utf8.encode_append, universalLines_append cut, Counts.ofLines_append] at whole
  exact ⟨_, _, countBytes_of_decode (Utf8.decode_encode text),
    countBytes_of_decode (Utf8.decode_encode more), whole⟩

/-- Bytes can be counted in two parts if the first is empty or ends with a newline: its lines are added to
the counts of the second, or to the number of the line where that fails. Two texts can be counted apart
also where a carriage return at the end of the first ends a line. -/
theorem countBytes_append (first second : List UInt8) :
    ((first = [] ∨ first.getLast? = some Stream.newline) →
      (∀ fault, countBytes first = .error fault → countBytes (first ++ second) = .error fault) ∧
      ∀ before, countBytes first = .ok before →
        (∃ line cause, countBytes second = .error (.undecodable line cause) ∧
          countBytes (first ++ second) = .error (.undecodable (before.total + line) cause)) ∨
        ∃ after, countBytes second = .ok after ∧
          countBytes (first ++ second) = .ok (before + after)) ∧
    (Utf8.IsText first → Utf8.IsText second → first.getLast? = some Stream.carriageReturn →
      second.head? ≠ some Stream.newline →
      ∃ before after, countBytes first = .ok before ∧ countBytes second = .ok after ∧
        countBytes (first ++ second) = .ok (before + after)) := by
  refine ⟨fun ends => ?_, countBytes_append_of_return⟩
  have whole := countBytes_append_of_newline ends second
  constructor
  · intro fault failed
    rw [whole, failed]
  · intro before counted
    rw [counted] at whole
    rcases countBytes_cases second with ⟨_, after, fine⟩ | ⟨_, line, cause, failed⟩
    · rw [fine] at whole
      exact Or.inr ⟨after, fine, whole⟩
    · rw [failed] at whole
      exact Or.inl ⟨line, cause, failed, whole⟩

/-- The bad byte is on the second line of the second part, so on the third of the whole. The carriage
returns end two lines, one of them in each part. -/
theorem countBytes_append_parts :
    countBytes ([0x23, 0x0D, 0x0A] ++ [0x0A, 0xFF]) = .error (.undecodable 3 ⟨0, some 1⟩) ∧
      countBytes ([0x61, 0x0D] ++ [0x0D, 0x23]) = .ok ⟨1, 1, 1⟩ := by
  constructor
  · have counted : countBytes [0x23, 0x0D, 0x0A] = .ok ⟨0, 0, 1⟩ := by
      rw [countBytes, count, Stream.pieces_ofBytes]
      rfl
    have failed : countBytes [0x0A, 0xFF] = .error (.undecodable 2 ⟨0, some 1⟩) := by
      rw [countBytes, count, Stream.pieces_ofBytes]
      rfl
    have parts := ((countBytes_append [0x23, 0x0D, 0x0A] [0x0A, 0xFF]).1 (Or.inr rfl)).2 _ counted
    rcases parts with ⟨line, cause, reported, whole⟩ | ⟨after, fine, _⟩
    · rw [failed] at reported
      cases reported
      exact whole
    · rw [failed] at fine
      cases fine
  · have counted : countBytes [0x61, 0x0D] = .ok ⟨1, 0, 0⟩ := by
      rw [countBytes, count, Stream.pieces_ofBytes]
      rfl
    have counted' : countBytes [0x0D, 0x23] = .ok ⟨0, 1, 1⟩ := by
      rw [countBytes, count, Stream.pieces_ofBytes]
      rfl
    obtain ⟨before, after, first, second, whole⟩ := (countBytes_append [0x61, 0x0D] [0x0D, 0x23]).2
      ⟨['a', '\r'], rfl⟩ ⟨['\r', '#'], rfl⟩ rfl (by decide)
    rw [counted] at first
    rw [counted'] at second
    cases first
    cases second
    exact whole

end Tally

end LineCensus
