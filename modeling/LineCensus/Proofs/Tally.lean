import LineCensus.Proofs.Lines
import LineCensus.Proofs.Pieces
import LineCensus.Proofs.Utf8.Fault
import LineCensus.Tally

/-!
# Counting piece by piece

Counting reads one piece at a time, and all bytes together are its measure. `countBytes_encode`
shows that the counts of a text are those of its lines in one pass. `countBytes_fault` shows that
the fault found in a piece is the first fault of all bytes, seen from the beginning of the piece.
-/

namespace LineCensus.Tally
open Text

def addLines (tally : Tally) (lines : List (List Char)) : Tally :=
  lines.foldl addLine tally

theorem addLines_eq (tally : Tally) (lines : List (List Char)) :
    tally.addLines lines = ⟨tally.counts.recordLines lines, tally.line + lines.length⟩ := by
  induction lines generalizing tally with
  | nil => rfl
  | cons line rest ih =>
    have step : tally.addLines (line :: rest) = (tally.addLine line).addLines rest := rfl
    rw [step, ih, List.length_cons, addLine]
    simp only [mk.injEq]
    exact ⟨rfl, by omega⟩

theorem addLines_append (tally : Tally) (xs ys : List (List Char)) :
    tally.addLines (xs ++ ys) = (tally.addLines xs).addLines ys :=
  List.foldl_append

theorem addPiece_of_decode {bytes : List UInt8} {text : List Char}
    (h : Utf8.decode bytes = .ok text) (tally : Tally) :
    tally.addPiece { bytes } = .ok (tally.addLines (pieceLines text)) := by
  simp only [addPiece, h]
  rfl

theorem addPiece_of_fault {bytes : List UInt8} {fault : Utf8.Fault}
    (h : Utf8.decode bytes = .error fault) (tally : Tally) :
    tally.addPiece { bytes } = .error (.undecodable (tally.line + 1) fault) := by
  simp only [addPiece, h]

theorem addPieces_cons_ok {tally next : Tally} {piece : Stream.Piece}
    (h : tally.addPiece piece = .ok next) (rest : List Stream.Piece) :
    tally.addPieces (piece :: rest) = next.addPieces rest := by
  simp only [addPieces, h]

theorem addPieces_cons_error {tally : Tally} {fault : Fault} {piece : Stream.Piece}
    (h : tally.addPiece piece = .error fault) (rest : List Stream.Piece) :
    tally.addPieces (piece :: rest) = .error fault := by
  simp only [addPieces, h]

theorem addPieces_newline {body : List UInt8} {text : List Char} (none : Stream.newline ∉ body)
    (h : Utf8.decode (body ++ [Stream.newline]) = .ok text) (tally : Tally) (rest : List UInt8) :
    tally.addPieces (Stream.pieces (.ofBytes (body ++ Stream.newline :: rest))) =
      (tally.addLines (universalLines text)).addPieces (Stream.pieces (.ofBytes rest)) := by
  obtain ⟨line, rfl, rfl⟩ := Utf8.text_of_newline (Utf8.decode_eq_ok_iff.mp h)
  have feed : '\n' ∉ line := fun mem => none ((Utf8.newline_mem_encode line).mpr mem)
  rw [Stream.pieces_cons none, addPieces_cons_ok (addPiece_of_decode h tally),
    pieceLines_append_newline feed]

theorem universalLines_append_of_newline {body : List UInt8} {first : List Char}
    (h : body ++ [Stream.newline] = Utf8.encode first) (rest : List Char) :
    universalLines (first ++ rest) = universalLines first ++ universalLines rest := by
  obtain ⟨line, rfl, rfl⟩ := Utf8.text_of_newline h
  exact universalLines_append (Or.inl List.getLast?_concat)

/-! ### Texts -/

theorem addPieces_of_decode {bytes : List UInt8} {text : List Char}
    (h : Utf8.decode bytes = .ok text) (tally : Tally) :
    tally.addPieces (Stream.pieces (.ofBytes bytes)) = .ok (tally.addLines (universalLines text)) := by
  induction bytes using Stream.pieceInduction generalizing tally text with
  | nil =>
    cases h
    rw [Stream.pieces_ofBytes]
    rfl
  | last body nonempty none =>
    obtain rfl := Utf8.decode_eq_ok_iff.mp h
    have feed : '\n' ∉ text := fun mem => none ((Utf8.newline_mem_encode text).mpr mem)
    have someText : text ≠ [] := by
      rintro rfl
      exact nonempty rfl
    rw [Stream.pieces_last nonempty none, addPieces_cons_ok (addPiece_of_decode h tally),
      pieceLines_of_not_mem feed someText]
    rfl
  | cons body rest none ih =>
    cases first : Utf8.decode (body ++ [Stream.newline]) with
    | error fault =>
      rw [Utf8.decode_append_of_error (by decide) first] at h
      cases h
    | ok line =>
      have bytes := Utf8.decode_eq_ok_iff.mp first
      rw [List.append_cons, bytes, Utf8.decode_append] at h
      split at h
      next more decoded =>
        cases h
        rw [addPieces_newline none first, ih decoded, universalLines_append_of_newline bytes,
          addLines_append]
      next => cases h

/-- The counts of a text are the numbers of its lines of each kind, whatever ends the lines. -/
theorem countBytes_encode (text : List Char) :
    countBytes (Utf8.encode text) =
      .ok {
        code := ((universalLines text).map Line.classify).count .code
        blank := ((universalLines text).map Line.classify).count .blank
        comment := ((universalLines text).map Line.classify).count .comment } := by
  rw [countBytes, count, addPieces_of_decode (Utf8.decode_encode text), addLines_eq,
    ← Counts.ofLines_eq]
  rfl

/-! ### Bytes that are no text -/

/-- `whole`, a fault of all bytes, lies in `piece`, behind the text at `head`, and `cause` is the
same fault seen from there. -/
structure LiesIn (head piece tail : List UInt8) (text : List Char) (whole cause : Utf8.Fault) :
    Prop where
  isPiece : Stream.IsPiece head piece tail
  head_eq : head = Utf8.encode text
  starts : head.length ≤ whole.validUpTo
  inside : whole.validUpTo < head.length + piece.length
  validUpTo : head.length + cause.validUpTo = whole.validUpTo
  refused : cause.refused = whole.refused

theorem liesIn_first {piece tail : List UInt8} {whole : Utf8.Fault}
    (isPiece : Stream.IsPiece [] piece tail) (h : Utf8.decode piece = .error whole) :
    LiesIn [] piece tail [] whole whole := by
  have inside := (Utf8.firstIn_of_decode h).inside
  exact ⟨isPiece, rfl, Nat.zero_le _, by simpa using inside, Nat.zero_add _, rfl⟩

theorem LiesIn.behind {body head piece tail : List UInt8} {first text : List Char}
    {whole cause : Utf8.Fault} (bytes : body ++ [Stream.newline] = Utf8.encode first)
    (h : LiesIn head piece tail text whole cause) :
    LiesIn (body ++ Stream.newline :: head) piece tail (first ++ text)
      (whole.moved (Utf8.encode first).length) cause := by
  have length : (body ++ Stream.newline :: head).length = (Utf8.encode first).length + head.length := by
    rw [← bytes, List.append_cons, List.length_append]
  refine ⟨h.isPiece.after_newline body, ?_, ?_, ?_, ?_, h.refused⟩
  · rw [Utf8.encode_append, ← bytes, ← h.head_eq, List.append_cons]
  · rw [length]
    exact Nat.add_le_add_left h.starts _
  · rw [length, Nat.add_assoc]
    exact Nat.add_lt_add_left h.inside _
  · rw [length, Nat.add_assoc, h.validUpTo]
    rfl

theorem addPieces_of_fault {bytes : List UInt8} {whole : Utf8.Fault}
    (h : Utf8.decode bytes = .error whole) (tally : Tally) :
    ∃ head piece tail text cause, bytes = head ++ piece ++ tail ∧
      LiesIn head piece tail text whole cause ∧
      tally.addPieces (Stream.pieces (.ofBytes bytes)) =
        .error (.undecodable (tally.line + (universalLines text).length + 1) cause) := by
  induction bytes using Stream.pieceInduction generalizing tally whole with
  | nil => cases h
  | last body nonempty none =>
    refine ⟨[], body, [], [], whole, by simp, liesIn_first (Stream.isPiece_last none) h, ?_⟩
    rw [Stream.pieces_last nonempty none, addPieces_cons_error (addPiece_of_fault h tally)]
    rfl
  | cons body rest none ih =>
    cases first : Utf8.decode (body ++ [Stream.newline]) with
    | error fault =>
      rw [Utf8.decode_append_of_error (by decide) first] at h
      cases h
      refine ⟨[], body ++ [Stream.newline], rest, [], whole, by simp,
        liesIn_first (Stream.isPiece_first none rest) first, ?_⟩
      rw [Stream.pieces_cons none, addPieces_cons_error (addPiece_of_fault first tally)]
      rfl
    | ok line =>
      have bytes := Utf8.decode_eq_ok_iff.mp first
      rw [List.append_cons, bytes, Utf8.decode_append] at h
      split at h
      next => cases h
      next fault decoded =>
        cases h
        obtain ⟨head, piece, tail, text, cause, rfl, lies, stopped⟩ :=
          ih decoded (tally.addLines (universalLines line))
        refine ⟨_, piece, tail, line ++ text, cause, ?_, lies.behind bytes, ?_⟩
        · simp
        · rw [addPieces_newline none first, stopped, universalLines_append_of_newline bytes,
            addLines_eq, List.length_append, Nat.add_assoc tally.line]

/-- Counting succeeds exactly on texts. Otherwise it reports the first fault of all bytes from the
beginning of its piece, with the number of the line that begins there. -/
theorem countBytes_fault (bytes : List UInt8) :
    ((∃ counts, countBytes bytes = .ok counts) ↔ Utf8.IsText bytes) ∧
      (Utf8.IsText bytes ∨ ∃ whole head piece tail text cause,
        Utf8.decode bytes = .error whole ∧ whole.FirstIn bytes ∧
        bytes = head ++ piece ++ tail ∧ LiesIn head piece tail text whole cause ∧
        (cause.refused = none ↔ Utf8.BeginsText bytes) ∧
        countBytes bytes = .error (.undecodable (1 + (universalLines text).length) cause)) := by
  cases decoded : Utf8.decode bytes with
  | ok text =>
    have isText : Utf8.IsText bytes := ⟨text, Utf8.decode_eq_ok_iff.mp decoded⟩
    have counted := addPieces_of_decode decoded {}
    refine ⟨⟨fun _ => isText, fun _ => ?_⟩, Or.inl isText⟩
    rw [countBytes, count, counted]
    exact ⟨_, rfl⟩
  | error whole =>
    have first := Utf8.firstIn_of_decode decoded
    obtain ⟨head, piece, tail, text, cause, split, lies, stopped⟩ := addPieces_of_fault decoded {}
    have counted : countBytes bytes = .error (.undecodable (1 + (universalLines text).length) cause) := by
      rw [countBytes, count, stopped, Nat.zero_add, Nat.add_comm]
      rfl
    refine ⟨⟨?_, fun isText => absurd isText first.not_isText⟩, Or.inr ⟨whole, head, piece, tail,
      text, cause, rfl, first, split, lies, ?_, counted⟩⟩
    · rintro ⟨counts, succeeded⟩
      rw [counted] at succeeded
      cases succeeded
    · rw [lies.refused]
      exact first.incomplete

end LineCensus.Tally
