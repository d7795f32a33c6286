import LineCensus.Proofs.Tally.Concat

/-!
# Lines and bytes

`lineCount` reads the number of lines of a text off its bytes, by what ends them (`countBytes_total`). Counting comes
through one tally after the other, line by line, and may fail in the end: `Passes` are these tallies, and none of them
has recorded more lines than there are bytes (`Passes.total_le`).
-/

namespace LineCensus

namespace Stream
open Text

/-- The number of carriage returns that no newline follows. -/
def loneReturns : List UInt8 → Nat
  | [] => 0
  | b :: rest => (if b = carriageReturn ∧ rest.head? ≠ some newline then 1 else 0) + loneReturns rest

/-- One if the last byte ends no line. -/
def unended (bytes : List UInt8) : Nat :=
  if bytes = [] ∨ bytes.getLast? = some newline ∨ bytes.getLast? = some carriageReturn then 0 else 1

/-- The number of lines by what ends them. -/
def lineCount (bytes : List UInt8) : Nat :=
  bytes.count newline + loneReturns bytes + unended bytes

theorem unended_cons_cons (b c : UInt8) (rest : List UInt8) : unended (b :: c :: rest) = unended (c :: rest) := by
  unfold unended
  simp [List.getLast?_cons_cons]

theorem lineCount_newline (rest : List UInt8) : lineCount (newline :: rest) = lineCount rest + 1 := by
  have different : newline ≠ carriageReturn := by decide
  unfold lineCount
  rw [loneReturns, if_neg (fun both => different both.1), List.count_cons_self]
  cases rest with
  | nil => simp [unended, loneReturns]
  | cons b more =>
    rw [unended_cons_cons]
    omega

theorem lineCount_return {rest : List UInt8} (alone : rest.head? ≠ some newline) :
    lineCount (carriageReturn :: rest) = lineCount rest + 1 := by
  have different : carriageReturn ≠ newline := by decide
  unfold lineCount
  rw [loneReturns, if_pos ⟨rfl, alone⟩, List.count_cons_of_ne different]
  cases rest with
  | nil => simp [unended, loneReturns]
  | cons b more =>
    rw [unended_cons_cons]
    omega

theorem lineCount_return_newline (rest : List UInt8) :
    lineCount (carriageReturn :: newline :: rest) = lineCount rest + 1 := by
  have different : carriageReturn ≠ newline := by decide
  have first : lineCount (carriageReturn :: newline :: rest) = lineCount (newline :: rest) := by
    unfold lineCount
    rw [loneReturns, if_neg (by simp), List.count_cons_of_ne different, unended_cons_cons]
    omega
  rw [first, lineCount_newline]

/-- A byte that ends no line is the last one of a line, or it counts with the line that goes on behind it. -/
theorem lineCount_other {b : UInt8} (feed : b ≠ newline) (cr : b ≠ carriageReturn) (rest : List UInt8) :
    lineCount (b :: rest) = if rest = [] then 1 else lineCount rest := by
  unfold lineCount
  rw [loneReturns, if_neg (fun both => cr both.1), List.count_cons_of_ne feed]
  cases rest with
  | nil => simp [unended, loneReturns, feed, cr]
  | cons c more =>
    rw [unended_cons_cons]
    simp

theorem lineCount_skip {bytes : List UInt8} (feed : newline ∉ bytes) (cr : carriageReturn ∉ bytes)
    (nonempty : bytes ≠ []) (rest : List UInt8) :
    lineCount (bytes ++ rest) = if rest = [] then 1 else lineCount rest := by
  induction bytes with
  | nil => exact absurd rfl nonempty
  | cons b more ih =>
    simp only [List.mem_cons, not_or] at feed cr
    rw [List.cons_append, lineCount_other (Ne.symm feed.1) (Ne.symm cr.1)]
    cases more with
    | nil => rfl
    | cons c others =>
      rw [if_neg (by simp)]
      exact ih feed.2 cr.2 (List.cons_ne_nil c others)

theorem lineCount_le (bytes : List UInt8) : lineCount bytes ≤ bytes.length := by
  induction bytes with
  | nil => simp [lineCount, loneReturns, unended]
  | cons b rest ih =>
    rw [List.length_cons]
    by_cases feed : b = newline
    · rw [feed, lineCount_newline]
      omega
    · by_cases cr : b = carriageReturn
      · subst cr
        by_cases alone : rest.head? = some newline
        · obtain ⟨more, rfl⟩ := List.head?_eq_some_iff.mp alone
          rw [lineCount_return_newline]
          rw [lineCount_newline] at ih
          omega
        · rw [lineCount_return alone]
          omega
      · rw [lineCount_other feed cr]
        split <;> omega

/-- The induction follows the lines of the text; `begun` are the characters of the first one that come before. -/
theorem length_universalLinesFrom (begun text : List Char) :
    (universalLinesFrom begun text).length =
      if text = [] ∧ begun ≠ [] then 1 else lineCount (Utf8.encode text) := by
  fun_induction universalLinesFrom begun text with
  | case1 begun empty => simp [List.isEmpty_iff.mp empty, lineCount, loneReturns, unended, Utf8.encode]
  | case2 begun nonempty => simp [List.isEmpty_iff.not.mp nonempty]
  | case3 begun rest ih =>
    have bytes : Utf8.encode ('\r' :: '\n' :: rest) = carriageReturn :: newline :: Utf8.encode rest := rfl
    rw [List.length_cons, ih, bytes, lineCount_return_newline]
    simp
  | case4 begun c rest single isEnd ih =>
    have next : lineCount (Utf8.encode (c :: rest)) = lineCount (Utf8.encode rest) + 1 := by
      rcases isEnd with rfl | rfl
      · exact lineCount_newline (Utf8.encode rest)
      · have alone : (Utf8.encode rest).head? ≠ some newline := by
          cases rest with
          | nil =>
            intro found
            cases found
          | cons d more =>
            have first : (d :: more).head? ≠ some '\n' := by
              intro same
              obtain rfl := Option.some.inj same
              exact single more rfl rfl
            have head := head?_encode first (List.cons_ne_nil d more) []
            rwa [List.append_nil] at head
        exact lineCount_return alone
    rw [List.length_cons, ih, next]
    simp
  | case5 begun c rest _ other ih =>
    rw [not_or] at other
    have feed : newline ∉ String.utf8EncodeChar c := fun mem => other.1 ((Utf8.newline_mem_encodeChar c).mp mem)
    have cr : carriageReturn ∉ String.utf8EncodeChar c := fun mem => other.2 ((return_mem_encodeChar c).mp mem)
    rw [ih, encode_cons, lineCount_skip feed cr String.utf8EncodeChar_ne_nil]
    simp [Utf8.encode_eq_nil_iff]

theorem length_universalLines (text : List Char) :
    (universalLines text).length = lineCount (Utf8.encode text) := by
  unfold universalLines
  rw [length_universalLinesFrom, if_neg (fun both => both.2 rfl)]

/-! ### Pieces -/

/-- Each piece of some bytes has a byte, and its newline, if it has one, stands at its end. -/
theorem pieces_inner (bytes : List UInt8) :
    ∀ piece ∈ pieces (.ofBytes bytes), piece.bytes ≠ [] ∧ newline ∉ piece.bytes.dropLast := by
  induction bytes using pieceInduction with
  | nil =>
    rw [pieces_ofBytes]
    nofun
  | last body nonempty none =>
    intro piece mem
    rw [pieces_last nonempty none] at mem
    obtain rfl := List.mem_singleton.mp mem
    exact ⟨nonempty, (isPiece_last none).inner⟩
  | cons body rest none ih =>
    intro piece mem
    rw [pieces_cons none] at mem
    rcases List.mem_cons.mp mem with rfl | mem
    · exact ⟨by simp, (isPiece_first none rest).inner⟩
    · exact ih piece mem

theorem length_pieces_bytes (bytes : List UInt8) :
    ((pieces (.ofBytes bytes)).flatMap Piece.bytes).length = bytes.length := by
  rw [pieces_ofBytes, cut_bytes]
  simp [delivered, List.filterMap_map]

theorem length_pieceLines_le {bytes : List UInt8} {text : List Char} (nonempty : bytes ≠ [])
    (inner : newline ∉ bytes.dropLast) (decoded : Utf8.decode bytes = .ok text) :
    (pieceLines text).length ≤ bytes.length := by
  have encoded := Utf8.decode_eq_ok_iff.mp decoded
  have lines : pieceLines text = universalLines text := by
    by_cases mem : newline ∈ bytes
    · have split := List.dropLast_concat_getLast nonempty
      have last : bytes.getLast nonempty = newline := by
        rw [← split, List.mem_append, List.mem_singleton] at mem
        exact (mem.resolve_left inner).symm
      rw [last, encoded] at split
      obtain ⟨line, rfl, body⟩ := Utf8.text_of_newline split
      rw [← encoded] at body
      rw [body, Utf8.newline_mem_encode] at inner
      exact pieceLines_append_newline inner
    · rw [encoded, Utf8.newline_mem_encode] at mem
      rw [encoded, ne_eq, Utf8.encode_eq_nil_iff] at nonempty
      exact pieceLines_of_not_mem mem nonempty
  rw [lines, length_universalLines, ← encoded]
  exact lineCount_le bytes

end Stream

namespace Tally
open Text

/-- A tally that counting some pieces comes through, beginning with another: that one itself, one behind some lines
of the first piece, or one that the rest is counted through. -/
inductive Passes : Tally → List Stream.Piece → Tally → Prop where
  | here (tally : Tally) (pieces : List Stream.Piece) : Passes tally pieces tally
  | inside {tally : Tally} {piece : Stream.Piece} {rest : List Stream.Piece} {text : List Char}
      {lines : List (List Char)} (complete : piece.failure = none)
      (decoded : Utf8.decode piece.bytes = .ok text) (front : lines <+: pieceLines text) :
      Passes tally (piece :: rest) (tally.addLines lines)
  | behind {tally next found : Tally} {piece : Stream.Piece} {rest : List Stream.Piece}
      (added : tally.addPiece piece = .ok next) (passes : Passes next rest found) :
      Passes tally (piece :: rest) found

variable {tally next found : Tally} {pieces : List Stream.Piece}

/-- Counting ends with a tally that it comes through. -/
theorem passes_of_addPieces (added : tally.addPieces pieces = .ok next) : Passes tally pieces next := by
  induction pieces generalizing tally with
  | nil =>
    obtain rfl := Except.ok.inj added
    exact .here _ _
  | cons piece rest ih =>
    unfold addPieces at added
    split at added
    · next middle first => exact .behind first (ih added)
    · cases added

theorem Passes.total (passes : Passes tally pieces found) (all : tally.line = tally.counts.total) :
    found.line = found.counts.total := by
  induction passes with
  | here => exact all
  | inside => rw [addLines_eq, Counts.total_recordLines, all]
  | behind added _ ih => exact ih (line_addPiece all added)

/-- The induction is on the way to the tally: a piece adds no more lines than it has bytes. -/
theorem Passes.line_le (passes : Passes tally pieces found)
    (inner : ∀ piece ∈ pieces, piece.bytes ≠ [] ∧ Stream.newline ∉ piece.bytes.dropLast) :
    found.line ≤ tally.line + (pieces.flatMap Stream.Piece.bytes).length := by
  induction passes with
  | here => omega
  | @inside tally piece rest text lines _ decoded front =>
    obtain ⟨nonempty, noFeed⟩ := inner piece List.mem_cons_self
    have most := Stream.length_pieceLines_le nonempty noFeed decoded
    have fewer := front.length_le
    rw [addLines_eq, List.flatMap_cons, List.length_append]
    dsimp only
    omega
  | @behind tally next found piece rest added _ ih =>
    obtain ⟨nonempty, noFeed⟩ := inner piece List.mem_cons_self
    obtain ⟨text, decoded, rfl⟩ := addPiece_eq_ok added
    have most := Stream.length_pieceLines_le nonempty noFeed decoded
    have later := ih fun piece mem => inner piece (List.mem_cons_of_mem _ mem)
    rw [addLines_eq] at later
    rw [List.flatMap_cons, List.length_append]
    dsimp only at later
    omega

/-- No tally that counting some bytes comes through has recorded more lines than there are bytes. -/
theorem Passes.total_le {bytes : List UInt8} (passes : Passes {} (Stream.pieces (.ofBytes bytes)) found) :
    found.line = found.counts.total ∧ found.counts.total ≤ bytes.length := by
  have all := passes.total rfl
  have bound := passes.line_le (Stream.pieces_inner bytes)
  rw [Stream.length_pieces_bytes] at bound
  dsimp only at bound
  exact ⟨all, by omega⟩

theorem countBytes_total {bytes : List UInt8} (isText : Utf8.IsText bytes) :
    ∃ counts, countBytes bytes = .ok counts ∧ counts.total = Stream.lineCount bytes := by
  obtain ⟨text, rfl⟩ := isText
  refine ⟨_, countBytes_of_decode (Utf8.decode_encode text), ?_⟩
  rw [Counts.total_ofLines, Stream.length_universalLines]

theorem total_le_of_countBytes {bytes : List UInt8} {counts : Counts} (counted : countBytes bytes = .ok counts) :
    counts.total ≤ bytes.length := by
  unfold countBytes count at counted
  cases added : addPieces {} (Stream.pieces (.ofBytes bytes)) with
  | error fault =>
    rw [added] at counted
    cases counted
  | ok last =>
    rw [added] at counted
    obtain rfl := Except.ok.inj counted
    exact (passes_of_addPieces added).total_le.2

/-- The lines before a fault take a byte each, and there is a bad one. -/
theorem line_le_of_countBytes {bytes : List UInt8} {line : Nat} {cause : Utf8.Fault}
    (failed : countBytes bytes = .error (.undecodable line cause)) : line ≤ bytes.length := by
  obtain ⟨succeeds, isText | ⟨whole, head, piece, tail, text, cause', _, _, split, lies, _, stopped⟩⟩ :=
    countBytes_fault bytes
  · obtain ⟨counts, counted⟩ := succeeds.mpr isText
    rw [failed] at counted
    cases counted
  · rw [failed] at stopped
    obtain ⟨rfl, _⟩ := Fault.undecodable.inj (Except.error.inj stopped)
    have before := Stream.lineCount_le (Utf8.encode text)
    rw [← Stream.length_universalLines, ← lies.head_eq] at before
    have starts := lies.starts
    have inside := lies.inside
    have length : bytes.length = head.length + piece.length + tail.length := by
      rw [split, List.length_append, List.length_append]
    omega

end Tally

end LineCensus
