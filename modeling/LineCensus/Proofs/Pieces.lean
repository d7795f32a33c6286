import Mathlib.Data.List.TakeWhile
import LineCensus.Proofs.Utf8.Concat
import LineCensus.Stream

/-!
# Pieces of bytes and of texts

`First` says what the first piece of some bytes and failures is. Reading takes it from a stream however
the bytes come in chunks (`first_of_readPiece`), so the pieces that are read are those that the bytes and
failures are cut into (`pieces_eq_cut`). `pieceInduction` goes through bytes a piece at a time, and
`pieces_cons` and `pieces_last` say what the pieces are. `text_of_newline` shows that the one line feed of a
piece of text stands at its end.
-/

namespace LineCensus.Stream

/-- Some bytes stand between two cuts, and there is no cut inside. -/
structure IsPiece (head piece tail : List UInt8) : Prop where
  begins : head = [] ∨ head.getLast? = some newline
  inner : newline ∉ piece.dropLast
  ends : tail = [] ∨ piece.getLast? = some newline

@[elab_as_elim]
theorem pieceInduction {motive : List UInt8 → Prop} (nil : motive [])
    (last : ∀ body, body ≠ [] → newline ∉ body → motive body)
    (cons : ∀ body rest, newline ∉ body → motive rest → motive (body ++ newline :: rest))
    (bytes : List UInt8) : motive bytes := by
  by_cases mem : newline ∈ bytes
  · obtain ⟨body, rest, split, none⟩ := List.eq_append_cons_of_mem mem
    have shorter : rest.length < bytes.length := by
      rw [split, List.length_append, List.length_cons]
      omega
    have smaller := pieceInduction nil last cons rest
    rw [split]
    exact cons body rest none smaller
  · by_cases empty : bytes = []
    · rw [empty]
      exact nil
    · exact last bytes empty mem
termination_by bytes.length

theorem isPiece_last {body : List UInt8} (none : newline ∉ body) : IsPiece [] body [] :=
  ⟨Or.inl rfl, fun mem => none (List.dropLast_subset _ mem), Or.inl rfl⟩

theorem isPiece_first {body : List UInt8} (none : newline ∉ body) (rest : List UInt8) :
    IsPiece [] (body ++ [newline]) rest := by
  refine ⟨Or.inl rfl, ?_, Or.inr List.getLast?_concat⟩
  rwa [List.dropLast_concat]

theorem IsPiece.after_newline {head piece tail : List UInt8} (h : IsPiece head piece tail)
    (body : List UInt8) : IsPiece (body ++ newline :: head) piece tail := by
  refine ⟨Or.inr ?_, h.inner, h.ends⟩
  rcases h.begins with rfl | ends
  · exact List.getLast?_concat
  · rw [List.getLast?_append, List.getLast?_cons, ends]
    rfl

/-! ### What cutting makes -/

theorem join_newline (pieces : List Piece) :
    (Signal.byte newline).join pieces = { bytes := [newline] } :: pieces := by
  unfold Signal.join
  exact if_pos rfl

theorem join_other {b : UInt8} (h : b ≠ newline) (piece : Piece) (rest : List Piece) :
    (Signal.byte b).join (piece :: rest) = { piece with bytes := b :: piece.bytes } :: rest :=
  if_neg h

theorem cut_body {body : List UInt8} (none : newline ∉ body) (piece : Piece) (rest : List Piece) :
    (body.map Signal.byte).foldr Signal.join (piece :: rest) =
      { piece with bytes := body ++ piece.bytes } :: rest := by
  induction body with
  | nil => rfl
  | cons b more ih =>
    rw [List.mem_cons, not_or] at none
    rw [List.map_cons, List.foldr_cons, ih none.2, join_other (Ne.symm none.1)]
    rfl

theorem cut_newline {body : List UInt8} (none : newline ∉ body) (later : List Signal) :
    cut (body.map .byte ++ .byte newline :: later) = { bytes := body ++ [newline] } :: cut later := by
  unfold cut
  rw [List.foldr_append, List.foldr_cons, join_newline, cut_body none]

theorem cut_failure {body : List UInt8} (none : newline ∉ body) (report : String)
    (later : List Signal) :
    cut (body.map .byte ++ .failure report :: later) =
      { bytes := body, failure := some report } :: cut later := by
  unfold cut
  rw [List.foldr_append, List.foldr_cons]
  show (body.map Signal.byte).foldr Signal.join (⟨[], some report⟩ :: _) = _
  rw [cut_body none, List.append_nil]

theorem cut_last {body : List UInt8} (nonempty : body ≠ []) (none : newline ∉ body) :
    cut (body.map .byte) = [{ bytes := body }] := by
  have split := List.dropLast_concat_getLast nonempty
  have noneBefore : newline ∉ body.dropLast := fun mem => none (List.dropLast_subset _ mem)
  have noneLast : body.getLast nonempty ≠ newline := fun same =>
    none (same ▸ List.getLast_mem nonempty)
  rw [cut, ← split, List.map_append, List.foldr_append, List.map_singleton, List.foldr_cons,
    List.foldr_nil,
    show (Signal.byte (body.getLast nonempty)).join [] = [{ bytes := [body.getLast nonempty] }] from
      if_neg noneLast, cut_body noneBefore]

/-! ### What reading makes -/

theorem signals_cons (event : Event) (rest : Stream) :
    signals (event :: rest) = event.signals ++ signals rest :=
  List.flatMap_cons

theorem ne_newline {body : List UInt8} (none : newline ∉ body) :
    ∀ b ∈ body, (b != newline) = true := by
  intro b mem
  rw [bne_iff_ne]
  rintro rfl
  exact none mem

theorem readFrom_chunk {bytes : List UInt8} (none : newline ∉ bytes) (begun : List UInt8)
    (rest : Stream) : readFrom begun (.chunk bytes :: rest) = readFrom (begun ++ bytes) rest := by
  have all := List.dropWhile_eq_nil_iff.mpr (ne_newline none)
  rw [readFrom, all]

theorem readFrom_newline {body : List UInt8} (none : newline ∉ body) (begun more : List UInt8)
    (rest : Stream) :
    readFrom begun (.chunk (body ++ newline :: more) :: rest) =
      some ({ bytes := begun ++ body ++ [newline] }, .chunk more :: rest) := by
  have stop : (newline != newline) = false := bne_self_eq_false _
  have before : (body ++ newline :: more).takeWhile (· != newline) = body := by
    rw [List.takeWhile_append_of_pos (ne_newline none), List.takeWhile_cons, stop]
    simp
  have after : (body ++ newline :: more).dropWhile (· != newline) = newline :: more := by
    rw [List.dropWhile_append_of_pos (ne_newline none), List.dropWhile_cons, stop]
    simp
  rw [readFrom, after, before]

/-- The first piece of some bytes and failures, and what is left behind it. -/
inductive First : List Signal → Piece → List Signal → Prop where
  | newline {body : List UInt8} (none : newline ∉ body) (rest : List Signal) :
      First (body.map .byte ++ .byte newline :: rest) { bytes := body ++ [newline] } rest
  | failure {body : List UInt8} (none : newline ∉ body) (report : String) (rest : List Signal) :
      First (body.map .byte ++ .failure report :: rest) { bytes := body, failure := some report } rest
  | last {body : List UInt8} (nonempty : body ≠ []) (none : newline ∉ body) :
      First (body.map .byte) { bytes := body } []

/-- What a piece takes from the bytes and failures. -/
def Piece.signals (piece : Piece) : List Signal :=
  piece.bytes.map .byte ++ (piece.failure.map .failure).toList

theorem First.signals {signals rest : List Signal} {piece : Piece} (first : First signals piece rest) :
    signals = piece.signals ++ rest := by
  cases first with
  | newline none rest => simp [Piece.signals]
  | failure none report rest => simp [Piece.signals]
  | last nonempty none => simp [Piece.signals]

theorem First.cut {signals rest : List Signal} {piece : Piece} (first : First signals piece rest) :
    Stream.cut signals = piece :: Stream.cut rest := by
  cases first with
  | newline none rest => exact cut_newline none rest
  | failure none report rest => exact cut_failure none report rest
  | last nonempty none => exact cut_last nonempty none

theorem First.ne_nil {signals rest : List Signal} {piece : Piece} (first : First signals piece rest) :
    signals ≠ [] := by
  rintro rfl
  cases first.cut

theorem First.unique {signals rest more : List Signal} {piece other : Piece}
    (first : First signals piece rest) (same : First signals other more) :
    piece = other ∧ rest = more := by
  obtain ⟨rfl, _⟩ := List.cons.inj (first.cut.symm.trans same.cut)
  exact ⟨rfl, List.append_cancel_left (first.signals.symm.trans same.signals)⟩

/-- A piece that has begun is read to where the first newline or failure ends it, however its bytes
come in chunks. -/
theorem first_of_readFrom {begun : List UInt8} (none : newline ∉ begun) (stream : Stream) :
    match readFrom begun stream with
    | some (piece, rest) => First (begun.map .byte ++ stream.signals) piece rest.signals
    | Option.none => begun.map .byte ++ stream.signals = [] := by
  induction stream generalizing begun with
  | nil =>
    rw [show signals [] = [] from rfl, List.append_nil]
    cases begun with
    | nil => rfl
    | cons b more => exact .last (List.cons_ne_nil b more) none
  | cons event rest ih =>
    rw [signals_cons]
    cases event with
    | interrupted => exact ih none
    | failed report => exact .failure none report (signals rest)
    | chunk bytes =>
      show match readFrom begun (.chunk bytes :: rest) with
        | some (piece, rest') =>
          First (begun.map .byte ++ (bytes.map .byte ++ signals rest)) piece rest'.signals
        | Option.none => begun.map .byte ++ (bytes.map .byte ++ signals rest) = []
      by_cases mem : newline ∈ bytes
      · obtain ⟨body, more, rfl, noneBefore⟩ := List.eq_append_cons_of_mem mem
        have whole : newline ∉ begun ++ body := by
          rw [List.mem_append, not_or]
          exact ⟨none, noneBefore⟩
        have first := First.newline whole (more.map .byte ++ signals rest)
        rw [readFrom_newline noneBefore]
        simpa [signals_cons, Event.signals] using first
      · have whole : newline ∉ begun ++ bytes := by
          rw [List.mem_append, not_or]
          exact ⟨none, mem⟩
        rw [readFrom_chunk mem, ← List.append_assoc, ← List.map_append]
        exact ih whole

theorem first_of_readPiece {stream rest : Stream} {piece : Piece}
    (read : stream.readPiece = some (piece, rest)) : First stream.signals piece rest.signals := by
  have first := first_of_readFrom List.not_mem_nil stream
  unfold readPiece at read
  rw [read] at first
  exact first

theorem readPiece_eq_none_iff {stream : Stream} : stream.readPiece = none ↔ stream.signals = [] := by
  have first := first_of_readFrom List.not_mem_nil stream
  unfold readPiece
  constructor
  · intro read
    rw [read] at first
    exact first
  · intro empty
    cases read : readFrom [] stream with
    | none => rfl
    | some both =>
      rw [read] at first
      exact absurd empty (First.ne_nil first)

theorem pieces_eq (stream : Stream) :
    stream.pieces =
      match stream.readPiece with
      | some (piece, rest) => piece :: rest.pieces
      | none => [] := by
  rw [pieces]
  split
  · next read => rw [read]
  · next read => simp only [read]

/-- Only the bytes and the failures between them decide what the pieces are. -/
theorem pieces_eq_cut (stream : Stream) : stream.pieces = cut stream.signals := by
  rw [pieces_eq]
  cases read : stream.readPiece with
  | none =>
    rw [readPiece_eq_none_iff.mp read]
    rfl
  | some both =>
    have : both.2.size < stream.size := by simpa using size_readFrom read
    rw [(first_of_readPiece read).cut]
    simp only
    rw [pieces_eq_cut both.2]
termination_by stream.size

theorem pieces_bytes (stream : Stream) :
    stream.pieces.flatMap Piece.bytes = delivered stream.signals := by
  rw [pieces_eq_cut]
  exact cut_bytes _

/-! ### The pieces that are counted -/

theorem pieces_ofBytes (bytes : List UInt8) : pieces (ofBytes bytes) = cut (bytes.map .byte) := by
  rw [pieces_eq_cut, signals, ofBytes, List.flatMap_singleton]
  rfl

theorem pieces_cons {body : List UInt8} (none : newline ∉ body) (rest : List UInt8) :
    pieces (ofBytes (body ++ newline :: rest)) =
      { bytes := body ++ [newline] } :: pieces (ofBytes rest) := by
  rw [pieces_ofBytes, pieces_ofBytes, List.map_append, List.map_cons, cut_newline none]

theorem pieces_last {body : List UInt8} (nonempty : body ≠ []) (none : newline ∉ body) :
    pieces (ofBytes body) = [{ bytes := body }] := by
  rw [pieces_ofBytes, cut_last nonempty none]

end LineCensus.Stream

namespace LineCensus.Text.Utf8

theorem le_trailers (n k : Nat) : ∀ b ∈ trailers n k, 0x80 ≤ b := by
  induction k with
  | zero => nofun
  | succ k ih =>
    intro b mem
    rcases List.mem_cons.mp mem with rfl | mem
    · rw [UInt8.le_iff_toNat_le, toNat_trailer]
      exact Nat.le_add_right _ _
    · exact ih b mem

/-- A byte below 0x80 is never part of a longer character. -/
theorem single_mem_encodeChar {b : UInt8} (single : b < 0x80) (c : Char) :
    b ∈ String.utf8EncodeChar c ↔ c.toNat = b.toNat := by
  by_cases small : c.toNat < 0x80
  · have byte : (UInt8.ofNat c.toNat).toNat = c.toNat := by
      rw [UInt8.toNat_ofNat']
      omega
    rw [encodeChar_eq, if_pos small, List.mem_singleton, ← UInt8.toNat_inj, byte]
    exact eq_comm
  · obtain ⟨first, p, lead, admits⟩ := exists_first c (by omega)
    have bytes := ((lead_holds lead).encode _ admits).2
    rw [Char.ofNat_toNat] at bytes
    rw [bytes, List.singleton_append, List.mem_cons]
    constructor
    · rintro (rfl | mem)
      · exact absurd single (not_lt_of_lead lead)
      · have high := le_trailers _ _ _ mem
        rw [UInt8.le_iff_toNat_le] at high
        rw [UInt8.lt_iff_toNat_lt] at single
        omega
    · intro same
      rw [UInt8.lt_iff_toNat_lt] at single
      exact absurd (same ▸ single) small

theorem newline_mem_encodeChar (c : Char) :
    Stream.newline ∈ String.utf8EncodeChar c ↔ c = '\n' := by
  rw [single_mem_encodeChar (by decide), ← Char.toNat_inj]
  exact Iff.rfl

theorem encode_eq_nil_iff (text : List Char) : encode text = [] ↔ text = [] := by
  cases text with
  | nil => exact iff_of_true rfl rfl
  | cons c rest => simp [encode, String.utf8EncodeChar_ne_nil]

theorem newline_mem_encode (text : List Char) : Stream.newline ∈ encode text ↔ '\n' ∈ text := by
  rw [encode, List.mem_flatMap]
  constructor
  · rintro ⟨c, mem, inside⟩
    exact (newline_mem_encodeChar c).mp inside ▸ mem
  · intro mem
    exact ⟨'\n', mem, (newline_mem_encodeChar '\n').mpr rfl⟩

/-- A byte below 0x80 at the end of a text is a character of its own. -/
theorem text_of_single {body : List UInt8} {text : List Char} {b : UInt8} (single : b < 0x80)
    (h : body ++ [b] = encode text) :
    ∃ line, text = line ++ [Char.ofNat b.toNat] ∧ body = encode line := by
  rcases List.eq_nil_or_concat text with rfl | ⟨line, c, rfl⟩
  · exact absurd h (List.append_ne_nil_of_right_ne_nil _ (List.cons_ne_nil _ _))
  rw [List.concat_eq_append] at h ⊢
  rw [encode_append, show encode [c] = String.utf8EncodeChar c from List.flatMap_singleton _ c] at h
  have last : (String.utf8EncodeChar c).getLast? = some b := by
    have ends := congrArg List.getLast? h
    rw [List.getLast?_concat, List.getLast?_append,
      List.getLast?_eq_some_getLast String.utf8EncodeChar_ne_nil, Option.some_or] at ends
    rw [List.getLast?_eq_some_getLast String.utf8EncodeChar_ne_nil, ends]
  have same := (single_mem_encodeChar single c).mp (List.mem_of_getLast? last)
  have char : c = Char.ofNat b.toNat := by rw [← same, Char.ofNat_toNat]
  rw [char, encodeChar_single single] at h
  exact ⟨line, by rw [char], List.append_cancel_right h⟩

theorem text_of_newline {body : List UInt8} {text : List Char}
    (h : body ++ [Stream.newline] = encode text) :
    ∃ line, text = line ++ ['\n'] ∧ body = encode line :=
  text_of_single (by decide) h

end LineCensus.Text.Utf8
