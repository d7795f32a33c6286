import LineCensus.Proofs.Tally

/-!
# The line of a fault

`lineAt` is the number of the line that a byte is on. A fault is reported with the number of the line that
begins behind the last newline before it: `countBytes_faultLine` shows that this is the line of the bad
byte exactly if no carriage return stands in between.
-/

namespace LineCensus

namespace Stream

def carriageReturn : UInt8 := 0x0D

/-- The number of the line that the byte at an index is on. A newline ends a line, and a carriage return
does if no newline follows it. -/
def lineAt : List UInt8 → Nat → Nat
  | b :: rest, i + 1 =>
    if b = newline ∨ b = carriageReturn ∧ rest.head? ≠ some newline then lineAt rest i + 1
    else lineAt rest i
  | _, _ => 1

theorem lineAt_zero (bytes : List UInt8) : lineAt bytes 0 = 1 := by
  cases bytes <;> rfl

theorem lineAt_newline (rest : List UInt8) (i : Nat) :
    lineAt (newline :: rest) (i + 1) = lineAt rest i + 1 := by
  simp [lineAt]

theorem lineAt_return {rest : List UInt8} (alone : rest.head? ≠ some newline) (i : Nat) :
    lineAt (carriageReturn :: rest) (i + 1) = lineAt rest i + 1 := by
  simp [lineAt, alone]

theorem lineAt_return_newline (rest : List UInt8) (i : Nat) :
    lineAt (carriageReturn :: newline :: rest) (i + 2) = lineAt rest i + 1 := by
  have pair : lineAt (carriageReturn :: newline :: rest) (i + 2) = lineAt (newline :: rest) (i + 1) := by
    rw [lineAt, if_neg]
    simp [carriageReturn, newline]
  rw [pair, lineAt_newline]

/-- Bytes that end no line leave the number as it is. -/
theorem lineAt_skip {bytes : List UInt8} (none : newline ∉ bytes) (noReturn : carriageReturn ∉ bytes)
    (rest : List UInt8) (i : Nat) :
    lineAt (bytes ++ rest) (bytes.length + i) = lineAt rest i := by
  induction bytes with
  | nil => rw [List.nil_append, List.length_nil, Nat.zero_add]
  | cons b more ih =>
    simp only [List.mem_cons, not_or] at none noReturn
    have next : lineAt (b :: (more ++ rest)) (more.length + i + 1) =
        lineAt (more ++ rest) (more.length + i) := by
      simp [lineAt, Ne.symm none.1, Ne.symm noReturn.1]
    rw [List.cons_append, List.length_cons, Nat.add_right_comm, next]
    exact ih none.2 noReturn.2

/-- Up to a byte with no newline before it there are as many lines more as carriage returns. -/
theorem lineAt_of_no_newline {bytes : List UInt8} {i : Nat} (none : newline ∉ bytes.take (i + 1)) :
    lineAt bytes i = 1 + (bytes.take i).count carriageReturn := by
  induction bytes generalizing i with
  | nil => simp [lineAt]
  | cons b rest ih =>
    cases i with
    | zero => simp [lineAt]
    | succ i =>
      rw [List.take_succ_cons, List.mem_cons, not_or] at none
      have later := ih none.2
      have alone : rest.head? ≠ some newline := by
        intro first
        apply none.2
        cases rest with
        | nil => cases first
        | cons c more =>
          obtain rfl := Option.some.inj first
          exact List.mem_cons_self
      rw [List.take_succ_cons]
      by_cases isReturn : b = carriageReturn
      · subst isReturn
        rw [lineAt_return alone, later, List.count_cons_self]
        omega
      · have next : lineAt (b :: rest) (i + 1) = lineAt rest i := by
          simp [lineAt, Ne.symm none.1, isReturn]
        rw [next, later, List.count_cons_of_ne isReturn]

/-! ### Behind whole lines -/

open Text

theorem encode_cons (c : Char) (text : List Char) :
    Utf8.encode (c :: text) = String.utf8EncodeChar c ++ Utf8.encode text :=
  List.flatMap_cons

theorem head?_encode {text : List Char} (first : text.head? ≠ some '\n') (nonempty : text ≠ [])
    (rest : List UInt8) : (Utf8.encode text ++ rest).head? ≠ some newline := by
  obtain ⟨c, more, rfl⟩ := List.exists_cons_of_ne_nil nonempty
  obtain ⟨b, bytes, char⟩ := List.exists_cons_of_ne_nil (String.utf8EncodeChar_ne_nil (c := c))
  intro same
  rw [encode_cons, char, List.cons_append, List.cons_append, List.head?_cons] at same
  have mem : newline ∈ String.utf8EncodeChar c := by
    rw [char, ← Option.some.inj same]
    exact List.mem_cons_self
  rw [(Utf8.newline_mem_encodeChar c).mp mem] at first
  exact first rfl

theorem return_mem_encodeChar (c : Char) : carriageReturn ∈ String.utf8EncodeChar c ↔ c = '\r' := by
  rw [Utf8.single_mem_encodeChar (by decide), ← Char.toNat_inj]
  exact Iff.rfl

theorem lineAt_encodeChar {c : Char} (feed : c ≠ '\n') (cr : c ≠ '\r') (rest : List UInt8) (i : Nat) :
    lineAt (String.utf8EncodeChar c ++ rest) ((String.utf8EncodeChar c).length + i) = lineAt rest i := by
  apply lineAt_skip
  · exact fun mem => feed ((Utf8.newline_mem_encodeChar c).mp mem)
  · exact fun mem => cr ((return_mem_encodeChar c).mp mem)

/-- The induction follows the lines of the text. Its last line has ended, so none is begun behind it. -/
theorem lineAt_encode {begun text : List Char}
    (ends : text.getLast? = some '\n' ∨ text = [] ∧ begun = []) (rest : List UInt8) (i : Nat) :
    lineAt (Utf8.encode text ++ rest) ((Utf8.encode text).length + i) =
      (universalLinesFrom begun text).length + lineAt rest i := by
  have later {c : Char} {more : List Char} (ends : (c :: more).getLast? = some '\n') :
      more.getLast? = some '\n' ∨ more = [] ∧ ([] : List Char) = [] := by
    cases more with
    | nil => exact Or.inr ⟨rfl, rfl⟩
    | cons d more => exact Or.inl (by rwa [List.getLast?_cons_cons] at ends)
  fun_induction universalLinesFrom begun text with
  | case1 begun => simp [Utf8.encode]
  | case2 begun nonempty =>
    obtain ⟨-, rfl⟩ := ends.resolve_left (by simp)
    exact absurd rfl nonempty
  | case3 begun more ih =>
    have last := ends.resolve_right (by simp)
    rw [List.getLast?_cons_cons] at last
    have bytes : Utf8.encode ('\r' :: '\n' :: more) = carriageReturn :: newline :: Utf8.encode more := rfl
    rw [bytes, List.length_cons, List.length_cons, List.cons_append, List.cons_append,
      Nat.add_right_comm _ 1, Nat.add_right_comm _ 1, lineAt_return_newline, ih (later last),
      List.length_cons]
    omega
  | case4 begun c more single isEnd ih =>
    have last := ends.resolve_right (by simp)
    rcases isEnd with rfl | rfl
    · have bytes : Utf8.encode ('\n' :: more) = newline :: Utf8.encode more := rfl
      rw [bytes, List.length_cons, List.cons_append, Nat.add_right_comm, lineAt_newline,
        ih (later last), List.length_cons]
      omega
    · have bytes : Utf8.encode ('\r' :: more) = carriageReturn :: Utf8.encode more := rfl
      have nonempty : more ≠ [] := by
        rintro rfl
        cases last
      have alone : (Utf8.encode more ++ rest).head? ≠ some newline := by
        apply head?_encode _ nonempty
        intro first
        obtain ⟨others, rfl⟩ := List.head?_eq_some_iff.mp first
        exact single others rfl rfl
      rw [bytes, List.length_cons, List.cons_append, Nat.add_right_comm, lineAt_return alone,
        ih (later last), List.length_cons]
      omega
  | case5 begun c more _ other ih =>
    rw [not_or] at other
    have last : more.getLast? = some '\n' := by
      rcases later (ends.resolve_right (by simp)) with last | ⟨rfl, -⟩
      · exact last
      · have same := Option.some.inj (ends.resolve_right (by simp))
        exact absurd same other.1
    rw [encode_cons, List.append_assoc, List.length_append, Nat.add_assoc,
      lineAt_encodeChar other.1 other.2]
    exact ih (Or.inl last)

end Stream

namespace Tally

open LineCensus.Stream (newline carriageReturn lineAt)
open Text

/-- The first bad byte is no newline: a newline behind a text makes a longer one. -/
theorem not_newline_of_firstIn {bytes : List UInt8} {whole : Utf8.Fault} (first : whole.FirstIn bytes) :
    bytes[whole.validUpTo]? ≠ some newline := by
  intro bad
  obtain ⟨text, valid⟩ := first.valid
  have longer : bytes.take (whole.validUpTo + 1) = Utf8.encode (text ++ ['\n']) := by
    rw [List.take_add_one, bad, valid, Utf8.encode_append]
    rfl
  have most := first.longest (whole.validUpTo + 1) first.inside ⟨_, longer⟩
  omega

namespace LiesIn

variable {head piece tail : List UInt8} {text : List Char} {whole cause : Utf8.Fault}

/-- No newline stands in the piece up to the bad byte. -/
theorem clear (lies : LiesIn head piece tail text whole cause)
    (first : whole.FirstIn (head ++ piece ++ tail)) :
    newline ∉ (piece ++ tail).take (cause.validUpTo + 1) := by
  have inside : cause.validUpTo < piece.length := by
    have before := lies.inside
    rw [← lies.validUpTo] at before
    omega
  have bad : (piece ++ tail)[cause.validUpTo]? ≠ some newline := by
    have bad := not_newline_of_firstIn first
    rwa [← lies.validUpTo, List.append_assoc, List.getElem?_append_right (Nat.le_add_right _ _),
      Nat.add_sub_cancel_left] at bad
  rw [List.take_add_one, List.mem_append]
  rintro (mem | mem)
  · apply lies.isPiece.inner
    rw [List.take_append_of_le_length (Nat.le_of_lt inside)] at mem
    rw [List.dropLast_eq_take]
    exact List.take_subset_take_left _ (by omega) mem
  · exact bad (Option.mem_toList.mp mem)

theorem lineAt_behind (lies : LiesIn head piece tail text whole cause) (i : Nat) :
    lineAt (head ++ piece ++ tail) (head.length + i) =
      (universalLines text).length + lineAt (piece ++ tail) i := by
  have ends : text.getLast? = some '\n' ∨ text = [] ∧ ([] : List Char) = [] := by
    have begins := lies.isPiece.begins
    rw [lies.head_eq] at begins
    rcases begins with empty | last
    · exact Or.inr ⟨(Utf8.encode_eq_nil_iff text).mp empty, rfl⟩
    · left
      obtain ⟨body, split⟩ := List.getLast?_eq_some_iff.mp last
      obtain ⟨line, rfl, _⟩ := Utf8.text_of_newline split.symm
      exact List.getLast?_concat
  rw [List.append_assoc, lies.head_eq]
  exact Stream.lineAt_encode ends (piece ++ tail) i

end LiesIn

/-- A fault is reported on the line that begins behind the last newline before the bad byte. That is the
line of the bad byte exactly if no carriage return stands between them. -/
theorem countBytes_faultLine {bytes : List UInt8} (noText : ¬ Utf8.IsText bytes) :
    ∃ whole cause head between rest, Utf8.decode bytes = .error whole ∧ whole.FirstIn bytes ∧
      bytes = head ++ between ++ rest ∧ head.length + between.length = whole.validUpTo ∧
      (head = [] ∨ head.getLast? = some newline) ∧ newline ∉ between ∧
      countBytes bytes = .error (.undecodable (lineAt bytes head.length) cause) ∧
      lineAt bytes whole.validUpTo = lineAt bytes head.length + between.count carriageReturn ∧
      (lineAt bytes head.length = lineAt bytes whole.validUpTo ↔ carriageReturn ∉ between) := by
  cases decoded : Utf8.decode bytes with
  | ok text => exact absurd ⟨text, Utf8.decode_eq_ok_iff.mp decoded⟩ noText
  | error whole =>
    have first := Utf8.firstIn_of_decode decoded
    obtain ⟨head, piece, tail, text, cause, rfl, lies, stopped⟩ := addPieces_of_fault decoded {}
    have clear := lies.clear first
    have start : lineAt (head ++ piece ++ tail) head.length = 1 + (universalLines text).length := by
      have line := lies.lineAt_behind 0
      rw [Nat.add_zero, Stream.lineAt_zero] at line
      omega
    have upTo : lineAt (head ++ piece ++ tail) whole.validUpTo =
        lineAt (head ++ piece ++ tail) head.length +
          ((piece ++ tail).take cause.validUpTo).count carriageReturn := by
      rw [← lies.validUpTo, lies.lineAt_behind, Stream.lineAt_of_no_newline clear, start]
      omega
    have counted : countBytes (head ++ piece ++ tail) =
        .error (.undecodable (lineAt (head ++ piece ++ tail) head.length) cause) := by
      rw [countBytes, count, stopped, start, Nat.zero_add, Nat.add_comm]
      rfl
    refine ⟨whole, cause, head, (piece ++ tail).take cause.validUpTo,
      (piece ++ tail).drop cause.validUpTo, rfl, first, ?_, ?_, lies.isPiece.begins, ?_, counted, upTo, ?_⟩
    · rw [List.append_assoc, List.append_assoc, List.take_append_drop]
    · have inside := lies.inside
      rw [← lies.validUpTo] at inside ⊢
      rw [List.length_take, List.length_append]
      omega
    · exact fun mem => clear (List.take_subset_take_left _ (Nat.le_succ _) mem)
    · rw [upTo, ← List.count_eq_zero]
      omega

/-- The second line ends with a carriage return and the bad byte is on the third. -/
def returned : List UInt8 :=
  [0x61, 0x0A, 0x0D, 0xFF]

theorem returned_faultLine :
    ¬ Utf8.IsText returned ∧ lineAt returned 3 = 3 ∧
      countBytes returned = .error (.undecodable 2 ⟨1, some 1⟩) ∧
      ∃ whole cause head between rest, Utf8.decode returned = .error whole ∧
        returned = head ++ between ++ rest ∧ newline ∉ between ∧
        countBytes returned = .error (.undecodable (lineAt returned head.length) cause) ∧
        lineAt returned whole.validUpTo =
          lineAt returned head.length + between.count carriageReturn := by
  have decoded : Utf8.decode returned = .error ⟨3, some 1⟩ := rfl
  have noText : ¬ Utf8.IsText returned := (Utf8.firstIn_of_decode decoded).not_isText
  have counted : countBytes returned = .error (.undecodable 2 ⟨1, some 1⟩) := by
    rw [countBytes, count, Stream.pieces_ofBytes]
    rfl
  obtain ⟨whole, cause, head, between, rest, same, _, split, _, _, clear, reported, line, _⟩ :=
    countBytes_faultLine noText
  exact ⟨noText, rfl, counted, whole, cause, head, between, rest, same, split, clear, reported, line⟩

/-- A lone carriage return ends a line, but not for the number that a fault is reported with. -/
theorem faultLine_ne_lineAt :
    Utf8.decode [0x0D, 0xFF] = .error ⟨1, some 1⟩ ∧ lineAt [0x0D, 0xFF] 1 = 2 ∧
      countBytes [0x0D, 0xFF] = .error (.undecodable 1 ⟨1, some 1⟩) := by
  refine ⟨rfl, rfl, ?_⟩
  rw [countBytes, count, Stream.pieces_ofBytes]
  rfl

end Tally

end LineCensus
