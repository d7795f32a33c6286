import LineCensus.Problem
import LineCensus.Proofs.Tally

/-!
# How bytes are delivered

Counting sees the bytes that come before the first failure of a stream, and that failure.
`count_delivery` says what it makes of them: chunks and interruptions decide nothing, and a failure
wins over the bytes of the line that it cuts short, but over nothing before.
-/

namespace LineCensus.Stream

/-- The bytes that come before the first failure. -/
def received : Stream → List UInt8
  | [] => []
  | .chunk bytes :: rest => bytes ++ received rest
  | .interrupted :: rest => received rest
  | .failed _ :: _ => []

/-- The first failure. -/
def failure? : Stream → Option String
  | [] => none
  | .failed report :: _ => some report
  | .chunk _ :: rest | .interrupted :: rest => failure? rest

/-- The longest part in front that is empty or ends with a newline. -/
structure WholeLines (whole bytes : List UInt8) : Prop where
  front : whole <+: bytes
  ends : whole = [] ∨ whole.getLast? = some newline
  longest : ∀ other, other <+: bytes → (other = [] ∨ other.getLast? = some newline) →
    other.length ≤ whole.length

theorem signals_of_no_failure {stream : Stream} (sound : failure? stream = none) :
    signals stream = (received stream).map .byte := by
  induction stream with
  | nil => rfl
  | cons event rest ih =>
    rw [signals_cons]
    cases event with
    | chunk bytes =>
      unfold received
      rw [ih sound, List.map_append]
      rfl
    | interrupted => exact ih sound
    | failed report => cases sound

theorem signals_of_failure {stream : Stream} {report : String}
    (fails : failure? stream = some report) :
    ∃ later, signals stream = (received stream).map .byte ++ .failure report :: later := by
  induction stream with
  | nil => cases fails
  | cons event rest ih =>
    rw [signals_cons]
    cases event with
    | chunk bytes =>
      obtain ⟨later, same⟩ := ih fails
      refine ⟨later, ?_⟩
      unfold received
      rw [same, List.map_append, List.append_assoc]
      rfl
    | interrupted => exact ih fails
    | failed other =>
      obtain rfl := Option.some.inj fails
      exact ⟨signals rest, rfl⟩

/-! ### Whole lines -/

theorem wholeLines_append {whole rest : List UInt8}
    (ends : whole = [] ∨ whole.getLast? = some newline) (none : newline ∉ rest) :
    WholeLines whole (whole ++ rest) := by
  refine ⟨List.prefix_append whole rest, ends, ?_⟩
  intro other front otherEnds
  apply Nat.le_of_not_lt
  intro longer
  -- What is longer than `whole` ends inside `rest`, where there is no newline.
  obtain ⟨more, rfl⟩ := List.prefix_of_prefix_length_le (List.prefix_append whole rest) front
    (Nat.le_of_lt longer)
  have inside : more <+: rest := (List.prefix_append_right_inj whole).mp front
  have nonempty : more ≠ [] := by
    rintro rfl
    simp at longer
  rcases otherEnds with empty | last
  · exact nonempty (List.append_eq_nil_iff.mp empty).2
  · rw [List.getLast?_append, List.getLast?_eq_some_getLast nonempty, Option.some_or] at last
    have mem := inside.subset (List.getLast_mem nonempty)
    rw [Option.some.inj last] at mem
    exact none mem

theorem exists_wholeLines (bytes : List UInt8) :
    ∃ whole rest, bytes = whole ++ rest ∧ newline ∉ rest ∧
      (whole = [] ∨ whole.getLast? = some newline) := by
  induction bytes using pieceInduction with
  | nil => exact ⟨[], [], rfl, List.not_mem_nil, Or.inl rfl⟩
  | last body nonempty none => exact ⟨[], body, rfl, none, Or.inl rfl⟩
  | cons body more none ih =>
    obtain ⟨whole, rest, rfl, noneAfter, ends⟩ := ih
    refine ⟨body ++ newline :: whole, rest, by simp, noneAfter, Or.inr ?_⟩
    rcases ends with rfl | last
    · exact List.getLast?_concat
    · rw [List.getLast?_append, List.getLast?_cons, last]
      rfl

/-- There is a cut behind whole lines, whatever comes next. -/
theorem cut_append {whole : List UInt8} (ends : whole = [] ∨ whole.getLast? = some newline)
    (later : List Signal) : cut (whole.map .byte ++ later) = cut (whole.map .byte) ++ cut later := by
  induction whole using pieceInduction with
  | nil => rfl
  | last body nonempty none =>
    rcases ends with empty | last
    · exact absurd empty nonempty
    · exact absurd (List.mem_of_getLast? last) none
  | cons body rest none ih =>
    have restEnds : rest = [] ∨ rest.getLast? = some newline := by
      by_cases empty : rest = []
      · exact Or.inl empty
      · right
        rcases ends with nothing | last
        · simp at nothing
        · rw [List.getLast?_append, List.getLast?_cons, List.getLast?_eq_some_getLast empty] at last
          rw [List.getLast?_eq_some_getLast empty]
          simpa using last
    rw [List.map_append, List.map_cons, List.append_assoc, List.cons_append, cut_newline none,
      cut_newline none, ih restEnds]
    rfl

end LineCensus.Stream

namespace LineCensus.Tally
open Text

theorem count_of_no_failure {stream : Stream} (sound : stream.failure? = none) :
    count stream = countBytes stream.received := by
  unfold countBytes count
  rw [Stream.pieces_eq_cut, Stream.signals_of_no_failure sound, Stream.pieces_ofBytes]

theorem count_of_failure {stream : Stream} {report : String}
    (fails : stream.failure? = some report) {whole rest : List UInt8}
    (split : stream.received = whole ++ rest) (none : Stream.newline ∉ rest)
    (ends : whole = [] ∨ whole.getLast? = some Stream.newline) :
    count stream =
      match countBytes whole with
      | .ok _ => .error (.unreadable (.reported report))
      | .error fault => .error fault := by
  obtain ⟨later, signals⟩ := Stream.signals_of_failure fails
  have pieces : stream.pieces = Stream.pieces (.ofBytes whole) ++
      { bytes := rest, failure := some report } :: Stream.cut later := by
    rw [Stream.pieces_eq_cut, signals, split, List.map_append, List.append_assoc,
      Stream.cut_append ends, Stream.cut_failure none, Stream.pieces_ofBytes]
  unfold countBytes count
  rw [pieces, addPieces_append]
  cases addPieces {} (Stream.pieces (.ofBytes whole)) with
  | ok tally => rfl
  | error fault => rfl

theorem countBytes_cases (bytes : List UInt8) :
    (Utf8.IsText bytes ∧ ∃ counts, countBytes bytes = .ok counts) ∨
      ¬ Utf8.IsText bytes ∧ ∃ line cause, countBytes bytes = .error (.undecodable line cause) := by
  cases decoded : Utf8.decode bytes with
  | ok text =>
    left
    refine ⟨⟨text, Utf8.decode_eq_ok_iff.mp decoded⟩, ?_⟩
    unfold countBytes count
    rw [addPieces_of_decode decoded]
    exact ⟨_, rfl⟩
  | error whole =>
    right
    obtain ⟨_, _, _, _, cause, _, _, stopped⟩ := addPieces_of_fault decoded {}
    refine ⟨(Utf8.firstIn_of_decode decoded).not_isText, ?_⟩
    unfold countBytes count
    rw [stopped]
    exact ⟨_, cause, rfl⟩

/-- A stream without a failure is counted as its bytes in one chunk. Otherwise the lines that end
before the failure decide: if they are no text, their fault is reported, and else the failure. -/
theorem count_delivery (stream : Stream) (path : Path) :
    stream.failure? = none ∧ count stream = countBytes stream.received ∨
      ∃ report whole, stream.failure? = some report ∧ Stream.WholeLines whole stream.received ∧
        ((¬ Utf8.IsText whole ∧ ∃ line cause, countBytes whole = .error (.undecodable line cause) ∧
            (count stream).mapError (Problem.file path) =
              .error (.file path (.undecodable line cause))) ∨
          Utf8.IsText whole ∧
            (count stream).mapError (Problem.file path) =
              .error (.file path (.unreadable (.reported report)))) := by
  cases fails : stream.failure? with
  | none => exact Or.inl ⟨rfl, count_of_no_failure fails⟩
  | some report =>
    right
    obtain ⟨whole, rest, split, none, ends⟩ := Stream.exists_wholeLines stream.received
    have counted := count_of_failure fails split none ends
    refine ⟨report, whole, rfl, split ▸ Stream.wholeLines_append ends none, ?_⟩
    rcases countBytes_cases whole with ⟨isText, counts, fine⟩ | ⟨noText, line, cause, fault⟩
    · right
      rw [counted, fine]
      exact ⟨isText, rfl⟩
    · left
      rw [counted, fault]
      exact ⟨noText, line, cause, rfl, rfl⟩

end LineCensus.Tally
