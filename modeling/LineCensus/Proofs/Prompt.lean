import LineCensus.Proofs.Pieces
import LineCensus.Proofs.Utf8.Fault
import LineCensus.Prompt

/-!
# What questions take from the input

A question takes one line of the input, whatever the line is worth as an answer. `Takes` says which bytes
and failures go and what the answer is, and `askTimes_takes` that this is so for any number of questions
in a row.
-/

namespace LineCensus.Prompt

open LineCensus.Stream (Signal Piece First)
open Text (Stripped isBlank)

/-- What a piece of the input means as an answer. A failure wins over the bytes in front of it. -/
inductive Means : Piece → Except Problem Path → Prop where
  | failure (bytes : List UInt8) (report : String) :
      Means { bytes, failure := some report } (.error (.prompt (.reported report)))
  | notText {bytes : List UInt8} (bad : ¬ Text.Utf8.IsText bytes) :
      Means { bytes } (.error (.prompt .notText))
  | path {text kept : List Char} (trimmed : Stripped isBlank text kept) :
      Means { bytes := Text.Utf8.encode text } (.ok ⟨String.ofList kept⟩)

/-- The bytes and failures before one question, the answer to it, and those after it. -/
inductive Takes : List Signal → Except Problem Path → List Signal → Prop where
  | piece {before after : List Signal} {piece : Piece} {answer : Except Problem Path}
      (first : First before piece after) (means : Means piece answer) : Takes before answer after
  | ended : Takes [] (.error .noRoot) []

variable {before after : List Signal} {answer : Except Problem Path}

/-! ### One question -/

theorem readLine_means (piece : Piece) : Means piece (readLine piece) := by
  obtain ⟨bytes, failure⟩ := piece
  unfold readLine
  cases failure with
  | some report => exact .failure bytes report
  | none =>
    cases decoded : Text.Utf8.decode bytes with
    | error fault => exact .notText (Text.Utf8.firstIn_of_decode decoded).not_isText
    | ok text =>
      rw [Text.Utf8.decode_eq_ok_iff.mp decoded]
      exact .path (Text.stripped_strip isBlank text)

theorem readLine_of_means {piece : Piece} (means : Means piece answer) : readLine piece = answer := by
  cases means with
  | failure bytes report => rfl
  | @notText bytes bad =>
    unfold readLine
    cases decoded : Text.Utf8.decode bytes with
    | error fault => rfl
    | ok text => exact absurd ⟨text, Text.Utf8.decode_eq_ok_iff.mp decoded⟩ bad
  | path trimmed =>
    unfold readLine Text.trim
    simp only [Text.Utf8.decode_encode, (Text.strip_eq_iff _ _ _).mpr trimmed]

theorem not_means_noRoot (piece : Piece) : ¬ Means piece (.error .noRoot) := nofun

theorem Takes.unique {other : Except Problem Path} {later : List Signal}
    (takes : Takes before answer after) (same : Takes before other later) :
    answer = other ∧ after = later := by
  cases takes with
  | piece first means =>
    cases same with
    | piece firstToo meansToo =>
      obtain ⟨rfl, rfl⟩ := first.unique firstToo
      exact ⟨(readLine_of_means means).symm.trans (readLine_of_means meansToo), rfl⟩
    | ended => exact absurd rfl first.ne_nil
  | ended =>
    cases same with
    | piece first means => exact absurd rfl first.ne_nil
    | ended => exact ⟨rfl, rfl⟩

/-- There is no answer exactly at the end of the input, and then there is none later. -/
theorem takes_noRoot_iff : Takes before (.error .noRoot) after ↔ before = [] ∧ after = [] := by
  constructor
  · intro takes
    cases takes with
    | piece first means => exact absurd means (not_means_noRoot _)
    | ended => exact ⟨rfl, rfl⟩
  · rintro ⟨rfl, rfl⟩
    exact .ended

theorem Takes.of_nil (takes : Takes [] answer after) : answer = .error .noRoot ∧ after = [] :=
  takes.unique .ended

theorem ask_takes (input : Stream) :
    Takes input.signals (ask {} input).root (ask {} input).rest.signals := by
  unfold ask
  cases read : input.readPiece with
  | none =>
    rw [Stream.readPiece_eq_none_iff.mp read]
    exact .ended
  | some both => exact .piece (Stream.first_of_readPiece read) (readLine_means _)

theorem ask_written (input : Stream) : (ask {} input).written = question := by
  unfold ask
  cases input.readPiece <;> rfl

/-- A line of text is the answer without the blanks around it. -/
theorem takes_line {text kept : List Char} (oneLine : '\n' ∉ text)
    (trimmed : Stripped isBlank (text ++ ['\n']) kept) (later : List Signal) :
    Takes ((Text.Utf8.encode (text ++ ['\n'])).map .byte ++ later) (.ok ⟨String.ofList kept⟩) later := by
  have ending : Text.Utf8.encode (text ++ ['\n']) = Text.Utf8.encode text ++ [Stream.newline] :=
    Text.Utf8.encode_append text ['\n']
  have inner : Stream.newline ∉ Text.Utf8.encode text := fun mem =>
    oneLine ((Text.Utf8.newline_mem_encode text).mp mem)
  have first := First.newline inner later
  rw [← ending] at first
  have takes := Takes.piece first (.path trimmed)
  rwa [ending, List.map_append, List.append_assoc]

/-! ### Questions in a row -/

/-- What is left of the input after some questions. -/
def left (input : Stream) (n : Nat) : List Signal :=
  (askTimes {} n input).rest.signals

theorem askTimes_succ (output : Output) (n : Nat) (input : Stream) :
    (askTimes output (n + 1) input).rest = (ask output (askTimes output n input).rest).rest := by
  rw [askTimes_add]
  rfl

theorem length_roots (output : Output) (n : Nat) (input : Stream) :
    (askTimes output n input).roots.length = n := by
  induction n generalizing input with
  | zero => rfl
  | succ n ih => rw [askTimes, List.length_cons, ih]

/-- Each question begins where the one before it has left the input. -/
theorem roots_takes (input : Stream) {i n : Nat} (inside : i < n) :
    ∃ answer, (askTimes {} n input).roots[i]? = some answer ∧
      Takes (left input i) answer (left input (i + 1)) := by
  obtain ⟨k, rfl⟩ := Nat.exists_eq_add_of_lt inside
  refine ⟨(ask {} (askTimes {} i input).rest).root, ?_, ?_⟩
  · have place := length_roots {} i input
    rw [Nat.add_assoc, askTimes_add, List.getElem?_append_right (by omega), place, Nat.sub_self,
      askTimes]
    rfl
  · unfold left
    rw [askTimes_succ]
    exact ask_takes _

/-- Once there is nothing left of the input there never is. -/
theorem left_eq_nil {input : Stream} {i j : Nat} (later : i ≤ j) (ended : left input i = []) :
    left input j = [] := by
  induction later with
  | refl => exact ended
  | @step j _ ih =>
    obtain ⟨_, _, takes⟩ := roots_takes input (Nat.lt_add_one j)
    rw [ih] at takes
    exact takes.of_nil.2

/-- Neither chunks nor interruptions decide anything. -/
theorem askTimes_congr {input other : Stream} (same : other.signals = input.signals) (n : Nat) :
    (askTimes {} n other).roots = (askTimes {} n input).roots ∧ left other n = left input n := by
  induction n generalizing input other with
  | zero => exact ⟨rfl, same⟩
  | succ n ih =>
    have first := ask_takes other
    rw [same] at first
    obtain ⟨root, rest⟩ := first.unique (ask_takes input)
    obtain ⟨roots, left⟩ := ih rest
    exact ⟨by rw [askTimes, askTimes, root, roots], left⟩

theorem written_of_working (n : Nat) (input : Stream) :
    (askTimes {} n input).written = String.join (List.replicate n question) := by
  induction n generalizing input with
  | zero => rfl
  | succ n ih =>
    rw [askTimes, ask_written, ih, List.replicate_succ, String.join_cons]

/-- With an output that fails the input is not touched. -/
theorem askTimes_of_failure {output : Output} {report : String}
    (fails : output.writeFailure.or output.flushFailure = some report) (n : Nat) (input : Stream) :
    (askTimes output n input).roots = List.replicate n (.error (.prompt (.reported report))) ∧
      (askTimes output n input).rest = input := by
  have first : (ask output input).root = .error (.prompt (.reported report)) ∧
      (ask output input).rest = input := by
    obtain ⟨write, flush⟩ := output
    unfold ask
    cases write with
    | some reason => cases fails; exact ⟨rfl, rfl⟩
    | none =>
      obtain rfl : flush = some report := fails
      exact ⟨rfl, rfl⟩
  induction n with
  | zero => exact ⟨rfl, rfl⟩
  | succ n ih => rw [askTimes, first.1, first.2, ih.1, ih.2]; exact ⟨rfl, rfl⟩

/-- What a number of questions with a working output take and bring. -/
structure Orderly (input : Stream) (n : Nat) : Prop where
  written : (askTimes {} n input).written = String.join (List.replicate n question)
  count : (askTimes {} n input).roots.length = n
  begins : left input 0 = input.signals
  takes : ∀ i < n, ∃ answer, (askTimes {} n input).roots[i]? = some answer ∧
    Takes (left input i) answer (left input (i + 1))
  ended : ∀ i < n, (askTimes {} n input).roots[i]? = some (.error .noRoot) ↔ left input i = []
  staysEnded : ∀ i j, i ≤ j → left input i = [] → left input j = []

theorem orderly (input : Stream) (n : Nat) : Orderly input n := by
  refine ⟨written_of_working n input, length_roots {} n input, rfl, fun i inside => roots_takes input inside,
    fun i inside => ?_, fun i j => left_eq_nil⟩
  obtain ⟨answer, place, takes⟩ := roots_takes input inside
  rw [place, Option.some.injEq]
  constructor
  · rintro rfl
    exact (takes_noRoot_iff.mp takes).1
  · intro ended
    rw [ended] at takes
    exact takes.of_nil.1

/-- Each of a number of questions takes one line of the input, or what comes before a failure or the end,
and is answered by what it took. Chunks and interruptions decide nothing, and a question that cannot be
written takes nothing. -/
theorem askTimes_takes (n : Nat) (input : Stream) :
    Orderly input n ∧
      (∀ other : Stream, other.signals = input.signals →
        (askTimes {} n other).roots = (askTimes {} n input).roots ∧ left other n = left input n) ∧
      (∀ (output : Output) (report : String),
        output.writeFailure.or output.flushFailure = some report →
          (askTimes output n input).roots =
              List.replicate n (.error (.prompt (.reported report))) ∧
            (askTimes output n input).rest = input) ∧
      ReadFault.notText.message = "stream did not contain valid UTF-8" :=
  ⟨orderly input n, fun _ same => askTimes_congr same n,
    fun _ _ fails => askTimes_of_failure fails n input, rfl⟩

example : (askTimes {} 4 [.chunk [0x20, 0x61], .interrupted, .chunk [0x0A, 0xFF], .chunk [0x0A],
      .failed "gone"]).roots =
    [.ok ⟨"a"⟩, .error (.prompt .notText), .error (.prompt (.reported "gone")), .error .noRoot] :=
  rfl

end LineCensus.Prompt
