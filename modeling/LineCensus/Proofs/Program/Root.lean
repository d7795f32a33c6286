import LineCensus.Proofs.Invocation
import LineCensus.Proofs.Prompt
import LineCensus.Program

/-!
# The root of a run

The question is asked only when there is no root among the arguments (`root_given`, `root_asked`).
A root that is typed as the answer does what it does as the last argument (`run_typed`).
-/

namespace LineCensus.Program

open LineCensus.Stream (Signal)
open Text (isBlank Stripped)

variable {t : FileTree} {inv : Invocation} {input : Stream}

theorem run_of_parse (name : String) {arguments : List String}
    (parsed : Invocation.parse arguments = .ok inv) (input : Stream) (spec : Option String) :
    run t (name :: arguments) input spec = perform t inv input spec := by
  unfold run
  rw [List.drop_one, List.tail_cons, parsed]

theorem root_given {path : Path} (given : inv.root = some path) (input : Stream) :
    root inv input = ("", .ok path) := by
  unfold root
  rw [given]

theorem root_asked (unset : inv.root = none) {answer : Except Problem Path} {later : List Signal}
    (takes : Prompt.Takes input.signals answer later) :
    root inv input = (Prompt.question, answer) := by
  unfold root
  rw [unset]
  dsimp only
  rw [Prompt.ask_written, ((Prompt.ask_takes input).unique takes).1]

/-! ### What a run makes of its root -/

section

variable {written : String} {answer : Except Problem Path} (begun : root inv input = (written, answer))
  (spec : Option String)

include begun

theorem perform_of_scan {result : Scan} (scanned : scan t answer = .ok result) :
    perform t inv input spec =
      { exitCode := 0
        stdout := written ++ result.totals.report
        stderr := (refusals spec).map .refused ++
          logged (logFilter inv spec) (started :: result.records) ++
          result.failures.map fun failure => .notice (.file failure.1 failure.2) } := by
  unfold perform
  simp only [begun, scanned]

theorem perform_of_problem {problem : Problem} (failed : scan t answer = .error problem) :
    perform t inv input spec =
      { exitCode := 1
        stdout := written
        stderr := (refusals spec).map .refused ++ logged (logFilter inv spec) [started] ++
          [.notice problem] } := by
  unfold perform
  simp only [begun, failed]

end

/-- Apart from the text that is written in front, only the root and the verbosity matter. -/
theorem perform_written {other : Invocation} {input' : Stream} {written : String}
    {answer : Except Problem Path} (first : root inv input = (written, answer))
    (second : root other input' = ("", answer)) (verbosity : inv.verbosity = other.verbosity)
    (spec : Option String) :
    (perform t inv input spec).exitCode = (perform t other input' spec).exitCode ∧
      (perform t inv input spec).stderr = (perform t other input' spec).stderr ∧
      (perform t inv input spec).stdout = written ++ (perform t other input' spec).stdout := by
  have filter : logFilter inv spec = logFilter other spec := by
    unfold logFilter Invocation.logLevel
    rw [verbosity]
  cases scanned : scan t answer with
  | ok result =>
    rw [perform_of_scan first spec scanned, perform_of_scan second spec scanned, filter,
      String.empty_append]
    exact ⟨rfl, rfl, rfl⟩
  | error problem =>
    rw [perform_of_problem first spec scanned, perform_of_problem second spec scanned, filter]
    exact ⟨rfl, rfl, String.append_empty.symm⟩

/-- A path that is typed as the answer to the question, with blanks around it, has the same effect as
the path as an argument: the question is all that is written more. -/
theorem run_typed (t : FileTree) (name : String) {flags : List String}
    (verbose : ∀ flag ∈ flags, Invocation.isVerboseFlag flag = true) {path : String}
    (nonempty : path ≠ "") (first : ∀ c, path.toList.head? = some c → isBlank c = false)
    (last : ∀ c, path.toList.getLast? = some c → isBlank c = false) {before after : List Char}
    (blank : ∀ c ∈ before ++ after, isBlank c = true)
    (oneLine : '\n' ∉ before ++ path.toList ++ after) {input : Stream} {later : List Signal}
    (typed : input.signals =
      (Text.Utf8.encode (before ++ path.toList ++ after ++ ['\n'])).map .byte ++ later)
    (other : Stream) (spec : Option String) :
    let asked := run t (name :: flags) input spec
    let given := run t (name :: flags ++ ["--", path]) other spec
    asked.exitCode = given.exitCode ∧ asked.stderr = given.stderr ∧
      asked.stdout = Prompt.question ++ given.stdout := by
  obtain ⟨v, parsed, parsedPath⟩ := Invocation.parse_flags verbose
  have trimmed : Stripped isBlank (before ++ path.toList ++ after ++ ['\n']) path.toList := by
    obtain ⟨blankBefore, blankAfter⟩ := List.forall_mem_append.mp blank
    refine ⟨⟨before, after ++ ['\n'], List.append_assoc _ _ _, blankBefore, ?_⟩, first, last⟩
    exact List.forall_mem_append.mpr ⟨blankAfter, fun c mem => List.mem_singleton.mp mem ▸ rfl⟩
  have takes := Prompt.takes_line oneLine trimmed later
  rw [← typed, String.ofList_toList] at takes
  intro asked given
  have question : root { verbosity := v } input = (Prompt.question, .ok ⟨path⟩) := root_asked rfl takes
  have argument : root { root := some ⟨path⟩, verbosity := v } other = ("", .ok ⟨path⟩) :=
    root_given rfl other
  have askedRun : asked = perform t { verbosity := v } input spec := run_of_parse name parsed input spec
  have givenRun : given = perform t { root := some ⟨path⟩, verbosity := v } other spec :=
    run_of_parse name (parsedPath path nonempty) other spec
  rw [askedRun, givenRun]
  exact perform_written question argument rfl spec

/-- A directory that is named like a flag, with a file in it. -/
def dashed : FileTree where
  top := .directory
    [(⟨"-x", by decide⟩, .directory [(⟨"x.py", by decide⟩, .file [0x61] true)] {})] {}
  workingDir := []
  ordered := by decide

theorem dashed_typed :
    let asked := run dashed ["line_tally", "-vv"]
      [.chunk [0x20, 0x2D, 0x78], .interrupted, .chunk [0x0D, 0x0A, 0x61]] none
    let given := run dashed ["line_tally", "-vv", "--", "-x"] [] none
    (∀ flag ∈ ["-vv"], Invocation.isVerboseFlag flag = true) ∧ given.exitCode = 0 ∧
      asked.exitCode = given.exitCode ∧ asked.stderr = given.stderr ∧
      asked.stdout = Prompt.question ++ given.stdout := by
  have verbose : ∀ flag ∈ ["-vv"], Invocation.isVerboseFlag flag = true := by decide
  have first : ∀ c, "-x".toList.head? = some c → isBlank c = false := by
    rintro c ⟨⟩
    rfl
  have last : ∀ c, "-x".toList.getLast? = some c → isBlank c = false := by
    rintro c ⟨⟩
    rfl
  have blank : ∀ c ∈ [' '] ++ ['\r'], isBlank c = true := by simp [isBlank]
  have oneLine : '\n' ∉ [' '] ++ "-x".toList ++ ['\r'] := by simp
  have typed : Stream.signals [.chunk [0x20, 0x2D, 0x78], .interrupted, .chunk [0x0D, 0x0A, 0x61]] =
      (Text.Utf8.encode ([' '] ++ "-x".toList ++ ['\r'] ++ ['\n'])).map .byte ++ [.byte 0x61] := rfl
  exact ⟨verbose, rfl,
    run_typed dashed "line_tally" verbose (by decide) first last blank oneLine typed [] none⟩

end LineCensus.Program
