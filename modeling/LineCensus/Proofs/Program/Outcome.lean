import LineCensus.Proofs.Program.Root
import LineCensus.Proofs.Scan.Records

/-!
# What a run shows

A run begins with an answer, given or asked for (`Answered`), and the answer decides how it ends
(`Ends`): with one line about what is wrong, or with a report. `run_outcome` says this of every run
without directives and flags for the log. Of the log only the warnings are seen then
(`logged_records`), so a file that cannot be counted is told of once.
-/

namespace LineCensus.Program

open Walk (Noted Lists)

variable {t : FileTree} {s : Settings} {inv : Invocation} {input : Stream}

/-! ### What is seen of the log -/

theorem allows_of_noted {names : List FileTree.Name} {record : Log.Record}
    (noted : Noted t s names record) :
    (Log.Filter.ofLevel .warn).allows record = true ↔ record.level = .warn := by
  rw [Log.Filter.allows_ofLevel]
  cases noted with
  | root | unlisted => exact iff_of_true rfl rfl
  | pruned | skipped => exact iff_of_false nofun nofun

theorem not_allows_started : ¬ (Log.Filter.ofLevel .warn).allows started = true := by
  rw [Log.Filter.allows_ofLevel]
  exact nofun

theorem not_allows_fileRecord (path : Path) :
    ¬ (Log.Filter.ofLevel .warn).allows (Scan.fileRecord t path) = true := by
  rw [Log.Filter.allows_ofLevel]
  unfold Scan.fileRecord
  cases Scan.countFile t path <;> exact nofun

theorem not_allows_summaryRecord (root : Path) (files unreadable : Nat) :
    ¬ (Log.Filter.ofLevel .warn).allows (Scan.summaryRecord root files unreadable) = true := by
  rw [Log.Filter.allows_ofLevel]
  exact nofun

/-- What a walk warns of. -/
def warnings (t : FileTree) (s : Settings) : List Log.Record :=
  (Walk.records t s).filter (Log.Filter.ofLevel .warn).allows

/-- There is one warning for each directory that cannot be listed, in the order of the names. -/
theorem warnings_lists (directory : t.stat s.root = .ok .directory) :
    Lists (fun names record =>
      s.root.isDash = false ∧ Noted t s names record ∧ record.level = .warn) (warnings t s) := by
  unfold warnings
  cases dash : s.root.isDash with
  | true =>
    unfold Walk.records
    rw [Walk.visits_of_dash dash]
    exact .nil nofun
  | false =>
    refine ((Walk.records_lists directory dash).filter _).congr fun names record => ?_
    constructor
    · rintro ⟨noted, allowed⟩
      exact ⟨rfl, noted, (allows_of_noted noted).mp allowed⟩
    · rintro ⟨_, noted, warns⟩
      exact ⟨noted, (allows_of_noted noted).mpr warns⟩

/-- Of all that a scan writes to the log only the warnings of the walk are seen. -/
theorem logged_records {scan : Scan} {files : List Path} {root : Path} {n unreadable : Nat}
    (records : scan.records = Walk.records t s ++ files.map (Scan.fileRecord t) ++
      [Scan.summaryRecord root n unreadable]) :
    logged (.ofLevel .warn) (started :: scan.records) = (warnings t s).map .record := by
  have counted : (files.map (Scan.fileRecord t)).filter (Log.Filter.ofLevel .warn).allows = [] :=
    List.filter_eq_nil_iff.mpr (List.forall_mem_map.mpr fun path _ => not_allows_fileRecord path)
  unfold logged warnings
  rw [records, List.filter_cons_of_neg not_allows_started, List.filter_append, List.filter_append,
    counted, List.filter_cons_of_neg (not_allows_summaryRecord root n unreadable), List.filter_nil,
    List.append_nil, List.append_nil]

/-! ### How a run ends -/

/-- The path that a run begins with, or what keeps it from beginning. -/
inductive Answered (inv : Invocation) (input : Stream) : Except Problem Path → Prop where
  | given {path : Path} (given : inv.root = some path) : Answered inv input (.ok path)
  | asked {answer : Except Problem Path} {later : List Stream.Signal} (unset : inv.root = none)
      (takes : Prompt.Takes input.signals answer later) : Answered inv input answer

/-- The question, where there is no root among the arguments. -/
def asking (inv : Invocation) : String :=
  if inv.root = none then Prompt.question else ""

/-- What is wrong with the files that could not be counted. -/
def problems (scan : Scan) : List Problem :=
  scan.failures.map fun failure => .file failure.1 failure.2

/-- Nothing but one line tells what is wrong. -/
structure Refused (written : String) (problem : Problem) (o : Outcome) : Prop where
  exitCode : o.exitCode = 1
  stdout : o.stdout = written
  errorText : o.errorText = problem.message ++ "\n"

/-- A report is written, and behind the warnings each file that could not be counted is told of once. A
warning ends its own line where no escape character stands in it (`keepsLine_of_no_escape`): the control
sequence that a path begins may take the line feed along. -/
structure Reported (t : FileTree) (s : Settings) (written : String) (scan : Scan) (o : Outcome) :
    Prop where
  exitCode : o.exitCode = 0
  stdout : o.stdout = written ++ scan.totals.report
  errorText : ∃ warnings,
    Lists (fun names record =>
      s.root.isDash = false ∧ Noted t s names record ∧ record.level = .warn) warnings ∧
    o.errorText = String.join (warnings.map fun record => (Entry.record record).text) ++
      String.join ((problems scan).map fun problem => problem.message ++ "\n")
  failures : scan.failures = Scan.failed t (Walk.files t s)
  once : ∀ path ∈ Walk.files t s, ∀ fault, Scan.countFile t path = .error fault →
    o.notices.count (.file path fault) = 1

/-- How a run ends, by the path that it begins with. -/
inductive Ends (t : FileTree) (written : String) : Except Problem Path → Outcome → Prop where
  | unanswered {problem : Problem} {o : Outcome} (refused : Refused written problem o) :
      Ends t written (.error problem) o
  | noDirectory {path : Path} {o : Outcome} (other : t.stat path ≠ .ok .directory)
      (refused : Refused written (.invalidRoot path) o) : Ends t written (.ok path) o
  | scanned {path : Path} {scan : Scan} {o : Outcome} (directory : t.stat path = .ok .directory)
      (scanned : Scan.ofTree t (.ofRoot path) = .ok scan)
      (reported : Reported t (.ofRoot path) written scan o) : Ends t written (.ok path) o

theorem root_answered {answer : Except Problem Path} (answered : Answered inv input answer) :
    root inv input = (asking inv, answer) := by
  unfold asking
  cases answered with
  | given given => rw [root_given given input, given, if_neg nofun]
  | asked unset takes => rw [root_asked unset takes, if_pos unset]

theorem exists_answered (inv : Invocation) (input : Stream) : ∃ answer, Answered inv input answer := by
  cases given : inv.root with
  | some path => exact ⟨.ok path, .given given⟩
  | none => exact ⟨_, .asked given (Prompt.ask_takes input)⟩

/-- There is one answer, so it is decided how a run ends. -/
theorem answered_iff {answer other : Except Problem Path} (answered : Answered inv input answer) :
    Answered inv input other ↔ other = answer := by
  constructor
  · intro second
    have same := (root_answered second).symm.trans (root_answered answered)
    exact (Prod.mk.inj same).2
  · rintro rfl
    exact answered

section

variable {o : Outcome} {records : List Log.Record} {problems : List Problem}

theorem errorText_of_stderr (stderr : o.stderr = records.map .record ++ problems.map .notice) :
    o.errorText = String.join (records.map fun record => (Entry.record record).text) ++
      String.join (problems.map fun problem => problem.message ++ "\n") := by
  unfold Outcome.errorText
  rw [stderr, List.map_append, String.join_append, List.map_map, List.map_map]
  rfl

theorem notices_of_stderr (refused : List Log.Refusal)
    (stderr : o.stderr = refused.map .refused ++ records.map .record ++ problems.map .notice) :
    o.notices = problems := by
  have unread : Entry.notice? ∘ Entry.refused = fun _ => none := rfl
  have silent : Entry.notice? ∘ Entry.record = fun _ => none := rfl
  have told : Entry.notice? ∘ Entry.notice = some := rfl
  unfold Outcome.notices
  rw [stderr, List.filterMap_append, List.filterMap_append, List.filterMap_map, List.filterMap_map,
    List.filterMap_map, unread, silent, told, List.filterMap_some, List.filterMap_none,
    List.filterMap_none, List.nil_append, List.nil_append]

end

/-- A file is told of once, for no two failures of a scan are about the same file. -/
theorem count_problem {scan : Scan} (nodup : scan.failures.Nodup) {path : Path} {fault : Tally.Fault}
    (mem : (path, fault) ∈ scan.failures) : (problems scan).count (.file path fault) = 1 := by
  apply List.count_eq_one_of_mem
  · refine nodup.map fun first second same => ?_
    obtain ⟨path, fault⟩ := Problem.file.inj same
    exact Prod.ext path fault
  · exact List.mem_map.mpr ⟨(path, fault), mem, rfl⟩

theorem perform_refused {written : String} {answer : Except Problem Path} {problem : Problem}
    (level : inv.logLevel = .warn) (begun : root inv input = (written, answer))
    (failed : scan t answer = .error problem) :
    Refused written problem (perform t inv input none) := by
  have silent : logged (logFilter inv none) [started] = [] := by
    unfold logged logFilter
    rw [level, List.filter_cons_of_neg not_allows_started]
    rfl
  have performed := perform_of_problem begun none failed
  have stderr : (perform t inv input none).stderr = [].map .record ++ [problem].map .notice := by
    rw [performed, silent]
    rfl
  refine ⟨congrArg Outcome.exitCode performed, congrArg Outcome.stdout performed, ?_⟩
  rw [errorText_of_stderr stderr]
  simp

theorem perform_reported {written : String} {path : Path} (level : inv.logLevel = .warn)
    (begun : root inv input = (written, .ok path)) (directory : t.stat path = .ok .directory) :
    ∃ scan, Scan.ofTree t (.ofRoot path) = .ok scan ∧
      Reported t (.ofRoot path) written scan (perform t inv input none) := by
  obtain ⟨scan, scanned, accounts, records⟩ := Scan.ofTree_eq (s := .ofRoot path) directory
  have warned := warnings_lists (s := .ofRoot path) directory
  have nodup := Scan.failed_nodup (t := t) (Walk.files_nodup (s := .ofRoot path) directory)
  rw [← accounts.failures] at nodup
  have performed := perform_of_scan begun none scanned
  have stderr : (perform t inv input none).stderr =
      (warnings t (.ofRoot path)).map .record ++ (problems scan).map .notice := by
    have seen := logged_records records
    rw [performed, problems, List.map_map]
    unfold logFilter
    rw [level, seen]
    rfl
  refine ⟨scan, scanned, congrArg Outcome.exitCode performed, congrArg Outcome.stdout performed,
    ⟨_, warned, errorText_of_stderr stderr⟩, accounts.failures, ?_⟩
  intro file mem fault outcome
  rw [notices_of_stderr [] stderr]
  apply count_problem nodup
  rw [accounts.failures]
  exact Scan.mem_failed.mpr ⟨mem, outcome⟩

theorem perform_ends {written : String} {answer : Except Problem Path}
    (level : inv.logLevel = .warn) (begun : root inv input = (written, answer)) :
    Ends t written answer (perform t inv input none) := by
  cases answer with
  | error problem => exact .unanswered (perform_refused level begun rfl)
  | ok path =>
    by_cases directory : t.stat path = .ok .directory
    · obtain ⟨scan, scanned, reported⟩ := perform_reported level begun directory
      exact .scanned directory scanned reported
    · have refused : scan t (.ok path) = .error (.invalidRoot path) :=
        Scan.ofTree_of_other (s := .ofRoot path) directory
      exact .noDirectory directory (perform_refused level begun refused)

/-! ### What is written to the output -/

theorem report_begins (totals : Totals) : totals.report.toList.head? = some '\n' := by
  unfold Totals.report Totals.reportLines
  rw [List.map_cons, String.join_cons, String.toList_append]
  rfl

theorem Ends.stdout {written : String} {answer : Except Problem Path} {o : Outcome}
    (ends : Ends t written answer o) :
    (o.stdout = written ∧ ¬ ∃ path, answer = .ok path ∧ t.stat path = .ok .directory) ∨
      ∃ totals : Totals, o.stdout = written ++ totals.report ∧
        ∃ path, answer = .ok path ∧ t.stat path = .ok .directory := by
  cases ends with
  | unanswered refused => exact Or.inl ⟨refused.stdout, nofun⟩
  | noDirectory other refused =>
    refine Or.inl ⟨refused.stdout, ?_⟩
    rintro ⟨_, ⟨⟩, directory⟩
    exact other directory
  | scanned directory _ reported => exact Or.inr ⟨_, reported.stdout, _, rfl, directory⟩

theorem Ends.report_iff {written : String} {answer : Except Problem Path} {o : Outcome}
    (ends : Ends t written answer o) :
    (∃ totals : Totals, o.stdout = written ++ totals.report) ↔
      ∃ path, answer = .ok path ∧ t.stat path = .ok .directory := by
  rcases ends.stdout with ⟨stdout, none⟩ | ⟨totals, stdout, directory⟩
  · refine iff_of_false ?_ none
    rintro ⟨totals, same⟩
    have texts := congrArg String.toList (stdout.symm.trans same)
    rw [String.toList_append, List.self_eq_append_right] at texts
    have begins := report_begins totals
    rw [texts] at begins
    cases begins
  · exact iff_of_true ⟨totals, stdout⟩ directory

/-- The output begins with the question exactly when there is no root among the arguments. -/
theorem Ends.asks_iff {answer : Except Problem Path} {o : Outcome}
    (ends : Ends t (asking inv) answer o) :
    Prompt.question.toList <+: o.stdout.toList ↔ inv.root = none := by
  have outputs : o.stdout = asking inv ∨ ∃ totals : Totals, o.stdout = asking inv ++ totals.report :=
    ends.stdout.imp And.left fun ⟨totals, stdout, _⟩ => ⟨totals, stdout⟩
  unfold asking at outputs
  cases given : inv.root with
  | none =>
    refine iff_of_true ?_ rfl
    rw [given] at outputs
    rcases outputs with stdout | ⟨totals, stdout⟩
    · rw [stdout]
      exact List.prefix_refl _
    · rw [stdout, String.toList_append]
      exact List.prefix_append _ _
  | some path =>
    -- What is written then is nothing or a report, and a report begins with an empty line.
    refine iff_of_false ?_ nofun
    rintro ⟨rest, split⟩
    have first : o.stdout.toList.head? = some 'E' := by
      rw [← split]
      rfl
    rw [given] at outputs
    rcases outputs with stdout | ⟨totals, stdout⟩
    · rw [stdout] at first
      cases first
    · rw [stdout, if_neg nofun, String.empty_append, report_begins] at first
      cases first

/-- A run whose arguments say nothing about the log asks for a root if none is given, and then ends with
a report, or with one line about what is wrong. -/
theorem run_outcome (t : FileTree) (name : String) {arguments : List String} {inv : Invocation}
    (parsed : Invocation.parse arguments = .ok inv)
    (quiet : ∀ text ∈ arguments.takeWhile (· ≠ "--"), Invocation.isVerboseFlag text = false)
    (input : Stream) :
    let o := run t (name :: arguments) input none
    (Prompt.question.toList <+: o.stdout.toList ↔ inv.root = none) ∧
      ∃ answer, (∀ other, Answered inv input other ↔ other = answer) ∧
        Ends t (asking inv) answer o ∧
        ((∃ totals : Totals, o.stdout = asking inv ++ totals.report) ↔
          ∃ path, answer = .ok path ∧ t.stat path = .ok .directory) := by
  have level : inv.logLevel = .warn := by
    unfold Invocation.logLevel
    rw [Invocation.verbosity_of_quiet quiet parsed]
    rfl
  obtain ⟨answer, answered⟩ := exists_answered inv input
  have ends : Ends t (asking inv) answer (perform t inv input none) :=
    perform_ends level (root_answered answered)
  intro o
  have performed : o = perform t inv input none := run_of_parse name parsed input none
  rw [performed]
  exact ⟨ends.asks_iff, answer, fun _ => answered_iff answered, ends, ends.report_iff⟩

theorem mixed_outcome :
    let o := run Scan.mixed ["line_tally"] [.chunk [0x2E, 0x0D], .chunk [0x0A]] none
    Invocation.parse [] = .ok {} ∧ o.exitCode = 0 ∧
      o.stdout = "Enter the project root directory: \nScan results:\nFiles scanned: 2\n" ++
        "Code lines: 1\nBlank lines: 0\nComment lines: 0\n" ∧
      o.errorText = "[WARN  line_tally_engine::filesystem] walk error: ./locked: " ++
        "IO error for operation on ./locked: Permission denied (os error 13)\n" ++
        "Failed to read file './bad.js': invalid UTF-8 on line 1: " ++
        "invalid utf-8 sequence of 1 bytes from index 0\n" ∧
      o.notices = [.file ⟨"./bad.js"⟩ (.undecodable 1 ⟨0, some 1⟩)] ∧
      ∃ answer, Answered {} [.chunk [0x2E, 0x0D], .chunk [0x0A]] answer ∧
        Ends Scan.mixed Prompt.question answer o := by
  intro o
  have parsed : Invocation.parse [] = .ok {} := rfl
  refine ⟨parsed, rfl, by decide +kernel, by decide +kernel, by decide +kernel, ?_⟩
  obtain ⟨_, answer, answered, ends, _⟩ :=
    run_outcome Scan.mixed "line_tally" parsed (by decide) [.chunk [0x2E, 0x0D], .chunk [0x0A]]
  exact ⟨answer, (answered answer).mpr rfl, ends⟩

end LineCensus.Program
