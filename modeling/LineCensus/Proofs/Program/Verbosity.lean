import Mathlib.Data.List.Flatten
import LineCensus.Proofs.Program.Outcome

/-!
# What verbosity changes

A run does the same and tells of the same problems whatever the log is to show (`exists_perform`). So two
runs differ in their log only, and in what is refused of their directives (`run_verbosity`). Without
directives the less verbose run shows some of the entries of the other, in their order. Line by line this
holds where each record keeps the end of its own line (`Entry.KeepsLine`): the control sequences taken out
of a record may take it along (`opened_swallows`).
-/

namespace LineCensus.Program

open Text (dropEnd)

variable {o o' : Outcome}

/-! ### Levels -/

/-- What is seen with this level and no directives: all that is no record always is. -/
def Entry.seenAt (level : Log.Level) : Entry → Bool
  | .record r => (Log.Filter.ofLevel level).allows r
  | .refused _ | .notice _ => true

theorem rank_logLevel_le {inv inv' : Invocation} (le : inv.verbosity ≤ inv'.verbosity) :
    inv.logLevel.rank ≤ inv'.logLevel.rank := by
  unfold Invocation.logLevel
  match inv.verbosity, inv'.verbosity, le with
  | 0, 0, _ | 0, 1, _ | 0, _ + 2, _ | 1, 1, _ | 1, _ + 2, _ | _ + 2, _ + 2, _ => simp [Log.Level.rank]
  | 1, 0, le | _ + 2, 0, le | _ + 2, 1, le => omega

theorem logged_ofLevel {low high : Log.Level} (le : low.rank ≤ high.rank)
    (records : List Log.Record) :
    logged (.ofLevel low) records =
      (logged (.ofLevel high) records).filter (Entry.seenAt low) := by
  have both : ∀ r : Log.Record, (Log.Filter.ofLevel low).allows r =
      ((Log.Filter.ofLevel low).allows r && (Log.Filter.ofLevel high).allows r) := by
    intro r
    rw [Log.Filter.allows_ofLevel, Log.Filter.allows_ofLevel, ← Bool.decide_and]
    exact decide_eq_decide.mpr ⟨fun seen => ⟨seen, seen.trans le⟩, And.left⟩
  unfold logged
  rw [List.filter_map, List.filter_filter]
  exact congrArg _ (List.filter_congr fun r _ => both r)

/-! ### What does not depend on the log -/

def Entry.isRecord : Entry → Bool
  | .record _ => true
  | .refused _ | .notice _ => false

/-- The error output without the log. -/
def Outcome.unlogged (o : Outcome) : List Entry :=
  o.stderr.filter fun entry => !entry.isRecord

theorem unlogged_of_stderr {refused : List Log.Refusal} {records : List Log.Record}
    {problems : List Problem}
    (stderr : o.stderr = refused.map .refused ++ records.map .record ++ problems.map .notice) :
    o.unlogged = refused.map .refused ++ problems.map .notice := by
  have warned : (refused.map Entry.refused).filter (fun entry => !entry.isRecord) = refused.map .refused :=
    List.filter_eq_self.mpr (List.forall_mem_map.mpr fun _ _ => rfl)
  have silent : (records.map Entry.record).filter (fun entry => !entry.isRecord) = [] :=
    List.filter_eq_nil_iff.mpr (List.forall_mem_map.mpr fun _ _ => nofun)
  have told : (problems.map Entry.notice).filter (fun entry => !entry.isRecord) = problems.map .notice :=
    List.filter_eq_self.mpr (List.forall_mem_map.mpr fun _ _ => rfl)
  unfold Outcome.unlogged
  rw [stderr, List.filter_append, List.filter_append, warned, silent, told, List.append_nil]

theorem exists_perform (t : FileTree) (input : Stream) (given : Option Path) :
    ∃ exitCode stdout records, ∃ problems : List Problem,
      ∀ inv : Invocation, inv.root = given → ∀ spec, perform t inv input spec =
        { exitCode, stdout
          stderr := (refusals spec).map .refused ++ logged (logFilter inv spec) records ++
            problems.map .notice } := by
  obtain ⟨written, answer, begun⟩ :
      ∃ written answer, root { root := given } input = (written, answer) := ⟨_, _, rfl⟩
  have begins : ∀ inv : Invocation, inv.root = given → root inv input = (written, answer) := by
    rintro inv rfl
    exact begun
  cases scanned : scan t answer with
  | ok result =>
    refine ⟨0, written ++ result.totals.report, started :: result.records,
      result.failures.map fun failure => .file failure.1 failure.2, fun inv same spec => ?_⟩
    rw [perform_of_scan (begins inv same) spec scanned, List.map_map]
    rfl
  | error problem =>
    refine ⟨1, written, [started], [problem], fun inv same spec => ?_⟩
    exact perform_of_problem (begins inv same) spec scanned

/-! ### Line by line -/

/-- The lines of the error output. The last is what stands behind the last line feed. -/
def Outcome.errorLines (o : Outcome) : List (List Char) :=
  o.errorText.toList.splitOn '\n'

def Entry.KeepsLine (entry : Entry) : Prop :=
  entry.text.toList.getLast? = some '\n'

instance (entry : Entry) : Decidable entry.KeepsLine :=
  inferInstanceAs (Decidable (_ = _))

def Entry.lines (entry : Entry) : List (List Char) :=
  (dropEnd '\n' entry.text.toList).splitOn '\n'

theorem keepsLine_notice (problem : Problem) : (Entry.notice problem).KeepsLine := by
  unfold Entry.KeepsLine Entry.text
  rw [String.toList_append]
  exact List.getLast?_concat

theorem text_of_keepsLine {entry : Entry} (keeps : entry.KeepsLine) :
    entry.text.toList = dropEnd '\n' entry.text.toList ++ ['\n'] := by
  obtain ⟨body, text⟩ := List.getLast?_eq_some_iff.mp keeps
  rw [text, Text.dropEnd_append]

theorem splitOn_texts {entries : List Entry} (keep : ∀ entry ∈ entries, entry.KeepsLine) :
    (String.join (entries.map Entry.text)).toList.splitOn '\n' =
      entries.flatMap Entry.lines ++ [[]] := by
  induction entries with
  | nil => rfl
  | cons entry rest ih =>
    obtain ⟨keeps, later⟩ := List.forall_mem_cons.mp keep
    rw [List.map_cons, String.join_cons, String.toList_append, text_of_keepsLine keeps,
      List.append_assoc, List.singleton_append, List.splitOn_append_cons_self, ih later,
      List.flatMap_cons, List.append_assoc]
    rfl

theorem errorLines_of_keep (keep : ∀ entry ∈ o.stderr, entry.KeepsLine) :
    o.errorLines = o.stderr.flatMap Entry.lines ++ [[]] :=
  splitOn_texts keep

theorem errorLines_sublist (fewer : o.stderr.Sublist o'.stderr)
    (keep : ∀ entry ∈ o'.stderr, entry.KeepsLine) : o.errorLines.Sublist o'.errorLines := by
  rw [errorLines_of_keep keep, errorLines_of_keep fun entry mem => keep entry (fewer.subset mem)]
  exact (fewer.flatMap Entry.lines).append_right _

/-! ### Control sequences -/

theorem indent_free {message : String} (free : '\x1b' ∉ message.toList) :
    '\x1b' ∉ (Log.indent message).toList := by
  unfold Log.indent
  rw [String.toList_ofList, List.mem_flatMap]
  rintro ⟨c, mem, inside⟩
  split at inside
  · simp at inside
  · exact free (List.mem_singleton.mp inside ▸ mem)

theorem line_free {r : Log.Record} (free : '\x1b' ∉ r.message.toList) :
    '\x1b' ∉ r.line.toList := by
  have level : '\x1b' ∉ r.level.name.toList.rightpad 5 ' ' := by
    cases r.level <;> decide
  have source : '\x1b' ∉ r.source.name.toList := by
    cases r.source <;> decide
  have line : r.line = "[" ++ String.ofList (r.level.name.toList.rightpad 5 ' ') ++ " " ++
      r.source.name ++ "] " ++ Log.indent r.message := rfl
  rw [line]
  simp only [String.toList_append, String.toList_ofList, List.mem_append, not_or]
  exact ⟨⟨⟨⟨⟨by decide, level⟩, by decide⟩, source⟩, by decide⟩, indent_free free⟩

/-- Where no escape character stands in a message, the record ends its line. -/
theorem keepsLine_of_no_escape {r : Log.Record} (free : '\x1b' ∉ r.message.toList) :
    (Entry.record r).KeepsLine := by
  have whole : '\x1b' ∉ r.line.toList ++ ['\n'] := by
    simp [line_free free]
  unfold Entry.KeepsLine Entry.text Text.Terminal.plain
  rw [String.toList_ofList, String.toList_append]
  show (Text.Terminal.shown true _ (r.line.toList ++ ['\n'])).getLast? = _
  rw [Text.Terminal.shown_of_no_escape true whole, List.filter_append]
  exact List.getLast?_concat

/-! ### Two runs -/

/-- Two runs with the same root and input differ in their log, and in what is refused of their directives.
Without directives the log of the less verbose one is part of the other's, in the same order and in the same
place before the problems. -/
theorem run_verbosity (t : FileTree) (input : Stream) (name name' : String)
    {arguments arguments' : List String} {inv inv' : Invocation}
    (parsed : Invocation.parse arguments = .ok inv)
    (parsed' : Invocation.parse arguments' = .ok inv') (same : inv.root = inv'.root)
    (spec spec' : Option String) :
    let o := run t (name :: arguments) input spec
    let o' := run t (name' :: arguments') input spec'
    o.exitCode = o'.exitCode ∧ o.stdout = o'.stdout ∧ o.notices = o'.notices ∧
      (refusals spec = [] → refusals spec' = [] → o.unlogged = o'.unlogged) ∧
      (spec = none → spec' = none → inv.verbosity ≤ inv'.verbosity →
        o.stderr = o'.stderr.filter (Entry.seenAt inv.logLevel) ∧ o.stderr.Sublist o'.stderr ∧
          ((∀ entry ∈ o'.stderr, entry.KeepsLine) → o.errorLines.Sublist o'.errorLines)) := by
  obtain ⟨exitCode, stdout, records, problems, performs⟩ := exists_perform t input inv.root
  intro o o'
  have first : o = _ := (run_of_parse name parsed input spec).trans (performs inv rfl spec)
  have second : o' = _ := (run_of_parse name' parsed' input spec').trans (performs inv' same.symm spec')
  have stderr := congrArg Outcome.stderr first
  have stderr' := congrArg Outcome.stderr second
  refine ⟨by rw [first, second], by rw [first, second], ?_, ?_, ?_⟩
  · rw [notices_of_stderr _ stderr, notices_of_stderr _ stderr']
  · intro valid valid'
    rw [unlogged_of_stderr stderr, unlogged_of_stderr stderr', valid, valid']
  · rintro rfl rfl quieter
    have fewer : o.stderr = o'.stderr.filter (Entry.seenAt inv.logLevel) := by
      have unrefused : (refusals none).map Entry.refused = [] := rfl
      have told : (problems.map .notice).filter (Entry.seenAt inv.logLevel) = problems.map .notice :=
        List.filter_eq_self.mpr (List.forall_mem_map.mpr fun _ _ => rfl)
      rw [stderr, stderr', unrefused, List.nil_append, List.nil_append, List.filter_append, told]
      exact congrArg (· ++ _) (logged_ofLevel (rank_logLevel_le quieter) records)
    have sublist : o.stderr.Sublist o'.stderr := fewer ▸ List.filter_sublist
    exact ⟨fewer, sublist, errorLines_sublist sublist⟩

/-- What is refused of the directives is told of in front, and stays where the log is left out. -/
example : (run Scan.mixed ["line_tally", "."] [] (some "a=b")).unlogged =
    [.refused (.directive "b"), .notice (.file ⟨"./bad.js"⟩ (.undecodable 1 ⟨0, some 1⟩))] := by
  decide +kernel

theorem mixed_verbosity :
    let quiet : Invocation := { root := some ⟨"."⟩ }
    let o := run Scan.mixed ["line_tally", "."] [] none
    let o' := run Scan.mixed ["tally", "-v", "--", "."] [] none
    let directives := "off,line_tally_engine=info/scanned"
    let directed := run Scan.mixed ["line_tally", "."] [] (some directives)
    o.stderr = o'.stderr.filter (Entry.seenAt quiet.logLevel) ∧ o'.stderr.length = 3 ∧
      (∀ entry ∈ o'.stderr, entry.KeepsLine) ∧ o.errorLines.Sublist o'.errorLines ∧
      refusals (some directives) = [] ∧ directed.stderr.length = 2 ∧ directed.unlogged = o'.unlogged := by
  intro quiet o o' directives directed
  have parsed : Invocation.parse ["."] = .ok quiet := rfl
  have parsed' : Invocation.parse ["-v", "--", "."] = .ok { quiet with verbosity := 1 } := rfl
  obtain ⟨_, _, _, _, quieter⟩ :=
    run_verbosity Scan.mixed [] "line_tally" "tally" parsed parsed' rfl none none
  obtain ⟨fewer, _, lines⟩ := quieter rfl rfl (by decide)
  have shown : o'.stderr = [
      .record ⟨.warn, .walk,
        "walk error: ./locked: IO error for operation on ./locked: Permission denied (os error 13)"⟩,
      .record ⟨.info, .scan, "scanned 2 files under . (1 unreadable)"⟩,
      .notice (.file ⟨"./bad.js"⟩ (.undecodable 1 ⟨0, some 1⟩))] := by decide +kernel
  have keep : ∀ entry ∈ o'.stderr, entry.KeepsLine := by
    rw [shown, List.forall_mem_cons, List.forall_mem_cons, List.forall_mem_singleton]
    exact ⟨keepsLine_of_no_escape (by decide +kernel), keepsLine_of_no_escape (by decide +kernel),
      keepsLine_notice _⟩
  have valid : refusals (some directives) = [] := by decide +kernel
  obtain ⟨_, _, _, unlogged, _⟩ :=
    run_verbosity Scan.mixed [] "line_tally" "tally" parsed parsed' rfl (some directives) none
  exact ⟨fewer, congrArg List.length shown, keep, lines keep, valid, by decide +kernel,
    unlogged valid rfl⟩

/-- The name of a directory begins a command to the terminal and does not end it. -/
def opened : FileTree where
  top := .directory
    [(⟨"d\x1b]", Eq.refl true⟩,
      .directory [(⟨"bad.js", Eq.refl true⟩, .file [0xFF, 0x0A] true)] {})] {}
  workingDir := []
  ordered := by decide

/-- The line feed behind the record is part of the command, so the line about the file is not a line of
the more verbose run. -/
theorem opened_swallows :
    let o := run opened ["line_tally", "d\x1b]"] [] none
    let o' := run opened ["line_tally", "-v", "d\x1b]"] [] none
    Invocation.parse ["d\x1b]"] = .ok { root := some ⟨"d\x1b]"⟩ } ∧
      Invocation.parse ["-v", "d\x1b]"] = .ok { root := some ⟨"d\x1b]"⟩, verbosity := 1 } ∧
      o.errorText = "Failed to read file 'd\x1b]/bad.js': invalid UTF-8 on line 1: " ++
        "invalid utf-8 sequence of 1 bytes from index 0\n" ∧
      ¬ o.errorLines.Sublist o'.errorLines := by
  decide +kernel

end LineCensus.Program
