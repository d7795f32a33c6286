import LineCensus.Proofs.Scan
import LineCensus.Proofs.Walk.Records

/-!
# What a scan writes to the log

After the records of the walk there is one for each file that it collected, then the summary.
`ofTree_records` shows that they agree with the totals and the failures of the scan.
-/

namespace LineCensus.Scan

variable {t : FileTree} {s : Settings}

/-- The record about a collected file: its number of lines, or why it could not be counted. -/
def fileRecord (t : FileTree) (path : Path) : Log.Record :=
  match countFile t path with
  | .ok counts => ⟨.debug, .scan, s!"{path.text}: {counts.total} lines"⟩
  | .error fault => ⟨.debug, .scan, (Problem.file path fault).message⟩

def summaryRecord (root : Path) (files unreadable : Nat) : Log.Record :=
  ⟨.info, .scan, s!"scanned {files} files under {root.text} ({unreadable} unreadable)"⟩

def cannotCount (t : FileTree) (path : Path) : Bool :=
  (countFile t path).toOption.isNone

theorem summary_eq (scan : Scan) :
    scan.summary = summaryRecord scan.root scan.totals.files scan.failures.length := by
  have apart : " (" = " " ++ "(" := rfl
  unfold summary summaryRecord
  simp only [String.append_assoc, toString, apart]

/-! ### One file -/

theorem fileRecords_addOutcome (scan : Scan) (path : Path) :
    (scan.addOutcome path (countFile t path)).fileRecords =
      scan.fileRecords ++ [fileRecord t path] := by
  unfold fileRecord
  cases countFile t path <;> rfl

/-- The walk is over when the first file is counted. -/
theorem walk_addOutcome (scan : Scan) (path : Path) :
    (scan.addOutcome path (countFile t path)).root = scan.root ∧
      (scan.addOutcome path (countFile t path)).visits = scan.visits := by
  cases countFile t path <;> exact ⟨rfl, rfl⟩

/-! ### All files -/

theorem fileRecords_addFiles (scan : Scan) (paths : List Path) :
    (addFiles t scan paths).fileRecords = scan.fileRecords ++ paths.map (fileRecord t) := by
  induction paths generalizing scan with
  | nil => exact (List.append_nil _).symm
  | cons path rest ih =>
    rw [addFiles, ih, fileRecords_addOutcome, List.append_assoc]
    rfl

theorem walk_addFiles (scan : Scan) (paths : List Path) :
    (addFiles t scan paths).root = scan.root ∧ (addFiles t scan paths).visits = scan.visits := by
  induction paths generalizing scan with
  | nil => exact ⟨rfl, rfl⟩
  | cons path rest ih =>
    obtain ⟨root, visits⟩ := walk_addOutcome (t := t) scan path
    rw [addFiles, (ih _).1, (ih _).2, root, visits]
    exact ⟨rfl, rfl⟩

/-- The lines of the files that were counted are the lines of the totals. -/
theorem Accounts.lines {scan : Scan} {paths : List Path} (accounts : Accounts t scan paths) :
    ((counted t paths).map Counts.total).sum = scan.totals.lines := by
  unfold Totals.lines
  rw [accounts.code, accounts.blank, accounts.comment]
  induction counted t paths with
  | nil => rfl
  | cons counts rest ih =>
    simp only [List.map_cons, List.sum_cons, ih, Counts.total]
    omega

/-- The files that failed are those that cannot be counted, in the same order. -/
theorem failed_paths (paths : List Path) :
    (failed t paths).map Prod.fst = paths.filter (cannotCount t) := by
  induction paths with
  | nil => rfl
  | cons path rest ih =>
    rw [← List.singleton_append, failed_append, List.map_append, ih, List.filter_append]
    congr 1
    unfold cannotCount
    rcases counted_or_failed t path with ⟨_, outcome, _, faults⟩ | ⟨_, outcome, _, faults⟩
    · simp [faults, outcome, Except.toOption]
    · simp [faults, outcome, Except.toOption]

theorem length_failed (paths : List Path) : (failed t paths).length = paths.countP (cannotCount t) := by
  rw [← List.length_map Prod.fst, failed_paths, List.countP_eq_length_filter]

theorem failed_nodup {paths : List Path} (nodup : paths.Nodup) : (failed t paths).Nodup := by
  apply List.Nodup.of_map Prod.fst
  rw [failed_paths]
  exact nodup.filter _

theorem mem_failed {paths : List Path} {path : Path} {fault : Tally.Fault} :
    (path, fault) ∈ failed t paths ↔ path ∈ paths ∧ countFile t path = .error fault := by
  unfold failed
  rw [List.mem_filterMap]
  constructor
  · rintro ⟨other, mem, told⟩
    split at told
    · cases told
    · next outcome =>
      obtain ⟨rfl, rfl⟩ := Prod.mk.inj (Option.some.inj told)
      exact ⟨mem, outcome⟩
  · rintro ⟨mem, outcome⟩
    exact ⟨path, mem, by rw [outcome]⟩

theorem ofTree_of_other (other : t.stat s.root ≠ .ok .directory) :
    ofTree t s = .error (.invalidRoot s.root) := by
  unfold ofTree
  split
  · next reached => exact absurd reached other
  · rfl

/-- What a scan of a directory is made of. -/
theorem ofTree_eq (directory : t.stat s.root = .ok .directory) :
    ∃ scan, ofTree t s = .ok scan ∧ Accounts t scan (Walk.files t s) ∧
      scan.records = Walk.records t s ++ (Walk.files t s).map (fileRecord t) ++
        [summaryRecord s.root scan.totals.files scan.failures.length] := by
  let begun : Scan := { root := s.root, visits := Walk.visits t s }
  have start : Accounts t begun [] := ⟨rfl, rfl, rfl, rfl, rfl⟩
  obtain ⟨root, visits⟩ := walk_addFiles (t := t) begun (Walk.files t s)
  refine ⟨addFiles t begun (Walk.files t s), ?_, start.addFiles _, ?_⟩
  · unfold ofTree
    rw [directory]
  · unfold records
    rw [summary_eq, fileRecords_addFiles, root, visits]
    rfl

/-- The log of a scan accounts for each entry that the walk reached: first the excluded directories, the
files that are not collected and the directories that cannot be listed, nothing below an excluded one
among them, then each collected file with its lines or its fault, then the summary. -/
theorem ofTree_records (directory : t.stat s.root = .ok .directory) (dash : s.root.isDash = false) :
    ∃ scan walk, ofTree t s = .ok scan ∧
      scan.records = walk ++ (Walk.files t s).map (fileRecord t) ++
        [summaryRecord s.root scan.totals.files scan.failures.length] ∧
      Walk.Lists (Walk.Noted t s) walk ∧
      (∀ way name rest record, name.text ∈ s.excludedDirs → rest ≠ [] →
        ¬ Walk.Noted t s (way ++ name :: rest) record) ∧
      ((counted t (Walk.files t s)).map Counts.total).sum = scan.totals.lines ∧
      (Walk.files t s).length = scan.totals.files ∧
      (Walk.files t s).countP (cannotCount t) = scan.failures.length ∧
      scan.failures = failed t (Walk.files t s) := by
  obtain ⟨scan, scanned, accounts, records⟩ := ofTree_eq directory
  refine ⟨scan, Walk.records t s, scanned, records, Walk.records_lists directory dash,
    fun way name rest record excluded below => Walk.not_noted_below excluded below record,
    accounts.lines, accounts.files.symm, ?_, accounts.failures⟩
  rw [accounts.failures, length_failed]

/-- An excluded directory, a file that is no text, a directory that cannot be listed, a file and a
note. -/
def mixed : FileTree where
  top := .directory
    [(⟨".git", by decide⟩, .directory [(⟨"hook.py", by decide⟩, .file [] true)] {}),
      (⟨"bad.js", by decide⟩, .file [0xFF] true),
      (⟨"locked", by decide⟩, .directory [] { read := false }),
      (⟨"main.py", by decide⟩, .file [0x61] true), (⟨"notes.txt", by decide⟩, .file [] true)] {}
  workingDir := []
  ordered := by decide

theorem mixed_records :
    mixed.stat (Settings.ofRoot ⟨"."⟩).root = .ok .directory ∧
      (Settings.ofRoot ⟨"."⟩).root.isDash = false ∧
      Walk.records mixed (.ofRoot ⟨"."⟩) =
        [Walk.prunedRecord ⟨"./.git"⟩, Walk.warning ⟨"./locked"⟩ .accessDenied,
          Walk.skippedRecord ⟨"./notes.txt"⟩] ∧
      ∃ scan walk, ofTree mixed (.ofRoot ⟨"."⟩) = .ok scan ∧
        scan.records = walk ++ [fileRecord mixed ⟨"./bad.js"⟩, fileRecord mixed ⟨"./main.py"⟩] ++
          [summaryRecord ⟨"."⟩ scan.totals.files scan.failures.length] ∧
        Walk.Lists (Walk.Noted mixed (.ofRoot ⟨"."⟩)) walk := by
  refine ⟨rfl, rfl, rfl, ?_⟩
  obtain ⟨scan, walk, scanned, records, lists, _⟩ :=
    ofTree_records (t := mixed) (s := .ofRoot ⟨"."⟩) rfl rfl
  exact ⟨scan, walk, scanned, records, lists⟩

end LineCensus.Scan
