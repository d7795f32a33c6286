import Mathlib.Algebra.GroupWithZero.Nat
import LineCensus.Scan

/-!
# What a scan accounts for

Each file that a walk found is counted or has failed: `Accounts` is what a scan knows after some
files, each further file keeps it (`Accounts.addOutcome`), and so it holds at the end of a scan
(`ofTree_accounts`).
-/

namespace LineCensus.Scan

variable {t : FileTree} {scan : Scan} {paths : List Path}

def counted (t : FileTree) (paths : List Path) : List Counts :=
  paths.filterMap fun path => (countFile t path).toOption

def failed (t : FileTree) (paths : List Path) : List (Path × Tally.Fault) :=
  paths.filterMap fun path =>
    match countFile t path with
    | .ok _ => none
    | .error fault => some (path, fault)

/-- What a scan has when some files have been gone through. -/
structure Accounts (t : FileTree) (scan : Scan) (paths : List Path) : Prop where
  files : scan.totals.files = paths.length
  code : scan.totals.code = ((counted t paths).map Counts.code).sum
  blank : scan.totals.blank = ((counted t paths).map Counts.blank).sum
  comment : scan.totals.comment = ((counted t paths).map Counts.comment).sum
  failures : scan.failures = failed t paths

theorem counted_append (xs ys : List Path) :
    counted t (xs ++ ys) = counted t xs ++ counted t ys :=
  List.filterMap_append

theorem failed_append (xs ys : List Path) : failed t (xs ++ ys) = failed t xs ++ failed t ys :=
  List.filterMap_append

theorem counted_or_failed (t : FileTree) (path : Path) :
    (∃ counts, countFile t path = .ok counts ∧ counted t [path] = [counts] ∧
        failed t [path] = []) ∨
      ∃ fault, countFile t path = .error fault ∧ counted t [path] = [] ∧
        failed t [path] = [(path, fault)] := by
  cases outcome : countFile t path with
  | ok counts => exact Or.inl ⟨counts, rfl, by simp [counted, failed, outcome, Except.toOption]⟩
  | error fault => exact Or.inr ⟨fault, rfl, by simp [counted, failed, outcome, Except.toOption]⟩

theorem length_counted_add_failed (t : FileTree) (paths : List Path) :
    (counted t paths).length + (failed t paths).length = paths.length := by
  induction paths with
  | nil => rfl
  | cons path rest ih =>
    rw [← List.singleton_append, counted_append, failed_append, List.length_append,
      List.length_append, List.length_append]
    rcases counted_or_failed t path with ⟨_, _, counts, none⟩ | ⟨_, _, none, faults⟩
    · rw [counts, none, List.length_singleton, List.length_nil, List.length_singleton]
      omega
    · rw [none, faults, List.length_singleton, List.length_nil, List.length_singleton]
      omega

theorem Accounts.addOutcome (accounts : Accounts t scan paths) (path : Path) :
    Accounts t (scan.addOutcome path (countFile t path)) (paths ++ [path]) := by
  obtain ⟨files, code, blank, comment, failures⟩ := accounts
  rcases counted_or_failed t path with ⟨counts, outcome, more, none⟩ | ⟨fault, outcome, none, more⟩
  · rw [outcome]
    constructor <;>
      simp only [Scan.addOutcome, Totals.addFile, counted_append, failed_append, more, none,
        List.map_append, List.sum_append, List.map_singleton, List.sum_singleton,
        List.length_append, List.length_singleton, List.append_nil, files, code, blank, comment,
        failures]
  · -- Nothing is added to the lines, whatever was recorded before the failure.
    have zero : (0 : Counts) = ⟨0, 0, 0⟩ := rfl
    rw [outcome]
    constructor <;>
      simp only [Scan.addOutcome, Totals.addFile, counted_append, failed_append, more, none, zero,
        Nat.add_zero, List.length_append, List.length_singleton, List.append_nil, files, code,
        blank, comment, failures]

theorem Accounts.addFiles (accounts : Accounts t scan paths) (more : List Path) :
    Accounts t (scan.addFiles t more) (paths ++ more) := by
  induction more generalizing scan paths with
  | nil =>
    rw [List.append_nil]
    exact accounts
  | cons path rest ih =>
    rw [Scan.addFiles, List.append_cons]
    exact ih (accounts.addOutcome path)

/-- A scan fails only for a root that is no directory. Otherwise it accounts for each file of the
walk: its lines are those of the files that could be counted, and all others are its failures. -/
theorem ofTree_accounts (t : FileTree) (s : Settings) :
    (ofTree t s = .error (.invalidRoot s.root) ↔ t.stat s.root ≠ .ok .directory) ∧
      (t.stat s.root = .ok .directory ↔
        ∃ scan, ofTree t s = .ok scan ∧ Accounts t scan (Walk.files t s) ∧
          scan.totals.files = (counted t (Walk.files t s)).length + scan.failures.length) := by
  by_cases directory : t.stat s.root = .ok .directory
  · have scanned : ofTree t s =
        .ok (addFiles t { root := s.root, visits := Walk.visits t s } (Walk.files t s)) := by
      rw [ofTree, directory]
    have start : Accounts t { root := s.root, visits := Walk.visits t s } [] :=
      ⟨rfl, rfl, rfl, rfl, rfl⟩
    have accounts := start.addFiles (Walk.files t s)
    rw [List.nil_append] at accounts
    refine ⟨iff_of_false ?_ (not_not_intro directory), iff_of_true directory ?_⟩
    · rw [scanned]
      exact nofun
    · refine ⟨_, scanned, accounts, ?_⟩
      rw [accounts.files, accounts.failures, length_counted_add_failed]
  · have refused : ofTree t s = .error (.invalidRoot s.root) := by
      unfold ofTree
      split
      · next reached => exact absurd reached directory
      · rfl
    refine ⟨iff_of_true refused directory, iff_of_false directory ?_⟩
    rintro ⟨scan, scanned, _⟩
    rw [refused] at scanned
    cases scanned

end LineCensus.Scan
