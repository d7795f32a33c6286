import Mathlib.Algebra.BigOperators.Group.List.Basic
import LineCensus.Proofs.Scan

/-!
# Totals as sums

Totals add up component by component. A scan adds one file after the other, so what it has in the end
is a sum over the files of the walk, and its failures are a list over them (`ofTree_of_directory`). Both
fall apart where the list of files does.
-/

namespace LineCensus

namespace Totals

protected def add (t u : Totals) : Totals :=
  ⟨t.files + u.files, t.code + u.code, t.blank + u.blank, t.comment + u.comment⟩

instance : Add Totals := ⟨Totals.add⟩

instance : Zero Totals := ⟨{}⟩

theorem add_def (t u : Totals) :
    t + u = ⟨t.files + u.files, t.code + u.code, t.blank + u.blank, t.comment + u.comment⟩ :=
  rfl

theorem zero_def : (0 : Totals) = ⟨0, 0, 0, 0⟩ :=
  rfl

instance : AddCommMonoid Totals where
  add_assoc t u v := by simp only [add_def, Nat.add_assoc]
  zero_add t := by simp only [add_def, zero_def, Nat.zero_add]
  add_zero t := by simp only [add_def, zero_def, Nat.add_zero]
  add_comm t u := by simp only [add_def, Nat.add_comm]
  nsmul := nsmulRec

/-- The totals of one file. -/
def ofFile (c : Counts) : Totals :=
  ⟨1, c.code, c.blank, c.comment⟩

theorem addFile_eq (t : Totals) (c : Counts) : t.addFile c = t + ofFile c :=
  rfl

end Totals

namespace Scan

variable {t : FileTree} {s : Settings}

/-- One file with its counts. If it cannot be counted these are zero. -/
def fileTotals (t : FileTree) (path : Path) : Totals :=
  .ofFile ((countFile t path).toOption.getD 0)

def sumTotals (t : FileTree) (paths : List Path) : Totals :=
  (paths.map (fileTotals t)).sum

theorem totals_addOutcome (t : FileTree) (scan : Scan) (path : Path) :
    (scan.addOutcome path (countFile t path)).totals = scan.totals + fileTotals t path := by
  unfold fileTotals
  cases countFile t path with
  | ok counts => exact scan.totals.addFile_eq counts
  | error fault => exact scan.totals.addFile_eq 0

theorem failures_addOutcome (t : FileTree) (scan : Scan) (path : Path) :
    (scan.addOutcome path (countFile t path)).failures = scan.failures ++ failed t [path] := by
  unfold failed
  cases outcome : countFile t path <;> simp [addOutcome, outcome]

theorem totals_addFiles (t : FileTree) (scan : Scan) (paths : List Path) :
    (addFiles t scan paths).totals = scan.totals + sumTotals t paths := by
  induction paths generalizing scan with
  | nil => exact (add_zero scan.totals).symm
  | cons path rest ih =>
    unfold addFiles
    rw [ih, totals_addOutcome, add_assoc]
    rfl

theorem failures_addFiles (t : FileTree) (scan : Scan) (paths : List Path) :
    (addFiles t scan paths).failures = scan.failures ++ failed t paths := by
  induction paths generalizing scan with
  | nil => exact (List.append_nil scan.failures).symm
  | cons path rest ih =>
    unfold addFiles
    rw [ih, failures_addOutcome, List.append_assoc, ← failed_append]
    rfl

theorem sumTotals_flatMap {α : Type} (t : FileTree) (xs : List α) (f : α → List Path) :
    sumTotals t (xs.flatMap f) = (xs.map fun x => sumTotals t (f x)).sum := by
  induction xs with
  | nil => rfl
  | cons x rest ih =>
    unfold sumTotals at ih ⊢
    rw [List.flatMap_cons, List.map_append, List.sum_append, ih, List.map_cons, List.sum_cons]

theorem failed_flatMap {α : Type} (t : FileTree) (xs : List α) (f : α → List Path) :
    failed t (xs.flatMap f) = xs.flatMap fun x => failed t (f x) :=
  List.filterMap_flatMap

/-! ### What a scan brings -/

/-- The totals of a scan. One that was refused brings nothing. -/
def totalsOf : Except Problem Scan → Totals
  | .ok scan => scan.totals
  | .error _ => 0

def failuresOf : Except Problem Scan → List (Path × Tally.Fault)
  | .ok scan => scan.failures
  | .error _ => []

theorem ofTree_of_directory (directory : t.stat s.root = .ok .directory) :
    ∃ scan, ofTree t s = .ok scan ∧ scan.totals = sumTotals t (Walk.files t s) ∧
      scan.failures = failed t (Walk.files t s) := by
  unfold ofTree
  rw [directory]
  refine ⟨_, rfl, ?_, ?_⟩
  · rw [totals_addFiles]
    exact zero_add _
  · rw [failures_addFiles]
    rfl

end Scan

end LineCensus
