import LineCensus.Proofs.Scan.Totals
import LineCensus.Proofs.Walk.Spelling

/-!
# Scanning a directory at two of its paths

A scan brings the same totals and the same failures however its root is spelled, as long as no path below is
too long or takes too many links (`ofTree_respelled`). Only a root that stands for the standard input brings
nothing, although it may be the name of a directory (`hyphen_differs`).
-/

namespace LineCensus.Scan

open FileTree (Name Position Roomy)

variable {t : FileTree} {s : Settings}

theorem countFile_congr {p q : Path} (same : t.resolve p = t.resolve q) : countFile t p = countFile t q := by
  unfold countFile
  rw [FileTree.read_congr same]

theorem sumTotals_map_congr {found : List (List Name)} {f g : List Name → Path}
    (same : ∀ names ∈ found, countFile t (f names) = countFile t (g names)) :
    sumTotals t (found.map f) = sumTotals t (found.map g) := by
  unfold sumTotals
  rw [List.map_map, List.map_map]
  refine congrArg List.sum (List.map_congr_left fun names mem => ?_)
  show fileTotals t (f names) = fileTotals t (g names)
  unfold fileTotals
  rw [same names mem]

/-- The names that cannot be counted behind a path, each with its fault. -/
def faultsAt (t : FileTree) (f : List Name → Path) (found : List (List Name)) :
    List (List Name × Tally.Fault) :=
  found.filterMap fun names =>
    match countFile t (f names) with
    | .ok _ => none
    | .error fault => some (names, fault)

theorem failed_map (f : List Name → Path) (found : List (List Name)) :
    failed t (found.map f) = (faultsAt t f found).map fun failure => (f failure.1, failure.2) := by
  unfold failed faultsAt
  rw [List.filterMap_map, List.map_filterMap]
  refine List.filterMap_congr fun names _ => ?_
  cases outcome : countFile t (f names) <;> simp [outcome]

theorem faultsAt_congr {found : List (List Name)} {f g : List Name → Path}
    (same : ∀ names ∈ found, countFile t (f names) = countFile t (g names)) :
    faultsAt t f found = faultsAt t g found := by
  unfold faultsAt
  refine List.filterMap_congr fun names mem => ?_
  rw [same names mem]

/-- Two paths to one directory that leave room for all names below bring the same totals, and the same
faults behind the same names in the same order, unless one of them stands for the standard input and the
other does not. The one that does brings nothing. -/
theorem ofTree_respelled (t : FileTree) (s : Settings) {first second : Path} {start : Position}
    (room : Roomy t first start) (room' : Roomy t second start)
    (directory : t.look start = some .directory) :
    ∃ scan scan', ofTree t { s with root := first } = .ok scan ∧
      ofTree t { s with root := second } = .ok scan' ∧
      (first.isDash = second.isDash → scan.totals = scan'.totals ∧
        ∃ faults : List (List Name × Tally.Fault),
          scan.failures = faults.map (fun failure => (first.below failure.1, failure.2)) ∧
            scan'.failures = faults.map fun failure => (second.below failure.1, failure.2)) ∧
      (first.isDash = true → scan.totals = 0 ∧ scan.failures = []) := by
  have stat : t.stat first = .ok .directory := FileTree.stat_of_look room.resolved directory
  have stat' : t.stat second = .ok .directory := FileTree.stat_of_look room'.resolved directory
  obtain ⟨scan, scanned, totals, failures⟩ :=
    ofTree_of_directory (s := { s with root := first }) stat
  obtain ⟨scan', scanned', totals', failures'⟩ :=
    ofTree_of_directory (s := { s with root := second }) stat'
  refine ⟨scan, scan', scanned, scanned', fun alike => ?_, fun dash => ?_⟩
  · obtain ⟨found, files, files', same⟩ := Walk.files_respelled (s := s) room room' directory alike
    have counts : ∀ names ∈ found,
        countFile t (first.below names) = countFile t (second.below names) :=
      fun names mem => countFile_congr (same names mem)
    refine ⟨?_, faultsAt t first.below found, ?_, ?_⟩
    · rw [totals, totals', files, files', sumTotals_map_congr counts]
    · rw [failures, files, failed_map]
    · rw [failures', files', failed_map, faultsAt_congr counts]
  · rw [totals, failures, Walk.files_of_dash (s := { s with root := first }) dash]
    exact ⟨rfl, rfl⟩

/-! ### A directory that is named like the standard input -/

def dash : Name :=
  ⟨"-", Eq.refl true⟩

def plainPy : Name :=
  ⟨"a.py", Eq.refl true⟩

def badJs : Name :=
  ⟨"b.js", Eq.refl true⟩

/-- A directory with a file that can be counted and one that cannot, and a link to it. -/
def hyphen : FileTree where
  top := .directory
    [(dash, .directory [(plainPy, .file [0x61] true), (badJs, .file [0xFF] true)] {}),
      (⟨"l", Eq.refl true⟩, .link ⟨"./-"⟩)] {}
  workingDir := []
  ordered := by decide

theorem hyphen_places {names : List Name} (there : (hyphen.look (dash :: names)).isSome) :
    names = [] ∨ names = [plainPy] ∨ names = [badJs] := by
  cases names with
  | nil => exact Or.inl rfl
  | cons name rest =>
    by_cases first : name = plainPy
    · subst first
      cases rest with
      | nil => exact Or.inr (Or.inl rfl)
      | cons _ _ => cases there
    by_cases second : name = badJs
    · subst second
      cases rest with
      | nil => exact Or.inr (Or.inr rfl)
      | cons _ _ => cases there
    · simp [FileTree.look, hyphen, FileTree.Node.find?, List.lookup_cons, beq_false_of_ne first,
        beq_false_of_ne second] at there

theorem hyphen_roomy {p : Path} (resolved : hyphen.resolve p = .ok [dash])
    (short : ∀ names ∈ [[], [plainPy], [badJs]], (p.below names).size < FileTree.pathLimit)
    (opens : ∀ names ∈ [[plainPy], [badJs]], (hyphen.resolve (p.below names)).isOk) :
    Roomy hyphen p [dash] := by
  refine ⟨resolved, fun names there => ?_, fun way name there looped => ?_⟩
  · rcases hyphen_places there with rfl | rfl | rfl
    · exact short _ (by simp)
    · exact short _ (by simp)
    · exact short _ (by simp)
  · rw [List.append_assoc] at there
    have places : way ++ [name] = [] ∨ way ++ [name] = [plainPy] ∨ way ++ [name] = [badJs] :=
      hyphen_places there
    have found : (hyphen.resolve (p.below (way ++ [name]))).isOk := by
      rcases places with none | one | one
      · simp at none
      · exact opens _ (by simp [one])
      · exact opens _ (by simp [one])
    rw [looped] at found
    cases found

theorem hyphen_respelled :
    Roomy hyphen ⟨"l//"⟩ [dash] ∧ Roomy hyphen ⟨"./-/../-"⟩ [dash] ∧
      hyphen.look [dash] = some .directory ∧
      ∃ scan scan', ofTree hyphen (.ofRoot ⟨"l//"⟩) = .ok scan ∧
        ofTree hyphen (.ofRoot ⟨"./-/../-"⟩) = .ok scan' ∧ scan.totals = scan'.totals ∧
        scan'.failures = [(⟨"./-/../-/b.js"⟩, .undecodable 1 ⟨0, some 1⟩)] := by
  have room : Roomy hyphen ⟨"l//"⟩ [dash] :=
    hyphen_roomy (by decide) (by decide +kernel) (by decide +kernel)
  have room' : Roomy hyphen ⟨"./-/../-"⟩ [dash] :=
    hyphen_roomy (by decide) (by decide +kernel) (by decide +kernel)
  have directory : hyphen.look [dash] = some .directory := rfl
  obtain ⟨scan, scan', scanned, scanned', alike, _⟩ :=
    ofTree_respelled hyphen (.ofRoot ⟨"l//"⟩) room room' directory
  have failures : failuresOf (ofTree hyphen (.ofRoot ⟨"./-/../-"⟩)) =
      [(⟨"./-/../-/b.js"⟩, .undecodable 1 ⟨0, some 1⟩)] := by decide +kernel
  have told : scan'.failures = failuresOf (ofTree hyphen (.ofRoot ⟨"./-/../-"⟩)) :=
    (congrArg failuresOf scanned').symm
  exact ⟨room, room', directory, scan, scan', scanned, scanned', (alike (by decide)).1,
    told.trans failures⟩

/-- The path `-` leads to a directory with two files, and a scan of it finds none. -/
theorem hyphen_differs :
    Roomy hyphen ⟨"-"⟩ [dash] ∧ Roomy hyphen ⟨"./-"⟩ [dash] ∧
      hyphen.look [dash] = some .directory ∧
      totalsOf (ofTree hyphen (.ofRoot ⟨"-"⟩)) = ⟨0, 0, 0, 0⟩ ∧
      totalsOf (ofTree hyphen (.ofRoot ⟨"./-"⟩)) = ⟨2, 1, 0, 0⟩ := by
  have room : Roomy hyphen ⟨"-"⟩ [dash] :=
    hyphen_roomy (by decide) (by decide +kernel) (by decide +kernel)
  have room' : Roomy hyphen ⟨"./-"⟩ [dash] :=
    hyphen_roomy (by decide) (by decide +kernel) (by decide +kernel)
  exact ⟨room, room', rfl, by decide +kernel, by decide +kernel⟩

end LineCensus.Scan
