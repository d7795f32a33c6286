import LineCensus.Proofs.Walk.Visits

/-!
# The files that a walk collects

`Eligible` says which names below the root are those of a file to count. `files_iff_eligible` shows that a
walk collects the paths of these names and no others, in component by component order and each once.
-/

namespace LineCensus.Walk

open FileTree (Name Kind)

variable {t : FileTree} {s : Settings}

/-- An entry of this kind counts as a file at a path: a regular file, or a symbolic link that leads
to one or cannot be followed. -/
def FileLike (t : FileTree) (path : Path) : Kind → Prop
  | .file => True
  | .link _ => (∃ fault, t.stat path = .error fault) ∨ t.stat path = .ok .file
  | .directory | .fifo | .device => False

/-- The name has an extension, and files with it are counted. -/
def Included (s : Settings) (name : Name) : Prop :=
  ∃ ext, Extension.ofName name.text = some ext ∧ ext ∈ s.includedExts

/-- Each of the names is that of a real directory in the one before. The directory can be listed, and
its name is not excluded. -/
def Entered (t : FileTree) (s : Settings) (path : Path) (way : List Name) : Prop :=
  ∀ before name after, way = before ++ name :: after →
    t.HasEntry (path.below before) name .directory ∧
      (∃ entries, t.list (path.below (before ++ [name])) = .ok entries) ∧
        name.text ∉ s.excludedDirs

/-- The names lead through directories to a file with an included extension. -/
def Eligible (t : FileTree) (s : Settings) (path : Path) (names : List Name) : Prop :=
  ∃ way name kind, names = way ++ [name] ∧ Entered t s path way ∧
    t.HasEntry (path.below way) name kind ∧ FileLike t (path.below names) kind ∧ Included s name

theorem entered_nil (path : Path) : Entered t s path [] := by
  intro before name after split
  cases before <;> cases split

theorem entered_cons {path : Path} (nonempty : path.text ≠ "") (name : Name) (way : List Name) :
    Entered t s path (name :: way) ↔
      (t.HasEntry path name .directory ∧ (∃ entries, t.list (path.join name.text) = .ok entries) ∧
        name.text ∉ s.excludedDirs) ∧ Entered t s (path.join name.text) way := by
  constructor
  · intro entered
    refine ⟨?_, fun before next after split => ?_⟩
    · have first := entered [] name way rfl
      rwa [List.nil_append, Path.below_cons nonempty] at first
    · have later := entered (name :: before) next after (congrArg (name :: ·) split)
      rwa [List.cons_append, Path.below_cons nonempty, Path.below_cons nonempty] at later
  · rintro ⟨first, later⟩ before next after split
    cases before with
    | nil =>
      obtain ⟨rfl, rfl⟩ := List.cons.inj split
      rw [List.nil_append, Path.below_cons nonempty]
      exact first
    | cons other before =>
      obtain ⟨rfl, rfl⟩ := List.cons.inj split
      rw [List.cons_append, Path.below_cons nonempty, Path.below_cons nonempty]
      exact later before next after rfl

theorem includesFile_iff (name : Name) : s.includesFile name.text = true ↔ Included s name := by
  rw [Settings.includesFile, Option.any_eq_true, Included]
  simp only [Settings.includesExt, decide_eq_true_eq]

theorem visitFile_collected (path file : Path) (name : Name) :
    visitFile s path name.text = .collected file ↔ file = path ∧ Included s name := by
  rw [visitFile, ← includesFile_iff]
  split
  · next included =>
    rw [and_iff_left included, Visit.collected.injEq, eq_comm]
  · next missing =>
    exact iff_of_false Visit.noConfusion fun both => missing both.2

theorem entryVisit_collected (path file : Path) (name : Name) (kind : Kind) :
    entryVisit? t s path name kind = some (.collected file) ↔
      file = path ∧ FileLike t path kind ∧ Included s name := by
  cases kind with
  | file =>
    rw [entryVisit?, Option.some.injEq, visitFile_collected, FileLike, true_and]
  | link target =>
    rw [entryVisit?, FileLike]
    cases reached : t.stat path with
    | error fault =>
      rw [Option.some.injEq, visitFile_collected]
      simp
    | ok kind =>
      cases kind <;> simp [visitFile_collected]
  | directory =>
    simp only [entryVisit?, FileLike, false_and, and_false, iff_false]
    split
    · exact fun told => Visit.noConfusion (Option.some.inj told)
    · split
      · exact fun told => Visit.noConfusion (Option.some.inj told)
      · exact nofun
  | fifo | device => simp [entryVisit?, FileLike]

theorem excludesDir_eq_false (name : String) :
    s.excludesDir name = false ↔ name ∉ s.excludedDirs :=
  decide_eq_false_iff_not

/-- The names lead through directories to an entry of this kind. -/
structure Reached (t : FileTree) (s : Settings) (path : Path) (way : List Name) (name : Name)
    (kind : Kind) : Prop where
  entered : Entered t s path way
  has : t.HasEntry (path.below way) name kind

theorem Reached.behind {path : Path} (nonempty : path.text ≠ "") {first name : Name}
    {way : List Name} {kind : Kind} (has : t.HasEntry path first .directory)
    (excluded : first.text ∉ s.excludedDirs)
    (reached : Reached t s (path.join first.text) way name kind) :
    Reached t s path (first :: way) name kind := by
  obtain ⟨entered, hasLast⟩ := reached
  -- The directory can be listed, since the next name is listed in it.
  have listed : ∃ entries, t.list (path.join first.text) = .ok entries := by
    cases way with
    | nil =>
      obtain ⟨entries, listed, _⟩ := hasLast
      exact ⟨entries, listed⟩
    | cons next way =>
      obtain ⟨⟨entries, listed, _⟩, _⟩ := entered [] next way rfl
      exact ⟨entries, listed⟩
  refine ⟨(entered_cons nonempty first way).mpr ⟨⟨has, listed, excluded⟩, entered⟩, ?_⟩
  rwa [Path.below_cons nonempty]

/-- A visit is what is told of an entry that is reached. -/
theorem finds_iff_reached {path : Path} (nonempty : path.text ≠ "") {names : List Name}
    {visit : Visit} :
    Finds t s path names visit ↔ ∃ way name kind, names = way ++ [name] ∧
      Reached t s path way name kind ∧
        entryVisit? t s (path.below names) name kind = some visit := by
  constructor
  · intro finds
    induction finds with
    | @entry path name kind visit has tells =>
      refine ⟨[], name, kind, rfl, ⟨entered_nil path, has⟩, ?_⟩
      rwa [Path.below_cons nonempty]
    | @inside path first names visit has entered _ ih =>
      obtain ⟨way, name, kind, rfl, reached, tells⟩ := ih (Path.join_nonempty _ _)
      refine ⟨first :: way, name, kind, rfl,
        reached.behind nonempty has ((excludesDir_eq_false _).mp entered), ?_⟩
      rwa [Path.below_cons nonempty]
  · rintro ⟨way, name, kind, rfl, ⟨entered, has⟩, tells⟩
    induction way generalizing path with
    | nil =>
      rw [List.nil_append, Path.below_cons nonempty] at tells
      exact .entry has tells
    | cons next way ih =>
      obtain ⟨⟨hasNext, _, excluded⟩, later⟩ := (entered_cons nonempty next way).mp entered
      rw [Path.below_cons nonempty] at has
      rw [List.cons_append, Path.below_cons nonempty] at tells
      exact .inside hasNext ((excludesDir_eq_false _).mpr excluded)
        (ih (Path.join_nonempty _ _) tells later has)

theorem finds_collected_iff {path : Path} (nonempty : path.text ≠ "") {names : List Name}
    {file : Path} :
    Finds t s path names (.collected file) ↔ file = path.below names ∧ Eligible t s path names := by
  rw [finds_iff_reached nonempty]
  constructor
  · rintro ⟨way, name, kind, rfl, ⟨entered, has⟩, tells⟩
    obtain ⟨rfl, fileLike, included⟩ := (entryVisit_collected _ _ _ _).mp tells
    exact ⟨rfl, way, name, kind, rfl, entered, has, fileLike, included⟩
  · rintro ⟨rfl, way, name, kind, rfl, entered, has, fileLike, included⟩
    exact ⟨way, name, kind, rfl, ⟨entered, has⟩,
      (entryVisit_collected _ _ _ _).mpr ⟨rfl, fileLike, included⟩⟩

/-! ### The files -/

theorem root_nonempty (directory : t.stat s.root = .ok .directory) : s.root.text ≠ "" := by
  obtain ⟨_, _, here⟩ := FileTree.directory_of_stat directory
  exact FileTree.text_ne_empty (FileTree.nodeAt_eq_ok here).1

theorem files_lists (t : FileTree) (s : Settings) (directory : t.stat s.root = .ok .directory)
    (dash : s.root.isDash = false) :
    Lists (fun names file => file = s.root.below names ∧ Eligible t s s.root names)
      (files t s) := by
  have nonempty := root_nonempty directory
  refine ((visits_lists t s directory dash).filterMap Visit.file?).congr fun names file => ?_
  constructor
  · rintro ⟨visit, ⟨_, _, _, rfl⟩ | finds, isFile⟩
    · cases isFile
    · cases visit with
      | collected path =>
        obtain rfl := Option.some.inj isFile
        exact (finds_collected_iff nonempty).mp finds
      | _ => cases isFile
  · rintro ⟨rfl, eligible⟩
    exact ⟨_, Or.inr ((finds_collected_iff nonempty).mpr ⟨rfl, eligible⟩), rfl⟩

theorem visits_of_dash (dash : s.root.isDash = true) : visits t s = [] := by
  unfold visits
  exact if_pos dash

theorem files_of_dash (dash : s.root.isDash = true) : files t s = [] := by
  unfold files
  rw [visits_of_dash dash]
  rfl

theorem files_nodup (directory : t.stat s.root = .ok .directory) : (files t s).Nodup := by
  have nonempty := root_nonempty directory
  cases dash : s.root.isDash with
  | true =>
    rw [files_of_dash dash]
    exact List.nodup_nil
  | false =>
    apply (files_lists t s directory dash).nodup
    rintro names others file ⟨rfl, _⟩ ⟨same, _⟩
    exact Path.below_injective nonempty same

theorem eligible_of_mem_files (directory : t.stat s.root = .ok .directory) {path : Path}
    (mem : path ∈ files t s) : ∃ names, path = s.root.below names ∧ Eligible t s s.root names := by
  cases dash : s.root.isDash with
  | true =>
    rw [files_of_dash dash] at mem
    cases mem
  | false => exact ((files_lists t s directory dash).mem_iff path).mp mem

/-- A collected path leads nowhere or to a regular file. -/
theorem stat_of_mem_files (directory : t.stat s.root = .ok .directory) {path : Path}
    (mem : path ∈ files t s) :
    (∃ fault, t.stat path = .error fault) ∨ t.stat path = .ok .file := by
  obtain ⟨_, rfl, way, name, kind, rfl, _, has, fileLike, _⟩ := eligible_of_mem_files directory mem
  cases kind with
  | link target => exact fileLike
  | file =>
    rw [Path.below_concat (root_nonempty directory)]
    exact FileTree.stat_of_hasEntry has nofun
  | directory | fifo | device => exact fileLike.elim

/-- A walk from a directory collects the paths of the eligible names below it, component by component
in byte order, and none of them twice. -/
theorem files_iff_eligible (t : FileTree) (s : Settings) (directory : t.stat s.root = .ok .directory)
    (dash : s.root.isDash = false) :
    (∀ path, path ∈ files t s ↔ ∃ names, path = s.root.below names ∧ Eligible t s s.root names) ∧
      (∃ found : List (List Name), files t s = found.map s.root.below ∧ found.Pairwise Earlier) ∧
        (files t s).Nodup := by
  obtain ⟨_, _, here⟩ := FileTree.directory_of_stat directory
  have nonempty := FileTree.text_ne_empty (FileTree.nodeAt_eq_ok here).1
  have lists := files_lists t s directory dash
  refine ⟨lists.mem_iff, ?_⟩
  obtain ⟨found, values, order, mem⟩ := lists
  have below : files t s = (found.map Prod.fst).map s.root.below := by
    rw [values, List.map_map]
    exact List.map_congr_left fun entry inFound => ((mem _ _).mp inFound).1
  have earlier : (found.map Prod.fst).Pairwise Earlier := List.pairwise_map.mpr order
  refine ⟨⟨found.map Prod.fst, below, earlier⟩, ?_⟩
  rw [below, List.nodup_iff_pairwise_ne, List.pairwise_map]
  refine earlier.imp fun before same => ?_
  rw [Path.below_injective nonempty same] at before
  exact Earlier.irrefl _ before

/-- A file, a link that leads nowhere and an excluded directory with a file in it. -/
def sample : FileTree where
  top := .directory
    [(⟨"a.py", Eq.refl true⟩, .file [] true), (⟨"b.js", Eq.refl true⟩, .link ⟨"gone"⟩),
      (⟨"dist", Eq.refl true⟩, .directory [(⟨"c.py", Eq.refl true⟩, .file [] true)] {})] {}
  workingDir := []
  ordered := by decide

theorem sample_files_eligible :
    sample.stat ⟨"."⟩ = .ok .directory ∧ (Settings.ofRoot ⟨"."⟩).root.isDash = false ∧
      files sample (.ofRoot ⟨"."⟩) = [⟨"./a.py"⟩, ⟨"./b.js"⟩] ∧
      ∃ names, (⟨"./b.js"⟩ : Path) = (⟨"."⟩ : Path).below names ∧
        Eligible sample (.ofRoot ⟨"."⟩) ⟨"."⟩ names := by
  have collected : files sample (.ofRoot ⟨"."⟩) = [⟨"./a.py"⟩, ⟨"./b.js"⟩] := rfl
  have mem : (⟨"./b.js"⟩ : Path) ∈ files sample (.ofRoot ⟨"."⟩) := by
    rw [collected]
    exact List.mem_cons_of_mem _ List.mem_cons_self
  exact ⟨rfl, rfl, collected, ((files_iff_eligible sample (.ofRoot ⟨"."⟩) rfl rfl).1 _).mp mem⟩

end LineCensus.Walk
