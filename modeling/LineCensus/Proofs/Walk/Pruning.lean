import LineCensus.Proofs.Walk.Files

/-!
# Excluded directories

A walk does not enter an excluded directory. `files_eq_filter` shows that this is the same as to collect
all files and to leave out those that have an excluded name among the directories between the root
and the file.
-/

namespace LineCensus

namespace TextSet

def union (s t : TextSet) : TextSet :=
  .ofList (s.members ++ t.members)

theorem mem_union {s t : TextSet} {x : String} : x ∈ s.union t ↔ x ∈ s ∨ x ∈ t := by
  unfold union
  rw [mem_ofList, List.mem_append]
  exact Iff.rfl

theorem empty_union (s : TextSet) : empty.union s = s := by
  apply ext
  intro x
  rw [mem_union]
  exact or_iff_right List.not_mem_nil

end TextSet

namespace Path

open FileTree (Name)

/-- The directories between a root and a path below it: what stands between the slashes behind the
root, without the name at the end. -/
def between (root path : Path) : List String :=
  (((path.text.toList.drop root.text.toList.length).splitOn '/').dropLast.filter (· ≠ [])).map
    String.ofList

theorem between_self (root : Path) : root.between root = [] := by
  simp [between]

theorem splitOn_intercalate_names {names : List Name} (nonempty : names ≠ []) :
    ("/".intercalate (names.map Name.text)).toList.splitOn '/' =
      names.map fun name => name.text.toList := by
  rw [String.toList_intercalate, List.map_map]
  show ((['/'].intercalate (names.map fun name => name.text.toList)).splitOn '/') = _
  apply List.splitOn_intercalate
  · intro chars mem
    obtain ⟨name, _, rfl⟩ := List.mem_map.mp mem
    exact slash_not_mem name
  · simpa using nonempty

theorem between_below (root : Path) (way : List Name) (name : Name) :
    root.between (root.below (way ++ [name])) = way.map Name.text := by
  have nonempty : way ++ [name] ≠ [] := by simp
  have text : (root.below (way ++ [name])).text =
      root.text ++ (if root.text.toList.getLast? = some '/' then "" else "/") ++
        "/".intercalate ((way ++ [name]).map Name.text) := by
    obtain ⟨first, rest, split⟩ := List.exists_cons_of_ne_nil nonempty
    rw [split]
    rfl
  -- Where a slash is put behind the root there is an empty part more, and no name is empty.
  have parts : ((root.below (way ++ [name])).text.toList.drop root.text.toList.length).splitOn '/' =
      (if root.text.toList.getLast? = some '/' then [] else [[]]) ++
        (way ++ [name]).map fun name => name.text.toList := by
    rw [text, String.toList_append, String.toList_append, List.append_assoc, List.drop_left,
      ← splitOn_intercalate_names nonempty]
    split
    · rfl
    · exact List.splitOn_append_cons_self [] _
  unfold between
  rw [parts, List.map_append, ← List.append_assoc, List.map_singleton, List.dropLast_concat,
    List.filter_append]
  have named : (way.map fun name => name.text.toList).filter (fun part => decide (part ≠ [])) =
      way.map fun name => name.text.toList := by
    apply List.filter_eq_self.mpr
    intro chars mem
    obtain ⟨other, _, rfl⟩ := List.mem_map.mp mem
    simpa using name_ne_empty other
  rw [named]
  split <;> simp

example : (⟨"dist/"⟩ : Path).between ⟨"dist/src/lib/dist.js"⟩ = ["src", "lib"] := by decide

end Path

namespace Walk

open FileTree (Name Kind)

variable {t : FileTree} {s : Settings}

/-- No directory between the root and a path has one of the names. -/
def clearOf (root : Path) (names : TextSet) (path : Path) : Bool :=
  (root.between path).all fun part => decide (part ∉ names)

/-- The settings with more directories excluded. -/
def excludeMore (s : Settings) (more : TextSet) : Settings :=
  { s with excludedDirs := s.excludedDirs.union more }

theorem entered_excludeMore (more : TextSet) (path : Path) (way : List Name) :
    Entered t (excludeMore s more) path way ↔
      Entered t s path way ∧ ∀ name ∈ way, name.text ∉ more := by
  constructor
  · intro entered
    constructor
    · intro before name after split
      obtain ⟨has, listed, none⟩ := entered before name after split
      exact ⟨has, listed, fun excluded => none (TextSet.mem_union.mpr (Or.inl excluded))⟩
    · intro name mem excluded
      obtain ⟨before, after, split⟩ := List.append_of_mem mem
      exact (entered before name after split).2.2 (TextSet.mem_union.mpr (Or.inr excluded))
  · rintro ⟨entered, clear⟩ before name after split
    obtain ⟨has, listed, none⟩ := entered before name after split
    refine ⟨has, listed, fun excluded => ?_⟩
    have mem : name ∈ way := by simp [split]
    exact (TextSet.mem_union.mp excluded).elim none (clear name mem)

theorem eligible_excludeMore (more : TextSet) (path : Path) (names : List Name) :
    Eligible t (excludeMore s more) path names ↔
      Eligible t s path names ∧ clearOf path more (path.below names) = true := by
  have clear (way : List Name) (name : Name) :
      clearOf path more (path.below (way ++ [name])) = true ↔ ∀ name ∈ way, name.text ∉ more := by
    unfold clearOf
    rw [Path.between_below]
    simp
  constructor
  · rintro ⟨way, name, kind, rfl, entered, has, fileLike, included⟩
    obtain ⟨entered, none⟩ := (entered_excludeMore more path way).mp entered
    exact ⟨⟨way, name, kind, rfl, entered, has, fileLike, included⟩, (clear way name).mpr none⟩
  · rintro ⟨⟨way, name, kind, rfl, entered, has, fileLike, included⟩, none⟩
    have entered := (entered_excludeMore more path way).mpr ⟨entered, (clear way name).mp none⟩
    exact ⟨way, name, kind, rfl, entered, has, fileLike, included⟩

/-- From a root that is no directory nothing is collected but the root, whatever is excluded. -/
theorem files_of_no_directory (other : t.stat s.root ≠ .ok .directory) (more : TextSet) :
    files t (excludeMore s more) = files t s ∧ ∀ path ∈ files t s, path = s.root := by
  unfold FileTree.stat at other
  unfold files visits excludeMore
  cases s.root.isDash with
  | true => simp
  | false =>
    cases found : t.nodeAt s.root with
    | error fault => simp [Visit.file?]
    | ok node =>
      cases node with
      | directory entries rights => exact absurd (by rw [found]; rfl) other
      | file content readable =>
        simp only [Bool.false_eq_true, if_false]
        refine ⟨rfl, fun path mem => ?_⟩
        unfold visitFile at mem
        split at mem
        · simpa [Visit.file?] using mem
        · simp [Visit.file?] at mem
      | _ => simp

theorem files_excludeMore (t : FileTree) (s : Settings) (more : TextSet) :
    files t (excludeMore s more) = (files t s).filter (clearOf s.root more) := by
  by_cases directory : t.stat s.root = .ok .directory
  · cases dash : s.root.isDash with
    | true => simp [files, visits, excludeMore, dash]
    | false =>
      have all := files_lists t s directory dash
      have fewer := files_lists t (excludeMore s more) directory dash
      refine Lists.unique fewer ((all.filter (clearOf s.root more)).congr fun names file => ?_)
      show _ ↔ file = s.root.below names ∧ Eligible t (excludeMore s more) s.root names
      rw [eligible_excludeMore]
      constructor
      · rintro ⟨⟨rfl, eligible⟩, clear⟩
        exact ⟨rfl, eligible, clear⟩
      · rintro ⟨rfl, eligible, clear⟩
        exact ⟨⟨rfl, eligible⟩, clear⟩
  · obtain ⟨same, only⟩ := files_of_no_directory directory more
    rw [same]
    symm
    apply List.filter_eq_self.mpr
    intro path mem
    rw [only path mem]
    simp [clearOf, Path.between_self]

/-- To enter no excluded directory is to collect all files and to leave out those below an excluded
directory. To exclude more directories leaves out the files below them and no others. -/
theorem files_eq_filter (t : FileTree) (s : Settings) (more : TextSet) :
    files t s = (files t { s with excludedDirs := .empty }).filter (clearOf s.root s.excludedDirs) ∧
      files t { s with excludedDirs := s.excludedDirs.union more } =
        (files t s).filter (clearOf s.root more) := by
  refine ⟨?_, files_excludeMore t s more⟩
  have all := files_excludeMore t { s with excludedDirs := .empty } s.excludedDirs
  unfold excludeMore at all
  rw [TextSet.empty_union] at all
  exact all

end Walk

end LineCensus
