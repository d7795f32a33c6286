import LineCensus.Proofs.Walk.Files

/-!
# What a walk writes to the log

`Noted` says which records there are about the entries that a walk reaches: one for an excluded
directory, one for a directory that cannot be listed and one for a file that is not collected.
`records_lists` shows that a walk writes exactly these, in the order of the names.
-/

namespace LineCensus.Walk

open FileTree (Name Kind)

variable {t : FileTree} {s : Settings}

def prunedRecord (path : Path) : Log.Record :=
  ⟨.debug, .walk, s!"pruned {path.text}"⟩

def skippedRecord (path : Path) : Log.Record :=
  ⟨.debug, .walk, s!"skipped {path.text}"⟩

def warning (path : Path) (fault : FileTree.Fault) : Log.Record :=
  ⟨.warn, .walk, s!"walk error: {path.text}: IO error for operation on {path.text}: {fault.message}"⟩

/-- The record about the entry behind some names, or about the root behind none. -/
inductive Noted (t : FileTree) (s : Settings) : List Name → Log.Record → Prop where
  | root {fault : FileTree.Fault} (unlisted : t.list s.root = .error fault) :
      Noted t s [] (warning s.root fault)
  | pruned {way : List Name} {name : Name} (reached : Reached t s s.root way name .directory)
      (excluded : name.text ∈ s.excludedDirs) :
      Noted t s (way ++ [name]) (prunedRecord (s.root.below (way ++ [name])))
  | unlisted {way : List Name} {name : Name} {fault : FileTree.Fault}
      (reached : Reached t s s.root way name .directory) (entered : name.text ∉ s.excludedDirs)
      (unlisted : t.list (s.root.below (way ++ [name])) = .error fault) :
      Noted t s (way ++ [name]) (warning (s.root.below (way ++ [name])) fault)
  | skipped {way : List Name} {name : Name} {kind : Kind} (reached : Reached t s s.root way name kind)
      (fileLike : FileLike t (s.root.below (way ++ [name])) kind) (other : ¬ Included s name) :
      Noted t s (way ++ [name]) (skippedRecord (s.root.below (way ++ [name])))

/-- There is no record about what is below an excluded directory. -/
theorem not_noted_below {way rest : List Name} {name : Name} (excluded : name.text ∈ s.excludedDirs)
    (below : rest ≠ []) (record : Log.Record) : ¬ Noted t s (way ++ name :: rest) record := by
  have clear {before : List Name} {last : Name} {kind : Kind}
      (reached : Reached t s s.root before last kind)
      (same : way ++ name :: rest = before ++ [last]) : False := by
    obtain ⟨init, final, rfl⟩ := (List.eq_nil_or_concat' rest).resolve_left below
    rw [← List.cons_append, ← List.append_assoc] at same
    obtain ⟨rfl, _⟩ := List.append_inj' same rfl
    exact (reached.entered way name init rfl).2.2 excluded
  generalize names : way ++ name :: rest = all
  intro noted
  cases noted with
  | root => simp at names
  | pruned reached _ => exact clear reached names
  | unlisted reached _ _ => exact clear reached names
  | skipped reached _ _ => exact clear reached names

/-! ### The record of one entry -/

theorem visitFile_record (path : Path) (name : Name) (record : Log.Record) :
    (visitFile s path name.text).record? = some record ↔
      ¬ Included s name ∧ record = skippedRecord path := by
  rw [visitFile, ← includesFile_iff]
  split
  · next included =>
    exact iff_of_false (fun told => by cases told) fun both => both.1 included
  · next missing =>
    rw [and_iff_right missing, eq_comm]
    exact Option.some_inj

/-- What is written about an entry, by what it is. -/
theorem entryVisit_record (path : Path) (name : Name) (kind : Kind) (record : Log.Record) :
    (∃ visit, entryVisit? t s path name kind = some visit ∧ visit.record? = some record) ↔
      (kind = .directory ∧ name.text ∈ s.excludedDirs ∧ record = prunedRecord path) ∨
        (kind = .directory ∧ name.text ∉ s.excludedDirs ∧
          ∃ fault, t.list path = .error fault ∧ record = warning path fault) ∨
        FileLike t path kind ∧ ¬ Included s name ∧ record = skippedRecord path := by
  cases kind with
  | directory =>
    by_cases excluded : name.text ∈ s.excludedDirs
    · have tells : entryVisit? t s path name .directory = some (.pruned path) :=
        if_pos (decide_eq_true excluded)
      simp [tells, excluded, FileLike, Visit.record?, prunedRecord, eq_comm]
    · have enters : s.excludesDir name.text = false := (excludesDir_eq_false _).mpr excluded
      cases listed : t.list path with
      | error fault =>
        have tells : entryVisit? t s path name .directory = some (.failed path fault) := by
          rw [entryVisit?, enters, listed]
          rfl
        simp [tells, excluded, FileLike, Visit.record?, warning, eq_comm]
      | ok entries =>
        have tells : entryVisit? t s path name .directory = none := by
          rw [entryVisit?, enters, listed]
          rfl
        simp [tells, excluded, FileLike]
  | file => simp [entryVisit?, visitFile_record, FileLike]
  | link target =>
    cases reached : t.stat path with
    | error fault => simp [entryVisit?, reached, visitFile_record, FileLike]
    | ok kind => cases kind <;> simp [entryVisit?, reached, visitFile_record, FileLike]
  | fifo | device => simp [entryVisit?, FileLike]

/-! ### The records of a walk -/

theorem noted_iff (nonempty : s.root.text ≠ "") (names : List Name) (record : Log.Record) :
    Noted t s names record ↔
      (names = [] ∧ ∃ fault, t.list s.root = .error fault ∧ record = warning s.root fault) ∨
        ∃ visit, Finds t s s.root names visit ∧ visit.record? = some record := by
  constructor
  · intro noted
    have found {way : List Name} {name : Name} {kind : Kind} {record : Log.Record}
        (reached : Reached t s s.root way name kind)
        (told : ∃ visit, entryVisit? t s (s.root.below (way ++ [name])) name kind = some visit ∧
          visit.record? = some record) :
        ∃ visit, Finds t s s.root (way ++ [name]) visit ∧ visit.record? = some record := by
      obtain ⟨visit, tells, written⟩ := told
      exact ⟨visit, (finds_iff_reached nonempty).mpr ⟨way, name, kind, rfl, reached, tells⟩, written⟩
    cases noted with
    | root unlisted => exact Or.inl ⟨rfl, _, unlisted, rfl⟩
    | pruned reached excluded =>
      exact Or.inr (found reached ((entryVisit_record _ _ _ _).mpr (Or.inl ⟨rfl, excluded, rfl⟩)))
    | unlisted reached entered unlisted =>
      exact Or.inr (found reached
        ((entryVisit_record _ _ _ _).mpr (Or.inr (Or.inl ⟨rfl, entered, _, unlisted, rfl⟩))))
    | skipped reached fileLike other =>
      exact Or.inr (found reached
        ((entryVisit_record _ _ _ _).mpr (Or.inr (Or.inr ⟨fileLike, other, rfl⟩))))
  · rintro (⟨rfl, fault, unlisted, rfl⟩ | ⟨visit, finds, written⟩)
    · exact .root unlisted
    · obtain ⟨way, name, kind, rfl, reached, tells⟩ := (finds_iff_reached nonempty).mp finds
      rcases (entryVisit_record _ _ _ _).mp ⟨visit, tells, written⟩ with
        ⟨rfl, excluded, rfl⟩ | ⟨rfl, entered, fault, unlisted, rfl⟩ | ⟨fileLike, other, rfl⟩
      · exact .pruned reached excluded
      · exact .unlisted reached entered unlisted
      · exact .skipped reached fileLike other

/-- A walk from a directory writes the records about the entries that it reaches, each once and in the
order of the names. -/
theorem records_lists (directory : t.stat s.root = .ok .directory) (dash : s.root.isDash = false) :
    Lists (Noted t s) (records t s) := by
  have nonempty := root_nonempty directory
  refine ((visits_lists t s directory dash).filterMap Visit.record?).congr fun names record => ?_
  rw [noted_iff nonempty]
  constructor
  · rintro ⟨visit, ⟨rfl, fault, unlisted, rfl⟩ | finds, written⟩
    · exact Or.inl ⟨rfl, fault, unlisted, (Option.some.inj written).symm⟩
    · exact Or.inr ⟨visit, finds, written⟩
  · rintro (⟨rfl, fault, unlisted, rfl⟩ | ⟨visit, finds, written⟩)
    · exact ⟨_, Or.inl ⟨rfl, fault, unlisted, rfl⟩, rfl⟩
    · exact ⟨visit, Or.inr finds, written⟩

end LineCensus.Walk
