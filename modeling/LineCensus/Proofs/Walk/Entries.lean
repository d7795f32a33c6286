import LineCensus.Proofs.Walk.Files

/-!
# Walking a directory entry by entry

The files below a directory are those that its entries bring, one after the other. A directory among
them brings what a walk from there collects: `files_eq_flatMap` shows that it makes no difference to be
a root.
-/

namespace LineCensus.Walk

open FileTree (Name Node Kind Rights)

variable {t : FileTree} {s : Settings}

def isFileLike (t : FileTree) (path : Path) : Kind → Bool
  | .file => true
  | .link _ =>
    match t.stat path with
    | .error _ | .ok .file => true
    | .ok _ => false
  | .directory | .fifo | .device => false

theorem isFileLike_iff (path : Path) (kind : Kind) :
    isFileLike t path kind = true ↔ FileLike t path kind := by
  cases kind with
  | link target =>
    unfold isFileLike FileLike
    cases reached : t.stat path with
    | error fault => simp
    | ok kind => cases kind <;> simp
  | _ => simp [isFileLike, FileLike]

instance (path : Path) (kind : Kind) : Decidable (FileLike t path kind) :=
  decidable_of_iff _ (isFileLike_iff path kind)

instance (name : Name) : Decidable (Included s name) :=
  decidable_of_iff _ (includesFile_iff name)

/-- What an entry of the directory at the root brings. A directory brings what comes from a walk with
that root, unless it is excluded. -/
def fromEntry {α : Type} (t : FileTree) (s : Settings) (nothing : α) (below : Settings → α)
    (file : Path → α) (entry : Name × Kind) : α :=
  let path := s.root.join entry.1.text
  match entry.2 with
  | .directory =>
    if entry.1.text ∈ s.excludedDirs then nothing else below { s with root := path }
  | kind => if FileLike t path kind ∧ Included s entry.1 then file path else nothing

theorem map_fromEntry {α β : Type} (f : α → β) (nothing : α) (below : Settings → α)
    (file : Path → α) (entry : Name × Kind) :
    f (fromEntry t s nothing below file entry) =
      fromEntry t s (f nothing) (fun s => f (below s)) (fun path => f (file path)) entry := by
  obtain ⟨name, kind⟩ := entry
  unfold fromEntry
  cases kind <;> exact apply_ite f _ _ _

/-! ### What a walk asks the settings -/

/-- The same directories are excluded and the same files are included. Their roots may differ. -/
structure Agree (s other : Settings) : Prop where
  excludes : ∀ name, other.excludesDir name = s.excludesDir name
  includes : ∀ name, other.includesFile name = s.includesFile name

theorem visitFile_congr {other : Settings} (agree : Agree s other) (path : Path) (name : String) :
    visitFile other path name = visitFile s path name := by
  unfold visitFile
  rw [agree.includes]

mutual

theorem visitNode_congr (t : FileTree) {s other : Settings} (agree : Agree s other) (path : Path)
    (searchable : Bool) (name : Name) (node : Node) :
    visitNode t other path searchable name node = visitNode t s path searchable name node := by
  cases node with
  | directory entries rights =>
    rw [visitNode, visitNode, agree.excludes, visitEntries_congr t agree path rights.search entries]
  | file _ _ => rw [visitNode, visitNode, visitFile_congr agree]
  | link _ => rw [visitNode, visitNode, visitFile_congr agree]
  | fifo | device => rw [visitNode, visitNode]
termination_by structural node

theorem visitEntries_congr (t : FileTree) {s other : Settings} (agree : Agree s other) (path : Path)
    (searchable : Bool) (entries : List (Name × Node)) :
    visitEntries t other path searchable entries = visitEntries t s path searchable entries := by
  cases entries with
  | nil => rw [visitEntries, visitEntries]
  | cons entry rest =>
    obtain ⟨name, node⟩ := entry
    rw [visitEntries, visitEntries,
      visitNode_congr t agree (path.join name.text) searchable name node,
      visitEntries_congr t agree path searchable rest]
termination_by structural entries

end

/-- Walks from one root differ only where the settings exclude or include something else. -/
theorem visits_congr {other : Settings} (agree : Agree s other) (root : other.root = s.root) :
    visits t other = visits t s := by
  unfold visits
  rw [root]
  split
  · rfl
  · cases t.nodeAt s.root with
    | error fault => rfl
    | ok node =>
      cases node with
      | directory entries rights => simp only [visitEntries_congr t agree]
      | file _ _ => exact congrArg (fun visit => [visit]) (visitFile_congr agree _ _)
      | _ => rfl

theorem agree_root (s : Settings) (root : Path) : Agree s { s with root } :=
  ⟨fun _ => rfl, fun _ => rfl⟩

theorem visitEntries_eq_flatMap (path : Path) (searchable : Bool) (entries : List (Name × Node)) :
    visitEntries t s path searchable entries =
      entries.flatMap fun entry =>
        visitNode t s (path.join entry.1.text) searchable entry.1 entry.2 := by
  induction entries with
  | nil => rw [visitEntries]; rfl
  | cons entry rest ih => rw [visitEntries, ih, List.flatMap_cons]

theorem visits_of_nodeAt {entries : List (Name × Node)} {rights : Rights}
    (dash : s.root.isDash = false) (here : t.nodeAt s.root = .ok (.directory entries rights))
    (readable : rights.read = true) :
    visits t s = visitEntries t s s.root rights.search entries := by
  have accepted := (FileTree.nodeAt_eq_ok here).1
  unfold visits
  rw [dash, if_neg Bool.false_ne_true, here]
  simp [listFault?, accepted, readable]

theorem visits_of_unlisted {fault : FileTree.Fault} (dash : s.root.isDash = false)
    (failed : t.list s.root = .error fault)
    (real : ∀ node, t.nodeAt s.root = .ok node → node.kind = .directory) :
    visits t s = [.failed s.root fault] := by
  unfold FileTree.list at failed
  unfold visits
  rw [dash, if_neg Bool.false_ne_true]
  cases here : t.nodeAt s.root with
  | error other =>
    rw [here] at failed
    rw [Except.error.inj failed]
  | ok node =>
    have directory := real node here
    cases node with
    | directory entries rights =>
      have accepted := (FileTree.nodeAt_eq_ok here).1
      cases readable : rights.read with
      | true => simp [here, readable] at failed
      | false =>
        simp only [here, readable, Bool.false_eq_true, if_false, Except.error.injEq] at failed
        simp [listFault?, accepted, readable, ← failed]
    | _ => cases directory

/-- A directory is walked through as if the walk began there. -/
theorem visitNode_eq_visits {path : Path} {entries inner : List (Name × Node)}
    {rights innerRights : Rights} {name : Name}
    (here : t.nodeAt path = .ok (.directory entries rights))
    (child : entries.lookup name = some (.directory inner innerRights))
    (entered : name.text ∉ s.excludedDirs) :
    visitNode t s (path.join name.text) rights.search name (.directory inner innerRights) =
      visits t { s with root := path.join name.text } := by
  have nonempty := FileTree.text_ne_empty (FileTree.nodeAt_eq_ok here).1
  have dash := Path.isDash_join nonempty name
  have excluded : s.excludesDir name.text = false := (excludesDir_eq_false _).mpr entered
  rw [visitNode, excluded, if_neg Bool.false_ne_true]
  cases able : listFault? (path.join name.text) rights.search innerRights with
  | some fault =>
    have failed := list_of_listFault here child able
    have real : ∀ node, t.nodeAt (path.join name.text) = .ok node → node.kind = .directory := by
      intro node found
      rw [FileTree.nodeAt_join here child nofun] at found
      repeat' split at found
      all_goals cases found
      rfl
    symm
    exact visits_of_unlisted (s := { s with root := path.join name.text }) dash failed real
  | none =>
    obtain ⟨inside, readable⟩ := nodeAt_of_no_listFault here child able
    rw [visits_of_nodeAt (s := { s with root := path.join name.text }) dash inside readable]
    exact (visitEntries_congr t (agree_root s _) _ _ inner).symm

/-! ### The files of one entry -/

theorem files_of_other (path : Path) (name : Name) (kind : Kind) :
    (entryVisit? t s path name kind).toList.filterMap Visit.file? =
      if FileLike t path kind ∧ Included s name then [path] else [] := by
  have collects := entryVisit_collected (t := t) (s := s) path path name kind
  split
  · next both =>
    rw [collects.mpr ⟨rfl, both⟩]
    rfl
  · next neither =>
    cases tells : entryVisit? t s path name kind with
    | none => rfl
    | some visit =>
      cases visit with
      | collected file =>
        obtain ⟨rfl, both⟩ := (entryVisit_collected _ _ _ _).mp tells
        exact absurd both neither
      | _ => rfl

theorem files_of_node {entries : List (Name × Node)} {rights : Rights}
    (here : t.nodeAt s.root = .ok (.directory entries rights)) {name : Name} {node : Node}
    (child : entries.lookup name = some node) :
    (visitNode t s (s.root.join name.text) rights.search name node).filterMap Visit.file? =
      fromEntry t s [] (files t) (fun path => [path]) (name, node.kind) := by
  unfold fromEntry
  cases node with
  | directory inner innerRights =>
    simp only [Node.kind]
    split
    · next excluded =>
      rw [visitNode, Settings.excludesDir, decide_eq_true excluded, if_pos rfl]
      rfl
    · next entered =>
      rw [visitNode_eq_visits here child entered]
      rfl
  | _ =>
    rw [visitNode_other _ _ _ (fun directory => by cases directory), files_of_other]
    rfl

/-- The files below a directory are those of its entries, one after the other. -/
theorem files_eq_flatMap {entries : List (Name × Kind)} (listed : t.list s.root = .ok entries)
    (dash : s.root.isDash = false) :
    files t s = entries.flatMap (fromEntry t s [] (files t) fun path => [path]) := by
  obtain ⟨nodes, rights, here, readable, rfl⟩ := FileTree.list_eq_ok listed
  have order := FileTree.ordered_nodeAt here
  rw [Node.ordered] at order
  unfold files
  rw [visits_of_nodeAt dash here readable, visitEntries_eq_flatMap, List.filterMap_flatMap,
    List.flatMap_map]
  apply List.flatMap_congr
  intro entry mem
  exact files_of_node here (Node.lookup_of_ordered order entry mem)

end LineCensus.Walk
