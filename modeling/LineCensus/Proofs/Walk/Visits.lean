import LineCensus.Proofs.FileTree
import LineCensus.Proofs.Walk.Order
import LineCensus.Walk

/-!
# What a walk finds

`Finds` says which visits there are behind which names below a directory, in terms of what the file
tree tells of paths. The walk goes through the nodes of the tree instead; `visits_lists` shows that
it makes exactly these visits, in the order of the names.
-/

namespace LineCensus.Walk

open FileTree (Name Node Kind Rights)

variable {t : FileTree} {s : Settings}

/-- What is told of an entry of a directory, without what is below it. -/
def entryVisit? (t : FileTree) (s : Settings) (path : Path) (name : Name) : Kind → Option Visit
  | .directory =>
    if s.excludesDir name.text then some (.pruned path)
    else
      match t.list path with
      | .error fault => some (.failed path fault)
      | .ok _ => none
  | .file => some (visitFile s path name.text)
  | .link _ =>
    match t.stat path with
    | .error _ | .ok .file => some (visitFile s path name.text)
    | .ok _ => none
  | .fifo | .device => none

/-- The visits behind names below the directory at a path. -/
inductive Finds (t : FileTree) (s : Settings) : Path → List Name → Visit → Prop where
  | entry {path : Path} {name : Name} {kind : Kind} {visit : Visit}
      (has : t.HasEntry path name kind)
      (tells : entryVisit? t s (path.join name.text) name kind = some visit) :
      Finds t s path [name] visit
  | inside {path : Path} {name : Name} {names : List Name} {visit : Visit}
      (has : t.HasEntry path name .directory) (entered : s.excludesDir name.text = false)
      (finds : Finds t s (path.join name.text) names visit) :
      Finds t s path (name :: names) visit

def FindsFrom (t : FileTree) (s : Settings) (path : Path) (name : Name) (kind : Kind)
    (names : List Name) (visit : Visit) : Prop :=
  names = [] ∧ entryVisit? t s path name kind = some visit ∨
    kind = .directory ∧ s.excludesDir name.text = false ∧ Finds t s path names visit

theorem finds_iff (path : Path) (names : List Name) (visit : Visit) :
    Finds t s path names visit ↔ ∃ name kind rest, names = name :: rest ∧
      t.HasEntry path name kind ∧ FindsFrom t s (path.join name.text) name kind rest visit := by
  constructor
  · intro finds
    cases finds with
    | entry has tells => exact ⟨_, _, [], rfl, has, Or.inl ⟨rfl, tells⟩⟩
    | inside has entered finds => exact ⟨_, _, _, rfl, has, Or.inr ⟨rfl, entered, finds⟩⟩
  · rintro ⟨name, kind, rest, rfl, has, ⟨rfl, tells⟩ | ⟨rfl, entered, finds⟩⟩
    · exact .entry has tells
    · exact .inside has entered finds

theorem finds_of_nodeAt {path : Path} {entries : List (Name × Node)} {rights : Rights}
    (here : t.nodeAt path = .ok (.directory entries rights)) (readable : rights.read = true)
    (names : List Name) (visit : Visit) :
    Finds t s path names visit ↔ ∃ name node rest, names = name :: rest ∧
      (name, node) ∈ entries ∧ FindsFrom t s (path.join name.text) name node.kind rest visit := by
  rw [finds_iff]
  constructor
  · rintro ⟨name, kind, rest, rfl, has, finds⟩
    obtain ⟨node, mem, rfl⟩ := (FileTree.hasEntry_iff here readable name kind).mp has
    exact ⟨name, node, rest, rfl, mem, finds⟩
  · rintro ⟨name, node, rest, rfl, mem, finds⟩
    have has := (FileTree.hasEntry_iff here readable name node.kind).mpr ⟨node, mem, rfl⟩
    exact ⟨name, node.kind, rest, rfl, has, finds⟩

theorem not_finds_of_fault {path : Path} {fault : FileTree.Fault} (failed : t.list path = .error fault)
    (names : List Name) (visit : Visit) : ¬ Finds t s path names visit := by
  rw [finds_iff]
  rintro ⟨name, kind, rest, rfl, ⟨entries, listed, _⟩, _⟩
  rw [failed] at listed
  cases listed

/-- Where nothing is found further down, an entry is one visit or none. -/
theorem lists_entry {path : Path} {name : Name} {kind : Kind}
    (closed : kind = .directory → s.excludesDir name.text = false →
      ∀ names visit, ¬ Finds t s path names visit) :
    Lists (FindsFrom t s path name kind) (entryVisit? t s path name kind).toList := by
  have only (names : List Name) (visit : Visit) : FindsFrom t s path name kind names visit ↔
      names = [] ∧ entryVisit? t s path name kind = some visit :=
    or_iff_left fun ⟨directory, entered, finds⟩ => closed directory entered names visit finds
  cases tells : entryVisit? t s path name kind with
  | none =>
    refine .nil fun names visit finds => ?_
    rw [only, tells] at finds
    cases finds.2
  | some visit =>
    refine (Lists.single [] visit).congr fun names other => ?_
    rw [only, tells, Option.some.injEq, eq_comm (a := visit)]

theorem findsFrom_entered {path : Path} {entries : List (Name × Node)} {rights : Rights}
    (here : t.nodeAt path = .ok (.directory entries rights)) (readable : rights.read = true)
    {name : Name} (entered : ¬ s.excludesDir name.text = true) (names : List Name) (visit : Visit) :
    FindsFrom t s path name .directory names visit ↔ Finds t s path names visit := by
  have tells : entryVisit? t s path name .directory = none := by
    rw [entryVisit?, if_neg entered, FileTree.list, here]
    simp [readable]
  rw [FindsFrom, tells]
  constructor
  · rintro (⟨_, told⟩ | ⟨_, _, finds⟩)
    · cases told
    · exact finds
  · exact fun finds => Or.inr ⟨rfl, eq_false_of_ne_true entered, finds⟩

/-! ### Directories inside directories -/

section

variable {path : Path} {entries inner : List (Name × Node)} {rights innerRights : Rights} {name : Name}

theorem list_of_listFault (here : t.nodeAt path = .ok (.directory entries rights))
    (child : entries.lookup name = some (.directory inner innerRights)) {fault : FileTree.Fault}
    (failed : listFault? (path.join name.text) rights.search innerRights = some fault) :
    t.list (path.join name.text) = .error fault := by
  have node := FileTree.nodeAt_join here child nofun
  unfold listFault? at failed
  rw [FileTree.list, node]
  cases refused : FileTree.refusal (path.join name.text) with
  | some other =>
    rw [refused] at failed
    rw [Option.some.inj failed]
  | none =>
    rw [refused] at failed
    cases search : rights.search with
    | false =>
      rw [search] at failed
      rw [← Option.some.inj failed]
      rfl
    | true =>
      cases read : innerRights.read with
      | true => rw [search, read] at failed; cases failed
      | false =>
        rw [search, read] at failed
        rw [← Option.some.inj failed]
        simp [read]

theorem nodeAt_of_no_listFault (here : t.nodeAt path = .ok (.directory entries rights))
    (child : entries.lookup name = some (.directory inner innerRights))
    (fine : listFault? (path.join name.text) rights.search innerRights = none) :
    t.nodeAt (path.join name.text) = .ok (.directory inner innerRights) ∧
      innerRights.read = true := by
  have node := FileTree.nodeAt_join here child nofun
  unfold listFault? at fine
  cases refused : FileTree.refusal (path.join name.text) with
  | some other => rw [refused] at fine; cases fine
  | none =>
    rw [refused] at fine node
    cases search : rights.search with
    | false => rw [search] at fine; cases fine
    | true =>
      cases read : innerRights.read with
      | false => rw [search, read] at fine; cases fine
      | true =>
        rw [search] at node
        exact ⟨node, rfl⟩

end

/-! ### The walk -/

theorem visitNode_other (path : Path) (searchable : Bool) (name : Name) {node : Node}
    (other : node.kind ≠ .directory) :
    visitNode t s path searchable name node = (entryVisit? t s path name node.kind).toList := by
  cases node with
  | directory _ _ => exact absurd rfl other
  | link target =>
    rw [visitNode, Node.kind, entryVisit?]
    rcases t.stat path with fault | kind
    · rfl
    · cases kind <;> rfl
  | _ => rw [visitNode]; rfl

theorem visitNode_pruned {path : Path} {name : Name} (excluded : s.excludesDir name.text = true)
    (searchable : Bool) (inner : List (Name × Node)) (rights : Rights) :
    visitNode t s path searchable name (.directory inner rights) =
      (entryVisit? t s path name .directory).toList := by
  rw [visitNode, entryVisit?, if_pos excluded, if_pos excluded]
  rfl

-- The induction is on the node. `here` and `child` carry along that its path leads to it: they are
-- what `list` and `stat` are asked about, while the walk only sees the node.
mutual

theorem visitNode_lists (t : FileTree) (s : Settings) (path : Path) (rights : Rights) (name : Name)
    (node : Node) (entries : List (Name × Node)) (order : node.ordered = true)
    (here : t.nodeAt path = .ok (.directory entries rights))
    (child : entries.lookup name = some node) :
    Lists (FindsFrom t s (path.join name.text) name node.kind)
      (visitNode t s (path.join name.text) rights.search name node) := by
  cases node with
  | directory inner innerRights =>
    by_cases excluded : s.excludesDir name.text = true
    · rw [visitNode_pruned excluded]
      refine lists_entry fun _ entered => ?_
      rw [excluded] at entered
      cases entered
    · rw [visitNode, if_neg excluded]
      cases able : listFault? (path.join name.text) rights.search innerRights with
      | some fault =>
        have failed := list_of_listFault here child able
        have lists : Lists (FindsFrom t s (path.join name.text) name .directory)
            (entryVisit? t s (path.join name.text) name .directory).toList :=
          lists_entry fun _ _ => not_finds_of_fault failed
        rw [entryVisit?, if_neg excluded, failed] at lists
        exact lists
      | none =>
        obtain ⟨inside, readable⟩ := nodeAt_of_no_listFault here child able
        rw [Node.ordered] at order
        have lists := visitEntries_lists t s (path.join name.text) innerRights inner inner order
          inside (Node.lookup_of_ordered order)
        refine lists.congr fun names visit => ?_
        rw [← finds_of_nodeAt inside readable, Node.kind]
        exact (findsFrom_entered inside readable excluded names visit).symm
  | _ =>
    rw [visitNode_other _ _ _ (fun directory => by cases directory)]
    exact lists_entry (fun directory => by cases directory)
termination_by structural node

theorem visitEntries_lists (t : FileTree) (s : Settings) (path : Path) (rights : Rights)
    (entries all : List (Name × Node)) (order : Node.entriesOrdered entries = true)
    (here : t.nodeAt path = .ok (.directory all rights))
    (known : ∀ entry ∈ entries, all.lookup entry.1 = some entry.2) :
    Lists (fun names visit => ∃ name node rest, names = name :: rest ∧ (name, node) ∈ entries ∧
        FindsFrom t s (path.join name.text) name node.kind rest visit)
      (visitEntries t s path rights.search entries) := by
  cases entries with
  | nil =>
    rw [visitEntries]
    exact .nil fun names visit ⟨_, _, _, _, mem, _⟩ => List.not_mem_nil mem
  | cons entry more =>
    obtain ⟨first, node⟩ := entry
    rw [visitEntries]
    have sorted := (Node.entriesOrdered_iff _).mp order
    rw [List.pairwise_cons] at sorted
    have orderMore : Node.entriesOrdered more = true :=
      (Node.entriesOrdered_iff more).mpr
        ⟨sorted.1.2, fun entry mem => sorted.2 entry (List.mem_cons_of_mem _ mem)⟩
    have listsNode := visitNode_lists t s path rights first node all
      (sorted.2 _ List.mem_cons_self) here (known _ List.mem_cons_self)
    have listsMore := visitEntries_lists t s path rights more all orderMore here
      (fun entry mem => known entry (List.mem_cons_of_mem _ mem))
    refine ((listsNode.behind first).append listsMore ?_).congr fun names visit => ?_
    · rintro _ _ ⟨rest, rfl, _⟩ _ _ ⟨later, found, others, rfl, mem, _⟩
      have before := sorted.1.1 (later, found) mem
      exact earlier_of_before before rest others
    · constructor
      · rintro (⟨rest, rfl, finds⟩ | ⟨name, other, rest, rfl, mem, finds⟩)
        · exact ⟨first, node, rest, rfl, List.mem_cons_self, finds⟩
        · exact ⟨name, other, rest, rfl, List.mem_cons_of_mem _ mem, finds⟩
      · rintro ⟨name, other, rest, rfl, mem, finds⟩
        rcases List.mem_cons.mp mem with same | mem
        · obtain ⟨rfl, rfl⟩ := Prod.mk.inj same
          exact Or.inl ⟨rest, rfl, finds⟩
        · exact Or.inr ⟨name, other, rest, rfl, mem, finds⟩
termination_by structural entries

end

/-- Below a root that is a directory, a walk finds what there is to find. If the root cannot be
listed it finds that. -/
theorem visits_lists (t : FileTree) (s : Settings) (directory : t.stat s.root = .ok .directory)
    (dash : s.root.isDash = false) :
    Lists (fun names visit =>
        (names = [] ∧ ∃ fault, t.list s.root = .error fault ∧ visit = .failed s.root fault) ∨
          Finds t s s.root names visit)
      (visits t s) := by
  obtain ⟨entries, rights, here⟩ := FileTree.directory_of_stat directory
  obtain ⟨accepted, _⟩ := FileTree.nodeAt_eq_ok here
  rw [visits, dash, if_neg Bool.false_ne_true, here]
  cases readable : rights.read with
  | false =>
    have able : listFault? s.root true rights = some .accessDenied := by
      rw [listFault?, accepted, readable]
      rfl
    have failed : t.list s.root = .error .accessDenied := by
      rw [FileTree.list, here]
      simp [readable]
    simp only [able]
    refine (Lists.single [] _).congr fun names visit => ?_
    rw [or_iff_left (not_finds_of_fault failed names visit), failed]
    simp
  | true =>
    have able : listFault? s.root true rights = none := by
      rw [listFault?, accepted, readable]
      rfl
    have listed : ∃ names, t.list s.root = .ok names := by
      rw [FileTree.list, here]
      simp [readable]
    have order := FileTree.ordered_nodeAt here
    rw [Node.ordered] at order
    simp only [able]
    refine (visitEntries_lists t s s.root rights entries entries order here
      (Node.lookup_of_ordered order)).congr fun names visit => ?_
    rw [← finds_of_nodeAt here readable, or_iff_right]
    rintro ⟨_, fault, failed, _⟩
    obtain ⟨names, listed⟩ := listed
    rw [failed] at listed
    cases listed

end LineCensus.Walk
