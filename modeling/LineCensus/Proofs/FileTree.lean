import LineCensus.Proofs.Path

/-!
# Directories at a path

What a file tree tells of the entries of a directory agrees with what it tells of the paths made of
the directory and a name: `nodeAt_join` looks a name up behind the path, and `hasEntry_iff` says which
names are listed.
-/

namespace LineCensus.FileTree

variable {t : FileTree}

/-! ### Nodes -/

theorem Node.find?_concat {node : Node} {position : Position} {entries : List (Name × Node)}
    {rights : Rights} (here : node.find? position = some (.directory entries rights))
    (name : Name) : node.find? (position ++ [name]) = entries.lookup name := by
  induction position generalizing node with
  | nil =>
    rw [Node.find?, Option.some.injEq] at here
    subst here
    rw [List.nil_append, Node.find?]
    cases entries.lookup name <;> rfl
  | cons first rest ih =>
    cases node with
    | directory others _ =>
      rw [Node.find?] at here
      rw [List.cons_append, Node.find?]
      cases found : others.lookup first with
      | none => rw [found] at here; cases here
      | some child =>
        rw [found] at here
        exact ih here
    | _ => cases here

/-- What directories hand to their entries holds at every position below. -/
theorem Node.of_find? (property : Node → Prop)
    (hands : ∀ entries rights, property (.directory entries rights) →
      ∀ entry ∈ entries, property entry.2)
    {node found : Node} {position : Position} (holds : property node)
    (here : node.find? position = some found) : property found := by
  induction position generalizing node with
  | nil =>
    rw [Node.find?, Option.some.injEq] at here
    exact here ▸ holds
  | cons first rest ih =>
    cases node with
    | directory entries rights =>
      rw [Node.find?] at here
      cases child : entries.lookup first with
      | none => rw [child] at here; cases here
      | some next =>
        rw [child] at here
        exact ih (hands entries rights holds _ (Node.mem_of_lookup child)) here
    | _ => cases here

theorem Node.ordered_find? {node found : Node} {position : Position} (order : node.ordered = true)
    (here : node.find? position = some found) : found.ordered = true := by
  refine Node.of_find? (fun node : Node => node.ordered = true) ?_ order here
  intro entries rights order
  rw [Node.ordered] at order
  exact ((Node.entriesOrdered_iff entries).mp order).2

theorem Node.lookup_of_mem {entries : List (Name × Node)}
    (order : entries.Pairwise (fun a b => Text.Before a.1.text b.1.text)) {name : Name}
    {node : Node} (mem : (name, node) ∈ entries) : entries.lookup name = some node := by
  induction entries with
  | nil => cases mem
  | cons entry rest ih =>
    obtain ⟨first, rest⟩ := List.pairwise_cons.mp order
    rw [List.lookup_cons]
    rcases List.mem_cons.mp mem with rfl | later
    · rw [beq_self_eq_true]
    · have different : name ≠ entry.1 := by
        intro same
        have before := first _ later
        rw [same] at before
        exact Text.Before.irrefl _ before
      rw [beq_false_of_ne different]
      exact ih rest later

theorem Node.lookup_of_ordered {entries : List (Name × Node)}
    (order : Node.entriesOrdered entries = true) (entry : Name × Node) (mem : entry ∈ entries) :
    entries.lookup entry.1 = some entry.2 :=
  Node.lookup_of_mem ((Node.entriesOrdered_iff entries).mp order).1 mem

/-! ### Where paths lead -/

theorem resolveFrom_eq_travel (t : FileTree) (links : Nat) :
    ∃ jump, t.resolveFrom links = t.travel jump links := by
  cases links with
  | zero => exact ⟨_, rfl⟩
  | succ links => exact ⟨_, rfl⟩

theorem resolveFrom_stay {links : Nat} {position : Position} {reached : Position × Nat}
    (stay : t.resolveFrom links position [.stay] = .ok reached) : reached = (position, links) := by
  obtain ⟨jump, travel⟩ := t.resolveFrom_eq_travel links
  rw [travel, FileTree.travel] at stay
  cases look : t.look position with
  | none => rw [step, look] at stay; cases stay
  | some kind =>
    cases kind with
    | directory =>
      have here : t.step position .stay = .ok position := by simp [step, look]
      simp only [here, look] at stay
      exact (Except.ok.inj stay).symm
    | _ => rw [step, look] at stay; cases stay

theorem resolveFrom_down {position : Position} {entries : List (Name × Node)} {rights : Rights}
    (here : t.top.find? position = some (.directory entries rights)) {name : Name} {node : Node}
    (child : entries.lookup name = some node) (real : ∀ target, node.kind ≠ .link target)
    (links : Nat) :
    t.resolveFrom links position [.down name] =
      if rights.search then .ok (position ++ [name], links) else .error .accessDenied := by
  obtain ⟨jump, travel⟩ := t.resolveFrom_eq_travel links
  have look : t.look position = some .directory := by rw [FileTree.look, here]; rfl
  have below : t.look (position ++ [name]) = some node.kind := by
    rw [FileTree.look, Node.find?_concat here, child]
    rfl
  have search : t.searchable position = rights.search := by rw [searchable, here]
  have one : t.step position (.down name) =
      if rights.search then .ok (position ++ [name]) else .error .accessDenied := by
    cases right : rights.search <;> simp [step, look, search, right, below]
  rw [travel, FileTree.travel, one]
  cases right : rights.search with
  | false => rfl
  | true =>
    simp only [if_true, below]
    split
    · next target link => exact absurd (Option.some.inj link) (real target)
    · rfl

theorem resolveFrom_trunk {p : Path} {links : Nat} {start : Position} {reached : Position × Nat}
    (way : t.resolveFrom links start p.steps = .ok reached) :
    t.resolveFrom links start p.trunk = .ok reached := by
  rcases p.steps_eq_trunk with same | stays
  · rwa [same] at way
  · rw [stays, resolveFrom_append] at way
    cases trunk : t.resolveFrom links start p.trunk with
    | error fault => rw [trunk] at way; cases way
    | ok before =>
      rw [trunk] at way
      rw [resolveFrom_stay way]

theorem resolve_eq_ok {p : Path} {position : Position} (resolved : t.resolve p = .ok position) :
    refusal p = none ∧ ∃ links,
      t.resolveFrom linkLimit (base p t.workingDir) p.steps = .ok (position, links) := by
  unfold resolve at resolved
  cases refused : refusal p with
  | some fault => rw [refused] at resolved; cases resolved
  | none =>
    rw [refused] at resolved
    cases way : t.resolveFrom linkLimit (base p t.workingDir) p.steps with
    | error fault => rw [way] at resolved; cases resolved
    | ok reached =>
      rw [way] at resolved
      obtain rfl := Except.ok.inj resolved
      exact ⟨rfl, reached.2, rfl⟩

theorem nodeAt_eq_ok {p : Path} {node : Node} (found : t.nodeAt p = .ok node) :
    refusal p = none ∧ ∃ position links,
      t.resolveFrom linkLimit (base p t.workingDir) p.steps = .ok (position, links) ∧
        t.top.find? position = some node := by
  unfold nodeAt at found
  cases resolved : t.resolve p with
  | error fault => rw [resolved] at found; cases found
  | ok position =>
    obtain ⟨accepted, links, way⟩ := resolve_eq_ok resolved
    simp only [resolved] at found
    cases here : t.top.find? position with
    | none => rw [here] at found; cases found
    | some other =>
      rw [here, Except.ok.injEq] at found
      exact ⟨accepted, position, links, way, found ▸ here⟩

theorem directory_of_stat {p : Path} (directory : t.stat p = .ok .directory) :
    ∃ entries rights, t.nodeAt p = .ok (.directory entries rights) := by
  unfold stat at directory
  cases found : t.nodeAt p with
  | error fault => rw [found] at directory; cases directory
  | ok node =>
    rw [found] at directory
    have kind := Except.ok.inj directory
    cases node with
    | directory entries rights => exact ⟨entries, rights, rfl⟩
    | _ => cases kind

theorem stat_eq_error {p : Path} {fault : Fault} :
    t.stat p = .error fault ↔ t.nodeAt p = .error fault := by
  unfold stat
  cases t.nodeAt p <;> simp [Except.map]

theorem read_of_stat_error {p : Path} {fault : Fault} (failed : t.stat p = .error fault) :
    t.read p = .error fault := by
  unfold FileTree.read
  rw [stat_eq_error.mp failed]

theorem text_ne_empty {p : Path} (accepted : refusal p = none) : p.text ≠ "" := by
  intro empty
  simp [refusal, empty] at accepted

theorem base_join {p : Path} (nonempty : p.text ≠ "") (part : String) (directory : Position) :
    base (p.join part) directory = base p directory := by
  rw [base, base, Path.isAbsolute_join nonempty]

/-- A name in a directory is found behind its path, unless the path is refused or the directory may
not be searched. -/
theorem nodeAt_join {p : Path} {entries : List (Name × Node)} {rights : Rights}
    (here : t.nodeAt p = .ok (.directory entries rights)) {name : Name} {node : Node}
    (child : entries.lookup name = some node) (real : ∀ target, node.kind ≠ .link target) :
    t.nodeAt (p.join name.text) =
      match refusal (p.join name.text) with
      | some fault => .error fault
      | none => if rights.search then .ok node else .error .accessDenied := by
  obtain ⟨accepted, position, links, way, found⟩ := nodeAt_eq_ok here
  have nonempty := text_ne_empty accepted
  have further : t.resolveFrom linkLimit (base (p.join name.text) t.workingDir)
      (p.join name.text).steps =
        if rights.search then .ok (position ++ [name], links) else .error .accessDenied := by
    rw [base_join nonempty, Path.steps_join nonempty, resolveFrom_append, resolveFrom_trunk way]
    exact resolveFrom_down found child real links
  rw [nodeAt, resolve, further]
  cases refusal (p.join name.text) with
  | some fault => rfl
  | none =>
    cases rights.search with
    | false => rfl
    | true =>
      simp only [if_true, Except.map, Node.find?_concat found, child]

theorem ordered_nodeAt {p : Path} {node : Node} (found : t.nodeAt p = .ok node) :
    node.ordered = true := by
  obtain ⟨_, position, _, _, here⟩ := nodeAt_eq_ok found
  exact Node.ordered_find? t.ordered here

/-! ### Entries -/

theorem list_eq_ok {p : Path} {entries : List (Name × Kind)} (listed : t.list p = .ok entries) :
    ∃ nodes rights, t.nodeAt p = .ok (.directory nodes rights) ∧ rights.read = true ∧
      entries = nodes.map fun entry => (entry.1, entry.2.kind) := by
  unfold list at listed
  cases here : t.nodeAt p with
  | error fault => rw [here] at listed; cases listed
  | ok node =>
    rw [here] at listed
    cases node with
    | directory nodes rights =>
      cases readable : rights.read with
      | false => simp [readable] at listed
      | true =>
        simp only [readable, if_true, Except.ok.injEq] at listed
        exact ⟨nodes, rights, rfl, readable, listed.symm⟩
    | _ => cases listed

/-- The entries of a directory come in byte order of their names. -/
theorem list_ordered {p : Path} {entries : List (Name × Kind)} (listed : t.list p = .ok entries) :
    entries.Pairwise (fun a b => Text.Before a.1.text b.1.text) := by
  obtain ⟨nodes, rights, here, _, rfl⟩ := list_eq_ok listed
  have order := ordered_nodeAt here
  rw [Node.ordered] at order
  exact List.pairwise_map.mpr ((Node.entriesOrdered_iff nodes).mp order).1

/-- The directory at a path can be listed and has an entry of this name, which is of this kind. -/
def HasEntry (t : FileTree) (p : Path) (name : Name) (kind : Kind) : Prop :=
  ∃ entries, t.list p = .ok entries ∧ (name, kind) ∈ entries

theorem hasEntry_iff {p : Path} {entries : List (Name × Node)} {rights : Rights}
    (here : t.nodeAt p = .ok (.directory entries rights)) (readable : rights.read = true)
    (name : Name) (kind : Kind) :
    t.HasEntry p name kind ↔ ∃ node, (name, node) ∈ entries ∧ node.kind = kind := by
  have listed : t.list p = .ok (entries.map fun entry => (entry.1, entry.2.kind)) := by
    rw [list, here]
    exact if_pos readable
  unfold HasEntry
  rw [listed]
  constructor
  · rintro ⟨_, same, mem⟩
    rw [← Except.ok.inj same] at mem
    obtain ⟨⟨_, node⟩, inside, pair⟩ := List.mem_map.mp mem
    obtain ⟨rfl, rfl⟩ := Prod.mk.inj pair
    exact ⟨node, inside, rfl⟩
  · rintro ⟨node, mem, rfl⟩
    exact ⟨_, rfl, List.mem_map.mpr ⟨(name, node), mem, rfl⟩⟩

/-- An entry that is no link is what its path leads to, if that leads anywhere. -/
theorem stat_of_hasEntry {p : Path} {name : Name} {kind : Kind} (has : t.HasEntry p name kind)
    (real : ∀ target, kind ≠ .link target) :
    (∃ fault, t.stat (p.join name.text) = .error fault) ∨ t.stat (p.join name.text) = .ok kind := by
  obtain ⟨entries, listed, mem⟩ := has
  obtain ⟨nodes, rights, here, _, rfl⟩ := list_eq_ok listed
  obtain ⟨⟨_, node⟩, inside, same⟩ := List.mem_map.mp mem
  obtain ⟨rfl, rfl⟩ := Prod.mk.inj same
  have order := ordered_nodeAt here
  rw [Node.ordered] at order
  have child := Node.lookup_of_ordered order _ inside
  unfold stat
  rw [nodeAt_join here child real]
  cases refusal (p.join _) with
  | some fault => exact Or.inl ⟨fault, rfl⟩
  | none =>
    cases rights.search with
    | false => exact Or.inl ⟨_, rfl⟩
    | true => exact Or.inr rfl

theorem nodeAt_of_hasEntry {p : Path} {name : Name} (has : t.HasEntry p name .directory) :
    (∃ fault, t.nodeAt (p.join name.text) = .error fault) ∨
      ∃ entries rights, t.nodeAt (p.join name.text) = .ok (.directory entries rights) := by
  rcases stat_of_hasEntry has nofun with ⟨fault, failed⟩ | directory
  · exact Or.inl ⟨fault, stat_eq_error.mp failed⟩
  · exact Or.inr (directory_of_stat directory)

end LineCensus.FileTree
