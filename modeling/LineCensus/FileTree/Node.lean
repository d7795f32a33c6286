import LineCensus.FileTree.Name

/-!
# Nodes of a file tree

A `Node` is a file, a directory with its entries, or one of the other things a name can stand
for. Entries stand in byte order of their names, each name once: `ordered` checks it everywhere
below a node, and `ordered_alter` says that changing one place keeps it. In which order a file
system keeps them is not part of a tree; whoever reads a directory finds them sorted by name.
-/

namespace LineCensus.FileTree

/-- What the program may do with a directory: `read` lists its entries, `search` takes steps in
it. -/
structure Rights where
  read : Bool := true
  search : Bool := true
  deriving DecidableEq, Repr

inductive Node where
  | file (content : List UInt8) (readable : Bool)
  | directory (entries : List (Name × Node)) (rights : Rights)
  | link (target : Path)
  | fifo
  | device

/-- What a listing or a look at a place tells of a node. -/
inductive Kind where
  | file
  | directory
  | link (target : Path)
  | fifo
  | device
  deriving DecidableEq, Repr

namespace Node

def kind : Node → Kind
  | .file _ _ => .file
  | .directory _ _ => .directory
  | .link target => .link target
  | .fifo => .fifo
  | .device => .device

def find? : Node → Position → Option Node
  | node, [] => some node
  | .directory entries _, name :: rest =>
    match entries.lookup name with
    | some child => child.find? rest
    | none => none
  | _, _ :: _ => none
termination_by structural _ position => position

def setEntry (name : Name) (node : Option Node) : List (Name × Node) → List (Name × Node)
  | [] => node.toList.map (name, ·)
  | entry :: rest =>
    if entry.1 = name then node.toList.map (name, ·) ++ rest
    else if Text.Before name.text entry.1.text then node.toList.map (name, ·) ++ entry :: rest
    else entry :: setEntry name node rest

/-- Changes what is at a position below. Where the way there is missing nothing changes. -/
def alter (change : Option Node → Option Node) : Option Node → Position → Option Node
  | node, [] => change node
  | some (.directory entries rights), name :: rest =>
    some (.directory (setEntry name (alter change (entries.lookup name) rest) entries) rights)
  | node, _ :: _ => node
termination_by structural _ position => position

/-! ### Order -/

mutual

def ordered : Node → Bool
  | .directory entries _ => entriesOrdered entries
  | _ => true
termination_by structural node => node

def entriesOrdered : List (Name × Node) → Bool
  | [] => true
  | (name, node) :: rest =>
    rest.all (fun entry => decide (Text.Before name.text entry.1.text)) && node.ordered &&
      entriesOrdered rest
termination_by structural entries => entries

end

theorem entriesOrdered_iff (entries : List (Name × Node)) :
    entriesOrdered entries = true ↔
      entries.Pairwise (fun a b => Text.Before a.1.text b.1.text) ∧
        ∀ entry ∈ entries, entry.2.ordered = true := by
  induction entries with
  | nil => simp [entriesOrdered]
  | cons entry rest ih =>
    obtain ⟨name, node⟩ := entry
    simp only [entriesOrdered, Bool.and_eq_true, List.all_eq_true, decide_eq_true_eq, ih,
      List.pairwise_cons, List.mem_cons, forall_eq_or_imp]
    constructor
    · rintro ⟨⟨hbefore, hnode⟩, hpair, hall⟩
      exact ⟨⟨hbefore, hpair⟩, hnode, hall⟩
    · rintro ⟨⟨hbefore, hpair⟩, hnode, hall⟩
      exact ⟨⟨hbefore, hnode⟩, hpair, hall⟩

theorem mem_of_lookup {entries : List (Name × Node)} {name : Name} {node : Node}
    (h : entries.lookup name = some node) : (name, node) ∈ entries := by
  induction entries with
  | nil => simp at h
  | cons entry rest ih =>
    obtain ⟨other, x⟩ := entry
    rw [List.lookup_cons] at h
    by_cases e : name = other
    · subst e
      simp_all
    · rw [beq_false_of_ne e] at h
      exact List.mem_cons_of_mem _ (ih h)

theorem mem_setEntry {name : Name} {node : Option Node} {entries : List (Name × Node)}
    {entry : Name × Node} (h : entry ∈ setEntry name node entries) :
    entry ∈ entries ∨ (entry.1 = name ∧ node = some entry.2) := by
  have new {e : Name × Node} (h : e ∈ node.toList.map (name, ·)) :
      e.1 = name ∧ node = some e.2 := by
    cases node <;> simp_all
  induction entries with
  | nil => exact Or.inr (new h)
  | cons first rest ih =>
    rw [setEntry] at h
    split at h
    · rcases List.mem_append.mp h with h | h
      · exact Or.inr (new h)
      · exact Or.inl (List.mem_cons_of_mem _ h)
    · split at h
      · rcases List.mem_append.mp h with h | h
        · exact Or.inr (new h)
        · exact Or.inl h
      · rcases List.mem_cons.mp h with rfl | h
        · exact Or.inl List.mem_cons_self
        · exact (ih h).imp_left (List.mem_cons_of_mem _)

theorem entriesOrdered_setEntry (name : Name) (node : Option Node)
    (entries : List (Name × Node)) (hentries : entriesOrdered entries = true)
    (hnode : ∀ x, node = some x → x.ordered = true) :
    entriesOrdered (setEntry name node entries) = true := by
  rw [entriesOrdered_iff] at hentries ⊢
  obtain ⟨hpair, hall⟩ := hentries
  refine ⟨?_, fun entry h => ?_⟩
  · clear hnode hall
    induction entries with
    | nil => cases node <;> simp [setEntry]
    | cons first rest ih =>
      obtain ⟨hfirst, hrest⟩ := List.pairwise_cons.mp hpair
      rw [setEntry]
      split
      next e =>
        subst e
        cases node
        · simpa using hrest
        · simpa using ⟨fun a b h => hfirst (a, b) h, hrest⟩
      next e =>
        split
        next hb =>
          cases node
          · simpa using ⟨fun a b h => hfirst (a, b) h, hrest⟩
          · simp only [Option.toList_some, List.map_cons, List.map_nil, List.cons_append,
              List.nil_append, List.pairwise_cons, List.mem_cons, forall_eq_or_imp]
            exact ⟨⟨hb, fun entry h => hb.trans (hfirst entry h)⟩, hfirst, hrest⟩
        next hb =>
          refine List.pairwise_cons.mpr ⟨fun entry h => ?_, ih hrest⟩
          rcases mem_setEntry h with h | ⟨h, _⟩
          · exact hfirst entry h
          · rw [h]
            exact (Name.before_or_before e).resolve_right hb
  · rcases mem_setEntry h with h | ⟨_, h⟩
    · exact hall entry h
    · exact hnode _ h

theorem ordered_alter (change : Option Node → Option Node)
    (hchange : ∀ x y, (∀ z, x = some z → z.ordered = true) → change x = some y →
      y.ordered = true)
    (node : Option Node) (position : Position) (hnode : ∀ z, node = some z → z.ordered = true)
    (y : Node) (h : alter change node position = some y) : y.ordered = true := by
  induction position generalizing node y with
  | nil => exact hchange node y hnode (by simpa [alter] using h)
  | cons name rest ih =>
    match node with
    | some (.directory entries _) =>
      simp only [alter, Option.some.injEq] at h
      subst h
      have hentries : entriesOrdered entries = true := by
        simpa [ordered] using hnode _ rfl
      rw [ordered]
      refine entriesOrdered_setEntry name _ entries hentries (fun x hx => ?_)
      refine ih (entries.lookup name) (fun z hz => ?_) x hx
      exact ((entriesOrdered_iff entries).mp hentries).2 (name, z) (mem_of_lookup hz)
    | some (.file _ _) | some (.link _) | some .fifo | some .device | none =>
      simp only [alter] at h
      exact hnode y h

end Node

end LineCensus.FileTree
