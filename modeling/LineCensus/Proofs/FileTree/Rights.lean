import LineCensus.Proofs.FileTree

/-!
# Trees in which nothing is forbidden

Where everything may be read and searched (`Node.unrestricted`), a path that leads nowhere fails for one of
the reasons in `wayFaults` (`stat_fault`), and a file that a look at a path shows can be read (`nodeAt_file`).
-/

namespace LineCensus.FileTree

variable {t : FileTree}

/-! ### Rights everywhere -/

mutual

/-- Everything from the node on may be read, and its directories may be searched. -/
def Node.unrestricted : Node → Bool
  | .file _ readable => readable
  | .directory entries rights => rights.read && rights.search && Node.entriesUnrestricted entries
  | .link _ | .fifo | .device => true
termination_by structural node => node

def Node.entriesUnrestricted : List (Name × Node) → Bool
  | [] => true
  | (_, node) :: rest => node.unrestricted && Node.entriesUnrestricted rest
termination_by structural entries => entries

end

theorem Node.entriesUnrestricted_iff (entries : List (Name × Node)) :
    Node.entriesUnrestricted entries = true ↔ ∀ entry ∈ entries, entry.2.unrestricted = true := by
  induction entries with
  | nil => simp [Node.entriesUnrestricted]
  | cons entry rest ih => simp [Node.entriesUnrestricted, ih]

theorem Node.unrestricted_directory (entries : List (Name × Node)) (rights : Rights) :
    (Node.directory entries rights).unrestricted = true ↔
      (rights.read = true ∧ rights.search = true) ∧
        ∀ entry ∈ entries, entry.2.unrestricted = true := by
  rw [Node.unrestricted, Bool.and_eq_true, Bool.and_eq_true, Node.entriesUnrestricted_iff]

theorem Node.unrestricted_find? {node found : Node} {position : Position}
    (free : node.unrestricted = true) (here : node.find? position = some found) :
    found.unrestricted = true := by
  refine Node.of_find? (fun node : Node => node.unrestricted = true) ?_ free here
  intro entries rights free
  exact ((Node.unrestricted_directory entries rights).mp free).2

/-! ### Why a way fails -/

/-- What can be wrong with a way on which nothing is forbidden. -/
def wayFaults : List Fault :=
  [.notFound, .notDirectory, .nameTooLong, .linkLoop]

section

variable (free : t.top.unrestricted = true)

include free

theorem searchable_of_look {position : Position} (directory : t.look position = some .directory) :
    t.searchable position = true := by
  obtain ⟨node, here, kind⟩ := Option.map_eq_some_iff.mp directory
  unfold searchable
  rw [here]
  cases node with
  | directory entries rights =>
    have allowed := Node.unrestricted_find? free here
    exact ((Node.unrestricted_directory entries rights).mp allowed).1.2
  | _ => cases kind

theorem step_fault {position : Position} {s : Step} {fault : Fault}
    (failed : t.step position s = .error fault) : fault ∈ wayFaults := by
  unfold step at failed
  cases look : t.look position with
  | none =>
    rw [look] at failed
    obtain rfl := Except.error.inj failed
    decide
  | some kind =>
    rw [look] at failed
    cases kind with
    | directory =>
      rw [searchable_of_look free look, if_neg (fun ⟨_, closed⟩ => Bool.noConfusion closed)] at failed
      cases s with
      | stay | here | up => cases failed
      | tooLong =>
        obtain rfl := Except.error.inj failed
        decide
      | down name =>
        dsimp only at failed
        split at failed
        · cases failed
        · obtain rfl := Except.error.inj failed
          decide
    | _ =>
      obtain rfl := Except.error.inj failed
      decide

theorem travel_fault {jump : Position → List Step → Except Fault (Position × Nat)}
    (jumps : ∀ position steps fault, jump position steps = .error fault → fault ∈ wayFaults)
    {left : Nat} {position : Position} {steps : List Step} {fault : Fault}
    (failed : t.travel jump left position steps = .error fault) : fault ∈ wayFaults := by
  induction steps generalizing position with
  | nil => cases failed
  | cons s rest ih =>
    unfold travel at failed
    cases taken : t.step position s with
    | error other =>
      rw [taken] at failed
      obtain rfl := Except.error.inj failed
      exact step_fault free taken
    | ok next =>
      rw [taken] at failed
      dsimp only at failed
      split at failed
      · exact jumps _ _ _ failed
      · exact ih failed

theorem resolveFrom_fault {links : Nat} {position : Position} {steps : List Step} {fault : Fault}
    (failed : t.resolveFrom links position steps = .error fault) : fault ∈ wayFaults := by
  induction links generalizing position steps fault with
  | zero =>
    refine travel_fault free ?_ failed
    intro _ _ _ looped
    obtain rfl := Except.error.inj looped
    decide
  | succ links ih => exact travel_fault free (fun _ _ _ jumped => ih jumped) failed

theorem stat_fault {p : Path} (clean : '\x00' ∉ p.text.toList) {fault : Fault}
    (failed : t.stat p = .error fault) : fault ∈ wayFaults := by
  have unseen := stat_eq_error.mp failed
  unfold nodeAt resolve at unseen
  cases refused : refusal p with
  | some other =>
    rw [refused] at unseen
    obtain rfl := Except.error.inj unseen
    unfold refusal at refused
    rw [List.contains_eq_mem, decide_eq_false clean, if_neg Bool.false_ne_true] at refused
    split at refused
    · obtain rfl := Option.some.inj refused
      decide
    · split at refused
      · obtain rfl := Option.some.inj refused
        decide
      · cases refused
  | none =>
    rw [refused] at unseen
    cases way : t.resolveFrom linkLimit (base p t.workingDir) p.steps with
    | error other =>
      rw [way] at unseen
      obtain rfl := Except.error.inj unseen
      exact resolveFrom_fault free way
    | ok reached =>
      simp only [way, Except.map] at unseen
      split at unseen
      · cases unseen
      · obtain rfl := Except.error.inj unseen
        decide

theorem nodeAt_file {p : Path} (file : t.stat p = .ok .file) :
    ∃ content, t.nodeAt p = .ok (.file content true) ∧ t.read p = .ok content := by
  unfold stat at file
  cases found : t.nodeAt p with
  | error fault => rw [found] at file; cases file
  | ok node =>
    rw [found] at file
    have kind := Except.ok.inj file
    cases node with
    | file content readable =>
      obtain ⟨_, _, _, _, here⟩ := nodeAt_eq_ok found
      have allowed := Node.unrestricted_find? free here
      rw [Node.unrestricted] at allowed
      subst allowed
      refine ⟨content, rfl, ?_⟩
      unfold FileTree.read
      rw [found]
      rfl
    | _ => cases kind

end

end LineCensus.FileTree
