import LineCensus.Proofs.FileTree.Route

/-!
# Links that are left

Steps lead to the same place with more links left, unless the links run out (`resolveFrom_more`). How many
links the way to a directory has taken makes no difference then: at a path that leaves room for the names
below (`Roomy`), a name is found as if the way began in the directory (`Roomy.resolve_join`).
-/

namespace LineCensus.FileTree

variable {t : FileTree}

/-! ### More links -/

theorem travel_more {jump jump' : Position → List Step → Except Fault (Position × Nat)}
    {left more : Nat}
    (jumps : ∀ position steps, jump position steps ≠ .error .linkLoop →
      jump' position steps = (jump position steps).map fun r => (r.1, r.2 + more))
    {position : Position} {steps : List Step}
    (enough : t.travel jump left position steps ≠ .error .linkLoop) :
    t.travel jump' (left + more) position steps =
      (t.travel jump left position steps).map fun r => (r.1, r.2 + more) := by
  induction steps generalizing position with
  | nil => rfl
  | cons s rest ih =>
    unfold travel at enough ⊢
    cases taken : t.step position s with
    | error fault => rfl
    | ok next =>
      simp only [taken] at enough ⊢
      cases place : t.look next with
      | none =>
        rw [place] at enough
        exact ih enough
      | some kind =>
        rw [place] at enough
        cases kind with
        | link target => exact jumps _ _ enough
        | _ => exact ih enough

/-- With more links that may be followed, as many more are left in the end. -/
theorem resolveFrom_more {links : Nat} (more : Nat) {position : Position} {steps : List Step}
    (enough : t.resolveFrom links position steps ≠ .error .linkLoop) :
    t.resolveFrom (links + more) position steps =
      (t.resolveFrom links position steps).map fun r => (r.1, r.2 + more) := by
  induction links generalizing position steps with
  | zero =>
    obtain ⟨jump, travel⟩ := t.resolveFrom_eq_travel (0 + more)
    rw [travel]
    exact travel_more (fun _ _ followed => absurd rfl followed) enough
  | succ links ih =>
    rw [Nat.add_right_comm]
    show t.travel (t.resolveFrom (links + more)) (links + more + 1) position steps = _
    rw [Nat.add_right_comm]
    exact travel_more (fun _ _ followed => ih followed) enough

/-- The place is that of a fresh start, unless only the links run out. -/
theorem resolveFrom_place {links : Nat} (le : links ≤ linkLimit) {position : Position}
    {steps : List Step}
    (enough : t.resolveFrom links position steps = .error .linkLoop →
      t.resolveFrom linkLimit position steps = .error .linkLoop) :
    (t.resolveFrom links position steps).map Prod.fst =
      (t.resolveFrom linkLimit position steps).map Prod.fst := by
  by_cases looped : t.resolveFrom links position steps = .error .linkLoop
  · rw [looped, enough looped]
  · obtain ⟨more, total⟩ := Nat.exists_eq_add_of_le le
    rw [total, resolveFrom_more more looped]
    cases t.resolveFrom links position steps <;> rfl

/-! ### Paths to one place -/

section

variable {p q : Path} (same : t.resolve p = t.resolve q)

include same

theorem nodeAt_congr : t.nodeAt p = t.nodeAt q := by
  unfold nodeAt
  rw [same]

theorem stat_congr : t.stat p = t.stat q := by
  unfold stat
  rw [nodeAt_congr same]

theorem list_congr : t.list p = t.list q := by
  unfold list
  rw [nodeAt_congr same]

theorem read_congr : t.read p = t.read q := by
  unfold FileTree.read
  rw [nodeAt_congr same]

theorem hasEntry_congr (name : Name) (kind : Kind) : t.HasEntry p name kind ↔ t.HasEntry q name kind := by
  unfold HasEntry
  rw [list_congr same]

end

theorem stat_of_look {p : Path} {position : Position} {kind : Kind}
    (resolved : t.resolve p = .ok position) (look : t.look position = some kind) :
    t.stat p = .ok kind := by
  obtain ⟨node, found, rfl⟩ := Option.map_eq_some_iff.mp look
  unfold stat nodeAt
  rw [resolved]
  simp only [found]
  rfl

/-! ### Room for the names below -/

/-- A path leads to a place, and no path below is too long or fails for the links on the way to it. -/
structure Roomy (t : FileTree) (p : Path) (position : Position) : Prop where
  resolved : t.resolve p = .ok position
  short : ∀ names, (t.look (position ++ names)).isSome → (p.below names).size < pathLimit
  links : ∀ way name, (t.look (position ++ way ++ [name])).isSome →
    t.resolve (p.below (way ++ [name])) = .error .linkLoop →
      t.resolveFrom linkLimit (position ++ way) [.down name] = .error .linkLoop

theorem refusal_eq_none (p : Path) :
    refusal p = none ↔ '\x00' ∉ p.text.toList ∧ p.text ≠ "" ∧ p.size < pathLimit := by
  unfold refusal
  rw [List.contains_eq_mem]
  by_cases nul : '\x00' ∈ p.text.toList
  · simp [nul]
  · by_cases empty : p.text = ""
    · simp [empty]
    · simp [nul, empty]

theorem refusal_join {p : Path} (accepted : refusal p = none) {name : Name}
    (short : (p.join name.text).size < pathLimit) : refusal (p.join name.text) = none := by
  obtain ⟨clean, _⟩ := (refusal_eq_none p).mp accepted
  exact (refusal_eq_none _).mpr
    ⟨Path.nul_not_mem_join clean name, Path.join_nonempty p name, short⟩

namespace Roomy

variable {p : Path} {position : Position}

theorem accepted (room : Roomy t p position) : refusal p = none :=
  (resolve_eq_ok room.resolved).1

theorem nonempty (room : Roomy t p position) : p.text ≠ "" :=
  text_ne_empty room.accepted

theorem leads (room : Roomy t p position) : ∃ links ≤ linkLimit, LeadsTo t p position links := by
  obtain ⟨_, links, way⟩ := resolve_eq_ok room.resolved
  exact ⟨links, (resolveFrom_ends way).2, room.resolved, resolveFrom_trunk way⟩

theorem there (room : Roomy t p position) {name : Name} {kind : Kind}
    (has : t.HasEntry p name kind) : (t.look (position ++ [name])).isSome := by
  obtain ⟨links, _, leads⟩ := room.leads
  obtain ⟨_, look⟩ := (leads.hasEntry_iff name kind).mp has
  rw [look]
  rfl

/-- A name is found as if the way began in the directory, whatever the path to that is. -/
theorem resolve_join (room : Roomy t p position) {name : Name}
    (there : (t.look (position ++ [name])).isSome) :
    t.resolve (p.join name.text) = (t.resolveFrom linkLimit position [.down name]).map Prod.fst := by
  obtain ⟨links, le, leads⟩ := room.leads
  have single : p.below [name] = p.join name.text := Path.below_cons room.nonempty name []
  have short : (p.join name.text).size < pathLimit := single ▸ room.short [name] there
  have resolves := leads.resolve_join name
  rw [refusal_join room.accepted short] at resolves
  rw [resolves]
  refine resolveFrom_place le fun looped => ?_
  have fails := room.links [] name (by rwa [List.append_nil])
  rw [List.append_nil, List.nil_append, single, resolves, looped] at fails
  exact fails rfl

/-- A directory that can be listed leaves the same room. -/
theorem join (room : Roomy t p position) {name : Name} (has : t.HasEntry p name .directory)
    {entries : List (Name × Kind)} (listed : t.list (p.join name.text) = .ok entries) :
    Roomy t (p.join name.text) (position ++ [name]) := by
  obtain ⟨links, _, leads⟩ := room.leads
  refine ⟨(leads.join has listed).resolved, fun names there => ?_, fun way last there fails => ?_⟩
  · rw [List.append_assoc, List.singleton_append] at there
    have short := room.short (name :: names) there
    rwa [Path.below_cons room.nonempty] at short
  · have split : position ++ [name] ++ way = position ++ (name :: way) := by simp
    rw [split] at there ⊢
    apply room.links (name :: way) last there
    rwa [List.cons_append, Path.below_cons room.nonempty]

end Roomy

end LineCensus.FileTree
