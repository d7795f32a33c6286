import LineCensus.Proofs.FileTree

/-!
# The places that a resolution comes through

`routeFrom` has all places that `resolveFrom` comes through. Two trees that look alike outside some places
resolve steps alike if in neither of them the route comes through such a place (`resolveFrom_congr`).
-/

namespace LineCensus.FileTree

variable {t t' : FileTree} {hidden : Position → Prop}

/-! ### What a look at a place shows -/

/-- What a node is, without the bytes of a file and the entries of a directory. -/
def Node.outline : Node → Kind × Option Rights
  | .directory _ rights => (.directory, some rights)
  | node => (node.kind, none)

def outline (t : FileTree) (position : Position) : Option (Kind × Option Rights) :=
  (t.top.find? position).map Node.outline

theorem look_eq_outline (t : FileTree) (position : Position) :
    t.look position = (t.outline position).map Prod.fst := by
  unfold look outline
  rcases t.top.find? position with none | node
  · rfl
  · cases node <;> rfl

theorem searchable_eq_outline (t : FileTree) (position : Position) :
    t.searchable position =
      ((t.outline position).bind Prod.snd).any Rights.search := by
  unfold searchable outline
  rcases t.top.find? position with none | node
  · rfl
  · cases node <;> rfl

/-- One step sees the place it is taken from and the place it leads to. -/
theorem step_congr {position : Position} {s : Step}
    (here : t'.outline position = t.outline position)
    (there : ∀ next, t.step position s = .ok next ∨ t'.step position s = .ok next →
      t'.outline next = t.outline next) :
    t'.step position s = t.step position s := by
  have look : t'.look position = t.look position := by
    rw [look_eq_outline, look_eq_outline, here]
  have search : t'.searchable position = t.searchable position := by
    rw [searchable_eq_outline, searchable_eq_outline, here]
  have below (name : Name) (down : s = .down name) (directory : t.look position = some .directory)
      (right : t.searchable position = true) :
      (t'.look (position ++ [name])).isSome = (t.look (position ++ [name])).isSome := by
    subst down
    -- A name that only one of the trees has is a place that a step leads to in that tree.
    have steps (present : (t.look (position ++ [name])).isSome = true ∨
        (t'.look (position ++ [name])).isSome = true) :
        t'.outline (position ++ [name]) = t.outline (position ++ [name]) := by
      apply there
      rcases present with present | present
      · exact Or.inl (by simp [step, directory, right, present])
      · exact Or.inr (by simp [step, look, directory, search, right, present])
    by_cases present : (t.look (position ++ [name])).isSome = true ∨
        (t'.look (position ++ [name])).isSome = true
    · rw [look_eq_outline, look_eq_outline, steps present]
    · obtain ⟨absent, absent'⟩ := not_or.mp present
      rw [eq_false_of_ne_true absent, eq_false_of_ne_true absent']
  unfold step
  rw [look, search]
  cases directory : t.look position with
  | none => rfl
  | some kind =>
    cases kind with
    | directory =>
      cases right : t.searchable position with
      | false => cases s <;> rfl
      | true =>
        cases s with
        | down name => simp [below name rfl directory right]
        | _ => rfl
    | _ => rfl

theorem step_down {position next : Position} {name : Name}
    (taken : t.step position (.down name) = .ok next) : next = position ++ [name] := by
  unfold step at taken
  split at taken
  · cases taken
  · split at taken
    · cases taken
    · dsimp only at taken
      split at taken
      · exact (Except.ok.inj taken).symm
      · cases taken
  · cases taken

/-! ### Routes -/

/-- The places that `travel` comes through, from the first to the last. -/
def route (t : FileTree) (jump : Position → List Step → List Position) :
    Position → List Step → List Position
  | position, [] => [position]
  | position, s :: rest =>
    position ::
      match t.step position s with
      | .error _ => []
      | .ok next =>
        match t.look next with
        | some (.link target) => next :: jump (base target position) (target.steps ++ rest)
        | _ => route t jump next rest

/-- The places that `resolveFrom` comes through. The links on the way are among them. -/
def routeFrom (t : FileTree) : Nat → Position → List Step → List Position
  | 0 => t.route fun _ _ => []
  | links + 1 => t.route (t.routeFrom links)

section

variable {jump : Position → List Step → List Position} {position next : Position} {s : Step}

theorem mem_route_start (t : FileTree) (jump : Position → List Step → List Position)
    (position : Position) (steps : List Step) : position ∈ t.route jump position steps := by
  cases steps with
  | nil => exact List.mem_singleton_self position
  | cons s rest => exact List.mem_cons_self

theorem route_link (taken : t.step position s = .ok next) {target : Path}
    (link : t.look next = some (.link target)) (rest : List Step) :
    t.route jump position (s :: rest) =
      position :: next :: jump (base target position) (target.steps ++ rest) := by
  simp only [route, taken, link]

theorem route_real (taken : t.step position s = .ok next)
    (real : ∀ target, t.look next ≠ some (.link target)) (rest : List Step) :
    t.route jump position (s :: rest) = position :: t.route jump next rest := by
  rw [route, taken]
  dsimp only
  split
  · next target link => exact absurd link (real target)
  · rfl

theorem mem_route_step (taken : t.step position s = .ok next) (rest : List Step) :
    next ∈ t.route jump position (s :: rest) := by
  by_cases link : ∃ target, t.look next = some (.link target)
  · obtain ⟨target, link⟩ := link
    rw [route_link taken link]
    exact List.mem_cons_of_mem _ List.mem_cons_self
  · rw [route_real taken (not_exists.mp link)]
    exact List.mem_cons_of_mem _ (mem_route_start t jump next rest)

end

/-- The way to a name that is no link is a single step. -/
theorem routeFrom_down {position : Position} {name : Name}
    (real : ∀ target, t.look (position ++ [name]) ≠ some (.link target)) (links : Nat) :
    t.routeFrom links position [.down name] ⊆ [position, position ++ [name]] := by
  obtain ⟨jump, routes⟩ : ∃ jump, t.routeFrom links = t.route jump := by
    cases links <;> exact ⟨_, rfl⟩
  rw [routes]
  cases taken : t.step position (.down name) with
  | error fault =>
    have alone : t.route jump position [.down name] = [position] := by
      simp only [route, taken]
    rw [alone]
    exact List.cons_subset_cons _ (List.nil_subset _)
  | ok next =>
    obtain rfl := step_down taken
    rw [route_real taken real]
    exact List.Subset.refl _

/-! ### More links -/

theorem route_subset {jump more : Position → List Step → List Position}
    (jumps : ∀ position steps, jump position steps ⊆ more position steps) (position : Position)
    (steps : List Step) : t.route jump position steps ⊆ t.route more position steps := by
  induction steps generalizing position with
  | nil => exact List.Subset.refl _
  | cons s rest ih =>
    unfold route
    apply List.cons_subset_cons
    split
    · exact List.Subset.refl _
    · split
      · exact List.cons_subset_cons _ (jumps _ _)
      · exact ih _

/-- With more links that may be followed a route goes on where it ended before. -/
theorem routeFrom_subset {links more : Nat} (le : links ≤ more) (position : Position)
    (steps : List Step) : t.routeFrom links position steps ⊆ t.routeFrom more position steps := by
  induction links generalizing more position steps with
  | zero =>
    cases more with
    | zero => exact List.Subset.refl _
    | succ more => exact route_subset (fun _ _ => List.nil_subset _) position steps
  | succ links ih =>
    obtain ⟨more, rfl⟩ := Nat.exists_eq_add_one_of_ne_zero (Nat.ne_of_gt (Nat.zero_lt_of_lt le))
    exact route_subset (ih (Nat.le_of_succ_le_succ le)) position steps

/-! ### Where a route ends -/

/-- Steps end on their route with no more links left than before, if jumps do. -/
theorem travel_ends {jump : Position → List Step → Except Fault (Position × Nat)}
    {jumpRoute : Position → List Step → List Position} {left : Nat}
    (jumps : ∀ position steps reached, jump position steps = .ok reached →
      reached.1 ∈ jumpRoute position steps ∧ reached.2 ≤ left)
    {position : Position} {steps : List Step} {reached : Position × Nat}
    (way : t.travel jump left position steps = .ok reached) :
    reached.1 ∈ t.route jumpRoute position steps ∧ reached.2 ≤ left := by
  induction steps generalizing position with
  | nil =>
    obtain rfl := Except.ok.inj way
    exact ⟨mem_route_start t _ position [], Nat.le_refl left⟩
  | cons s rest ih =>
    unfold travel at way
    cases taken : t.step position s with
    | error fault => rw [taken] at way; cases way
    | ok next =>
      simp only [taken] at way
      split at way
      · next target link =>
        rw [route_link taken link]
        obtain ⟨mem, le⟩ := jumps _ _ _ way
        exact ⟨List.mem_cons_of_mem _ (List.mem_cons_of_mem _ mem), le⟩
      · next real =>
        rw [route_real taken real]
        obtain ⟨mem, le⟩ := ih way
        exact ⟨List.mem_cons_of_mem _ mem, le⟩

theorem resolveFrom_ends {links : Nat} {position : Position} {steps : List Step}
    {reached : Position × Nat} (way : t.resolveFrom links position steps = .ok reached) :
    reached.1 ∈ t.routeFrom links position steps ∧ reached.2 ≤ links := by
  induction links generalizing position steps reached with
  | zero => exact travel_ends (fun _ _ _ failed => by cases failed) way
  | succ links ih =>
    refine travel_ends (fun _ _ _ jumped => ?_) way
    obtain ⟨mem, le⟩ := ih jumped
    exact ⟨mem, Nat.le_succ_of_le le⟩

/-! ### Trees that look alike -/

/-- None of the places is hidden. -/
def Avoids (hidden : Position → Prop) (places : List Position) : Prop :=
  ∀ place ∈ places, ¬ hidden place

theorem Avoids.mono {places others : List Position} (clear : Avoids hidden places)
    (subset : others ⊆ places) : Avoids hidden others :=
  fun place mem => clear place (subset mem)

theorem Avoids.tail {first : Position} {places : List Position}
    (clear : Avoids hidden (first :: places)) : Avoids hidden places :=
  clear.mono (List.subset_cons_self first places)

/-- The induction is on the steps. A step that leads to a hidden place in one of the trees would put it
on the route, so the step sees nothing in which the trees differ. -/
theorem travel_congr
    {jump jump' : Position → List Step → Except Fault (Position × Nat)}
    {jumpRoute jumpRoute' : Position → List Step → List Position}
    (alike : ∀ position, ¬ hidden position → t'.outline position = t.outline position)
    (jumps : ∀ position steps, Avoids hidden (jumpRoute position steps) →
      Avoids hidden (jumpRoute' position steps) → jump' position steps = jump position steps)
    (left : Nat) {position : Position} {steps : List Step}
    (clear : Avoids hidden (t.route jumpRoute position steps))
    (clear' : Avoids hidden (t'.route jumpRoute' position steps)) :
    t'.travel jump' left position steps = t.travel jump left position steps := by
  induction steps generalizing position with
  | nil => rfl
  | cons s rest ih =>
    have here := alike position (clear _ (mem_route_start t _ _ _))
    have there : ∀ next, t.step position s = .ok next ∨ t'.step position s = .ok next →
        ¬ hidden next := by
      intro next taken
      rcases taken with taken | taken
      · exact clear _ (mem_route_step taken rest)
      · exact clear' _ (mem_route_step taken rest)
    have taken := step_congr here fun next taken => alike next (there next taken)
    unfold travel
    rw [taken]
    cases step : t.step position s with
    | error fault => rfl
    | ok next =>
      rw [step] at taken
      have look : t'.look next = t.look next := by
        rw [look_eq_outline, look_eq_outline, alike next (there next (Or.inl step))]
      dsimp only
      by_cases link : ∃ target, t.look next = some (.link target)
      · obtain ⟨target, link⟩ := link
        rw [route_link step link] at clear
        rw [route_link taken (look.trans link)] at clear'
        rw [look, link]
        exact jumps _ _ clear.tail.tail clear'.tail.tail
      · have real := not_exists.mp link
        rw [route_real step real] at clear
        rw [route_real taken (look ▸ real)] at clear'
        rw [look]
        split
        · next target isLink => exact absurd isLink (real target)
        · exact ih clear.tail clear'.tail

/-- Steps lead to the same place in two trees that look alike outside the hidden places, if they
come through none of these in either tree. -/
theorem resolveFrom_congr
    (alike : ∀ position, ¬ hidden position → t'.outline position = t.outline position)
    {links : Nat} {position : Position} {steps : List Step}
    (clear : Avoids hidden (t.routeFrom links position steps))
    (clear' : Avoids hidden (t'.routeFrom links position steps)) :
    t'.resolveFrom links position steps = t.resolveFrom links position steps := by
  induction links generalizing position steps with
  | zero => exact travel_congr alike (fun _ _ _ _ => rfl) 0 clear clear'
  | succ links ih =>
    exact travel_congr alike (fun _ _ clear clear' => ih clear clear') (links + 1) clear clear'

/-! ### What a path shows -/

/-- A path leads to the same place in both trees, and a look there shows the same. -/
def SeenAlike (t t' : FileTree) (p : Path) : Prop :=
  t'.resolve p = t.resolve p ∧
    ∀ position, t.resolve p = .ok position → t'.outline position = t.outline position

theorem stat_eq_outline (t : FileTree) (p : Path) :
    t.stat p = (t.resolve p).bind fun position =>
      match t.outline position with
      | none => .error .notFound
      | some seen => .ok seen.1 := by
  unfold stat nodeAt outline
  cases t.resolve p with
  | error fault => rfl
  | ok position =>
    simp only [Except.bind]
    rcases t.top.find? position with none | node
    · rfl
    · cases node <;> rfl

theorem list_eq_outline (t : FileTree) (p : Path) :
    ((t.list p).map fun _ => ()) = (t.resolve p).bind fun position =>
      match t.outline position with
      | none => .error .notFound
      | some (_, none) => .error .notDirectory
      | some (_, some rights) => if rights.read then .ok () else .error .accessDenied := by
  unfold list nodeAt outline
  cases t.resolve p with
  | error fault => rfl
  | ok position =>
    simp only [Except.bind]
    rcases t.top.find? position with none | node
    · rfl
    · cases node with
      | directory entries rights => cases read : rights.read <;> simp [Node.outline, read, Except.map]
      | _ => rfl

theorem resolve_of_stat {p : Path} {kind : Kind} (found : t.stat p = .ok kind) :
    ∃ position, t.resolve p = .ok position := by
  rw [stat_eq_outline] at found
  cases reached : t.resolve p with
  | error fault => rw [reached] at found; cases found
  | ok position => exact ⟨position, rfl⟩

theorem SeenAlike.stat {p : Path} (seen : SeenAlike t t' p) : t'.stat p = t.stat p := by
  obtain ⟨same, outline⟩ := seen
  rw [stat_eq_outline, stat_eq_outline, same]
  cases reached : t.resolve p with
  | error fault => rfl
  | ok position => simp only [Except.bind, outline position reached]

theorem SeenAlike.list {p : Path} (seen : SeenAlike t t' p) :
    ((t'.list p).map fun _ => ()) = ((t.list p).map fun _ => ()) := by
  obtain ⟨same, outline⟩ := seen
  rw [list_eq_outline, list_eq_outline, same]
  cases reached : t.resolve p with
  | error fault => rfl
  | ok position => simp only [Except.bind, outline position reached]

theorem SeenAlike.listed {p : Path} (seen : SeenAlike t t' p) {entries : List (Name × Kind)}
    (listed : t.list p = .ok entries) : ∃ entries', t'.list p = .ok entries' := by
  have same := seen.list
  rw [listed] at same
  cases listed' : t'.list p with
  | error fault => rw [listed'] at same; cases same
  | ok entries' => exact ⟨entries', rfl⟩

theorem SeenAlike.unlisted {p : Path} (seen : SeenAlike t t' p) {fault : Fault}
    (failed : t.list p = .error fault) : t'.list p = .error fault := by
  have same := seen.list
  rw [failed] at same
  cases failed' : t'.list p with
  | error other => rw [failed'] at same; cases same; rfl
  | ok entries => rw [failed'] at same; cases same

/-- What is read at a path is the same if the file there is. -/
theorem SeenAlike.read {p : Path} (seen : SeenAlike t t' p)
    (content : ∀ position bytes readable, t.resolve p = .ok position →
      t.top.find? position = some (.file bytes readable) →
        t'.top.find? position = some (.file bytes readable)) : t'.read p = t.read p := by
  obtain ⟨same, outline⟩ := seen
  unfold FileTree.read nodeAt
  rw [same]
  cases reached : t.resolve p with
  | error fault => rfl
  | ok position =>
    have seen := outline position reached
    unfold FileTree.outline at seen
    dsimp only
    cases here : t.top.find? position with
    | none =>
      rw [here, Option.map_none, Option.map_eq_none_iff] at seen
      rw [seen]
    | some node =>
      rw [here, Option.map_some] at seen
      obtain ⟨node', here', shown⟩ := Option.map_eq_some_iff.mp seen
      cases node with
      | file bytes readable => rw [content position bytes readable reached here]
      | _ =>
        rw [here']
        cases node' <;> cases shown
        rfl

/-! ### Names behind a path -/

/-- A path leads to a place, with so many links left for the names behind it. -/
structure LeadsTo (t : FileTree) (p : Path) (position : Position) (links : Nat) : Prop where
  resolved : t.resolve p = .ok position
  trunk : t.resolveFrom linkLimit (base p t.workingDir) p.trunk = .ok (position, links)

namespace LeadsTo

variable {p : Path} {position : Position} {links : Nat}

theorem nonempty (leads : LeadsTo t p position links) : p.text ≠ "" :=
  text_ne_empty (resolve_eq_ok leads.resolved).1

theorem nodeAt (leads : LeadsTo t p position links) {node : Node} :
    t.nodeAt p = .ok node ↔ t.top.find? position = some node := by
  unfold FileTree.nodeAt
  rw [leads.resolved]
  dsimp only
  cases t.top.find? position <;> simp

/-- The steps behind the path are those from the place. -/
theorem trunk_join (leads : LeadsTo t p position links) (name : Name) :
    t.resolveFrom linkLimit (base (p.join name.text) t.workingDir) (p.join name.text).trunk =
      t.resolveFrom links position [.down name] := by
  rw [base_join leads.nonempty, Path.trunk_join leads.nonempty, resolveFrom_append, leads.trunk]
  rfl

theorem resolve_join (leads : LeadsTo t p position links) (name : Name) :
    t.resolve (p.join name.text) =
      match refusal (p.join name.text) with
      | some fault => .error fault
      | none => (t.resolveFrom links position [.down name]).map Prod.fst := by
  have steps : (p.join name.text).steps = (p.join name.text).trunk := by
    rw [Path.steps_join leads.nonempty, Path.trunk_join leads.nonempty]
  unfold resolve
  cases refusal (p.join name.text) with
  | some fault => rfl
  | none =>
    dsimp only
    rw [steps, leads.trunk_join]

theorem hasEntry_iff (leads : LeadsTo t p position links) (name : Name) (kind : Kind) :
    t.HasEntry p name kind ↔
      (∃ rights, t.outline position = some (.directory, some rights) ∧ rights.read = true) ∧
        t.look (position ++ [name]) = some kind := by
  constructor
  · rintro ⟨entries, listed, mem⟩
    obtain ⟨nodes, rights, here, readable, rfl⟩ := list_eq_ok listed
    have order := ordered_nodeAt here
    rw [Node.ordered] at order
    have found := leads.nodeAt.mp here
    obtain ⟨⟨_, node⟩, inside, same⟩ := List.mem_map.mp mem
    obtain ⟨rfl, rfl⟩ := Prod.mk.inj same
    refine ⟨⟨rights, ?_, readable⟩, ?_⟩
    · unfold outline
      rw [found]
      rfl
    · unfold look
      rw [Node.find?_concat found, Node.lookup_of_ordered order _ inside]
      rfl
  · rintro ⟨⟨rights, seen, readable⟩, below⟩
    unfold outline at seen
    obtain ⟨node, found, same⟩ := Option.map_eq_some_iff.mp seen
    cases node with
    | directory nodes others =>
      obtain rfl : others = rights := Option.some.inj (congrArg Prod.snd same)
      unfold look at below
      rw [Node.find?_concat found] at below
      obtain ⟨node, child, rfl⟩ := Option.map_eq_some_iff.mp below
      exact (FileTree.hasEntry_iff (leads.nodeAt.mpr found) readable name node.kind).mpr
        ⟨node, Node.mem_of_lookup child, rfl⟩
    | _ => cases congrArg Prod.snd same

/-- A directory that can be listed behind the path is right below the place. -/
theorem join (leads : LeadsTo t p position links) {name : Name}
    (has : t.HasEntry p name .directory) {entries : List (Name × Kind)}
    (listed : t.list (p.join name.text) = .ok entries) :
    LeadsTo t (p.join name.text) (position ++ [name]) links := by
  obtain ⟨nodes, rights, here, _⟩ := list_eq_ok has.choose_spec.1
  have found := leads.nodeAt.mp here
  have below := ((leads.hasEntry_iff name _).mp has).2
  unfold look at below
  rw [Node.find?_concat found] at below
  obtain ⟨node, child, kind⟩ := Option.map_eq_some_iff.mp below
  have real : ∀ target, node.kind ≠ .link target := by
    intro target
    rw [kind]
    exact Kind.noConfusion
  have way := resolveFrom_down found child real links
  obtain ⟨_, _, inside, _⟩ := list_eq_ok listed
  have reached := nodeAt_join here child real
  rw [inside] at reached
  cases refused : refusal (p.join name.text) with
  | some fault => rw [refused] at reached; cases reached
  | none =>
    rw [refused] at reached
    cases search : rights.search with
    | false => rw [search] at reached; cases reached
    | true =>
      rw [search, if_pos rfl] at way
      constructor
      · rw [leads.resolve_join, refused, way]
        rfl
      · rw [leads.trunk_join, way]

end LeadsTo

end LineCensus.FileTree
