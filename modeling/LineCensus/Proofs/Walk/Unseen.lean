import LineCensus.Proofs.FileTree.Route
import LineCensus.Proofs.Walk.Files

/-!
# Walks that cannot tell two trees apart

A walk does not see what is below the directories that it prunes, unless a link leads there. `Alike`
is said of two trees that differ only in places that no resolution comes through and no walk enters:
the visits are the same in both (`Alike.visits`).
-/

namespace LineCensus.Walk

open FileTree (Name Kind Position Avoids LeadsTo SeenAlike linkLimit base)

variable {t t' : FileTree} {s : Settings} {hidden : Position → Prop}

/-- A place strictly below a directory that the walk prunes. -/
def BelowPruned (t : FileTree) (s : Settings) (position : Position) : Prop :=
  ∃ start names rest, t.resolve s.root = .ok start ∧
    Visit.pruned (s.root.below names) ∈ visits t s ∧ rest ≠ [] ∧ position = start ++ names ++ rest

/-- Neither the root nor a link outside the hidden places is resolved by way of one of them. -/
structure Shielded (t : FileTree) (root : Path) (hidden : Position → Prop) : Prop where
  root : Avoids hidden (t.routeFrom linkLimit (base root t.workingDir) root.steps)
  links : ∀ directory name target, ¬ hidden (directory ++ [name]) →
    t.look (directory ++ [name]) = some (.link target) →
      Avoids hidden (t.routeFrom linkLimit directory [.down name])

/-- Behind a place no name is hidden as long as the ones before it are entered. -/
def Open (s : Settings) (hidden : Position → Prop) (position : Position) : Prop :=
  ∀ way name, (∀ part ∈ way, part.text ∉ s.excludedDirs) → ¬ hidden (position ++ way ++ [name])

/-- Two trees look alike except in hidden places. No resolution comes through one of these, and no
walk enters one. -/
structure Alike (t t' : FileTree) (s : Settings) (hidden : Position → Prop) : Prop where
  workingDir : t'.workingDir = t.workingDir
  outline : ∀ position, ¬ hidden position → t'.outline position = t.outline position
  shielded : Shielded t s.root hidden
  shielded' : Shielded t' s.root hidden
  opened : ∀ start, t.resolve s.root = .ok start → Open s hidden start

/-- A directory that is entered is at the same place in both trees, and not a hidden one. -/
structure SamePlace (t t' : FileTree) (s : Settings) (hidden : Position → Prop) (path : Path)
    (position : Position) (links : Nat) : Prop where
  leads : LeadsTo t path position links
  leads' : LeadsTo t' path position links
  here : ¬ hidden position
  opened : Open s hidden position

/-! ### Pruned directories -/

theorem visitFile_ne_pruned (path pruned : Path) (name : String) :
    visitFile s path name ≠ .pruned pruned := by
  unfold visitFile
  split <;> exact Visit.noConfusion

theorem entryVisit_pruned {path pruned : Path} {name : Name} {kind : Kind}
    (tells : entryVisit? t s path name kind = some (.pruned pruned)) :
    pruned = path ∧ name.text ∈ s.excludedDirs := by
  cases kind with
  | directory =>
    rw [entryVisit?] at tells
    split at tells
    · next excluded =>
      exact ⟨(Visit.pruned.inj (Option.some.inj tells)).symm, of_decide_eq_true excluded⟩
    · split at tells
      · exact Visit.noConfusion (Option.some.inj tells)
      · cases tells
  | file => exact absurd (Option.some.inj tells) (visitFile_ne_pruned _ _ _)
  | link target =>
    rw [entryVisit?] at tells
    split at tells
    · exact absurd (Option.some.inj tells) (visitFile_ne_pruned _ _ _)
    · exact absurd (Option.some.inj tells) (visitFile_ne_pruned _ _ _)
    · cases tells
  | fifo | device => cases tells

theorem excluded_of_finds {path pruned : Path} (nonempty : path.text ≠ "") {names : List Name}
    (finds : Finds t s path names (.pruned pruned)) :
    pruned = path.below names ∧ ∃ last ∈ names, last.text ∈ s.excludedDirs := by
  obtain ⟨way, name, kind, rfl, _, tells⟩ := (finds_iff_reached nonempty).mp finds
  obtain ⟨rfl, excluded⟩ := entryVisit_pruned tells
  exact ⟨rfl, name, by simp, excluded⟩

/-- A walk from a root that is no directory prunes nothing. -/
theorem not_pruned_of_other (other : t.stat s.root ≠ .ok .directory) (path : Path) :
    Visit.pruned path ∉ visits t s := by
  unfold FileTree.stat at other
  unfold visits
  cases s.root.isDash with
  | true => simp
  | false =>
    cases found : t.nodeAt s.root with
    | error fault => simp
    | ok node =>
      cases node with
      | directory entries rights => exact absurd (by rw [found]; rfl) other
      | file content readable => simpa using (visitFile_ne_pruned s.root path _).symm
      | _ => simp

/-- A pruned directory has an excluded name. -/
theorem excluded_of_pruned {names : List Name}
    (pruned : Visit.pruned (s.root.below names) ∈ visits t s) :
    ∃ last ∈ names, last.text ∈ s.excludedDirs := by
  by_cases directory : t.stat s.root = .ok .directory
  · cases dash : s.root.isDash with
    | true => simp [visits, dash] at pruned
    | false =>
      have nonempty := root_nonempty directory
      obtain ⟨found, ⟨_, _, _, other⟩ | finds⟩ :=
        ((visits_lists t s directory dash).mem_iff _).mp pruned
      · cases other
      · obtain ⟨same, last, mem, excluded⟩ := excluded_of_finds nonempty finds
        rw [Path.below_injective nonempty same]
        exact ⟨last, mem, excluded⟩
  · exact absurd pruned (not_pruned_of_other directory _)

/-- What a walk may enter is not below a pruned directory. -/
theorem open_of_resolve {start : Position} (resolved : t.resolve s.root = .ok start) :
    Open s (BelowPruned t s) start := by
  rintro way name entered ⟨start', names, rest, resolved', pruned, some_, split⟩
  obtain rfl := Except.ok.inj (resolved.symm.trans resolved')
  obtain ⟨last, mem, excluded⟩ := excluded_of_pruned pruned
  rw [List.append_assoc, List.append_assoc] at split
  have behind := List.append_cancel_left split
  -- The names of the pruned directory are among those that are entered.
  obtain ⟨rest, last', rfl⟩ := (List.eq_nil_or_concat' rest).resolve_left some_
  rw [← List.append_assoc] at behind
  have entered_eq : way = names ++ rest := (List.append_inj' behind rfl).1
  apply entered last _ excluded
  rw [entered_eq]
  exact List.mem_append_left _ mem

/-! ### Where the walks are -/

namespace Alike

theorem resolveFrom_root (alike : Alike t t' s hidden) :
    t'.resolveFrom linkLimit (base s.root t'.workingDir) s.root.steps =
      t.resolveFrom linkLimit (base s.root t.workingDir) s.root.steps := by
  have clear' := alike.shielded'.root
  rw [alike.workingDir] at clear' ⊢
  exact FileTree.resolveFrom_congr alike.outline alike.shielded.root clear'

theorem resolve_root (alike : Alike t t' s hidden) : t'.resolve s.root = t.resolve s.root := by
  unfold FileTree.resolve
  rw [alike.resolveFrom_root]

theorem symm (alike : Alike t t' s hidden) : Alike t' t s hidden where
  workingDir := alike.workingDir.symm
  outline position seen := (alike.outline position seen).symm
  shielded := alike.shielded'
  shielded' := alike.shielded
  opened start resolved := alike.opened start (alike.resolve_root ▸ resolved)

theorem root (alike : Alike t t' s hidden) {start : Position}
    (resolved : t.resolve s.root = .ok start) :
    ∃ links, SamePlace t t' s hidden s.root start links := by
  obtain ⟨_, links, way⟩ := FileTree.resolve_eq_ok resolved
  refine ⟨links, ⟨resolved, FileTree.resolveFrom_trunk way⟩, ?_, ?_, alike.opened start resolved⟩
  · exact ⟨alike.resolve_root.trans resolved,
      FileTree.resolveFrom_trunk (alike.resolveFrom_root.trans way)⟩
  · exact alike.shielded.root _ (FileTree.resolveFrom_ends way).1

theorem seen_root (alike : Alike t t' s hidden) : SeenAlike t t' s.root := by
  refine ⟨alike.resolve_root, fun start resolved => ?_⟩
  obtain ⟨_, same⟩ := alike.root resolved
  exact alike.outline start same.here

end Alike

namespace SamePlace

variable {path : Path} {position : Position} {links : Nat}

theorem child (same : SamePlace t t' s hidden path position links) (name : Name) :
    ¬ hidden (position ++ [name]) := by
  have clear := same.opened [] name (fun _ mem => absurd mem List.not_mem_nil)
  rwa [List.append_nil] at clear

/-- From a place that is not hidden the way to a name comes through no hidden place: either the name
is right there, or it is that of a link. -/
theorem avoids (shielded : Shielded t s.root hidden)
    (same : SamePlace t t' s hidden path position links) (name : Name) :
    Avoids hidden (t.routeFrom links position [.down name]) := by
  by_cases link : ∃ target, t.look (position ++ [name]) = some (.link target)
  · obtain ⟨target, link⟩ := link
    have le := (FileTree.resolveFrom_ends same.leads.trunk).2
    have clear := shielded.links position name target (same.child name) link
    exact clear.mono (FileTree.routeFrom_subset le position _)
  · have real := not_exists.mp link
    have route : t.routeFrom links position [.down name] ⊆ [position, position ++ [name]] :=
      FileTree.routeFrom_down real links
    intro place mem
    rcases List.mem_pair.mp (route mem) with rfl | rfl
    · exact same.here
    · exact same.child name

theorem symm (same : SamePlace t t' s hidden path position links) :
    SamePlace t' t s hidden path position links :=
  ⟨same.leads', same.leads, same.here, same.opened⟩

theorem resolveFrom_down (alike : Alike t t' s hidden)
    (same : SamePlace t t' s hidden path position links) (name : Name) :
    t'.resolveFrom links position [.down name] = t.resolveFrom links position [.down name] :=
  FileTree.resolveFrom_congr alike.outline (same.avoids alike.shielded name)
    (same.symm.avoids alike.shielded' name)

/-- Behind the path of a directory a name is seen alike in both trees. -/
theorem seen (alike : Alike t t' s hidden) (same : SamePlace t t' s hidden path position links)
    (name : Name) : SeenAlike t t' (path.join name.text) := by
  have resolves := same.leads.resolve_join name
  constructor
  · rw [resolves, same.leads'.resolve_join, same.resolveFrom_down alike]
  · intro place resolved
    rw [resolves] at resolved
    cases refused : FileTree.refusal (path.join name.text) with
    | some fault => rw [refused] at resolved; cases resolved
    | none =>
      rw [refused] at resolved
      cases way : t.resolveFrom links position [.down name] with
      | error fault => rw [way] at resolved; cases resolved
      | ok reached =>
        rw [way] at resolved
        obtain rfl := Except.ok.inj resolved
        exact alike.outline _ (same.avoids alike.shielded name _ (FileTree.resolveFrom_ends way).1)

theorem hasEntry (alike : Alike t t' s hidden)
    (same : SamePlace t t' s hidden path position links) {name : Name} {kind : Kind}
    (has : t.HasEntry path name kind) : t'.HasEntry path name kind := by
  rw [same.leads.hasEntry_iff] at has
  rw [same.leads'.hasEntry_iff, alike.outline position same.here, FileTree.look_eq_outline,
    alike.outline _ (same.child name), ← FileTree.look_eq_outline]
  exact has

theorem join (alike : Alike t t' s hidden) (same : SamePlace t t' s hidden path position links)
    {name : Name} (has : t.HasEntry path name .directory) (entered : name.text ∉ s.excludedDirs)
    {entries : List (Name × Kind)} (listed : t.list (path.join name.text) = .ok entries) :
    SamePlace t t' s hidden (path.join name.text) (position ++ [name]) links := by
  obtain ⟨_, listed'⟩ := (same.seen alike name).listed listed
  refine ⟨same.leads.join has listed, same.leads'.join (same.hasEntry alike has) listed',
    same.child name, ?_⟩
  intro way last clear
  rw [List.append_assoc position, List.singleton_append]
  exact same.opened (name :: way) last (List.forall_mem_cons.mpr ⟨entered, clear⟩)

end SamePlace

/-! ### What the walks find -/

theorem entryVisit_congr {path : Path} (seen : SeenAlike t t' path) (name : Name) (kind : Kind) :
    entryVisit? t' s path name kind = entryVisit? t s path name kind := by
  cases kind with
  | directory =>
    rw [entryVisit?, entryVisit?]
    cases listed : t.list path with
    | error fault => rw [seen.unlisted listed]
    | ok entries =>
      obtain ⟨entries', listed'⟩ := seen.listed listed
      rw [listed']
  | link target => rw [entryVisit?, entryVisit?, seen.stat]
  | _ => rfl

/-- The induction is on what is found: each directory on the way is at the same place in both
trees. -/
theorem Alike.finds (alike : Alike t t' s hidden) {path : Path} {names : List Name} {visit : Visit}
    (finds : Finds t s path names visit) {position : Position} {links : Nat}
    (same : SamePlace t t' s hidden path position links) :
    Finds t' s path names visit ∧
      ∀ file, visit = .collected file → SeenAlike t t' file := by
  induction finds generalizing position with
  | @entry path name kind visit has tells =>
    have seen := same.seen alike name
    refine ⟨.entry (same.hasEntry alike has) ((entryVisit_congr seen name kind).trans tells), ?_⟩
    rintro file rfl
    obtain ⟨rfl, _⟩ := (entryVisit_collected _ _ _ _).mp tells
    exact seen
  | inside has entered finds ih =>
    obtain ⟨_, _, _, _, ⟨entries, listed, _⟩, _⟩ := (finds_iff _ _ _).mp finds
    obtain ⟨finds', files⟩ := ih (same.join alike has ((excludesDir_eq_false _).mp entered) listed)
    exact ⟨.inside (same.hasEntry alike has) entered finds', files⟩

/-- What is found at the root or below it in one tree is found in the other. -/
theorem Alike.found (alike : Alike t t' s hidden) {start : Position}
    (resolved : t.resolve s.root = .ok start) {names : List Name} {visit : Visit}
    (found : (names = [] ∧ ∃ fault, t.list s.root = .error fault ∧ visit = .failed s.root fault) ∨
      Finds t s s.root names visit) :
    (names = [] ∧ ∃ fault, t'.list s.root = .error fault ∧ visit = .failed s.root fault) ∨
      Finds t' s s.root names visit := by
  rcases found with ⟨rfl, fault, failed, rfl⟩ | finds
  · exact Or.inl ⟨rfl, fault, alike.seen_root.unlisted failed, rfl⟩
  · obtain ⟨links, same⟩ := alike.root resolved
    exact Or.inr (alike.finds finds same).1

/-- A walk makes the same visits in both trees, and each file that it collects is seen alike. -/
theorem Alike.visits (alike : Alike t t' s hidden) (directory : t.stat s.root = .ok .directory) :
    visits t' s = visits t s ∧ ∀ file ∈ files t s, SeenAlike t t' file := by
  cases dash : s.root.isDash with
  | true => simp [Walk.visits, files, dash]
  | false =>
    have directory' : t'.stat s.root = .ok .directory := alike.seen_root.stat.trans directory
    have lists := visits_lists t s directory dash
    have lists' := visits_lists t' s directory' dash
    obtain ⟨start, resolved⟩ := FileTree.resolve_of_stat directory
    have resolved' : t'.resolve s.root = .ok start := alike.resolve_root.trans resolved
    constructor
    · refine Lists.unique lists' (lists.congr fun names visit => ?_)
      exact ⟨alike.found resolved, alike.symm.found resolved'⟩
    · intro file mem
      obtain ⟨visit, visited, isFile⟩ := List.mem_filterMap.mp mem
      obtain ⟨names, ⟨_, _, _, rfl⟩ | finds⟩ := (lists.mem_iff visit).mp visited
      · cases isFile
      · obtain ⟨links, same⟩ := alike.root resolved
        apply (alike.finds finds same).2
        cases visit with
        | collected path => exact congrArg Visit.collected (Option.some.inj isFile)
        | _ => cases isFile

end LineCensus.Walk
