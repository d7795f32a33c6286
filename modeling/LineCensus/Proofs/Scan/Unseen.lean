import LineCensus.Proofs.Walk.Unseen
import LineCensus.Scan

/-!
# What a scan does not depend on

The bytes of a file that is not collected and all that is below a pruned directory have no influence on
a scan, unless a path leads there through a link (`ofTree_eq_of_unseen`).
-/

namespace LineCensus.Scan

open FileTree (Name Node Position)
open Walk (Alike BelowPruned Shielded Visit)

variable {t t' : FileTree} {s : Settings}

/-- Two trees with the same directories, names, kinds of entries and targets of links, except below the
directories that the walk prunes. The files to which a collected path leads are the same. -/
structure DifferUnseen (t t' : FileTree) (s : Settings) : Prop where
  workingDir : t'.workingDir = t.workingDir
  outline : ∀ position, ¬ BelowPruned t s position → t'.outline position = t.outline position
  content : ∀ path ∈ Walk.files t s, ∀ position bytes readable, t.resolve path = .ok position →
    t.top.find? position = some (.file bytes readable) →
      t'.top.find? position = some (.file bytes readable)

theorem addFiles_congr {paths : List Path}
    (same : ∀ path ∈ paths, countFile t' path = countFile t path) (scan : Scan) :
    addFiles t' scan paths = addFiles t scan paths := by
  induction paths generalizing scan with
  | nil => rfl
  | cons path rest ih =>
    obtain ⟨first, later⟩ := List.forall_mem_cons.mp same
    rw [addFiles, addFiles, first]
    exact ih later _

/-- What is not collected has no influence on a scan: neither on the totals nor on the failures nor on
what is written to the log. -/
theorem ofTree_eq_of_unseen (differ : DifferUnseen t t' s)
    (shielded : Shielded t s.root (BelowPruned t s))
    (shielded' : Shielded t' s.root (BelowPruned t s)) : ofTree t' s = ofTree t s := by
  have alike : Alike t t' s (BelowPruned t s) :=
    ⟨differ.workingDir, differ.outline, shielded, shielded', fun _ => Walk.open_of_resolve⟩
  have stat : t'.stat s.root = t.stat s.root := alike.seen_root.stat
  by_cases directory : t.stat s.root = .ok .directory
  · obtain ⟨visits, seen⟩ := alike.visits directory
    have files : Walk.files t' s = Walk.files t s := by
      unfold Walk.files
      rw [visits]
    have counts : ∀ path ∈ Walk.files t s, countFile t' path = countFile t path := by
      intro path mem
      unfold countFile
      rw [(seen path mem).read (differ.content path mem)]
    unfold ofTree
    rw [stat, directory]
    dsimp only
    rw [visits, files, addFiles_congr counts]
  · unfold ofTree
    rw [stat]
    split
    · next found => exact absurd found directory
    · rfl

/-! ### A tree with a note and a pruned directory -/

def dist : Name :=
  ⟨"dist", by decide⟩

def shortcut : Name :=
  ⟨"l.js", by decide⟩

/-- A file, a note that is not collected, a pruned directory and a link to the file. -/
def site (note : List UInt8) (inside : List (Name × Node))
    (order : Node.entriesOrdered inside = true) : FileTree where
  top := .directory
    [(⟨"a.py", by decide⟩, .file [0x61] true), (⟨"b.txt", by decide⟩, .file note true),
      (dist, .directory inside {}), (shortcut, .link ⟨"a.py"⟩)] {}
  workingDir := []
  ordered := by
    simp +decide [Node.ordered, Node.entriesOrdered, order]

section

variable {note : List UInt8} {inside : List (Name × Node)} {order : Node.entriesOrdered inside = true}

theorem site_belowPruned (position : Position) :
    BelowPruned (site note inside order) (.ofRoot ⟨"."⟩) position ↔
      ∃ rest, rest ≠ [] ∧ position = dist :: rest := by
  have resolved : (site note inside order).resolve ⟨"."⟩ = .ok [] := rfl
  have visits : Walk.visits (site note inside order) (.ofRoot ⟨"."⟩) =
      [.collected ⟨"./a.py"⟩, .skipped ⟨"./b.txt"⟩, .pruned ⟨"./dist"⟩, .collected ⟨"./l.js"⟩] := rfl
  have path : (⟨"./dist"⟩ : Path) = (⟨"."⟩ : Path).below [dist] := by decide
  constructor
  · rintro ⟨start, names, rest, start_eq, pruned, some_, rfl⟩
    obtain rfl := Except.ok.inj (resolved.symm.trans start_eq)
    rw [visits] at pruned
    have same : (Settings.ofRoot ⟨"."⟩).root.below names = ⟨"./dist"⟩ := by simpa using pruned
    obtain rfl := Path.below_injective (by decide) (same.trans path)
    exact ⟨rest, some_, rfl⟩
  · rintro ⟨rest, some_, rfl⟩
    refine ⟨[], [dist], rest, resolved, ?_, some_, rfl⟩
    rw [visits]
    show Visit.pruned ((⟨"."⟩ : Path).below [dist]) ∈ _
    rw [← path]
    simp

/-- The places that there are, whatever is below the pruned directory. -/
theorem site_places (position : Position) :
    (position = [] ∨ position = [⟨"a.py", by decide⟩] ∨ position = [⟨"b.txt", by decide⟩] ∨
      position = [dist] ∨ position = [shortcut]) ∨
      (∃ rest, rest ≠ [] ∧ position = dist :: rest) ∨
        ∀ note inside order, (site note inside order).top.find? position = none := by
  cases position with
  | nil => simp
  | cons name rest =>
    by_cases first : name = ⟨"a.py", by decide⟩
    · subst first
      cases rest with
      | nil => simp
      | cons _ _ => exact Or.inr (Or.inr fun _ _ _ => rfl)
    by_cases second : name = ⟨"b.txt", by decide⟩
    · subst second
      cases rest with
      | nil => simp
      | cons _ _ => exact Or.inr (Or.inr fun _ _ _ => rfl)
    by_cases third : name = dist
    · subst third
      cases rest with
      | nil => simp
      | cons _ _ => exact Or.inr (Or.inl ⟨_, List.cons_ne_nil _ _, rfl⟩)
    by_cases fourth : name = shortcut
    · subst fourth
      cases rest with
      | nil => simp
      | cons _ _ => exact Or.inr (Or.inr fun _ _ _ => rfl)
    · refine Or.inr (Or.inr fun note inside order => ?_)
      unfold site
      simp [Node.find?, List.lookup_cons, beq_false_of_ne first, beq_false_of_ne second,
        beq_false_of_ne third, beq_false_of_ne fourth]

variable {more : List UInt8} {other : List (Name × Node)} {sorted : Node.entriesOrdered other = true}

theorem site_shielded :
    Shielded (site more other sorted) ⟨"."⟩
      (BelowPruned (site note inside order) (.ofRoot ⟨"."⟩)) := by
  have clear (place : Position) (outside : ∀ rest, place ≠ dist :: rest) :
      ¬ BelowPruned (site note inside order) (.ofRoot ⟨"."⟩) place := by
    rw [site_belowPruned]
    rintro ⟨rest, _, same⟩
    exact outside rest same
  constructor
  · have route : (site more other sorted).routeFrom FileTree.linkLimit [] [.here] = [[], []] := rfl
    intro place mem
    obtain rfl : place = [] := by simpa using (route ▸ mem : place ∈ [[], []])
    exact clear [] nofun
  · intro directory name target seen link
    unfold FileTree.look at link
    rcases site_places (directory ++ [name]) with
      (same | same | same | same | same) | ⟨rest, some_, same⟩ | none
    · simp at same
    · rw [same] at link; cases link
    · rw [same] at link; cases link
    · rw [same] at link; cases link
    · have split : directory ++ [name] = [] ++ [shortcut] := same
      obtain ⟨rfl, last⟩ := List.append_inj' split rfl
      obtain rfl := List.singleton_inj.mp last
      have route : (site more other sorted).routeFrom FileTree.linkLimit [] [.down shortcut] =
          [[], [shortcut], [], [⟨"a.py", by decide⟩]] := rfl
      intro place mem
      rw [route] at mem
      apply clear
      rintro rest rfl
      simp [dist, shortcut] at mem
    · exact absurd ((site_belowPruned _).mpr ⟨rest, some_, same⟩) seen
    · rw [none] at link; cases link

theorem site_differ :
    DifferUnseen (site note inside order) (site more other sorted) (.ofRoot ⟨"."⟩) := by
  constructor
  · rfl
  · intro position seen
    rcases site_places position with
      (rfl | rfl | rfl | rfl | rfl) | below | none
    · rfl
    · rfl
    · rfl
    · rfl
    · rfl
    · exact absurd ((site_belowPruned _).mpr below) seen
    · unfold FileTree.outline
      rw [none, none]
  · have files : Walk.files (site note inside order) (.ofRoot ⟨"."⟩) = [⟨"./a.py"⟩, ⟨"./l.js"⟩] := rfl
    have file : (site note inside order).resolve ⟨"./a.py"⟩ = .ok [⟨"a.py", by decide⟩] := rfl
    have link : (site note inside order).resolve ⟨"./l.js"⟩ = .ok [⟨"a.py", by decide⟩] := rfl
    intro path mem position bytes readable resolved here
    have place : position = [⟨"a.py", by decide⟩] := by
      rw [files] at mem
      rcases List.mem_pair.mp mem with rfl | rfl
      · exact (Except.ok.inj (file.symm.trans resolved)).symm
      · exact (Except.ok.inj (link.symm.trans resolved)).symm
    rw [place] at here ⊢
    exact here

end

def before : FileTree :=
  site [0x61] [(⟨"x.js", by decide⟩, .file [] true)] (by decide)

/-- In the pruned directory there is another file, and a link out of it. -/
def after : FileTree :=
  site [0xFF] [(⟨"up.py", by decide⟩, .link ⟨"../a.py"⟩), (⟨"y.js", by decide⟩, .file [0xFF] true)]
    (by decide)

theorem site_scan :
    DifferUnseen before after (.ofRoot ⟨"."⟩) ∧
      Shielded before ⟨"."⟩ (BelowPruned before (.ofRoot ⟨"."⟩)) ∧
      Shielded after ⟨"."⟩ (BelowPruned before (.ofRoot ⟨"."⟩)) ∧
      before.read ⟨"./b.txt"⟩ ≠ after.read ⟨"./b.txt"⟩ ∧
      ofTree after (.ofRoot ⟨"."⟩) = ofTree before (.ofRoot ⟨"."⟩) := by
  have differ : DifferUnseen before after (.ofRoot ⟨"."⟩) := site_differ
  have shielded : Shielded before ⟨"."⟩ (BelowPruned before (.ofRoot ⟨"."⟩)) := site_shielded
  have shielded' : Shielded after ⟨"."⟩ (BelowPruned before (.ofRoot ⟨"."⟩)) := site_shielded
  refine ⟨differ, shielded, shielded', by decide, ?_⟩
  exact ofTree_eq_of_unseen differ shielded shielded'

end LineCensus.Scan
