import LineCensus.Proofs.FileTree.Links
import LineCensus.Proofs.Walk.Files

/-!
# The spelling of a root

Two paths to one directory that leave room for the names below are entered alike (`Entered.respelled`).
A walk from the one collects the names that a walk from the other does, and behind each of them there is
the same (`files_respelled`).
-/

namespace LineCensus.Walk

open FileTree (Name Kind Position Roomy)

variable {t : FileTree} {s : Settings} {first second : Path} {position : Position}

/-- The induction is on the names: each directory on the way leaves the room that the first one does. -/
theorem Entered.respelled {way : List Name} (entered : Entered t s first way)
    (room : Roomy t first position) (room' : Roomy t second position) :
    Entered t s second way ∧ Roomy t (first.below way) (position ++ way) ∧
      Roomy t (second.below way) (position ++ way) := by
  induction way generalizing first second position with
  | nil =>
    rw [List.append_nil]
    exact ⟨entered_nil second, room, room'⟩
  | cons name way ih =>
    obtain ⟨⟨has, ⟨entries, listed⟩, clear⟩, later⟩ :=
      (entered_cons room.nonempty name way).mp entered
    have same : t.resolve (first.join name.text) = t.resolve (second.join name.text) := by
      rw [room.resolve_join (room.there has), room'.resolve_join (room.there has)]
    have has' : t.HasEntry second name .directory :=
      (FileTree.hasEntry_congr (room.resolved.trans room'.resolved.symm) name _).mp has
    have listed' : t.list (second.join name.text) = .ok entries :=
      (FileTree.list_congr same).symm.trans listed
    obtain ⟨entered', inside, inside'⟩ := ih later (room.join has listed) (room'.join has' listed')
    rw [List.append_assoc, List.singleton_append] at inside inside'
    rw [Path.below_cons room.nonempty, Path.below_cons room'.nonempty]
    refine ⟨?_, inside, inside'⟩
    exact (entered_cons room'.nonempty name way).mpr ⟨⟨has', ⟨entries, listed'⟩, clear⟩, entered'⟩

theorem Eligible.respelled {names : List Name} (eligible : Eligible t s first names)
    (room : Roomy t first position) (room' : Roomy t second position) :
    Eligible t s second names ∧ t.resolve (first.below names) = t.resolve (second.below names) := by
  obtain ⟨way, name, kind, rfl, entered, has, fileLike, included⟩ := eligible
  obtain ⟨entered', inside, inside'⟩ := entered.respelled room room'
  have there := inside.there has
  have same : t.resolve (first.below (way ++ [name])) = t.resolve (second.below (way ++ [name])) := by
    rw [Path.below_concat room.nonempty, Path.below_concat room'.nonempty, inside.resolve_join there,
      inside'.resolve_join there]
  have has' : t.HasEntry (second.below way) name kind :=
    (FileTree.hasEntry_congr (inside.resolved.trans inside'.resolved.symm) name kind).mp has
  have fileLike' : FileLike t (second.below (way ++ [name])) kind := by
    unfold FileLike at fileLike ⊢
    rwa [← FileTree.stat_congr same]
  exact ⟨⟨way, name, kind, rfl, entered', has', fileLike', included⟩, same⟩

/-- The same names are collected behind both spellings, and behind each name there is the same. -/
theorem files_respelled (room : Roomy t first position) (room' : Roomy t second position)
    (directory : t.look position = some .directory) (alike : first.isDash = second.isDash) :
    ∃ found : List (List Name),
      files t { s with root := first } = found.map first.below ∧
        files t { s with root := second } = found.map second.below ∧
        ∀ names ∈ found, t.resolve (first.below names) = t.resolve (second.below names) := by
  cases dash : first.isDash with
  | true =>
    refine ⟨[], files_of_dash dash, files_of_dash ?_, nofun⟩
    rw [← dash, alike]
  | false =>
    have dash' : second.isDash = false := alike.symm.trans dash
    have stat := FileTree.stat_of_look room.resolved directory
    have stat' := FileTree.stat_of_look room'.resolved directory
    obtain ⟨found, values, order, mem⟩ := (files_lists t { s with root := first } stat dash).names
    obtain ⟨found', values', order', mem'⟩ :=
      (files_lists t { s with root := second } stat' dash').names
    have equal : found = found' := by
      refine order.eq_of_mem_iff order' fun names => ?_
      rw [mem, mem']
      exact ⟨fun eligible => (eligible.respelled room room').1,
        fun eligible => (eligible.respelled room' room).1⟩
    refine ⟨found, values, equal ▸ values', fun names inFound => ?_⟩
    exact (Eligible.respelled ((mem names).mp inFound) room room').2

end LineCensus.Walk
