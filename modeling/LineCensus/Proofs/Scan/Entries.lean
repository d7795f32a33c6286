import LineCensus.Proofs.Scan.Totals
import LineCensus.Proofs.Walk.Entries

/-!
# Scanning a directory entry by entry

The scan of a directory is put together from scans of the directories in it and from the files in it,
in the order of their names (`ofTree_entries`).
-/

namespace LineCensus.Scan

open FileTree (Name Node Kind)
open Walk (fromEntry)

variable {t : FileTree} {s : Settings}

theorem ofTree_of_fault {fault : FileTree.Fault} (failed : t.nodeAt s.root = .error fault) :
    ofTree t s = .error (.invalidRoot s.root) := by
  unfold ofTree FileTree.stat
  rw [failed]
  rfl

/-- A directory in a directory is refused as a root only where nothing is collected from it. -/
theorem scan_of_entry {path : Path} {name : Name} (nonempty : path.text ≠ "")
    (has : t.HasEntry path name .directory) {below : Settings}
    (root : below.root = path.join name.text) :
    totalsOf (ofTree t below) = sumTotals t (Walk.files t below) ∧
      failuresOf (ofTree t below) = failed t (Walk.files t below) := by
  have dash := Path.isDash_join nonempty name
  rcases FileTree.nodeAt_of_hasEntry has with ⟨fault, refused⟩ | ⟨inner, rights, here⟩
  · rw [← root] at refused dash
    have unlisted : t.list below.root = .error fault := by
      unfold FileTree.list
      rw [refused]
    have visits := Walk.visits_of_unlisted dash unlisted
      (fun node found => by rw [refused] at found; cases found)
    have none : Walk.files t below = [] := by
      unfold Walk.files
      rw [visits]
      rfl
    rw [ofTree_of_fault refused, none]
    exact ⟨rfl, rfl⟩
  · rw [← root] at here
    have directory : t.stat below.root = .ok .directory := by
      unfold FileTree.stat
      rw [here]
      rfl
    obtain ⟨scan, scanned, totals, failures⟩ := ofTree_of_directory directory
    rw [scanned]
    exact ⟨totals, failures⟩

/-- What comes from a directory in the root matters only where there is one. -/
theorem fromEntry_congr {α : Type} {nothing : α} {below other : Settings → α} {file : Path → α}
    {entry : Name × Kind}
    (same : entry.2 = .directory →
      below { s with root := s.root.join entry.1.text } =
        other { s with root := s.root.join entry.1.text }) :
    fromEntry t s nothing below file entry = fromEntry t s nothing other file entry := by
  obtain ⟨name, kind⟩ := entry
  unfold fromEntry
  cases kind with
  | directory => simp only [same rfl]
  | _ => rfl

/-- The files below a directory are those that its entries bring in byte order of their names. The
totals of a scan are the sum of what they bring, and the failures come in the same order. -/
theorem ofTree_entries {entries : List (Name × Kind)} (listed : t.list s.root = .ok entries)
    (dash : s.root.isDash = false) :
    entries.Pairwise (fun a b => Text.Before a.1.text b.1.text) ∧
      Walk.files t s = entries.flatMap (fromEntry t s [] (Walk.files t) fun path => [path]) ∧
      ∃ scan, ofTree t s = .ok scan ∧
        scan.totals = (entries.map (fromEntry t s 0 (fun below => totalsOf (ofTree t below))
          (fileTotals t))).sum ∧
        scan.failures = entries.flatMap (fromEntry t s [] (fun below => failuresOf (ofTree t below))
          fun path => failed t [path]) := by
  have files := Walk.files_eq_flatMap listed dash
  obtain ⟨nodes, rights, here, _, _⟩ := FileTree.list_eq_ok listed
  have nonempty := FileTree.text_ne_empty (FileTree.nodeAt_eq_ok here).1
  have directory : t.stat s.root = .ok .directory := by
    unfold FileTree.stat
    rw [here]
    rfl
  obtain ⟨scan, scanned, totals, failures⟩ := ofTree_of_directory directory
  refine ⟨FileTree.list_ordered listed, files, scan, scanned, ?_, ?_⟩
  · rw [totals, files, sumTotals_flatMap]
    congr 1
    apply List.map_congr_left
    intro entry mem
    have single : (fun path => sumTotals t [path]) = fileTotals t := by
      funext path
      exact add_zero _
    rw [Walk.map_fromEntry (sumTotals t), single]
    apply fromEntry_congr
    intro isDirectory
    have has : t.HasEntry s.root entry.1 .directory := ⟨entries, listed, isDirectory ▸ mem⟩
    exact (scan_of_entry nonempty has rfl).1.symm
  · rw [failures, files, failed_flatMap]
    apply List.flatMap_congr
    intro entry mem
    rw [Walk.map_fromEntry (failed t)]
    apply fromEntry_congr
    intro isDirectory
    have has : t.HasEntry s.root entry.1 .directory := ⟨entries, listed, isDirectory ▸ mem⟩
    exact (scan_of_entry nonempty has rfl).2.symm

/-- An excluded directory, a link that leads nowhere, and a directory with a file in it. -/
def nested : FileTree where
  top := .directory
    [(⟨"dist", Eq.refl true⟩, .directory [(⟨"a.py", Eq.refl true⟩, .file [] true)] {}),
      (⟨"gone.js", Eq.refl true⟩, .link ⟨"nowhere"⟩),
      (⟨"lib", Eq.refl true⟩, .directory [(⟨"b.py", Eq.refl true⟩, .file [0x23, 0x0A] true)] {})] {}
  workingDir := []
  ordered := by decide

def nestedEntries : List (Name × Kind) :=
  [(⟨"dist", Eq.refl true⟩, .directory), (⟨"gone.js", Eq.refl true⟩, .link ⟨"nowhere"⟩),
    (⟨"lib", Eq.refl true⟩, .directory)]

theorem nested_entries :
    nested.list ⟨"./"⟩ = .ok nestedEntries ∧ (⟨"./"⟩ : Path).isDash = false ∧
      Walk.files nested (.ofRoot ⟨"./"⟩) = [⟨"./gone.js"⟩, ⟨"./lib/b.py"⟩] ∧
      ∃ scan, ofTree nested (.ofRoot ⟨"./"⟩) = .ok scan ∧
        scan.totals = (nestedEntries.map (fromEntry nested (.ofRoot ⟨"./"⟩) 0
          (fun below => totalsOf (ofTree nested below)) (fileTotals nested))).sum ∧
        scan.failures = nestedEntries.flatMap (fromEntry nested (.ofRoot ⟨"./"⟩) []
          (fun below => failuresOf (ofTree nested below)) fun path => failed nested [path]) := by
  have listed : nested.list (Settings.ofRoot ⟨"./"⟩).root = .ok nestedEntries := rfl
  exact ⟨listed, rfl, rfl, (ofTree_entries listed rfl).2.2⟩

end LineCensus.Scan
