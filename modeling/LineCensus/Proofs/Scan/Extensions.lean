import LineCensus.Proofs.Scan.Records
import LineCensus.Proofs.Scan.Totals
import LineCensus.Proofs.Walk.Extensions

/-!
# Scans for two sets of extensions

A scan for two sets of extensions that have no text in common brings what a scan for each of them brings,
and texts that are no extension bring nothing (`ofTree_disjoint`).
-/

namespace LineCensus.Scan

open FileTree (Name)
open Walk (including hasExt Interleaved)

variable {t : FileTree} {s : Settings}

theorem sumTotals_interleaved (t : FileTree) {xs ys zs : List Path} (interleaved : Interleaved xs ys zs) :
    sumTotals t zs = sumTotals t xs + sumTotals t ys := by
  unfold sumTotals
  induction interleaved with
  | nil => rfl
  | left _ ih => rw [List.map_cons, List.map_cons, List.sum_cons, List.sum_cons, ih, add_assoc]
  | right _ ih =>
    rw [List.map_cons, List.map_cons, List.sum_cons, List.sum_cons, ih]
    exact add_left_comm _ _ _

theorem ofTree_including_union (t : FileTree) (s : Settings) (xs : TextSet) {more : TextSet}
    (useless : ∀ ext ∈ more, ∀ name, Extension.ofName name ≠ some ext) :
    ofTree t (including s (xs.union more)) = ofTree t (including s xs) := by
  unfold ofTree
  rw [Walk.visits_including_union t s xs useless, Walk.files_including_union t s xs useless]
  rfl

theorem ofTree_union {xs ys : TextSet} (disjoint : ∀ ext ∈ xs, ext ∉ ys)
    (directory : t.stat s.root = .ok .directory) :
    ∃ scan left right, ofTree t (including s (xs.union ys)) = .ok scan ∧
      ofTree t (including s xs) = .ok left ∧ ofTree t (including s ys) = .ok right ∧
      scan.totals = left.totals + right.totals ∧
      Interleaved left.failures right.failures scan.failures := by
  have files := Walk.files_interleaved t s disjoint
  obtain ⟨scan, scanned, totals, failures⟩ :=
    ofTree_of_directory (s := including s (xs.union ys)) directory
  obtain ⟨left, scannedLeft, totalsLeft, failuresLeft⟩ :=
    ofTree_of_directory (s := including s xs) directory
  obtain ⟨right, scannedRight, totalsRight, failuresRight⟩ :=
    ofTree_of_directory (s := including s ys) directory
  refine ⟨scan, left, right, scanned, scannedLeft, scannedRight, ?_, ?_⟩
  · rw [totals, totalsLeft, totalsRight, sumTotals_interleaved t files]
  · rw [failures, failuresLeft, failuresRight]
    exact files.filterMap _

/-- The files for one of two sets of extensions are those files for both whose name has an extension in
it. If the sets have no text in common, a scan for both brings the totals of the scans for each, and their
failures, both in their order. A text brings nothing unless it is a dot with no dot behind it: no other is
the extension of a name. -/
theorem ofTree_disjoint (t : FileTree) (s : Settings) {xs ys : TextSet}
    (disjoint : ∀ ext ∈ xs, ext ∉ ys) :
    Walk.files t (including s xs) = (Walk.files t (including s (xs.union ys))).filter (hasExt xs) ∧
      Walk.files t (including s ys) = (Walk.files t (including s (xs.union ys))).filter (hasExt ys) ∧
      ((t.stat s.root = .ok .directory ∧
          ∃ scan left right, ofTree t (including s (xs.union ys)) = .ok scan ∧
            ofTree t (including s xs) = .ok left ∧ ofTree t (including s ys) = .ok right ∧
            scan.totals = left.totals + right.totals ∧
            Interleaved left.failures right.failures scan.failures) ∨
        t.stat s.root ≠ .ok .directory ∧
          ∀ exts, ofTree t (including s exts) = .error (.invalidRoot s.root)) ∧
      (∀ ext, (∃ name, Extension.ofName name = some ext) ↔ Extension.IsDotted ext) ∧
      ∀ more : TextSet, (∀ ext ∈ more, ¬ Extension.IsDotted ext) →
        Walk.files t (including s (xs.union more)) = Walk.files t (including s xs) ∧
          ofTree t (including s (xs.union more)) = ofTree t (including s xs) := by
  obtain ⟨left, right⟩ := Walk.files_union t s xs ys
  refine ⟨left, right, ?_, Extension.exists_ofName_iff, fun more undotted => ?_⟩
  · by_cases directory : t.stat s.root = .ok .directory
    · exact Or.inl ⟨directory, ofTree_union disjoint directory⟩
    · exact Or.inr ⟨directory, fun exts => ofTree_of_other (s := including s exts) directory⟩
  · have useless : ∀ ext ∈ more, ∀ name, Extension.ofName name ≠ some ext :=
      fun ext mem name found => undotted ext mem (Extension.ofName_dotted found)
    exact ⟨Walk.files_including_union t s xs useless, ofTree_including_union t s xs useless⟩

def python : TextSet :=
  .ofList [".py"]

def script : TextSet :=
  .ofList [".js"]

/-- One text has no dot in front, the other has two. -/
def undotted : TextSet :=
  .ofList ["py", ".tar.py"]

theorem mixed_disjoint :
    (∀ ext ∈ python, ext ∉ script) ∧ (∀ ext ∈ undotted, ¬ Extension.IsDotted ext) ∧
      Walk.files mixed (including (.ofRoot ⟨"."⟩) script) = [⟨"./bad.js"⟩] ∧
      totalsOf (ofTree mixed (including (.ofRoot ⟨"."⟩) (python.union script))) = ⟨2, 1, 0, 0⟩ ∧
      (∃ scan left right, ofTree mixed (including (.ofRoot ⟨"."⟩) (python.union script)) = .ok scan ∧
        ofTree mixed (including (.ofRoot ⟨"."⟩) python) = .ok left ∧
        ofTree mixed (including (.ofRoot ⟨"."⟩) script) = .ok right ∧
        scan.totals = left.totals + right.totals ∧
        Interleaved left.failures right.failures scan.failures) ∧
      ofTree mixed (including (.ofRoot ⟨"."⟩) (python.union undotted)) =
        ofTree mixed (including (.ofRoot ⟨"."⟩) python) := by
  have disjoint : ∀ ext ∈ python, ext ∉ script := by
    intro ext mem both
    rw [python, TextSet.mem_ofList, List.mem_singleton] at mem
    rw [script, TextSet.mem_ofList, List.mem_singleton, mem] at both
    exact absurd both (by decide)
  have useless : ∀ ext ∈ undotted, ¬ Extension.IsDotted ext := by
    intro ext mem
    rw [undotted, TextSet.mem_ofList, List.mem_cons, List.mem_singleton] at mem
    rintro ⟨rest, chars, none⟩
    rcases mem with rfl | rfl
    · exact absurd (List.cons.inj chars).1 (by decide)
    · obtain rfl := (List.cons.inj chars).2
      exact none (by decide)
  obtain ⟨_, _, scans, _, unchanged⟩ := ofTree_disjoint mixed (.ofRoot ⟨"."⟩) disjoint
  refine ⟨disjoint, useless, by decide +kernel, by decide +kernel, ?_, (unchanged _ useless).2⟩
  exact (scans.resolve_right fun other => other.1 rfl).2

end LineCensus.Scan
