import LineCensus.Proofs.Walk.Extensions
import LineCensus.Settings.Draft

/-!
# Extensions that are accepted and extensions that are used

A draft is finished if every extension in it starts with a dot. An extension of a file name has no other dot, so
the extensions of names are all accepted, and `finishWith_usable` shows what becomes of the others that are: they
collect no file. `finishWith_doubleDot` is such an extension.
-/

namespace LineCensus.Settings.Draft

open Walk (including)

/-- Finishes a draft with this root and these extensions, whatever else was given. -/
def finishWith (d : Draft) (root : Path) (exts : List String) : Except Fault Settings :=
  ((d.setRoot root).setIncludedExts exts).finish

/-- A dot stands behind the first character. -/
def laterDot (ext : String) : Bool :=
  ext.toList.tail.contains '.'

theorem laterDot_eq_false (ext : String) : laterDot ext = false ↔ '.' ∉ ext.toList.tail := by
  simp [laterDot]

theorem isDotted_iff (ext : String) :
    Extension.IsDotted ext ↔ ext.toList.head? = some '.' ∧ laterDot ext = false := by
  rw [laterDot_eq_false]
  unfold Extension.IsDotted
  constructor
  · rintro ⟨rest, chars, none⟩
    rw [chars]
    exact ⟨rfl, none⟩
  · rintro ⟨first, none⟩
    obtain ⟨rest, chars⟩ := List.head?_eq_some_iff.mp first
    rw [chars] at none
    exact ⟨rest, chars, none⟩

/-! ### What is accepted -/

theorem badExtension_eq_none_iff (d : Draft) (exts : List String) :
    (d.setIncludedExts exts).badExtension = none ↔ ∀ ext ∈ exts, ext.toList.head? = some '.' := by
  have searched : (d.setIncludedExts exts).badExtension =
      (TextSet.ofList exts).members.find? fun ext => ext.toList.head? != some '.' := rfl
  rw [searched, List.find?_eq_none]
  constructor
  · intro all ext mem
    have starts := all ext (TextSet.mem_ofList.mpr mem)
    simpa using starts
  · intro all ext mem
    have starts := all ext (TextSet.mem_ofList.mp mem)
    simp [starts]

theorem finishWith_ok_iff (d : Draft) (root : Path) (exts : List String) :
    (∃ s, finishWith d root exts = .ok s) ↔ ∀ ext ∈ exts, ext.toList.head? = some '.' := by
  rw [← badExtension_eq_none_iff (d.setRoot root) exts]
  unfold finishWith finish
  cases bad : ((d.setRoot root).setIncludedExts exts).badExtension with
  | some ext => exact iff_of_false nofun nofun
  | none => exact iff_of_true ⟨_, rfl⟩ rfl

theorem finishWith_eq_ok {d : Draft} {root : Path} {exts : List String} {s : Settings}
    (finished : finishWith d root exts = .ok s) : s.root = root ∧ s.includedExts = .ofList exts := by
  unfold finishWith finish at finished
  split at finished
  · cases finished
  · obtain rfl := Except.ok.inj finished
    exact ⟨rfl, rfl⟩

/-! ### What is used -/

/-- No file is collected for an extension with a later dot. -/
theorem files_usable (t : FileTree) {s : Settings} {exts : List String}
    (included : s.includedExts = .ofList exts) :
    Walk.files t s = Walk.files t (including s (.ofList (exts.filter fun ext => !laterDot ext))) := by
  have useless : ∀ ext ∈ TextSet.ofList (exts.filter laterDot), ∀ name, Extension.ofName name ≠ some ext := by
    intro ext mem name found
    have later := (List.mem_filter.mp (TextSet.mem_ofList.mp mem)).2
    have none := ((isDotted_iff ext).mp (Extension.ofName_dotted found)).2
    rw [later] at none
    cases none
  have parts : s.includedExts = (TextSet.ofList (exts.filter fun ext => !laterDot ext)).union
      (.ofList (exts.filter laterDot)) := by
    rw [included]
    apply TextSet.ext
    intro ext
    rw [TextSet.mem_union, TextSet.mem_ofList, TextSet.mem_ofList, TextSet.mem_ofList, List.mem_filter,
      List.mem_filter]
    cases laterDot ext <;> simp
  have whole : s = including s s.includedExts := rfl
  conv => lhs; rw [whole, parts]
  exact Walk.files_including_union t s _ useless

/-- A draft with a root and some extensions is finished exactly if each of them starts with a dot, so if each is the
extension of some name. What is accepted is the extension of some name exactly if it has no other dot, and with
another dot it collects no file in any tree. -/
theorem finishWith_usable (d : Draft) (root : Path) (exts : List String) :
    ((∃ s, finishWith d root exts = .ok s) ↔ ∀ ext ∈ exts, ext.toList.head? = some '.') ∧
      ((∀ ext ∈ exts, ∃ name, Extension.ofName name = some ext) → ∃ s, finishWith d root exts = .ok s) ∧
      ∀ s, finishWith d root exts = .ok s →
        s.root = root ∧ (∀ ext, ext ∈ s.includedExts ↔ ext ∈ exts) ∧
          (∀ ext ∈ s.includedExts, (∃ name, Extension.ofName name = some ext) ↔ '.' ∉ ext.toList.tail) ∧
          ∀ t, Walk.files t s = Walk.files t (including s (.ofList (exts.filter fun ext => !laterDot ext))) := by
  have accepted := finishWith_ok_iff d root exts
  refine ⟨accepted, ?_, ?_⟩
  · intro usable
    rw [accepted]
    intro ext mem
    have dotted := (Extension.exists_ofName_iff ext).mp (usable ext mem)
    exact ((isDotted_iff ext).mp dotted).1
  · intro s finished
    obtain ⟨atRoot, included⟩ := finishWith_eq_ok finished
    have members : ∀ ext, ext ∈ s.includedExts ↔ ext ∈ exts := by
      intro ext
      rw [included]
      exact TextSet.mem_ofList
    refine ⟨atRoot, members, ?_, fun t => files_usable t included⟩
    intro ext mem
    have starts := accepted.mp ⟨s, finished⟩ ext ((members ext).mp mem)
    rw [Extension.exists_ofName_iff, isDotted_iff, ← laterDot_eq_false]
    exact and_iff_right starts

/-- A name with two dots behind other characters, and one with a single dot. -/
def bundled : FileTree where
  top := .directory
    [(⟨"a.py", Eq.refl true⟩, .file [] true), (⟨"b.tar.gz", Eq.refl true⟩, .file [] true)] {}
  workingDir := []
  ordered := by decide

theorem bundled_usable :
    ∃ s, finishWith {} ⟨"."⟩ [".tar.gz", ".py"] = .ok s ∧ ".tar.gz" ∈ s.includedExts ∧
      (¬ ∃ name, Extension.ofName name = some ".tar.gz") ∧ Walk.files bundled s = [⟨"./a.py"⟩] := by
  obtain ⟨accepted, _, made⟩ := finishWith_usable {} ⟨"."⟩ [".tar.gz", ".py"]
  obtain ⟨s, finished⟩ := accepted.mpr (by decide)
  obtain ⟨_, members, usable, files⟩ := made s finished
  have mem : ".tar.gz" ∈ s.includedExts := (members ".tar.gz").mpr List.mem_cons_self
  refine ⟨s, finished, mem, ?_, ?_⟩
  · rw [usable ".tar.gz" mem]
    decide
  · rw [files]
    obtain rfl := Except.ok.inj finished
    rfl

/-- What is accepted need not be the extension of any name. -/
theorem finishWith_doubleDot :
    (∃ s, finishWith {} ⟨"src"⟩ [".tar.gz"] = .ok s) ∧
      ¬ ∀ ext ∈ [".tar.gz"], ∃ name, Extension.ofName name = some ext := by
  refine ⟨⟨_, rfl⟩, ?_⟩
  intro usable
  obtain ⟨rest, chars, none⟩ := (Extension.exists_ofName_iff _).mp (usable ".tar.gz" List.mem_cons_self)
  obtain rfl := (List.cons.inj chars).2
  exact none (by decide)

end LineCensus.Settings.Draft
