import LineCensus.Proofs.Extension
import LineCensus.Proofs.Walk.Entries
import LineCensus.Proofs.Walk.Pruning

/-!
# Included extensions

What a file is collected for is its own extension: to include fewer extensions is to leave out the files
that have another one (`files_including`). A text that is no extension includes nothing
(`visits_including_union`).
-/

namespace LineCensus

namespace Path

open FileTree (Name)

theorem lastPart_join {p : Path} (nonempty : p.text ≠ "") (name : Name) :
    (p.join name.text).lastPart = name.text := by
  obtain ⟨front, _, _, parts⟩ := parts_join nonempty name
  unfold lastPart
  rw [parts, List.getLastD_concat]

theorem lastPart_below {p : Path} (nonempty : p.text ≠ "") (way : List Name) (name : Name) :
    (p.below (way ++ [name])).lastPart = name.text := by
  induction way generalizing p with
  | nil =>
    rw [List.nil_append, below_cons nonempty]
    exact lastPart_join nonempty name
  | cons first way ih =>
    rw [List.cons_append, below_cons nonempty]
    exact ih (join_nonempty p first)

end Path

namespace Walk

open FileTree (Name)

variable {t : FileTree} {s : Settings} {xs ys : TextSet}

/-- The settings with other extensions included. -/
def including (s : Settings) (exts : TextSet) : Settings :=
  { s with includedExts := exts }

/-- The file name at the end of a path has one of the extensions. -/
def hasExt (exts : TextSet) (path : Path) : Bool :=
  (Extension.ofName path.lastPart).any fun ext => decide (ext ∈ exts)

theorem hasExt_iff (exts : TextSet) (path : Path) :
    hasExt exts path = true ↔ ∃ ext, Extension.ofName path.lastPart = some ext ∧ ext ∈ exts := by
  unfold hasExt
  rw [Option.any_eq_true]
  simp only [decide_eq_true_eq]

theorem hasExt_mono (fewer : ∀ ext ∈ xs, ext ∈ ys) {path : Path} (has : hasExt xs path = true) :
    hasExt ys path = true := by
  obtain ⟨ext, found, mem⟩ := (hasExt_iff xs path).mp has
  exact (hasExt_iff ys path).mpr ⟨ext, found, fewer ext mem⟩

/-- A file name has at most one extension. -/
theorem hasExt_disjoint (disjoint : ∀ ext ∈ xs, ext ∉ ys) {path : Path} (has : hasExt xs path = true) :
    hasExt ys path = false := by
  obtain ⟨ext, found, mem⟩ := (hasExt_iff xs path).mp has
  apply eq_false_of_ne_true
  intro both
  obtain ⟨other, found', mem'⟩ := (hasExt_iff ys path).mp both
  rw [found] at found'
  obtain rfl := Option.some.inj found'
  exact disjoint ext mem mem'

theorem hasExt_union (path : Path) : hasExt (xs.union ys) path = (hasExt xs path || hasExt ys path) := by
  rw [Bool.eq_iff_iff, Bool.or_eq_true, hasExt_iff, hasExt_iff, hasExt_iff]
  simp only [TextSet.mem_union, and_or_left, exists_or]

/-! ### Fewer extensions -/

theorem filter_hasExt (fewer : ∀ ext ∈ xs, ext ∈ ys) (paths : List Path) :
    (paths.filter (hasExt ys)).filter (hasExt xs) = paths.filter (hasExt xs) := by
  rw [List.filter_filter]
  refine List.filter_congr fun path _ => ?_
  cases has : hasExt xs path with
  | false => rfl
  | true => rw [hasExt_mono fewer has, Bool.and_self]

theorem eligible_including (fewer : ∀ ext ∈ xs, ext ∈ ys) {path : Path} (nonempty : path.text ≠ "")
    (names : List Name) :
    Eligible t (including s xs) path names ↔
      Eligible t (including s ys) path names ∧ hasExt xs (path.below names) = true := by
  have named (way : List Name) (name : Name) :
      hasExt xs (path.below (way ++ [name])) = true ↔ Included (including s xs) name := by
    rw [hasExt_iff, Path.lastPart_below nonempty]
    exact Iff.rfl
  constructor
  · rintro ⟨way, name, kind, rfl, entered, has, fileLike, included⟩
    refine ⟨⟨way, name, kind, rfl, entered, has, fileLike, ?_⟩, (named way name).mpr included⟩
    obtain ⟨ext, found, mem⟩ := included
    exact ⟨ext, found, fewer ext mem⟩
  · rintro ⟨⟨way, name, kind, rfl, entered, has, fileLike, _⟩, included⟩
    exact ⟨way, name, kind, rfl, entered, has, fileLike, (named way name).mp included⟩

theorem files_of_file (exts : TextSet) (path : Path) :
    [visitFile (including s exts) path path.lastPart].filterMap Visit.file? =
      [path].filter (hasExt exts) := by
  have asked : (including s exts).includesFile path.lastPart = hasExt exts path := rfl
  unfold visitFile
  rw [asked]
  cases has : hasExt exts path <;> simp [has, Visit.file?]

theorem files_of_no_directory_including (other : t.stat s.root ≠ .ok .directory)
    (fewer : ∀ ext ∈ xs, ext ∈ ys) :
    files t (including s xs) = (files t (including s ys)).filter (hasExt xs) := by
  unfold FileTree.stat at other
  unfold files visits including
  cases s.root.isDash with
  | true => rfl
  | false =>
    cases found : t.nodeAt s.root with
    | error fault => rfl
    | ok node =>
      cases node with
      | directory entries rights => exact absurd (by rw [found]; rfl) other
      | file content readable =>
        have collected := files_of_file (s := s) xs s.root
        rw [← filter_hasExt fewer, ← files_of_file (s := s) ys] at collected
        exact collected
      | _ => rfl

/-- To include fewer extensions is to leave out the files that have none of them. -/
theorem files_including (t : FileTree) (s : Settings) (fewer : ∀ ext ∈ xs, ext ∈ ys) :
    files t (including s xs) = (files t (including s ys)).filter (hasExt xs) := by
  by_cases directory : t.stat s.root = .ok .directory
  · cases dash : s.root.isDash with
    | true => simp [files, visits, including, dash]
    | false =>
      have nonempty := root_nonempty directory
      have all := files_lists t (including s ys) directory dash
      have some_ := files_lists t (including s xs) directory dash
      refine Lists.unique some_ ((all.filter (hasExt xs)).congr fun names file => ?_)
      show _ ↔ file = s.root.below names ∧ Eligible t (including s xs) s.root names
      rw [eligible_including fewer nonempty]
      constructor
      · rintro ⟨⟨rfl, eligible⟩, included⟩
        exact ⟨rfl, eligible, included⟩
      · rintro ⟨rfl, eligible, included⟩
        exact ⟨⟨rfl, eligible⟩, included⟩
  · exact files_of_no_directory_including directory fewer

theorem hasExt_of_mem {exts : TextSet} {path : Path} (mem : path ∈ files t (including s exts)) :
    hasExt exts path = true := by
  have only : files t (including s exts) = (files t (including s exts)).filter (hasExt exts) :=
    files_including t s fun _ mem => mem
  rw [only] at mem
  exact (List.mem_filter.mp mem).2

/-! ### Two sets of extensions -/

/-- The third list is put together from the first two, each of them in its order. -/
inductive Interleaved {α : Type} : List α → List α → List α → Prop where
  | nil : Interleaved [] [] []
  | left {x : α} {xs ys zs : List α} (rest : Interleaved xs ys zs) : Interleaved (x :: xs) ys (x :: zs)
  | right {y : α} {xs ys zs : List α} (rest : Interleaved xs ys zs) : Interleaved xs (y :: ys) (y :: zs)

theorem interleaved_filter {α : Type} (keep : α → Bool) (zs : List α) :
    Interleaved (zs.filter keep) (zs.filter fun z => !keep z) zs := by
  induction zs with
  | nil => exact .nil
  | cons z rest ih =>
    cases kept : keep z with
    | true => simpa [kept] using Interleaved.left (x := z) ih
    | false => simpa [kept] using Interleaved.right (y := z) ih

theorem Interleaved.filterMap {α β : Type} {xs ys zs : List α} (f : α → Option β)
    (interleaved : Interleaved xs ys zs) :
    Interleaved (xs.filterMap f) (ys.filterMap f) (zs.filterMap f) := by
  induction interleaved with
  | nil => exact .nil
  | @left x _ _ _ _ ih =>
    cases image : f x with
    | none => simpa [image] using ih
    | some b => simpa [image] using Interleaved.left (x := b) ih
  | @right y _ _ _ _ ih =>
    cases image : f y with
    | none => simpa [image] using ih
    | some b => simpa [image] using Interleaved.right (y := b) ih

theorem files_union (t : FileTree) (s : Settings) (xs ys : TextSet) :
    files t (including s xs) = (files t (including s (xs.union ys))).filter (hasExt xs) ∧
      files t (including s ys) = (files t (including s (xs.union ys))).filter (hasExt ys) :=
  ⟨files_including t s fun _ mem => TextSet.mem_union.mpr (Or.inl mem),
    files_including t s fun _ mem => TextSet.mem_union.mpr (Or.inr mem)⟩

/-- Each file is collected for one of two sets that have no text in common. -/
theorem files_interleaved (t : FileTree) (s : Settings) (disjoint : ∀ ext ∈ xs, ext ∉ ys) :
    Interleaved (files t (including s xs)) (files t (including s ys))
      (files t (including s (xs.union ys))) := by
  obtain ⟨left, right⟩ := files_union t s xs ys
  have others : files t (including s ys) =
      (files t (including s (xs.union ys))).filter fun path => !hasExt xs path := by
    refine right.trans (List.filter_congr fun path mem => ?_)
    have either := hasExt_of_mem mem
    rw [hasExt_union] at either
    cases has : hasExt xs path with
    | true => exact hasExt_disjoint disjoint has
    | false =>
      rw [has] at either
      exact either
  rw [left, others]
  exact interleaved_filter (hasExt xs) _

/-! ### Texts that are no extension -/

theorem agree_including_union (s : Settings) {more : TextSet}
    (useless : ∀ ext ∈ more, ∀ name, Extension.ofName name ≠ some ext) :
    Agree (including s xs) (including s (xs.union more)) := by
  refine ⟨fun _ => rfl, fun name => ?_⟩
  rw [Bool.eq_iff_iff]
  unfold Settings.includesFile
  rw [Option.any_eq_true, Option.any_eq_true]
  simp only [Settings.includesExt, decide_eq_true_eq]
  refine exists_congr fun ext => and_congr_right fun found => ?_
  show ext ∈ xs.union more ↔ ext ∈ xs
  rw [TextSet.mem_union]
  exact or_iff_left fun mem => useless ext mem name found

theorem visits_including_union (t : FileTree) (s : Settings) (xs : TextSet) {more : TextSet}
    (useless : ∀ ext ∈ more, ∀ name, Extension.ofName name ≠ some ext) :
    visits t (including s (xs.union more)) = visits t (including s xs) :=
  visits_congr (agree_including_union s useless) rfl

theorem files_including_union (t : FileTree) (s : Settings) (xs : TextSet) {more : TextSet}
    (useless : ∀ ext ∈ more, ∀ name, Extension.ofName name ≠ some ext) :
    files t (including s (xs.union more)) = files t (including s xs) := by
  unfold files
  rw [visits_including_union t s xs useless]

end Walk

end LineCensus
