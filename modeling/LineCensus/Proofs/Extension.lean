import Mathlib.Data.List.TakeWhile
import LineCensus.Extension

/-!
# Names and their extensions

An extension is a dot with no other dot behind it: `exists_ofName_iff` says that these are the texts that
some file name has as its extension. `ofName_ends` shows that the extension of a name is what it ends with from
its last dot on, if it has something other than dots before.
-/

namespace LineCensus.Extension

/-- A dot stands first and nowhere else. -/
def IsDotted (text : String) : Prop :=
  ∃ rest, text.toList = '.' :: rest ∧ '.' ∉ rest

theorem fromLastDot_eq_some {text ext : List Char} (found : fromLastDot text = some ext) :
    ∃ before rest, text = before ++ ext ∧ ext = '.' :: rest ∧ '.' ∉ rest := by
  have mem : '.' ∈ text := by
    unfold fromLastDot at found
    split at found
    · assumption
    · cases found
  obtain ⟨after, before, split, none⟩ := List.eq_append_cons_of_mem (List.mem_reverse.mpr mem)
  have whole : text = before.reverse ++ '.' :: after.reverse := by
    rw [← List.reverse_reverse text, split]
    simp
  have later : '.' ∉ after.reverse := fun mem => none (List.mem_reverse.mp mem)
  rw [whole, fromLastDot_append _ _ later] at found
  obtain rfl := Option.some.inj found
  exact ⟨before.reverse, after.reverse, whole, rfl, later⟩

theorem ofName_dotted {name ext : String} (found : ofName name = some ext) : IsDotted ext := by
  unfold ofName at found
  obtain ⟨chars, last, rfl⟩ := Option.map_eq_some_iff.mp found
  obtain ⟨_, rest, _, rfl, none⟩ := fromLastDot_eq_some last
  exact ⟨rest, String.toList_ofList, none⟩

/-- Some file name has the extension exactly if it is a dot with no other dot behind it. -/
theorem exists_ofName_iff (ext : String) : (∃ name, ofName name = some ext) ↔ IsDotted ext := by
  constructor
  · rintro ⟨name, found⟩
    exact ofName_dotted found
  · rintro ⟨rest, chars, none⟩
    refine ⟨String.ofList ('a' :: '.' :: rest), ?_⟩
    have last : ofChars ('a' :: '.' :: rest) = some ('.' :: rest) := fromLastDot_append ['a'] rest none
    unfold ofName
    rw [String.toList_ofList, last, ← chars]
    exact congrArg some String.ofList_toList

/-! ### Where an extension begins -/

/-- The name ends with this text: a dot and no other dot, with something other than dots before. -/
structure Ends (ext name : String) : Prop where
  dotted : IsDotted ext
  behind : ∃ front : String, name = front ++ ext ∧ ∃ c ∈ front.toList, c ≠ '.'

theorem dropWhile_dots {front : List Char} (solid : ∃ c ∈ front, c ≠ '.') (rest : List Char) :
    (front ++ rest).dropWhile (· == '.') = front.dropWhile (· == '.') ++ rest := by
  have visible : ¬ (front.dropWhile (· == '.')).isEmpty = true := by
    obtain ⟨c, mem, other⟩ := solid
    intro empty
    have dots := List.dropWhile_eq_nil_iff.mp (List.isEmpty_iff.mp empty) c mem
    exact other (by simpa using dots)
  rw [List.dropWhile_append, if_neg visible]

theorem ofChars_eq_some_iff (name ext : List Char) :
    ofChars name = some ext ↔ ∃ front rest, name = front ++ ext ∧ (∃ c ∈ front, c ≠ '.') ∧
      ext = '.' :: rest ∧ '.' ∉ rest := by
  constructor
  · intro found
    unfold ofChars at found
    obtain ⟨before, rest, body, begins, none⟩ := fromLastDot_eq_some found
    have split := List.takeWhile_append_dropWhile (p := (· == '.')) (l := name)
    refine ⟨name.takeWhile (· == '.') ++ before, rest, ?_, ?_, begins, none⟩
    · rw [List.append_assoc, ← body, split]
    · -- The leading dots are gone, so the last dot is not the first character that is left.
      have first := List.head?_dropWhile_not (· == '.') name
      rw [body] at first
      cases before with
      | nil => simp [begins] at first
      | cons c more => exact ⟨c, by simp, by simpa using first⟩
  · rintro ⟨front, rest, rfl, solid, rfl, none⟩
    unfold ofChars
    rw [dropWhile_dots solid]
    exact fromLastDot_append _ _ none

theorem ofName_eq_some_iff (name ext : String) : ofName name = some ext ↔ Ends ext name := by
  unfold ofName
  rw [Option.map_eq_some_iff]
  constructor
  · rintro ⟨chars, found, rfl⟩
    obtain ⟨front, rest, split, solid, begins, none⟩ := (ofChars_eq_some_iff _ _).mp found
    refine ⟨⟨rest, by rw [String.toList_ofList, begins], none⟩, String.ofList front, ?_, ?_⟩
    · rw [← String.ofList_append, ← split, String.ofList_toList]
    · rwa [String.toList_ofList]
  · rintro ⟨⟨rest, begins, none⟩, front, rfl, solid⟩
    refine ⟨ext.toList, ?_, String.ofList_toList⟩
    exact (ofChars_eq_some_iff _ _).mpr ⟨front.toList, rest, String.toList_append, solid, begins, none⟩

theorem Ends.append {ext name : String} (ends : Ends ext name) (front : String) : Ends ext (front ++ name) := by
  obtain ⟨dotted, before, rfl, c, mem, other⟩ := ends
  refine ⟨dotted, front ++ before, by rw [String.append_assoc], c, ?_, other⟩
  rw [String.toList_append]
  exact List.mem_append_right _ mem

/-- The extension of a name is the one text that the name ends with from its last dot on, behind something other
than dots, and a name that ends so with no text has none. It stays the same whatever is put in front of the name.
The texts that are the extension of some name are those with a dot in front and no other dot. -/
theorem ofName_ends (name ext : String) :
    (ofName name = some ext ↔ Ends ext name) ∧
      (∀ other, Ends ext name → Ends other name → other = ext) ∧
      (ofName name = none ↔ ∀ other, ¬ Ends other name) ∧
      (ofName name = some ext → ∀ front, ofName (front ++ name) = some ext) ∧
      ((∃ whole, ofName whole = some ext) ↔ IsDotted ext) := by
  refine ⟨ofName_eq_some_iff name ext, ?_, ?_, ?_, exists_ofName_iff ext⟩
  · intro other ends ends'
    have found := (ofName_eq_some_iff name ext).mpr ends
    rw [(ofName_eq_some_iff name other).mpr ends'] at found
    exact Option.some.inj found
  · rw [Option.eq_none_iff_forall_ne_some]
    exact forall_congr' fun other => not_congr (ofName_eq_some_iff name other)
  · intro found front
    have ends := (ofName_eq_some_iff name ext).mp found
    exact (ofName_eq_some_iff _ ext).mpr (ends.append front)

/-- Dots in front, two in the middle and one at the end, which alone is the extension. -/
theorem dotted_ends :
    Ends "." "..a..é." ∧ ofName "..a..é." = some "." ∧ ofName (".x" ++ "..a..é.") = some "." ∧
      ofName "...py" = none := by
  have ends : Ends "." "..a..é." :=
    ⟨⟨[], rfl, List.not_mem_nil⟩, "..a..é", rfl, 'a', by decide, by decide⟩
  obtain ⟨found, _, _, longer, _⟩ := ofName_ends "..a..é." "."
  have here := found.mpr ends
  exact ⟨ends, here, longer here ".x", by decide⟩

end LineCensus.Extension
