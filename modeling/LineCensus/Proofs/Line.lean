import Mathlib.Logic.ExistsUnique
import LineCensus.Line

/-!
# The first visible characters of a line

`Judged` says without stripping of what kind a line is. `classify_judged` shows that this is the kind that it is
given, that blank characters around the line do not change it, and that nothing behind a comment does.
-/

namespace LineCensus

namespace Text

variable {drop : Char → Bool}

/-- Characters of the class around a text go with those that it already has at its ends. -/
theorem strip_between {front back : List Char} (hfront : ∀ c ∈ front, drop c = true)
    (hback : ∀ c ∈ back, drop c = true) (text : List Char) :
    strip drop (front ++ text ++ back) = strip drop text := by
  obtain ⟨⟨before, behind, split, hbefore, hbehind⟩, first, last⟩ := stripped_strip drop text
  have whole : front ++ text ++ back = (front ++ before) ++ strip drop text ++ (behind ++ back) := by
    conv => lhs; rw [split]
    simp
  rw [strip_eq_iff]
  refine ⟨⟨front ++ before, behind ++ back, whole, ?_, ?_⟩, first, last⟩
  · intro c mem
    rcases List.mem_append.mp mem with mem | mem
    · exact hfront c mem
    · exact hbefore c mem
  · intro c mem
    rcases List.mem_append.mp mem with mem | mem
    · exact hbehind c mem
    · exact hback c mem

/-- A word without characters of the class stays whole, whatever is stripped before and behind it. -/
theorem prefix_strip {front word : List Char} (hfront : ∀ c ∈ front, drop c = true)
    (nonempty : word ≠ []) (clear : ∀ c ∈ word, drop c = false) (rest : List Char) :
    word <+: strip drop (front ++ word ++ rest) := by
  have head : ∀ c, (word ++ rest).head? = some c → drop c = false := by
    intro c first
    obtain ⟨d, more, rfl⟩ := List.exists_cons_of_ne_nil nonempty
    obtain rfl := Option.some.inj first
    exact clear _ List.mem_cons_self
  have ends : word.reverse.dropWhile drop = word.reverse := by
    apply dropWhile_eq_self
    intro c last
    rw [List.head?_reverse] at last
    exact clear c (List.mem_of_getLast? last)
  have kept : strip drop (front ++ word ++ rest) =
      ((rest.reverse ++ word.reverse).dropWhile drop).reverse := by
    unfold strip
    rw [List.append_assoc, List.dropWhile_append_of_pos hfront, dropWhile_eq_self head,
      List.reverse_append]
  rw [kept, List.dropWhile_append, ends]
  split
  · simp
  · simp

end Text

namespace Line

open Text (strip isStrippable)

/-- Behind strippable characters comes a comment marker. -/
def Marked (line : List Char) : Prop :=
  ∃ front marker rest, line = front ++ String.toList marker ++ rest ∧
    (∀ c ∈ front, isStrippable c = true) ∧ marker ∈ ["/*", "//", "#"]

/-- The kind of a line by its first visible characters. -/
inductive Judged (line : List Char) : Kind → Prop where
  | blank (hidden : ∀ c ∈ line, isStrippable c = true) : Judged line .blank
  | comment (marked : Marked line) : Judged line .comment
  | code (visible : ∃ c ∈ line, isStrippable c = false) (unmarked : ¬ Marked line) : Judged line .code

theorem marker_clear :
    ∀ marker ∈ markers, marker.toList ≠ [] ∧ ∀ c ∈ marker.toList, isStrippable c = false := by
  have all : markers.all fun marker =>
      !marker.toList.isEmpty && marker.toList.all fun c => !isStrippable c := by decide
  simpa using all

theorem marked_iff (line : List Char) :
    Marked line ↔ ∃ marker ∈ markers, marker.toList <+: strip isStrippable line := by
  constructor
  · rintro ⟨front, marker, rest, rfl, hidden, mem⟩
    obtain ⟨nonempty, clear⟩ := marker_clear marker mem
    exact ⟨marker, mem, Text.prefix_strip hidden nonempty clear rest⟩
  · rintro ⟨marker, mem, more, begins⟩
    obtain ⟨⟨front, back, split, hidden, _⟩, _, _⟩ := Text.stripped_strip isStrippable line
    refine ⟨front, marker, more ++ back, ?_, hidden, mem⟩
    rw [split, ← begins]
    simp

theorem Marked.append {line : List Char} (marked : Marked line) (more : List Char) : Marked (line ++ more) := by
  obtain ⟨front, marker, rest, rfl, hidden, mem⟩ := marked
  exact ⟨front, marker, rest ++ more, by simp, hidden, mem⟩

theorem Marked.visible {line : List Char} (marked : Marked line) : ¬ ∀ c ∈ line, isStrippable c = true := by
  intro hidden
  obtain ⟨marker, mem, begins⟩ := (marked_iff line).mp marked
  rw [(Text.strip_eq_nil_iff isStrippable line).mpr hidden, List.prefix_nil] at begins
  exact (marker_clear marker mem).1 begins

theorem Judged.unique {line : List Char} {kind other : Kind} (judged : Judged line kind)
    (again : Judged line other) : kind = other := by
  have hidden_iff : (∀ c ∈ line, isStrippable c = true) ↔ ¬ ∃ c ∈ line, isStrippable c = false := by
    simp
  cases judged with
  | blank hidden =>
    cases again with
    | blank => rfl
    | comment marked => exact absurd hidden marked.visible
    | code visible => exact absurd visible (hidden_iff.mp hidden)
  | comment marked =>
    cases again with
    | blank hidden => exact absurd hidden marked.visible
    | comment => rfl
    | code _ unmarked => exact absurd marked unmarked
  | code visible unmarked =>
    cases again with
    | blank hidden => exact absurd visible (hidden_iff.mp hidden)
    | comment marked => exact absurd marked unmarked
    | code => rfl

theorem judged_classify (line : List Char) : Judged line (classify line) := by
  unfold classify
  dsimp only
  split
  · next empty => exact .blank ((Text.strip_eq_nil_iff _ _).mp (List.isEmpty_iff.mp empty))
  · next nonempty =>
    have visible : ∃ c ∈ line, isStrippable c = false := by
      rw [List.isEmpty_iff, Text.strip_eq_nil_iff] at nonempty
      simpa using nonempty
    split
    · next begins =>
      obtain ⟨marker, mem, first⟩ := List.any_eq_true.mp begins
      exact .comment ((marked_iff line).mpr ⟨marker, mem, List.isPrefixOf_iff_prefix.mp first⟩)
    · next other =>
      refine .code visible fun marked => other ?_
      obtain ⟨marker, mem, first⟩ := (marked_iff line).mp marked
      exact List.any_eq_true.mpr ⟨marker, mem, List.isPrefixOf_iff_prefix.mpr first⟩

theorem classify_eq_iff (line : List Char) (kind : Kind) : classify line = kind ↔ Judged line kind := by
  constructor
  · rintro rfl
    exact judged_classify line
  · exact fun judged => (judged_classify line).unique judged

/-- A line is of exactly one kind, and its first visible characters decide which. So blank characters around it
change nothing, and a comment stays one whatever comes behind it. -/
theorem classify_judged (line : List Char) :
    (∀ kind, classify line = kind ↔ Judged line kind) ∧ (∃! kind, Judged line kind) ∧
      (∀ front back, (∀ c ∈ front, isStrippable c = true) → (∀ c ∈ back, isStrippable c = true) →
        classify (front ++ line ++ back) = classify line) ∧
      (classify line = .comment → ∀ more, classify (line ++ more) = .comment) := by
  refine ⟨classify_eq_iff line, ⟨classify line, judged_classify line, ?_⟩, ?_, ?_⟩
  · intro kind judged
    exact judged.unique (judged_classify line)
  · intro front back hfront hback
    unfold classify
    rw [Text.strip_between hfront hback]
  · intro isComment more
    have judged := (classify_eq_iff line .comment).mp isComment
    cases judged with
    | comment marked => exact (classify_eq_iff _ .comment).mpr (.comment (marked.append more))

/-- A marker between blank characters of three sorts, and one with text behind it. -/
theorem padded_judged :
    Judged ['/', '*'] .comment ∧
      classify (['\u2003', '\x1c'] ++ ['/', '*'] ++ ['\x85']) = .comment ∧
      classify (['/', '*'] ++ ['x']) = .comment := by
  have isComment : classify ['/', '*'] = .comment := by decide
  have front : ['\u2003', '\x1c'].all isStrippable := by decide
  have back : ['\x85'].all isStrippable := by decide
  obtain ⟨kinds, _, around, behind⟩ := classify_judged ['/', '*']
  refine ⟨(kinds _).mp isComment, ?_, behind isComment ['x']⟩
  rw [around _ _ (List.all_eq_true.mp front) (List.all_eq_true.mp back)]
  exact isComment

end Line

end LineCensus
