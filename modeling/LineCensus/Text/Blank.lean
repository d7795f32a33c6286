/-!
# Blank characters

`isBlank` is the Unicode property White_Space; `isStrippable` adds the four information
separators. `strip` drops the characters of a class at both ends of a text; `strip_eq_iff` says
what is left, and `strip_eq_nil_iff` that nothing is left exactly when every character is in the
class.
-/

namespace LineCensus.Text

/-- The 25 characters with the Unicode property White_Space. -/
def isBlank (c : Char) : Bool :=
  let n := c.toNat
  (0x09 ≤ n && n ≤ 0x0D) || n == 0x20 || n == 0x85 || n == 0xA0 || n == 0x1680 ||
    (0x2000 ≤ n && n ≤ 0x200A) || n == 0x2028 || n == 0x2029 || n == 0x202F || n == 0x205F ||
    n == 0x3000

/-- Around a source line the information separators U+001C to U+001F are blank as well. -/
def isStrippable (c : Char) : Bool :=
  isBlank c || (0x1C ≤ c.toNat && c.toNat ≤ 0x1F)

def strip (drop : Char → Bool) (text : List Char) : List Char :=
  ((text.dropWhile drop).reverse.dropWhile drop).reverse

def trim (text : List Char) : List Char :=
  strip isBlank text

/-! ### What is stripped -/

/-- What is left of a text between characters of a class, when it neither begins nor ends with
one. -/
structure Stripped (drop : Char → Bool) (text kept : List Char) : Prop where
  between : ∃ front back, text = front ++ kept ++ back ∧ (∀ c ∈ front, drop c = true) ∧
    ∀ c ∈ back, drop c = true
  first : ∀ c, kept.head? = some c → drop c = false
  last : ∀ c, kept.getLast? = some c → drop c = false

theorem dropWhile_eq_self {drop : Char → Bool} {text : List Char}
    (first : ∀ c, text.head? = some c → drop c = false) : text.dropWhile drop = text := by
  cases text with
  | nil => rfl
  | cons c rest => simp [List.dropWhile, first c rfl]

theorem dropWhile_head {drop : Char → Bool} (text : List Char) (c : Char)
    (head : (text.dropWhile drop).head? = some c) : drop c = false := by
  have hn := List.head?_dropWhile_not drop text
  simpa [head] using hn

theorem stripped_strip (drop : Char → Bool) (text : List Char) :
    Stripped drop text (strip drop text) := by
  have hfront := List.takeWhile_append_dropWhile (p := drop) (l := text)
  have hback := List.takeWhile_append_dropWhile (p := drop) (l := (text.dropWhile drop).reverse)
  have hmiddle : text.dropWhile drop =
      strip drop text ++ ((text.dropWhile drop).reverse.takeWhile drop).reverse := by
    rw [strip, ← List.reverse_append, hback, List.reverse_reverse]
  refine ⟨⟨text.takeWhile drop, ((text.dropWhile drop).reverse.takeWhile drop).reverse, ?_, ?_, ?_⟩,
    fun c head => ?_, fun c last => ?_⟩
  · rw [List.append_assoc, ← hmiddle, hfront]
  · exact List.all_eq_true.mp List.all_takeWhile
  · exact fun c hc => List.all_eq_true.mp List.all_takeWhile c (List.mem_reverse.mp hc)
  · apply dropWhile_head text c
    rw [hmiddle, List.head?_append, head, Option.some_or]
  · rw [strip, List.getLast?_reverse] at last
    exact dropWhile_head _ c last

theorem strip_eq_nil_iff (drop : Char → Bool) (text : List Char) :
    strip drop text = [] ↔ ∀ c ∈ text, drop c = true := by
  constructor
  · intro nothing
    obtain ⟨⟨front, back, split, hfront, hback⟩, _, _⟩ := stripped_strip drop text
    rw [split, nothing, List.append_nil]
    exact List.forall_mem_append.mpr ⟨hfront, hback⟩
  · intro hall
    have dropped : (text ++ []).dropWhile drop = [].dropWhile drop := List.dropWhile_append_of_pos hall
    rw [List.append_nil] at dropped
    rw [strip, dropped]
    rfl

theorem strip_eq_iff (drop : Char → Bool) (text kept : List Char) :
    strip drop text = kept ↔ Stripped drop text kept := by
  constructor
  · rintro rfl
    exact stripped_strip drop text
  · rintro ⟨⟨front, back, rfl, hfront, hback⟩, first, last⟩
    cases kept with
    | nil =>
      rw [strip_eq_nil_iff]
      simpa [or_imp, forall_and] using ⟨hfront, hback⟩
    | cons c rest =>
      have hhead : ∀ d, ((c :: rest) ++ back).head? = some d → drop d = false := first
      have hlast : ∀ d, (c :: rest).reverse.head? = some d → drop d = false := by
        intro d head
        rw [List.head?_reverse] at head
        exact last d head
      rw [strip, List.append_assoc, List.dropWhile_append_of_pos hfront, dropWhile_eq_self hhead,
        List.reverse_append, List.dropWhile_append_of_pos (by simpa using hback),
        dropWhile_eq_self hlast, List.reverse_reverse]

end LineCensus.Text
