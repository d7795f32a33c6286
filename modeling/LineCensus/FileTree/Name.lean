import LineCensus.Path
import LineCensus.Text.Order

/-!
# Names in a directory and steps of a path

A `Name` is what a directory entry may be called; like paths, names are Unicode texts only.
`Path.steps` reads a path as steps: to stay, to go up, to go down to a name. `Step.ofPart_text` says
that a name is read as the step down to it.
-/

namespace LineCensus

namespace FileTree

def nameLimit : Nat := 255

/-- A name is not empty, is neither of the two dot names, holds no slash and no U+0000, and is not
too long. -/
def isName (text : String) : Bool :=
  text != "" && text != "." && text != ".." && !text.toList.contains '/' &&
    !text.toList.contains '\x00' && text.utf8ByteSize ≤ nameLimit

structure Name where
  text : String
  valid : isName text = true
  deriving DecidableEq, Repr

/-- The names on the way from the top of the tree. -/
abbrev Position := List Name

inductive Step where
  /-- Nothing stands between two slashes or behind the last one. -/
  | stay
  | here
  | up
  | down (name : Name)
  /-- The part is longer than any name. -/
  | tooLong
  deriving DecidableEq, Repr

def Step.ofPart (part : String) : Step :=
  if part = "" then .stay
  else if part = "." then .here
  else if part = ".." then .up
  else if h : isName part = true then .down ⟨part, h⟩
  else .tooLong

theorem Name.ext {a b : Name} (h : a.text = b.text) : a = b := by
  obtain ⟨a, _⟩ := a
  obtain ⟨b, _⟩ := b
  cases h
  rfl

theorem Step.ofPart_text (name : Name) : Step.ofPart name.text = .down name := by
  have h := name.valid
  simp only [isName, Bool.and_eq_true, bne_iff_ne, ne_eq] at h
  obtain ⟨⟨⟨⟨⟨hempty, hdot⟩, hdots⟩, _⟩, _⟩, _⟩ := h
  simp [Step.ofPart, hempty, hdot, hdots, name.valid]

theorem Name.before_or_before {a b : Name} (h : a ≠ b) :
    Text.Before a.text b.text ∨ Text.Before b.text a.text :=
  Text.before_or_before (fun e => h (Name.ext e))

end FileTree

/-- An empty part is a step that stays, so a path that ends in a slash leads to a directory. -/
def Path.steps (p : Path) : List FileTree.Step :=
  p.parts.map FileTree.Step.ofPart

end LineCensus
