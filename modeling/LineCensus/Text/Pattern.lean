import LineCensus.Text.CharSet

/-!
# Patterns

Regular expressions over the characters of a text. An assertion (`Look`) takes no character; it
looks at the characters before and after a place.
-/

namespace LineCensus.Text

/-- A condition on a place in a text. Words are made of ASCII letters, digits and underscores. -/
inductive Look where
  | textStart
  | textEnd
  /-- Behind a line feed too. -/
  | lineStart
  | lineEnd
  /-- Behind a line feed or a carriage return too, but not between the two. -/
  | eitherLineStart
  | eitherLineEnd
  | wordBoundary
  | notWordBoundary
  | wordStart
  | wordEnd
  | wordStartHalf
  | wordEndHalf
  deriving DecidableEq, Repr

namespace Look

/-- The condition holds between two characters, of which the text's ends have only one. -/
def holds (look : Look) (before after : Option Char) : Bool :=
  let wordBefore := before.any CharSet.words.has
  let wordAfter := after.any CharSet.words.has
  match look with
  | textStart => before.isNone
  | textEnd => after.isNone
  | lineStart => before.isNone || before == some '\n'
  | lineEnd => after.isNone || after == some '\n'
  | eitherLineStart =>
    before.isNone || before == some '\n' || (before == some '\r' && after != some '\n')
  | eitherLineEnd =>
    after.isNone || after == some '\r' || (after == some '\n' && before != some '\r')
  | wordBoundary => wordBefore != wordAfter
  | notWordBoundary => wordBefore == wordAfter
  | wordStart => !wordBefore && wordAfter
  | wordEnd => wordBefore && !wordAfter
  | wordStartHalf => !wordBefore
  | wordEndHalf => !wordAfter

end Look

inductive Pattern where
  | empty
  | one (set : CharSet)
  | look (l : Look)
  | seq (first second : Pattern)
  | alt (first second : Pattern)
  /-- At least `least` times in a row, and at most `most` times if there is a limit. -/
  | times (body : Pattern) (least : Nat) (most : Option Nat)
  deriving DecidableEq, Repr

namespace Pattern

def row (patterns : List Pattern) : Pattern :=
  patterns.foldr seq empty

def choice (first : Pattern) (others : List Pattern) : Pattern :=
  others.foldl alt first

end Pattern

end LineCensus.Text
