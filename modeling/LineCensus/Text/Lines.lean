/-!
# Lines of a text

`universalLines` splits a text in one pass where a line ends with a line feed, a carriage return,
or both in this order; it is the meaning of a line. `pieceLines` splits a text that holds a line
feed at its end only.
-/

namespace LineCensus.Text

/-- Splits with the characters of the line begun given latest first. -/
def universalLinesFrom (begun : List Char) : List Char → List (List Char)
  | [] => if begun.isEmpty then [] else [begun.reverse]
  | '\r' :: '\n' :: rest => begun.reverse :: universalLinesFrom [] rest
  | c :: rest =>
    if c = '\n' ∨ c = '\r' then begun.reverse :: universalLinesFrom [] rest
    else universalLinesFrom (c :: begun) rest

/-- The lines without their ends. A last line without an end counts unless it is empty. -/
def universalLines (text : List Char) : List (List Char) :=
  universalLinesFrom [] text

def dropEnd (c : Char) (text : List Char) : List Char :=
  if text.getLast? = some c then text.dropLast else text

/-- The lines of one piece: its line feed goes, then a carriage return before it, and every other
carriage return ends a line. -/
def pieceLines (piece : List Char) : List (List Char) :=
  (dropEnd '\r' (dropEnd '\n' piece)).splitOn '\r'

theorem dropEnd_append (c : Char) (text : List Char) : dropEnd c (text ++ [c]) = text := by
  simp [dropEnd]

theorem dropEnd_of_ne (c : Char) (text : List Char) (h : text.getLast? ≠ some c) :
    dropEnd c text = text := by
  simp [dropEnd, h]

end LineCensus.Text
