import LineCensus.Text.Blank

/-!
# The kind of a line

`Line.classify` calls a line blank when it has no visible character, a comment when its first
visible characters are a comment marker, and code otherwise.
-/

namespace LineCensus.Line

inductive Kind where
  | code
  | blank
  | comment
  deriving DecidableEq, Repr

def markers : List String := ["/*", "//", "#"]

def classify (line : List Char) : Kind :=
  let visible := Text.strip Text.isStrippable line
  if visible.isEmpty then .blank
  else if markers.any (fun marker => marker.toList.isPrefixOf visible) then .comment
  else .code

end LineCensus.Line
