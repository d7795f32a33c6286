/-!
# Extensions

`Extension.ofName` finds the extension of a file name: the last dot that has something other than
a dot before it, with what follows. `fromLastDot_append` tells what the last dot is.
-/

namespace LineCensus.Extension

def fromLastDot (text : List Char) : Option (List Char) :=
  if '.' ∈ text then some ('.' :: (text.reverse.takeWhile (· != '.')).reverse) else none

/-- The dots that a name begins with hide it and start no extension. -/
def ofChars (name : List Char) : Option (List Char) :=
  fromLastDot (name.dropWhile (· == '.'))

def ofName (name : String) : Option String :=
  (ofChars name.toList).map String.ofList

theorem fromLastDot_append (before after : List Char) (h : '.' ∉ after) :
    fromLastDot (before ++ '.' :: after) = some ('.' :: after) := by
  have hall : ∀ c ∈ after.reverse, (c != '.') = true := by
    intro c hc
    rw [bne_iff_ne]
    rintro rfl
    exact h (List.mem_reverse.mp hc)
  simp [fromLastDot, List.takeWhile_append_of_pos hall]

end LineCensus.Extension
