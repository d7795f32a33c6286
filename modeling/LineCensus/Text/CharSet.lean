/-!
# Character sets

A `CharSet` is put together from ranges by the operations on sets, and `has` is membership. The
classes are those of ASCII, `CharSet.ofName?` gives the ones that have a name, and only an ASCII
letter has another case.
-/

namespace LineCensus.Text

inductive CharSet where
  | empty
  | range (first last : Char)
  | union (s t : CharSet)
  | inter (s t : CharSet)
  | diff (s t : CharSet)
  | symmDiff (s t : CharSet)
  | compl (s : CharSet)
  /-- A set with the other case of each of its ASCII letters. -/
  | bothCases (s : CharSet)
  deriving DecidableEq, Repr

namespace CharSet

def otherCase (c : Char) : Char :=
  if c.isUpper then c.toLower else c.toUpper

def has : CharSet → Char → Bool
  | empty, _ => false
  | range first last, c => first ≤ c && c ≤ last
  | union s t, c => s.has c || t.has c
  | inter s t, c => s.has c && t.has c
  | diff s t, c => s.has c && !t.has c
  | symmDiff s t, c => s.has c != t.has c
  | compl s, c => !s.has c
  | bothCases s, c => s.has c || s.has (otherCase c)

def single (c : Char) : CharSet := range c c

def ofRanges (ranges : List (Char × Char)) : CharSet :=
  ranges.foldr (fun r s => union (range r.1 r.2) s) empty

/-! ### ASCII classes -/

def ascii : CharSet := range '\x00' '\x7f'

def digits : CharSet := range '0' '9'

def words : CharSet := ofRanges [('a', 'z'), ('A', 'Z'), ('0', '9'), ('_', '_')]

def spaces : CharSet := ofRanges [('\t', '\r'), (' ', ' ')]

def ofName? : String → Option CharSet
  | "alnum" => some (ofRanges [('0', '9'), ('A', 'Z'), ('a', 'z')])
  | "alpha" => some (ofRanges [('A', 'Z'), ('a', 'z')])
  | "ascii" => some ascii
  | "blank" => some (ofRanges [('\t', '\t'), (' ', ' ')])
  | "cntrl" => some (ofRanges [('\x00', '\x1f'), ('\x7f', '\x7f')])
  | "digit" => some digits
  | "graph" => some (range '!' '~')
  | "lower" => some (range 'a' 'z')
  | "print" => some (range ' ' '~')
  | "punct" => some (ofRanges [('!', '/'), (':', '@'), ('[', '\x60'), ('\x7b', '~')])
  | "space" => some spaces
  | "upper" => some (range 'A' 'Z')
  | "word" => some words
  | "xdigit" => some (ofRanges [('0', '9'), ('A', 'F'), ('a', 'f')])
  | _ => none

end CharSet

end LineCensus.Text
