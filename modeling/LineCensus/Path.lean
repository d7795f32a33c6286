/-!
# Paths

A path is a text; nothing in it is normalised. There is no path whose bytes are not UTF-8, so a path
is shown as it is. `Path.join` puts a name behind it, with one slash between. `Path.isDash`
recognises the paths that stand for the standard input.
-/

namespace LineCensus

structure Path where
  text : String
  deriving DecidableEq, Repr

namespace Path

/-- What stands between the slashes. -/
def parts (p : Path) : List String :=
  (p.text.toList.splitOn '/').map String.ofList

def isAbsolute (p : Path) : Bool :=
  p.text.toList.head? == some '/'

def lastPart (p : Path) : String :=
  p.parts.getLastD ""

/-- The path with one more part: a slash is put between unless there is one or nothing before. -/
def join (p : Path) (part : String) : Path :=
  if p.text = "" ∨ p.text.toList.getLast? = some '/' then ⟨p.text ++ part⟩
  else ⟨p.text ++ "/" ++ part⟩

/-- A single dash, followed by nothing but slashes and single dots, means the standard input. -/
def isDash (p : Path) : Bool :=
  p.parts.head? == some "-" && (p.parts.drop 1).all (fun part => part == "" || part == ".")

def size (p : Path) : Nat :=
  p.text.utf8ByteSize

end Path

end LineCensus
