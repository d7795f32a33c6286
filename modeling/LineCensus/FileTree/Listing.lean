import LineCensus.FileTree.Edit
import LineCensus.Text.Hex

/-!
# Listings of file trees

A listing has a line for each thing in a tree, with tabs between the fields: `dir` and a path,
`file`, a path and the content in hexadecimal digits, `link`, a path and a target, or `fifo` and a
path. In paths `\t`, `\n` and `\\` stand for a tab, a line feed and a backslash. `ofListing` makes
the tree.
-/

namespace LineCensus.FileTree

inductive Entry where
  | directory (p : Path)
  | file (p : Path) (content : List UInt8)
  | link (p target : Path)
  | fifo (p : Path)
  deriving DecidableEq, Repr

namespace Entry

def unescape : List Char → Option (List Char)
  | [] => some []
  | '\\' :: 't' :: rest => (unescape rest).map ('\t' :: ·)
  | '\\' :: 'n' :: rest => (unescape rest).map ('\n' :: ·)
  | '\\' :: '\\' :: rest => (unescape rest).map ('\\' :: ·)
  | c :: rest => if c = '\\' then none else (unescape rest).map (c :: ·)

def path? (field : List Char) : Option Path :=
  (unescape field).map fun text => ⟨String.ofList text⟩

def ofLine? (line : String) : Option Entry := do
  match line.toList.splitOn '\t' with
  | [kind, p] =>
    match String.ofList kind with
    | "dir" => some (directory (← path? p))
    | "fifo" => some (fifo (← path? p))
    | _ => none
  | [kind, p, more] =>
    match String.ofList kind with
    | "file" => some (file (← path? p) (← Text.hexBytes? more))
    | "link" => some (link (← path? p) (← path? more))
    | _ => none
  | _ => none

def addTo (t : FileTree) : Entry → Except Fault FileTree
  | directory p => t.addDirectory p
  | file p content => t.addFile p content
  | link p target => t.addLink p target
  | fifo p => t.addFifo p

end Entry

inductive ListingFault where
  | unreadable (line : String)
  | refused (line : String) (fault : Fault)
  deriving DecidableEq, Repr

def ListingFault.message : ListingFault → String
  | .unreadable line => s!"not a line of a listing: {line}"
  | .refused line fault => s!"{line}: {fault.message}"

def addListing (t : FileTree) : List String → Except ListingFault FileTree
  | [] => .ok t
  | line :: rest =>
    match Entry.ofLine? line with
    | none => .error (.unreadable line)
    | some entry =>
      match entry.addTo t with
      | .error fault => .error (.refused line fault)
      | .ok t => t.addListing rest

def ofListing (lines : List String) : Except ListingFault FileTree :=
  empty.addListing lines

end LineCensus.FileTree
