import LineCensus.FileTree.Resolve
import LineCensus.Log
import LineCensus.Settings

/-!
# Walking a file tree

`Walk.visits` goes through the directory at the root and the directories below it, the entries of
each in byte order of their names, and tells what it finds. The tree keeps its entries in this order
(`Node.ordered`), which stands for sorting each directory by name, so the walk takes them as they
come. Excluded directories are not entered. A symbolic link counts as a file unless it leads to
something else; links to directories are not entered.
-/

namespace LineCensus.Walk

inductive Visit where
  | collected (path : Path)
  /-- A file whose name has no included extension. -/
  | skipped (path : Path)
  /-- An excluded directory. -/
  | pruned (path : Path)
  /-- A directory whose entries cannot be listed, or a root that leads nowhere. -/
  | failed (path : Path) (fault : FileTree.Fault)
  deriving DecidableEq, Repr

def Visit.file? : Visit → Option Path
  | .collected path => some path
  | _ => none

def Visit.record? : Visit → Option Log.Record
  | .collected _ => none
  | .skipped path => some ⟨.debug, .walk, s!"skipped {path.text}"⟩
  | .pruned path => some ⟨.debug, .walk, s!"pruned {path.text}"⟩
  | .failed path fault =>
    some ⟨.warn, .walk,
      s!"walk error: {path.text}: IO error for operation on {path.text}: {fault.message}"⟩

def visitFile (s : Settings) (path : Path) (name : String) : Visit :=
  if s.includesFile name then .collected path else .skipped path

/-- Why the entries of the directory at a path cannot be listed. -/
def listFault? (path : Path) (searchable : Bool) (rights : FileTree.Rights) :
    Option FileTree.Fault :=
  match FileTree.refusal path with
  | some fault => some fault
  | none => if searchable && rights.read then none else some .accessDenied

mutual

/-- The visits of a node below the root, given with its path, which leads to it unless it is
refused or the directory that holds the node may not be searched. -/
def visitNode (t : FileTree) (s : Settings) (path : Path) (searchable : Bool)
    (name : FileTree.Name) : FileTree.Node → List Visit
  | .directory entries rights =>
    if s.excludesDir name.text then [.pruned path]
    else
      match listFault? path searchable rights with
      | some fault => [.failed path fault]
      | none => visitEntries t s path rights.search entries
  | .file _ _ => [visitFile s path name.text]
  | .link _ =>
    match t.stat path with
    | .error _ | .ok .file => [visitFile s path name.text]
    | .ok _ => []
  | .fifo | .device => []
termination_by structural node => node

/-- The visits of some entries of the directory at a path. -/
def visitEntries (t : FileTree) (s : Settings) (path : Path) (searchable : Bool) :
    List (FileTree.Name × FileTree.Node) → List Visit
  | [] => []
  | (name, node) :: rest =>
    visitNode t s (path.join name.text) searchable name node ++
      visitEntries t s path searchable rest
termination_by structural entries => entries

end

/-- The visits from the root on. The root itself is never excluded, and a root that is no directory
is looked at as a file. -/
def visits (t : FileTree) (s : Settings) : List Visit :=
  if s.root.isDash then []
  else
    match t.nodeAt s.root with
    | .error fault => [.failed s.root fault]
    | .ok (.directory entries rights) =>
      match listFault? s.root true rights with
      | some fault => [.failed s.root fault]
      | none => visitEntries t s s.root rights.search entries
    | .ok (.file _ _) => [visitFile s s.root s.root.lastPart]
    | .ok _ => []

def files (t : FileTree) (s : Settings) : List Path :=
  (visits t s).filterMap Visit.file?

def records (t : FileTree) (s : Settings) : List Log.Record :=
  (visits t s).filterMap Visit.record?

end LineCensus.Walk
