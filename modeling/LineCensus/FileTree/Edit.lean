import LineCensus.FileTree.Resolve

/-!
# Making and removing things in a file tree

Directories on the way to a new thing are made when they are missing. A file is written where the
path leads, through symbolic links; everything else is made or removed at the path itself. Each
operation gives the tree afterwards, or the fault that left it unchanged.
-/

namespace LineCensus.FileTree

def empty : FileTree where
  top := .directory [] {}
  workingDir := []
  ordered := rfl

/-- Changes what is at a position. The change has to put nothing unordered there. -/
def alter (t : FileTree) (position : Position) (node : Option Node)
    (h : ∀ x, node = some x → x.ordered = true) : FileTree :=
  match e : Node.alter (fun _ => node) (some t.top) position with
  | none => t
  | some top =>
    { t with
      top
      ordered := Node.ordered_alter (fun _ => node) (fun _ y _ hy => h y hy) (some t.top) position
        (fun _ hz => Option.some.inj hz ▸ t.ordered) top e }

def put (t : FileTree) (position : Position) (kind : Kind) (content : List UInt8 := []) :
    FileTree :=
  let node : Node :=
    match kind with
    | .file => .file content true
    | .directory => .directory [] {}
    | .link target => .link target
    | .fifo => .fifo
    | .device => .device
  t.alter position (some node) (fun x h => by
    cases h
    cases kind <;> rfl)

def takeOut (t : FileTree) (position : Position) : FileTree :=
  t.alter position none nofun

/-- Takes steps, follows symbolic links and makes the directories that are missing. -/
def makeWay (t : FileTree) (position : Position) : List Step → Except Fault (FileTree × Position)
  | [] => .ok (t, position)
  | s :: rest =>
    match s, t.step position s with
    | .down name, .error .notFound =>
      (t.put (position ++ [name]) .directory).makeWay (position ++ [name]) rest
    | _, _ =>
      match t.resolveFrom linkLimit position [s] with
      | .ok (next, _) => t.makeWay next rest
      | .error fault => .error fault

/-- Where a path leads when its last step may lead to nothing yet. Symbolic links are followed to
the end only if `through` is set. -/
def place (t : FileTree) (through : Bool) : Nat → Position → List Step → Except Fault Position
  | links, position, steps =>
    match t.resolveFrom linkLimit position steps.dropLast with
    | .error fault => .error fault
    | .ok (directory, _) =>
      match steps.getLast? with
      | some (.down name) =>
        match through, t.look (directory ++ [name]), links with
        | true, some (.link target), links + 1 =>
          t.place through links (base target directory) target.steps
        | true, some (.link _), 0 => .error .linkLoop
        | _, _, _ => .ok (directory ++ [name])
      | some .tooLong => .error .nameTooLong
      | _ => .error .isDirectory

def make (t : FileTree) (p : Path) (through : Bool) (kind : Kind) (content : List UInt8 := []) :
    Except Fault FileTree :=
  match refusal p with
  | some fault => .error fault
  | none =>
    match t.makeWay (base p t.workingDir) p.steps.dropLast with
    | .error fault => .error fault
    | .ok (t, _) =>
      match t.place through linkLimit (base p t.workingDir) p.steps with
      | .error fault => .error fault
      | .ok position => .ok (t.put position kind content)

def addFile (t : FileTree) (p : Path) (content : List UInt8) : Except Fault FileTree :=
  t.make p true .file content

def addLink (t : FileTree) (p target : Path) : Except Fault FileTree :=
  t.make p false (.link target)

def addFifo (t : FileTree) (p : Path) : Except Fault FileTree :=
  t.make p false .fifo

def addDevice (t : FileTree) (p : Path) : Except Fault FileTree :=
  t.make p false .device

def addDirectory (t : FileTree) (p : Path) : Except Fault FileTree :=
  match refusal p with
  | some fault => .error fault
  | none => (t.makeWay (base p t.workingDir) p.steps).map Prod.fst

def remove (t : FileTree) (p : Path) : Except Fault FileTree :=
  match refusal p with
  | some fault => .error fault
  | none =>
    match t.place false linkLimit (base p t.workingDir) p.steps with
    | .error fault => .error fault
    | .ok position => .ok (t.takeOut position)

/-- The tree as a program in the directory at a path sees it. -/
def enter (t : FileTree) (p : Path) : Except Fault FileTree :=
  (t.resolve p).map fun position => { t with workingDir := position }

end LineCensus.FileTree
