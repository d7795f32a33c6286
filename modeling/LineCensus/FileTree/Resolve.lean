import LineCensus.FileTree.Fault
import LineCensus.FileTree.Node

/-!
# File trees and where paths lead in them

A `FileTree` is all that can be seen of a file system: a top directory and the working directory
of the program. `resolve` follows a path and every symbolic link on the way; `stat`, `list` and
`read` look at what is found. Resolution sees a tree only through `look`, and it can be cut
between two steps (`resolveFrom_append`).
-/

namespace LineCensus

structure FileTree where
  top : FileTree.Node
  workingDir : FileTree.Position
  ordered : top.ordered = true

namespace FileTree

def linkLimit : Nat := 40

/-- The text of a path is shorter than this many bytes. -/
def pathLimit : Nat := 4096

def look (t : FileTree) (position : Position) : Option Kind :=
  (t.top.find? position).map Node.kind

def searchable (t : FileTree) (position : Position) : Bool :=
  match t.top.find? position with
  | some (.directory _ rights) => rights.search
  | _ => false

/-- One step from a position, which has to be a directory that may be searched, unless the step
stays. A link is not followed. -/
def step (t : FileTree) (position : Position) (s : Step) : Except Fault Position :=
  match t.look position with
  | none => .error .notFound
  | some .directory =>
    if s ≠ .stay ∧ t.searchable position = false then .error .accessDenied
    else
      match s with
      | .stay | .here => .ok position
      | .up => .ok position.dropLast
      | .tooLong => .error .nameTooLong
      | .down name =>
        if (t.look (position ++ [name])).isSome then .ok (position ++ [name]) else .error .notFound
  | some _ => .error .notDirectory

/-- Where a path begins, seen from a directory. -/
def base (p : Path) (directory : Position) : Position :=
  if p.isAbsolute then [] else directory

/-- Takes steps until one leads to a symbolic link: `jump` continues from the directory of the
link with the steps of its target in front of the remaining ones. `left` is handed on. -/
def travel (t : FileTree) (jump : Position → List Step → Except Fault (Position × Nat))
    (left : Nat) : Position → List Step → Except Fault (Position × Nat)
  | position, [] => .ok (position, left)
  | position, s :: rest =>
    match t.step position s with
    | .error fault => .error fault
    | .ok next =>
      match t.look next with
      | some (.link target) => jump (base target position) (target.steps ++ rest)
      | _ => travel t jump left next rest

/-- Takes steps and follows every symbolic link. The first argument is the number of links that
may still be followed; what remains of it comes with the position reached. -/
def resolveFrom (t : FileTree) : Nat → Position → List Step → Except Fault (Position × Nat)
  | 0 => t.travel (fun _ _ => .error .linkLoop) 0
  | links + 1 => t.travel (t.resolveFrom links) (links + 1)

/-- Why a path is refused before it is looked up. -/
def refusal (p : Path) : Option Fault :=
  if p.text.toList.contains '\x00' then some .nulInPath
  else if p.text = "" then some .notFound
  else if pathLimit ≤ p.size then some .nameTooLong
  else none

def resolve (t : FileTree) (p : Path) : Except Fault Position :=
  match refusal p with
  | some fault => .error fault
  | none => (t.resolveFrom linkLimit (base p t.workingDir) p.steps).map Prod.fst

def nodeAt (t : FileTree) (p : Path) : Except Fault Node :=
  match t.resolve p with
  | .error fault => .error fault
  | .ok position =>
    match t.top.find? position with
    | some node => .ok node
    | none => .error .notFound

def stat (t : FileTree) (p : Path) : Except Fault Kind :=
  (t.nodeAt p).map Node.kind

/-- The entries of a directory in byte order of their names; links among them are not followed. -/
def list (t : FileTree) (p : Path) : Except Fault (List (Name × Kind)) :=
  match t.nodeAt p with
  | .error fault => .error fault
  | .ok (.directory entries rights) =>
    if rights.read then .ok (entries.map fun entry => (entry.1, entry.2.kind))
    else .error .accessDenied
  | .ok _ => .error .notDirectory

/-- The bytes of a file. One that may be opened is read to its end: there are no failures in the
middle of a file. A pipe without a writer and a device give none. -/
def read (t : FileTree) (p : Path) : Except Fault (List UInt8) :=
  match t.nodeAt p with
  | .error fault => .error fault
  | .ok (.file content readable) => if readable then .ok content else .error .accessDenied
  | .ok (.directory _ rights) => .error (if rights.read then .isDirectory else .accessDenied)
  | .ok (.link _) => .error .linkLoop
  | .ok .fifo | .ok .device => .ok []

/-! ### Cutting a way in two -/

theorem travel_append (t : FileTree)
    (jump : Position → List Step → Except Fault (Position × Nat))
    (next : Position × Nat → Except Fault (Position × Nat)) (left : Nat)
    (xs ys : List Step) (position : Position)
    (hjump : ∀ p zs, jump p (zs ++ ys) = (jump p zs).bind next)
    (hend : ∀ p, t.travel jump left p ys = next (p, left)) :
    t.travel jump left position (xs ++ ys) = (t.travel jump left position xs).bind next := by
  induction xs generalizing position with
  | nil => exact hend position
  | cons s rest ih =>
    simp only [List.cons_append, travel]
    cases t.step position s with
    | error fault => rfl
    | ok reached =>
      simp only
      split
      · rw [← List.append_assoc]
        exact hjump _ _
      · exact ih reached

/-- Taking more steps is taking them from where the first ones lead, with the links that are
left. -/
theorem resolveFrom_append (t : FileTree) (links : Nat) (position : Position)
    (xs ys : List Step) :
    t.resolveFrom links position (xs ++ ys) =
      (t.resolveFrom links position xs).bind (fun r => t.resolveFrom r.2 r.1 ys) := by
  induction links generalizing position xs with
  | zero =>
    exact t.travel_append (fun _ _ => .error .linkLoop) (fun r => t.resolveFrom r.2 r.1 ys) 0 xs ys
      position (fun _ _ => rfl) (fun _ => rfl)
  | succ links ih =>
    exact t.travel_append (t.resolveFrom links) (fun r => t.resolveFrom r.2 r.1 ys) (links + 1)
      xs ys position ih (fun _ => rfl)

end FileTree

end LineCensus
