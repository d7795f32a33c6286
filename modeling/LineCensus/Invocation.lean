import LineCensus.Log
import LineCensus.Path
import LineCensus.Text.Terminal

/-!
# Command line arguments

`Invocation.parse` reads the arguments one after the other: flags, single or clustered, a root,
and a double dash after which nothing is a flag. `Stop` is what ends the program before it
starts. `readAll_append` says that reading can be cut between two arguments.
-/

namespace LineCensus

structure Invocation where
  root : Option Path := none
  verbosity : Nat := 0
  deriving DecidableEq, Repr

namespace Invocation

def version : String := "0.1.0"

def programName : String := "line_tally"

inductive Stop where
  | unknownArgument
  | emptyValue
  /-- A flag is given a value. -/
  | unexpectedValue
  | help
  | version
  deriving DecidableEq, Repr

def mostVerbose : Nat := 255

def logLevel (inv : Invocation) : Log.Level :=
  match inv.verbosity with
  | 0 => .warn
  | 1 => .info
  | _ => .debug

def checkRoot (inv : Invocation) : Except Stop Invocation :=
  if inv.root = some ⟨""⟩ then .error .emptyValue else .ok inv

def louder (inv : Invocation) : Invocation :=
  { inv with verbosity := min mostVerbose (inv.verbosity + 1) }

/-- Every flag asks first that a root before it be not empty. -/
def readFlag (inv : Invocation) (effect : Invocation → Except Stop Invocation) :
    Except Stop Invocation :=
  inv.checkRoot.bind effect

def readShort (inv : Invocation) : Char → Except Stop Invocation
  | 'v' => inv.readFlag fun inv => .ok inv.louder
  | 'h' => inv.readFlag fun _ => .error .help
  | 'V' => inv.readFlag fun _ => .error .version
  | _ => .error .unknownArgument

def readCluster (inv : Invocation) : List Char → Except Stop Invocation
  | [] => .ok inv
  | c :: rest => (inv.readShort c).bind fun inv => inv.readCluster rest

def readLong (inv : Invocation) (text : String) : Except Stop Invocation :=
  let flag := String.ofList (text.toList.takeWhile (· != '='))
  if flag = "verbose" ∨ flag = "help" ∨ flag = "version" then
    if flag ≠ text then .error .unexpectedValue
    else if flag = "verbose" then inv.readFlag fun inv => .ok inv.louder
    else if flag = "help" then inv.readFlag fun _ => .error .help
    else inv.readFlag fun _ => .error .version
  else .error .unknownArgument

def readRoot (inv : Invocation) (text : String) : Except Stop Invocation :=
  match inv.root with
  | none => .ok { inv with root := some ⟨text⟩ }
  | some _ => .error .unknownArgument

/-- Reads an argument that no double dash precedes and that is none itself. -/
def readArgument (inv : Invocation) (text : String) : Except Stop Invocation :=
  match text.toList with
  | '-' :: '-' :: rest => inv.readLong (String.ofList rest)
  | '-' :: c :: rest => inv.readCluster (c :: rest)
  | _ => inv.readRoot text

def readAll (inv : Invocation) (escaped : Bool) : List String → Except Stop Invocation
  | [] => .ok inv
  | text :: rest =>
    if escaped then (inv.readRoot text).bind fun inv => inv.readAll true rest
    else if text = "--" then inv.readAll true rest
    else (inv.readArgument text).bind fun inv => inv.readAll false rest

def parse (arguments : List String) : Except Stop Invocation :=
  (readAll {} false arguments).bind checkRoot

/-! ### Texts -/

def versionText : String :=
  s!"{programName} {version}\n"

/-- The name that the program was called by, without its directory. -/
def calledAs (argv : List String) : String :=
  let parts := ((argv.head?.getD "").toList.splitOn '/').map String.ofList
  let kept := parts.filter fun part => part ≠ "" ∧ part ≠ "."
  match kept.getLast? with
  | some name => if name = ".." then programName else name
  | none => programName

def helpText (argv : List String) : String :=
  String.join [
    "ソースツリーのコード行/空行/コメント行を集計するツール\n",
    "\n",
    "Usage: ", Text.Terminal.plain false (calledAs argv), " [OPTIONS] [ROOT]\n",
    "\n",
    "Arguments:\n",
    "  [ROOT]  集計対象のルートディレクトリ（省略時は対話的に入力）\n",
    "\n",
    "Options:\n",
    "  -v, --verbose...  ログ出力を詳細にする (-v: info, -vv: debug)\n",
    "  -h, --help        Print help\n",
    "  -V, --version     Print version\n"]

/-! ### Cutting the arguments -/

theorem readAll_append (inv : Invocation) (xs ys : List String) (h : "--" ∉ xs) :
    inv.readAll false (xs ++ ys) =
      (inv.readAll false xs).bind fun inv => inv.readAll false ys := by
  induction xs generalizing inv with
  | nil => rfl
  | cons text rest ih =>
    have hne : text ≠ "--" := fun e => h (e ▸ List.mem_cons_self)
    have hrest : "--" ∉ rest := fun hmem => h (List.mem_cons_of_mem _ hmem)
    simp only [List.cons_append, readAll, Bool.false_eq_true, if_false, hne]
    cases inv.readArgument text with
    | error stop => rfl
    | ok next => exact ih next hrest

end Invocation

end LineCensus
