import LineCensus.Invocation
import LineCensus.Log.Filter
import LineCensus.Prompt
import LineCensus.Report
import LineCensus.Scan
import LineCensus.Settings.Draft
import LineCensus.Text.Terminal

/-!
# The program

`Program.run` gives all that a run of the program shows: its exit code, its output and its error
output, line by line. Log records, problems and what is refused of the directives for the log share
the error output; `Outcome.notices` are the problems alone.
-/

namespace LineCensus.Program

inductive Entry where
  | refused (cause : Log.Refusal)
  | record (r : Log.Record)
  | notice (problem : Problem)
  deriving DecidableEq, Repr

/-- Records are written without control sequences. -/
def Entry.text : Entry → String
  | .refused cause => s!"warning: {cause.reason}, ignoring it\n"
  | .record r => Text.Terminal.plain true (r.line ++ "\n")
  | .notice problem => problem.message ++ "\n"

def Entry.notice? : Entry → Option Problem
  | .refused _ => none
  | .record _ => none
  | .notice problem => some problem

structure Outcome where
  exitCode : Nat
  stdout : String
  stderr : List Entry
  deriving DecidableEq, Repr

def Outcome.errorText (o : Outcome) : String :=
  String.join (o.stderr.map Entry.text)

def Outcome.notices (o : Outcome) : List Problem :=
  o.stderr.filterMap Entry.notice?

/-- The filter of the log: the level that the arguments ask for, then the directives given by the
environment. -/
def logFilter (inv : Invocation) (spec : Option String) : Log.Filter :=
  match spec with
  | some text => (Log.Filter.ofLevel inv.logLevel).addSpec (.ofText text)
  | none => Log.Filter.ofLevel inv.logLevel

/-- What is refused of the directives given by the environment. -/
def refusals : Option String → List Log.Refusal
  | some text => (Log.Spec.ofText text).refusals
  | none => []

def logged (filter : Log.Filter) (records : List Log.Record) : List Entry :=
  (records.filter filter.allows).map .record

def started : Log.Record :=
  ⟨.debug, .program, s!"{Invocation.programName} v{Invocation.version}"⟩

def settings (root : Path) : Except Problem Settings :=
  match (Settings.Draft.setRoot {} root).finish with
  | .ok s => .ok s
  | .error fault => .error (.settings fault.message)

/-- The root given as an argument, or else the answer to the question, with the text written. -/
def root (inv : Invocation) (input : Stream) : String × Except Problem Path :=
  match inv.root with
  | some path => ("", .ok path)
  | none =>
    let answer := Prompt.ask {} input
    (answer.written, answer.root)

def scan (t : FileTree) (root : Except Problem Path) : Except Problem Scan :=
  (root.bind settings).bind (Scan.ofTree t)

def perform (t : FileTree) (inv : Invocation) (input : Stream) (spec : Option String) : Outcome :=
  let filter := logFilter inv spec
  let refused := (refusals spec).map Entry.refused
  let (written, answer) := root inv input
  match scan t answer with
  | .ok scan =>
    { exitCode := 0
      stdout := written ++ scan.totals.report
      stderr := refused ++ logged filter (started :: scan.records) ++
        scan.failures.map fun failure => .notice (.file failure.1 failure.2) }
  | .error problem =>
    { exitCode := 1
      stdout := written
      stderr := refused ++ logged filter [started] ++ [.notice problem] }

/-- The run of the program in a tree with its arguments, its own name first, its input, and the log
directives of the environment. -/
def run (t : FileTree) (argv : List String) (input : Stream) (spec : Option String) : Outcome :=
  match Invocation.parse (argv.drop 1) with
  | .ok inv => perform t inv input spec
  | .error .help => { exitCode := 0, stdout := Invocation.helpText argv, stderr := [] }
  | .error .version => { exitCode := 0, stdout := Invocation.versionText, stderr := [] }
  | .error _ => { exitCode := 2, stdout := "", stderr := [] }

end LineCensus.Program
