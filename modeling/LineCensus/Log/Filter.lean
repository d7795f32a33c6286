import LineCensus.Log
import LineCensus.Text.Pattern.Reader
import LineCensus.Text.Pattern.Search

/-!
# Log filters

A filter is a list of directives: each allows the records of the sources whose names begin with
its own up to a level. Of the directives that apply the one with the longest name decides.
`Spec.ofText` reads directives from a text such as `info,parser=debug/slow`, where a match of the
pattern behind the slash has to occur in the message. A part that cannot be read is passed over and
named among the `refusals`. `Filter.allows_ofLevel` says what is allowed without directives of this
kind.
-/

namespace LineCensus.Log

/-- Allows records up to the level `upTo`, none at all without one. -/
structure Directive where
  source : Option String
  upTo : Option Level
  deriving DecidableEq, Repr

/-- Why a text of directives, or a part of it, is passed over. -/
inductive Refusal where
  | directive (text : String)
  /-- There is more than one slash. -/
  | slashes (text : String)
  | pattern
  deriving DecidableEq, Repr

/-- How a refusal is told. Where the fault of a pattern is, is left out. -/
def Refusal.reason : Refusal → String
  | .directive text => s!"invalid logging spec '{text}'"
  | .slashes text => s!"invalid logging spec '{text}' (too many '/'s)"
  | .pattern => "invalid regex filter"

/-- What a text says about the log. -/
structure Spec where
  directives : List Directive := []
  pattern : Option Text.Pattern := none
  refusals : List Refusal := []
  deriving DecidableEq, Repr

structure Filter where
  directives : List Directive
  pattern : Option Text.Pattern := none
  deriving DecidableEq, Repr

namespace Directive

def ceiling? (text : String) : Option (Option Level) :=
  if text.toList.map Char.toUpper = "OFF".toList then some none
  else (Level.ofName? text).map some

/-- Reads one directive: a level, a source, or a source and a level with an equals sign between.
A source alone allows everything. Of a source with a level that is none the level is refused. -/
def ofText (text : String) : Except Refusal Directive :=
  match (text.toList.splitOn '=').map String.ofList with
  | [only] =>
    match ceiling? only with
    | some upTo => .ok ⟨none, upTo⟩
    | none => .ok ⟨some only, some .trace⟩
  | [source, level] =>
    let level := String.ofList (Text.trim level.toList)
    if level = "" then .ok ⟨some source, some .trace⟩
    else
      match ceiling? level with
      | some upTo => .ok ⟨some source, upTo⟩
      | none => .error (.directive level)
  | _ => .error (.directive text)

def nameLength (d : Directive) : Nat :=
  match d.source with
  | some name => name.utf8ByteSize
  | none => 0

def appliesTo (d : Directive) (s : Source) : Bool :=
  match d.source with
  | some name => name.toList.isPrefixOf s.name.toList
  | none => true

def allows (d : Directive) (level : Level) : Bool :=
  match d.upTo with
  | some most => level.rank ≤ most.rank
  | none => false

end Directive

namespace Spec

def addDirective (spec : Spec) (text : String) : Spec :=
  match Directive.ofText text with
  | .ok d => { spec with directives := spec.directives ++ [d] }
  | .error refusal => { spec with refusals := spec.refusals ++ [refusal] }

def addPattern (spec : Spec) (text : String) : Spec :=
  match Text.Pattern.ofText? text with
  | some pattern => { spec with pattern := some pattern }
  | none => { spec with refusals := spec.refusals ++ [.pattern] }

/-- Reads directives with commas between them. Parts without text say nothing. -/
def ofDirectives (text : List Char) : Spec :=
  let parts := ((text.splitOn ',').map Text.trim).filter (!·.isEmpty)
  (parts.map String.ofList).foldl addDirective {}

/-- Reads directives, and a pattern behind a slash. With two slashes nothing is read at all. -/
def ofText (text : String) : Spec :=
  match text.toList.splitOn '/' with
  | [directives] => ofDirectives directives
  | [directives, pattern] => (ofDirectives directives).addPattern (String.ofList pattern)
  | _ => { refusals := [.slashes text] }

end Spec

namespace Filter

def ofLevel (level : Level) : Filter where
  directives := [⟨none, some level⟩]

/-- A directive takes the place of the one with the same name, or comes last. -/
def addDirective (d : Directive) : List Directive → List Directive
  | [] => [d]
  | first :: rest => if first.source = d.source then d :: rest else first :: addDirective d rest

def addSpec (f : Filter) (spec : Spec) : Filter where
  directives := spec.directives.foldl (fun directives d => addDirective d directives) f.directives
  pattern := spec.pattern

/-- The later of two directives, unless the earlier one has the longer name. -/
def nearer (best : Option Directive) (d : Directive) : Option Directive :=
  match best with
  | some b => if b.nameLength ≤ d.nameLength then some d else some b
  | none => some d

def directiveFor (f : Filter) (s : Source) : Option Directive :=
  (f.directives.filter (·.appliesTo s)).foldl nearer none

def allows (f : Filter) (r : Record) : Bool :=
  (f.directiveFor r.source).any (·.allows r.level) &&
    f.pattern.all (·.occursIn r.message)

theorem allows_ofLevel (level : Level) (r : Record) :
    (ofLevel level).allows r = decide (r.level.rank ≤ level.rank) := by
  simp [allows, directiveFor, ofLevel, nearer, Directive.appliesTo, Directive.allows]

end Filter

end LineCensus.Log
