import LineCensus.Settings

/-!
# Drafts of settings

A `Draft` holds the settings that have been given so far. `finish` checks the extensions first and
the root second, and fills in the default sets. A draft is not used up by finishing it.
-/

namespace LineCensus.Settings

structure Draft where
  root : Option Path := none
  excludedDirs : Option TextSet := none
  includedExts : Option TextSet := none
  deriving DecidableEq

namespace Draft

inductive Fault where
  | badExtension (ext : String)
  | noRoot
  deriving DecidableEq, Repr

def Fault.message : Fault → String
  | .badExtension ext => s!"extension '{ext}' must start with '.'"
  | .noRoot => "`root` must be initialized"

def setRoot (d : Draft) (root : Path) : Draft :=
  { d with root := some root }

def setExcludedDirs (d : Draft) (names : List String) : Draft :=
  { d with excludedDirs := some (.ofList names) }

def setIncludedExts (d : Draft) (exts : List String) : Draft :=
  { d with includedExts := some (.ofList exts) }

/-- A given extension that does not start with a dot, of several the first in byte order. -/
def badExtension (d : Draft) : Option String :=
  d.includedExts.bind fun exts => exts.members.find? fun ext => ext.toList.head? != some '.'

def finish (d : Draft) : Except Fault Settings :=
  match d.badExtension with
  | some ext => .error (.badExtension ext)
  | none =>
    match d.root with
    | none => .error .noRoot
    | some root =>
      .ok {
        root
        excludedDirs := d.excludedDirs.getD (.ofList defaultExcludedDirs)
        includedExts := d.includedExts.getD (.ofList defaultIncludedExts) }

end Draft

end LineCensus.Settings
