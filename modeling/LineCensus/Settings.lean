import LineCensus.Extension
import LineCensus.Path
import LineCensus.Text.Set

/-!
# Settings of a scan

The root, the names of the directories to leave out and the extensions of the files to count,
with the sets that a scan uses unless others are given.
-/

namespace LineCensus

structure Settings where
  root : Path
  excludedDirs : TextSet
  includedExts : TextSet
  deriving DecidableEq

namespace Settings

def defaultExcludedDirs : List String :=
  ["node_modules", "dist", ".git", "__pycache__", "yarn.lock"]

def defaultIncludedExts : List String :=
  [".js", ".ts", ".py", ".html", ".css", ".java", ".ejs", ".prisma", ".json"]

def ofRoot (root : Path) : Settings where
  root
  excludedDirs := .ofList defaultExcludedDirs
  includedExts := .ofList defaultIncludedExts

def excludesDir (s : Settings) (name : String) : Bool :=
  decide (name ∈ s.excludedDirs)

def includesExt (s : Settings) (ext : String) : Bool :=
  decide (ext ∈ s.includedExts)

def includesFile (s : Settings) (name : String) : Bool :=
  (Extension.ofName name).any s.includesExt

end Settings

end LineCensus
