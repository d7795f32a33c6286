/-!
# Faults of the file system

Why a path leads nowhere or its file cannot be read, and how the operating system words it.
-/

namespace LineCensus.FileTree

inductive Fault where
  | notFound
  | accessDenied
  | notDirectory
  | isDirectory
  | nameTooLong
  | linkLoop
  /-- The path holds U+0000 and was never looked up. -/
  | nulInPath
  deriving DecidableEq, Repr

def Fault.message : Fault → String
  | .notFound => "No such file or directory (os error 2)"
  | .accessDenied => "Permission denied (os error 13)"
  | .notDirectory => "Not a directory (os error 20)"
  | .isDirectory => "Is a directory (os error 21)"
  | .nameTooLong => "File name too long (os error 36)"
  | .linkLoop => "Too many levels of symbolic links (os error 40)"
  | .nulInPath => "file name contained an unexpected NUL byte"

end LineCensus.FileTree
