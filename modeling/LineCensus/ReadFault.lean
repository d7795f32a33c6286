import LineCensus.FileTree.Fault

/-!
# Why reading fails

The file system refuses, the stream reports a failure in its own words, or a line that should be
text is none.
-/

namespace LineCensus

inductive ReadFault where
  | system (fault : FileTree.Fault)
  | reported (text : String)
  | notText
  deriving DecidableEq, Repr

def ReadFault.message : ReadFault → String
  | .system fault => fault.message
  | .reported text => text
  | .notText => "stream did not contain valid UTF-8"

end LineCensus
