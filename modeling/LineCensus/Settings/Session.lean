import LineCensus.Settings.Draft

/-!
# Settings sessions

A session has a draft and the settings made last. `Session.step` takes one step and answers it, and
`answers` are those of a list of steps. `answers_append` says that a session can be cut between two
steps.
-/

namespace LineCensus.Settings

structure Session where
  draft : Draft := {}
  current : Option Settings := none
  deriving DecidableEq

namespace Session

inductive Step where
  | setRoot (root : Path)
  | setExcludedDirs (names : List String)
  | setIncludedExts (exts : List String)
  | reset
  /-- Finishes the draft, which stays as it is. -/
  | finish
  | make (root : Path)
  /-- Finishes a draft that has a root only. -/
  | makeChecked (root : Path)
  | ask (names exts : List String)
  deriving DecidableEq, Repr

inductive Answer where
  | done
  | made (settings : Settings)
  | refused (fault : Draft.Fault)
  | told (excluded included : List Bool)
  | nothing
  deriving DecidableEq

def edit (s : Session) (draft : Draft) : Session × Answer :=
  ({ s with draft }, .done)

/-- Settings that are made become the current ones. -/
def keep (s : Session) : Except Draft.Fault Settings → Session × Answer
  | .ok settings => ({ s with current := some settings }, .made settings)
  | .error fault => (s, .refused fault)

def step (s : Session) : Step → Session × Answer
  | .setRoot root => s.edit (s.draft.setRoot root)
  | .setExcludedDirs names => s.edit (s.draft.setExcludedDirs names)
  | .setIncludedExts exts => s.edit (s.draft.setIncludedExts exts)
  | .reset => s.edit {}
  | .finish => s.keep s.draft.finish
  | .make root => s.keep (.ok (ofRoot root))
  | .makeChecked root => s.keep (Draft.setRoot {} root).finish
  | .ask names exts =>
    match s.current with
    | some settings =>
      (s, .told (names.map settings.excludesDir) (exts.map settings.includesExt))
    | none => (s, .nothing)

def after (s : Session) (steps : List Step) : Session :=
  steps.foldl (fun s step => (s.step step).1) s

def answers (s : Session) : List Step → List Answer
  | [] => []
  | step :: rest => (s.step step).2 :: (s.step step).1.answers rest

theorem answers_append (s : Session) (xs ys : List Step) :
    s.answers (xs ++ ys) = s.answers xs ++ (s.after xs).answers ys := by
  induction xs generalizing s with
  | nil => rfl
  | cons step rest ih =>
    rw [List.cons_append, answers, answers, ih]
    rfl

end Session

end LineCensus.Settings
