import Mathlib.Data.List.Induction
import LineCensus.Settings.Session

/-!
# What a session remembers

A draft keeps the last value that was given for each setting since the last reset (`draft_after`), and the
current settings are those that were made last (`current_after`). `answers_tell` says what this makes of
each step of a session, whatever the steps before it.
-/

namespace LineCensus.Settings.Session

/-! ### What the steps before have given -/

def Step.root? : Step → Option Path
  | .setRoot root => some root
  | _ => none

def Step.excludedDirs? : Step → Option (List String)
  | .setExcludedDirs names => some names
  | _ => none

def Step.includedExts? : Step → Option (List String)
  | .setIncludedExts exts => some exts
  | _ => none

/-- The steps behind the last reset, or all if there is none. -/
def sinceReset (steps : List Step) : List Step :=
  (steps.reverse.takeWhile (· ≠ .reset)).reverse

/-- The last of the values that steps have given since the last reset. -/
def lastGiven {α : Type} (gives : Step → Option α) (steps : List Step) : Option α :=
  ((sinceReset steps).filterMap gives).getLast?

def Answer.made? : Answer → Option Settings
  | .made settings => some settings
  | _ => none

/-- The settings made last by a session that began with nothing. -/
def lastMade (steps : List Step) : Option Settings :=
  ((({} : Session).answers steps).filterMap Answer.made?).getLast?

theorem lastGiven_reset {α : Type} (gives : Step → Option α) (steps : List Step) :
    lastGiven gives (steps ++ [.reset]) = none := by
  simp [lastGiven, sinceReset]

theorem lastGiven_concat {α : Type} (gives : Step → Option α) (steps : List Step) {step : Step}
    (other : step ≠ .reset) :
    lastGiven gives (steps ++ [step]) = (gives step).or (lastGiven gives steps) := by
  have recent : sinceReset (steps ++ [step]) = sinceReset steps ++ [step] := by
    simp [sinceReset, other]
  unfold lastGiven
  rw [recent, List.filterMap_append, List.getLast?_append]
  cases given : gives step <;> simp [given]

theorem after_concat (s : Session) (steps : List Step) (step : Step) :
    s.after (steps ++ [step]) = ((s.after steps).step step).1 := by
  unfold after
  rw [List.foldl_append]
  rfl

/-! ### The draft -/

/-- What a draft is when some values have been given, the last of each kind. -/
def draftOf (root : Option Path) (names exts : Option (List String)) : Draft where
  root
  excludedDirs := names.map .ofList
  includedExts := exts.map .ofList

theorem keep_draft (s : Session) (outcome : Except Draft.Fault Settings) :
    (s.keep outcome).1.draft = s.draft := by
  cases outcome <;> rfl

theorem draft_ask (s : Session) (names exts : List String) :
    (s.step (.ask names exts)).1 = s := by
  cases made : s.current <;> simp [step, made]

/-- One step gives a value, or leaves the draft as it is. -/
theorem draft_step (s : Session) {step : Step} (other : step ≠ .reset) {root : Option Path}
    {names exts : Option (List String)} (before : s.draft = draftOf root names exts) :
    (s.step step).1.draft =
      draftOf (step.root?.or root) (step.excludedDirs?.or names) (step.includedExts?.or exts) := by
  cases step with
  | setRoot path =>
    show s.draft.setRoot path = _
    rw [before]
    rfl
  | setExcludedDirs given =>
    show s.draft.setExcludedDirs given = _
    rw [before]
    rfl
  | setIncludedExts given =>
    show s.draft.setIncludedExts given = _
    rw [before]
    rfl
  | reset => exact absurd rfl other
  | finish => exact (keep_draft s _).trans before
  | make path => exact (keep_draft s _).trans before
  | makeChecked path => exact (keep_draft s _).trans before
  | ask dirs files => exact (congrArg Session.draft (draft_ask s dirs files)).trans before

/-- The draft of a session that began with nothing holds what was given last. -/
def lastDraft (steps : List Step) : Draft :=
  draftOf (lastGiven Step.root? steps) (lastGiven Step.excludedDirs? steps)
    (lastGiven Step.includedExts? steps)

theorem draft_after (steps : List Step) : (({} : Session).after steps).draft = lastDraft steps := by
  induction steps using List.reverseRecOn with
  | nil => rfl
  | append_singleton steps step ih =>
    rw [after_concat]
    by_cases renewed : step = .reset
    · subst renewed
      unfold lastDraft
      rw [lastGiven_reset, lastGiven_reset, lastGiven_reset]
      rfl
    · have given := draft_step _ renewed ih
      unfold lastDraft
      rw [lastGiven_concat _ _ renewed, lastGiven_concat _ _ renewed, lastGiven_concat _ _ renewed]
      exact given

/-! ### The current settings -/

/-- What a step leaves behind it, told by its answer. -/
inductive Leaves (s : Session) : Answer → Session → Prop
  | edited (draft : Draft) : Leaves s .done { s with draft }
  | made (settings : Settings) : Leaves s (.made settings) { s with current := some settings }
  | refused (fault : Draft.Fault) : Leaves s (.refused fault) s
  | told (excluded included : List Bool) : Leaves s (.told excluded included) s
  | nothing : Leaves s .nothing s

theorem keep_leaves (s : Session) (outcome : Except Draft.Fault Settings) :
    Leaves s (s.keep outcome).2 (s.keep outcome).1 := by
  cases outcome with
  | ok settings => exact .made settings
  | error fault => exact .refused fault

theorem step_leaves (s : Session) (step : Step) : Leaves s (s.step step).2 (s.step step).1 := by
  cases step with
  | setRoot path => exact .edited _
  | setExcludedDirs given => exact .edited _
  | setIncludedExts given => exact .edited _
  | reset => exact .edited _
  | finish => exact keep_leaves s _
  | make path => exact keep_leaves s _
  | makeChecked path => exact keep_leaves s _
  | ask dirs files =>
    unfold Session.step
    cases s.current with
    | some settings => exact .told _ _
    | none => exact .nothing

theorem Leaves.current {s s' : Session} {answer : Answer} (leaves : Leaves s answer s') :
    s'.current = answer.made?.or s.current := by
  cases leaves <;> rfl

theorem current_after (steps : List Step) :
    (({} : Session).after steps).current = lastMade steps := by
  induction steps using List.reverseRecOn with
  | nil => rfl
  | append_singleton steps step ih =>
    have kept := (step_leaves (({} : Session).after steps) step).current
    rw [after_concat, kept, ih]
    unfold lastMade
    rw [answers_append, List.filterMap_append, List.getLast?_append]
    cases made : ((({} : Session).after steps).step step).2.made? <;> simp [answers, made]

/-! ### Finishing a draft -/

/-- An extension that was given last does not start with a dot. -/
def Undotted (steps : List Step) (ext : String) : Prop :=
  ∃ exts, lastGiven Step.includedExts? steps = some exts ∧ ext ∈ exts ∧
    ext.toList.head? ≠ some '.'

/-- The settings have this root and the sets of these names. -/
structure Holds (settings : Settings) (root : Path) (names exts : List String) : Prop where
  root_eq : settings.root = root
  excluded : ∀ name, name ∈ settings.excludedDirs ↔ name ∈ names
  included : ∀ ext, ext ∈ settings.includedExts ↔ ext ∈ exts

/-- What comes of finishing the draft behind these steps. -/
structure Finishes (steps : List Step) (outcome : Except Draft.Fault Settings) : Prop where
  badExtension_iff :
    (∃ ext, outcome = .error (.badExtension ext)) ↔ ∃ ext, Undotted steps ext
  named : ∀ ext, outcome = .error (.badExtension ext) → Undotted steps ext
  noRoot_iff : outcome = .error .noRoot ↔
    (¬ ∃ ext, Undotted steps ext) ∧ lastGiven Step.root? steps = none
  ok_iff : (∃ settings, outcome = .ok settings) ↔
    (¬ ∃ ext, Undotted steps ext) ∧ (lastGiven Step.root? steps).isSome
  holds : ∀ settings, outcome = .ok settings →
    ∃ root, lastGiven Step.root? steps = some root ∧
      Holds settings root
        ((lastGiven Step.excludedDirs? steps).getD defaultExcludedDirs)
        ((lastGiven Step.includedExts? steps).getD defaultIncludedExts)

theorem badExtension_lastDraft (steps : List Step) {ext : String}
    (bad : (lastDraft steps).badExtension = some ext) : Undotted steps ext := by
  unfold Draft.badExtension lastDraft draftOf at bad
  cases given : lastGiven Step.includedExts? steps with
  | none => simp [given] at bad
  | some exts =>
    simp only [given, Option.map_some, Option.bind_some] at bad
    have member : ext ∈ TextSet.ofList exts := List.mem_of_find?_eq_some bad
    have undotted := List.find?_some bad
    exact ⟨exts, given, TextSet.mem_ofList.mp member, by simpa using undotted⟩

theorem Undotted.badExtension {steps : List Step} {ext : String} (undotted : Undotted steps ext) :
    ∃ named, (lastDraft steps).badExtension = some named := by
  obtain ⟨exts, given, member, head⟩ := undotted
  have among : ext ∈ (TextSet.ofList exts).members := TextSet.mem_ofList.mpr member
  unfold Draft.badExtension lastDraft draftOf
  rw [given]
  apply Option.isSome_iff_exists.mp
  show (List.find? _ (TextSet.ofList exts).members).isSome
  rw [List.find?_isSome]
  exact ⟨ext, among, by simpa using head⟩

theorem finishes_badExtension {steps : List Step} {ext : String} (undotted : Undotted steps ext) :
    Finishes steps (.error (.badExtension ext)) where
  badExtension_iff := ⟨fun _ => ⟨ext, undotted⟩, fun _ => ⟨ext, rfl⟩⟩
  named := by
    rintro _ ⟨⟩
    exact undotted
  noRoot_iff := ⟨nofun, fun dotted => absurd ⟨ext, undotted⟩ dotted.1⟩
  ok_iff := ⟨nofun, fun dotted => absurd ⟨ext, undotted⟩ dotted.1⟩
  holds := nofun

theorem finishes_noRoot {steps : List Step} (dotted : ¬ ∃ ext, Undotted steps ext)
    (unset : lastGiven Step.root? steps = none) : Finishes steps (.error .noRoot) where
  badExtension_iff := ⟨nofun, fun undotted => absurd undotted dotted⟩
  named := nofun
  noRoot_iff := ⟨fun _ => ⟨dotted, unset⟩, fun _ => rfl⟩
  ok_iff := ⟨nofun, fun given => by simp [unset] at given⟩
  holds := nofun

theorem finishes_ok {steps : List Step} {settings : Settings} {root : Path}
    (dotted : ¬ ∃ ext, Undotted steps ext) (given : lastGiven Step.root? steps = some root)
    (holds : Holds settings root
      ((lastGiven Step.excludedDirs? steps).getD defaultExcludedDirs)
      ((lastGiven Step.includedExts? steps).getD defaultIncludedExts)) :
    Finishes steps (.ok settings) where
  badExtension_iff := ⟨nofun, fun undotted => absurd undotted dotted⟩
  named := nofun
  noRoot_iff := ⟨nofun, fun unset => by simp [given] at unset⟩
  ok_iff := ⟨fun _ => ⟨dotted, by simp [given]⟩, fun _ => ⟨settings, rfl⟩⟩
  holds := by
    rintro _ ⟨⟩
    exact ⟨root, given, holds⟩

theorem holds_ofLists (root : Path) (names exts : List String) :
    Holds ⟨root, .ofList names, .ofList exts⟩ root names exts :=
  ⟨rfl, fun _ => TextSet.mem_ofList, fun _ => TextSet.mem_ofList⟩

theorem finish_lastDraft (steps : List Step) : Finishes steps (lastDraft steps).finish := by
  unfold Draft.finish
  cases bad : (lastDraft steps).badExtension with
  | some ext => exact finishes_badExtension (badExtension_lastDraft steps bad)
  | none =>
    have dotted : ¬ ∃ ext, Undotted steps ext := by
      rintro ⟨ext, undotted⟩
      obtain ⟨named, found⟩ := undotted.badExtension
      rw [bad] at found
      exact nomatch found
    cases given : lastGiven Step.root? steps with
    | none =>
      have unset : (lastDraft steps).root = none := given
      rw [unset]
      exact finishes_noRoot dotted given
    | some root =>
      have set : (lastDraft steps).root = some root := given
      rw [set]
      refine finishes_ok dotted given ?_
      show Holds ⟨root, ((lastGiven Step.excludedDirs? steps).map _).getD _,
        ((lastGiven Step.includedExts? steps).map _).getD _⟩ root _ _
      rw [Option.getD_map, Option.getD_map]
      exact holds_ofLists ..

/-! ### Every answer -/

/-- The settings that are made, or the fault. -/
def answerTo : Except Draft.Fault Settings → Answer
  | .ok settings => .made settings
  | .error fault => .refused fault

/-- What a step is answered behind the steps before it. -/
inductive Tells (steps : List Step) : Step → Answer → Prop
  | root (root : Path) : Tells steps (.setRoot root) .done
  | excludedDirs (names : List String) : Tells steps (.setExcludedDirs names) .done
  | includedExts (exts : List String) : Tells steps (.setIncludedExts exts) .done
  | reset : Tells steps .reset .done
  /-- Of several bad extensions `drafted` names the first in byte order; `finishes` leaves it open. -/
  | finished {outcome : Except Draft.Fault Settings}
      (drafted : outcome = (lastDraft steps).finish) (finishes : Finishes steps outcome) :
      Tells steps .finish (answerTo outcome)
  | made {root : Path} {settings : Settings}
      (holds : Holds settings root defaultExcludedDirs defaultIncludedExts) :
      Tells steps (.make root) (.made settings)
  | checked {root : Path} {settings : Settings}
      (holds : Holds settings root defaultExcludedDirs defaultIncludedExts) :
      Tells steps (.makeChecked root) (.made settings)
  | told {settings : Settings} (names exts : List String) (made : lastMade steps = some settings) :
      Tells steps (.ask names exts)
        (.told (names.map fun name => decide (name ∈ settings.excludedDirs))
          (exts.map fun ext => decide (ext ∈ settings.includedExts)))
  | nothing (names exts : List String) (unmade : lastMade steps = none) :
      Tells steps (.ask names exts) .nothing

theorem keep_answer (s : Session) (outcome : Except Draft.Fault Settings) :
    (s.keep outcome).2 = answerTo outcome := by
  cases outcome <;> rfl

theorem step_tells (steps : List Step) (step : Step) :
    Tells steps step ((({} : Session).after steps).step step).2 := by
  cases step with
  | setRoot path => exact .root path
  | setExcludedDirs names => exact .excludedDirs names
  | setIncludedExts exts => exact .includedExts exts
  | reset => exact .reset
  | finish =>
    show Tells steps .finish (keep _ (Draft.finish _)).2
    rw [keep_answer, draft_after]
    exact .finished rfl (finish_lastDraft steps)
  | make path => exact .made (holds_ofLists path _ _)
  | makeChecked path => exact .checked (holds_ofLists path _ _)
  | ask names exts =>
    unfold Session.step
    rw [current_after]
    cases made : lastMade steps with
    | some settings => exact .told names exts made
    | none => exact .nothing names exts made

/-- Every step of a session that begins with nothing, with what comes before and behind it. -/
theorem answers_tell (before after : List Step) (step : Step) :
    ∃ answer,
      ({} : Session).answers (before ++ step :: after) =
        ({} : Session).answers before ++
          answer :: (({} : Session).after (before ++ [step])).answers after ∧
      Tells before step answer ∧
      Leaves (({} : Session).after before) answer (({} : Session).after (before ++ [step])) := by
  refine ⟨((({} : Session).after before).step step).2, ?_, step_tells before step, ?_⟩
  · rw [answers_append, after_concat]
    rfl
  · rw [after_concat]
    exact step_leaves _ step

example :
    ({} : Session).answers [.setIncludedExts ["py"], .finish, .setIncludedExts [".py", ".py"], .finish,
        .setRoot ⟨"src"⟩, .finish, .reset, .ask ["dist"] [".py", ".js"]] =
      [.done, .refused (.badExtension "py"), .done, .refused .noRoot, .done,
        .made ⟨⟨"src"⟩, .ofList defaultExcludedDirs, .ofList [".py"]⟩, .done,
        .told [true] [true, false]] := by
  decide +kernel

end LineCensus.Settings.Session
