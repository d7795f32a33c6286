import LineCensus.Text.Blank
import LineCensus.Text.Pattern

/-!
# Flags of patterns

The flags in force decide what a character of a written pattern means. With `spaced` White_Space
and comments, from a number sign to the end of the line, may stand between its parts; `skip` leaves
them out, and `length_skip_le` says that it adds nothing.
-/

namespace LineCensus.Text.Pattern

structure Flags where
  ignoreCase : Bool := false
  multiLine : Bool := false
  dotAll : Bool := false
  /-- Lines end at carriage returns too. -/
  eitherLine : Bool := false
  unicode : Bool := true
  spaced : Bool := false
  deriving DecidableEq, Repr

namespace Flags

/-- Sets the flag of a letter. The flag for which repetitions prefer to be short has no effect, for
whether there is a match does not depend on it. -/
def set (flags : Flags) (on : Bool) : Char → Option Flags
  | 'i' => some { flags with ignoreCase := on }
  | 'm' => some { flags with multiLine := on }
  | 's' => some { flags with dotAll := on }
  | 'R' => some { flags with eitherLine := on }
  | 'u' => some { flags with unicode := on }
  | 'x' => some { flags with spaced := on }
  | 'U' => some flags
  | _ => none

/-- Reads flags up to a closing parenthesis or a colon; behind a minus sign they are switched
off. -/
def read (flags : Flags) (on : Bool) : List Char → Option (Flags × List Char)
  | [] => none
  | c :: rest =>
    if c = ')' ∨ c = ':' then some (flags, c :: rest)
    else if c = '-' then flags.read false rest
    else
      match flags.set on c with
      | some flags => flags.read on rest
      | none => none

/-- A set, or a member of it, as it matches under the flags. -/
def fold (flags : Flags) (s : CharSet) : CharSet :=
  if flags.ignoreCase then .bothCases s else s

def literal (flags : Flags) (c : Char) : Pattern :=
  one (flags.fold (.single c))

def dot (flags : Flags) : Pattern :=
  if flags.dotAll then one (.compl .empty)
  else if flags.eitherLine then one (.compl (.union (.single '\n') (.single '\r')))
  else one (.compl (.single '\n'))

def caret (flags : Flags) : Look :=
  if !flags.multiLine then .textStart
  else if flags.eitherLine then .eitherLineStart
  else .lineStart

def dollar (flags : Flags) : Look :=
  if !flags.multiLine then .textEnd
  else if flags.eitherLine then .eitherLineEnd
  else .lineEnd

end Flags

/-! ### Spaces and comments -/

/-- Drops White_Space and comments, first the rest of a comment if one is open. -/
def skipSpace (comment : Bool) : List Char → List Char
  | [] => []
  | c :: rest =>
    if comment then skipSpace (c != '\n') rest
    else if isBlank c then skipSpace false rest
    else if c = '#' then skipSpace true rest
    else c :: rest

theorem length_skipSpace_le (comment : Bool) (text : List Char) :
    (skipSpace comment text).length ≤ text.length := by
  induction text generalizing comment with
  | nil => simp [skipSpace]
  | cons c rest ih =>
    rw [skipSpace]
    split
    · exact Nat.le_succ_of_le (ih _)
    split
    · exact Nat.le_succ_of_le (ih _)
    split
    · exact Nat.le_succ_of_le (ih _)
    · exact Nat.le_refl _

namespace Flags

def skip (flags : Flags) (text : List Char) : List Char :=
  if flags.spaced then skipSpace false text else text

theorem length_skip_le (flags : Flags) (text : List Char) :
    (flags.skip text).length ≤ text.length := by
  unfold skip
  split
  · exact length_skipSpace_le false text
  · exact Nat.le_refl _

def takeWhile (flags : Flags) (p : Char → Bool) : List Char → List Char × List Char
  | [] => ([], [])
  | c :: rest =>
    if p c then
      let (taken, rest) := flags.takeWhile p (flags.skip rest)
      (c :: taken, rest)
    else ([], c :: rest)
termination_by text => text.length
decreasing_by exact Nat.lt_succ_of_le (flags.length_skip_le rest)

end Flags

end LineCensus.Text.Pattern
