import LineCensus.Text.Utf8

/-!
# Control sequences

A terminal takes control characters and the sequences behind an escape character as orders.
`Terminal.plain` is a text without them. `shown_of_no_escape` says that a text without escape
characters loses only the characters that are never shown.
-/

namespace LineCensus.Text.Terminal

/-- What an escape character has begun. -/
inductive Sequence where
  | escape
  /-- An escape sequence that its last character has yet to end. -/
  | intermediate
  /-- A control sequence, behind an opening bracket. -/
  | control
  /-- A command to the system, behind a closing bracket. -/
  | command
  /-- A string for a device, behind a `P`. -/
  | device
  | deviceParameters
  | deviceIntermediate
  /-- A string that is of no concern. -/
  | data
  deriving DecidableEq, Repr

def stringEnd : UInt8 := 0x9C

namespace Sequence

/-- The sequence behind an escape character and one more. -/
def ofChar (c : Char) : Option Sequence :=
  if ' ' ≤ c ∧ c ≤ '/' then some intermediate
  else if c = '[' then some control
  else if c = ']' then some command
  else if c = 'P' then some device
  else if c = 'X' ∨ c = '^' ∨ c = '_' then some data
  else if '0' ≤ c ∧ c ≤ '~' then none
  else some escape

/-- What is left of a sequence behind one more of its characters. An escape character begins
another, and cancel and substitute end every one. -/
def next (s : Sequence) (c : Char) : Option Sequence :=
  if c = '\x1b' then some escape
  else if c = '\x18' ∨ c = '\x1a' then none
  else
    match s with
    | escape => ofChar c
    | intermediate => if '0' ≤ c ∧ c ≤ '~' then none else some intermediate
    | control => if '@' ≤ c ∧ c ≤ '~' then none else some control
    | command => if c = '\x07' then none else some command
    | device =>
      if ' ' ≤ c ∧ c ≤ '/' then some deviceIntermediate
      else if c = ':' then some data
      else if '0' ≤ c ∧ c ≤ '?' then some deviceParameters
      else if '@' ≤ c ∧ c ≤ '~' then some data
      else some device
    | deviceParameters =>
      if ' ' ≤ c ∧ c ≤ '/' then some deviceIntermediate
      else if c = ':' ∨ ('<' ≤ c ∧ c ≤ '~') then some data
      else some deviceParameters
    | deviceIntermediate => if '0' ≤ c ∧ c ≤ '~' then some data else some deviceIntermediate
    | data => if stringEnd ∈ Utf8.encode [c] then none else some data

def showsBlanks : Sequence → Bool
  | escape | intermediate | control => true
  | _ => false

end Sequence

def isBlankControl (c : Char) : Bool :=
  c == '\t' || c == '\n' || c == '\x0c' || c == '\r'

def isShown (c : Char) : Bool :=
  (' ' ≤ c && c != '\x7f') || isBlankControl c

/-- Where a text is read: among plain characters, perhaps behind a blank in a sequence, or in a
sequence. -/
inductive State where
  | text (broken : Option Sequence)
  | within (s : Sequence)
  deriving DecidableEq, Repr

def State.ofSequence : Option Sequence → State
  | some s => within s
  | none => text none

/-- Behind a control character among plain ones the sequence goes on that a blank has broken. -/
def resume (broken : Option Sequence) (c : Char) : State :=
  match broken with
  | some s => .ofSequence (s.next c)
  | none => if c = '\x1b' then .within .escape else .text none

/-- What is shown of a text. With `resuming` a blank in a sequence only breaks it until the next
control character; otherwise it ends the sequence. -/
def shown (resuming : Bool) : State → List Char → List Char
  | _, [] => []
  | .text broken, c :: rest =>
    if isShown c then
      c :: shown resuming (.text (if c.toNat < 0x80 then broken else none)) rest
    else shown resuming (resume broken c) rest
  | .within s, c :: rest =>
    if s.showsBlanks && isBlankControl c then
      c :: shown resuming (.text (if resuming then some s else none)) rest
    else shown resuming (.ofSequence (s.next c)) rest

def plain (resuming : Bool) (text : String) : String :=
  String.ofList (shown resuming (.text none) text.toList)

theorem shown_of_no_escape (resuming : Bool) {text : List Char} (free : '\x1b' ∉ text) :
    shown resuming (.text none) text = text.filter isShown := by
  induction text with
  | nil => rfl
  | cons c rest ih =>
    obtain ⟨other, free⟩ := List.ne_and_not_mem_of_not_mem_cons free
    rw [shown, ite_self, resume, if_neg (Ne.symm other), ih free, List.filter_cons]

end LineCensus.Text.Terminal
