import LineCensus.Text.Pattern.Escape

/-!
# Sets in brackets

A set in brackets has characters, ranges, named classes and further sets as its members, and
operators between groups of members, which are taken from the left to the right. `Bracket.read`
reads a set from behind its opening bracket.
-/

namespace LineCensus.Text.Pattern

inductive SetOp where
  | inter
  | diff
  | symmDiff
  deriving DecidableEq, Repr

def SetOp.apply : SetOp → CharSet → CharSet → CharSet
  | inter => .inter
  | diff => .diff
  | symmDiff => .symmDiff

structure Bracket where
  negated : Bool
  /-- The set in front of the last operator, and the operator. -/
  left : Option (CharSet × SetOp) := none
  /-- The members behind the last operator. -/
  members : CharSet := .empty
  deriving Repr

namespace Bracket

def add (b : Bracket) (s : CharSet) : Bracket :=
  { b with members := .union b.members s }

def value (flags : Flags) (b : Bracket) : CharSet :=
  match b.left with
  | some (s, op) => op.apply (flags.fold s) (flags.fold b.members)
  | none => b.members

def operate (flags : Flags) (b : Bracket) (op : SetOp) : Bracket :=
  { b with left := some (b.value flags, op), members := .empty }

def close (flags : Flags) (b : Bracket) : CharSet :=
  let s := flags.fold (b.value flags)
  if b.negated then .compl s else s

/-- Opens a set. At its beginning minus signs, and without one a closing bracket, are members. -/
def opened (flags : Flags) (text : List Char) : Bracket × List Char :=
  let text := flags.skip text
  let (negated, text) :=
    match text with
    | '^' :: rest => (true, flags.skip rest)
    | _ => (false, text)
  match flags.takeWhile (· == '-') text with
  | ([], ']' :: rest) => ({ negated, members := .single ']' }, flags.skip rest)
  | ([], rest) => ({ negated }, rest)
  | (_, rest) => ({ negated, members := .single '-' }, rest)

def readClass (flags : Flags) (text : List Char) : Option (CharSet × List Char) :=
  match text with
  | ':' :: rest =>
    let (negated, rest) :=
      match rest with
      | '^' :: rest => (true, rest)
      | _ => (false, rest)
    match rest.dropWhile (· != ':') with
    | ':' :: ']' :: after =>
      (CharSet.ofName? (String.ofList (rest.takeWhile (· != ':')))).map fun s =>
        (if negated then .compl (flags.fold s) else flags.fold s, after)
    | _ => none
  | _ => none

def readItem (flags : Flags) : List Char → Option (Escape × List Char)
  | [] => none
  | '\\' :: rest => Escape.read flags rest
  | c :: rest => some (.char c, rest)

/-- The character that decides whether a minus sign before it makes a range. Spaces are passed over
where they may stand, and one number sign among them. -/
def afterMinus (flags : Flags) (text : List Char) : Option Char :=
  let next :=
    if flags.spaced then
      match text.dropWhile isBlank with
      | '#' :: rest => rest.dropWhile isBlank
      | rest => rest
    else text
  next.head?.or text.head?

def readMember (flags : Flags) (text : List Char) : Option (CharSet × List Char) := do
  let (first, rest) ← readItem flags text
  match first, flags.skip rest with
  | .look _, _ => none
  | .set s, rest => some (s, rest)
  | .char c, '-' :: rest =>
    if (afterMinus flags rest).any fun d => d == ']' || d == '-' then
      some (.single c, '-' :: rest)
    else
      match readItem flags (flags.skip rest) with
      | some (.char d, rest) => if c ≤ d then some (.range c d, rest) else none
      | _ => none
  | .char c, rest => some (.single c, rest)

/-- Reads members and operators into the set opened last, with the sets around it, until the
outermost is closed. Every round takes a character, so the fuel is the number of characters. -/
def readMembers (flags : Flags) : Nat → Bracket → List Bracket → List Char →
    Option (CharSet × List Char)
  | 0, _, _, _ => none
  | fuel + 1, b, around, text =>
    match flags.skip text with
    | '[' :: rest =>
      match readClass flags rest with
      | some (s, rest) => readMembers flags fuel (b.add s) around rest
      | none =>
        let (inner, rest) := opened flags rest
        readMembers flags fuel inner (b :: around) rest
    | ']' :: rest =>
      match around with
      | outer :: around => readMembers flags fuel (outer.add (b.close flags)) around rest
      | [] => some (b.close flags, rest)
    | '&' :: '&' :: rest => readMembers flags fuel (b.operate flags .inter) around rest
    | '-' :: '-' :: rest => readMembers flags fuel (b.operate flags .diff) around rest
    | '~' :: '~' :: rest => readMembers flags fuel (b.operate flags .symmDiff) around rest
    | text =>
      match readMember flags text with
      | some (s, rest) => readMembers flags fuel (b.add s) around rest
      | none => none

/-- Reads a set from behind its opening bracket. Without Unicode a set has ASCII characters only. -/
def read (flags : Flags) (text : List Char) : Option (CharSet × List Char) :=
  let (b, rest) := opened flags text
  (readMembers flags (text.length + 1) b [] rest).map fun r =>
    (if flags.unicode then r.1 else .inter .ascii r.1, r.2)

end Bracket

end LineCensus.Text.Pattern
