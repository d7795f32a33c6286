import LineCensus.Text.Pattern.Bracket

/-!
# Reading patterns

`Pattern.ofText?` reads a pattern from its written form: alternatives, repetitions, groups, sets in
brackets, escapes and flags. With the flag for Unicode and without it digits, words and spaces are
those of ASCII, and only ASCII letters have another case: neither the classes of Unicode nor its
case folding are part of the model, so a pattern is read as it is meant if it does without them or
switches the flag off. The names of groups and the size of a pattern are not checked.
-/

namespace LineCensus.Text.Pattern

structure Group where
  /-- The flags in front of the group, which come back behind it. -/
  outside : Flags := {}
  /-- The alternatives before the last bar, the last one first. -/
  earlier : List Pattern := []
  items : List Pattern := []
  deriving Repr

namespace Group

def add (g : Group) (p : Pattern) : Group :=
  { g with items := p :: g.items }

def bar (g : Group) : Group :=
  { g with earlier := row g.items.reverse :: g.earlier, items := [] }

def value (g : Group) : Pattern :=
  choice (row g.items.reverse) g.earlier

def repeated (g : Group) (least : Nat) (most : Option Nat) : Option Group :=
  match g.items with
  | p :: items => some { g with items := times p least most :: items }
  | [] => none

end Group

def readNat (flags : Flags) (text : List Char) : Option (Nat × List Char) :=
  match flags.takeWhile Char.isDigit (text.dropWhile isBlank) with
  | ([], _) => none
  | (digits, rest) =>
    some (digits.foldl (fun n c => 10 * n + (c.toNat - '0'.toNat)) 0,
      flags.skip (rest.dropWhile isBlank))

/-- Reads the bounds of a repetition from behind the opening brace. -/
def readBounds (flags : Flags) (text : List Char) : Option ((Nat × Option Nat) × List Char) := do
  let (least, rest) ← readNat flags (flags.skip text)
  match rest with
  | '\x7d' :: rest => some ((least, some least), flags.skip rest)
  | ',' :: rest =>
    match flags.skip rest with
    | '\x7d' :: rest => some ((least, none), flags.skip rest)
    | rest =>
      let (most, rest) ← readNat flags rest
      match rest with
      | '\x7d' :: rest => if least ≤ most then some ((least, some most), flags.skip rest) else none
      | _ => none
  | _ => none

/-- Drops the mark of a repetition that prefers to be short; whether there is a match does not
depend on it. -/
def dropLazy : List Char → List Char
  | '?' :: rest => rest
  | text => text

/-- Where reading stands: the flags in force, the group opened last and the groups around it. -/
structure Reading where
  flags : Flags := {}
  group : Group := {}
  around : List Group := []
  deriving Repr

namespace Reading

def add (r : Reading) (p : Pattern) : Reading :=
  { r with group := r.group.add p }

def repeated (r : Reading) (least : Nat) (most : Option Nat) : Option Reading :=
  (r.group.repeated least most).map fun group => { r with group }

def openGroup (r : Reading) (flags : Flags) : Reading :=
  { flags, group := { outside := r.flags }, around := r.group :: r.around }

def closeGroup (r : Reading) : Option Reading :=
  match r.around with
  | outer :: around =>
    some { flags := r.group.outside, group := outer.add r.group.value, around }
  | [] => none

/-- Reads what follows an opening parenthesis: a name or flags of a group, or flags for the rest of
the group around it. -/
def readOpening (r : Reading) (text : List Char) : Option (Reading × List Char) :=
  match r.flags.skip text with
  | '?' :: 'P' :: '<' :: rest => some (r.openGroup r.flags, (rest.dropWhile (· != '>')).drop 1)
  | '?' :: '<' :: rest => some (r.openGroup r.flags, (rest.dropWhile (· != '>')).drop 1)
  | '?' :: rest =>
    match r.flags.read true rest with
    | some (flags, ':' :: rest) => some (r.openGroup flags, rest)
    | some (flags, _ :: rest) => some ({ r with flags }, rest)
    | _ => none
  | rest => some (r.openGroup r.flags, rest)

def step (r : Reading) (c : Char) (rest : List Char) : Option (Reading × List Char) :=
  match c with
  | '(' => r.readOpening rest
  | ')' => r.closeGroup.map (·, rest)
  | '|' => some ({ r with group := r.group.bar }, rest)
  | '[' => (Bracket.read r.flags rest).map fun s => (r.add (one s.1), s.2)
  | '*' => (r.repeated 0 none).map (·, dropLazy rest)
  | '+' => (r.repeated 1 none).map (·, dropLazy rest)
  | '?' => (r.repeated 0 (some 1)).map (·, dropLazy rest)
  | '\x7b' => do
    let (bounds, rest) ← readBounds r.flags rest
    let r ← r.repeated bounds.1 bounds.2
    some (r, dropLazy rest)
  | '\\' => (Escape.read r.flags rest).map fun e =>
    match e.1 with
    | .char c => (r.add (r.flags.literal c), e.2)
    | .set s => (r.add (one s), e.2)
    | .look l => (r.add (look l), e.2)
  | '.' => some (r.add r.flags.dot, rest)
  | '^' => some (r.add (look r.flags.caret), rest)
  | '$' => some (r.add (look r.flags.dollar), rest)
  | c => some (r.add (r.flags.literal c), rest)

/-- Reads parts up to the end. Every part takes a character, so the fuel is the number of
characters. -/
def readAll : Nat → Reading → List Char → Option Pattern
  | 0, _, _ => none
  | fuel + 1, r, text =>
    match r.flags.skip text with
    | [] => if r.around.isEmpty then some r.group.value else none
    | c :: rest =>
      match r.step c rest with
      | some (r, rest) => readAll fuel r rest
      | none => none

end Reading

def ofText? (text : String) : Option Pattern :=
  Reading.readAll (text.length + 1) {} text.toList

end LineCensus.Text.Pattern
