import LineCensus.Text.Hex
import LineCensus.Text.Pattern.Flags

/-!
# Escapes

What a backslash and the characters behind it stand for: a character, a set of characters, or an
assertion. `Escape.read` reads one from behind the backslash.
-/

namespace LineCensus.Text.Pattern

inductive Escape where
  | char (c : Char)
  | set (s : CharSet)
  | look (l : Look)
  deriving DecidableEq, Repr

namespace Escape

/-! ### Numbers of characters -/

def ofHex? (digits : List Char) : Option Char := do
  let n ← digits.foldlM (fun n c => (hexDigit? c).map (16 * n + ·)) 0
  if n.isValidChar then some (Char.ofNat n) else none

/-- Takes a number of characters, leaving out what stands between them and behind them. -/
def takeDigits (flags : Flags) : Nat → List Char → Option (List Char × List Char)
  | 0, text => some ([], text)
  | _ + 1, [] => none
  | n + 1, c :: rest =>
    (takeDigits flags n (flags.skip rest)).map fun taken => (c :: taken.1, taken.2)

def readHex (flags : Flags) (digits : Nat) (text : List Char) : Option (Escape × List Char) := do
  match flags.skip text with
  | '\x7b' :: rest =>
    let (taken, rest) := flags.takeWhile (· != '\x7d') (flags.skip rest)
    let c ← ofHex? taken
    match rest with
    | _ :: rest => some (char c, rest)
    | [] => none
  | text =>
    let (taken, rest) ← takeDigits flags digits text
    let c ← ofHex? taken
    some (char c, rest)

/-! ### Words -/

def lookOfName? : String → Option Look
  | "start" => some .wordStart
  | "end" => some .wordEnd
  | "start-half" => some .wordStartHalf
  | "end-half" => some .wordEndHalf
  | _ => none

/-- Reads the name of an assertion about words in braces. Braces that begin otherwise are the bounds
of a repetition. -/
def readBoundary (flags : Flags) (text : List Char) : Option (Escape × List Char) :=
  match text with
  | '\x7b' :: rest =>
    match flags.takeWhile (fun c => c.isAlpha || c == '-') (flags.skip rest) with
    | ([], _) => some (look .wordBoundary, text)
    | (name, '\x7d' :: rest) => (lookOfName? (String.ofList name)).map fun l => (look l, rest)
    | _ => none
  | _ => some (look .wordBoundary, text)

/-- Reads an escape. Of the ASCII characters those that are no letters and no digits stand for
themselves, but for the angle brackets. -/
def read (flags : Flags) : List Char → Option (Escape × List Char)
  | [] => none
  | c :: rest =>
    match c with
    | 'x' => readHex flags 2 rest
    | 'u' => readHex flags 4 rest
    | 'U' => readHex flags 8 rest
    | 'd' => some (set .digits, rest)
    | 's' => some (set .spaces, rest)
    | 'w' => some (set .words, rest)
    | 'D' => some (set (.compl .digits), rest)
    | 'S' => some (set (.compl .spaces), rest)
    | 'W' => some (set (.compl .words), rest)
    | 'a' => some (char '\x07', rest)
    | 'f' => some (char '\x0c', rest)
    | 'n' => some (char '\n', rest)
    | 'r' => some (char '\r', rest)
    | 't' => some (char '\t', rest)
    | 'v' => some (char '\x0b', rest)
    | 'A' => some (look .textStart, rest)
    | 'z' => some (look .textEnd, rest)
    | 'b' => readBoundary flags rest
    | 'B' => some (look .notWordBoundary, rest)
    | '<' => some (look .wordStart, rest)
    | '>' => some (look .wordEnd, rest)
    | c => if CharSet.ascii.has c && !c.isAlphanum then some (char c, rest) else none

end Escape

end LineCensus.Text.Pattern
