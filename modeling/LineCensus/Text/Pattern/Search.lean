import LineCensus.Text.Pattern

/-!
# Looking for patterns

`Pattern.occursIn` says whether some part of a text matches. It moves all the places of the text at
the same time: a set of places is a number, whose bit `i` stands for the place before the character
with the index `i`. `occursIn_empty` says that the empty pattern is found in every text.
-/

namespace LineCensus.Text

/-- The indices of the characters that satisfy a condition, as the bits of a number. -/
def bitsWhere (p : Char → Bool) (text : List Char) : Nat :=
  text.foldr (fun c bits => (p c).toNat + 2 * bits) 0

/-- The places where an assertion holds, behind a character if there is one. -/
def Look.places (l : Look) (before : Option Char) : List Char → Nat
  | [] => (l.holds before none).toNat
  | c :: rest => (l.holds before (some c)).toNat + 2 * places l (some c) rest

/-- How a pattern moves the places of a text. -/
inductive Moves where
  | stay
  /-- From the places of a set to the places behind them. -/
  | step (places : Nat)
  /-- Stays at the places of a set. -/
  | guard (places : Nat)
  | seq (first second : Moves)
  | alt (first second : Moves)
  | times (body : Moves) (least most : Nat)
  deriving Repr

namespace Moves

/-- Moves some times, unless a move changes nothing. -/
def iterate (move : Nat → Nat) : Nat → Nat → Nat
  | 0, places => places
  | n + 1, places =>
    let next := move places
    if next = places then places else iterate move n next

/-- Adds the places of a move some times, unless a move adds nothing. -/
def spread (move : Nat → Nat) : Nat → Nat → Nat
  | 0, places => places
  | n + 1, places =>
    let next := places ||| move places
    if next = places then places else spread move n next

def apply : Moves → Nat → Nat
  | stay, places => places
  | step mask, places => (places &&& mask) <<< 1
  | guard mask, places => places &&& mask
  | seq first second, places => second.apply (first.apply places)
  | alt first second, places => first.apply places ||| second.apply places
  | times body least most, places =>
    spread body.apply (most - least) (iterate body.apply least places)

end Moves

namespace Pattern

/-- The moves of a pattern in a text. Without a limit as many repetitions are enough as the text has
places, for each adds a place or changes nothing. -/
def moves (text : List Char) : Pattern → Moves
  | empty => .stay
  | one set => .step (bitsWhere set.has text)
  | look l => .guard (l.places none text)
  | seq first second => .seq (first.moves text) (second.moves text)
  | alt first second => .alt (first.moves text) (second.moves text)
  | times body least most =>
    .times (body.moves text) least (most.getD (least + text.length + 1))

def everywhere (text : List Char) : Nat :=
  1 + 2 * bitsWhere (fun _ => true) text

def occursIn (p : Pattern) (text : String) : Bool :=
  (p.moves text.toList).apply (everywhere text.toList) ≠ 0

theorem occursIn_empty (text : String) : occursIn empty text = true := by
  simp only [occursIn, moves, Moves.apply, everywhere, decide_eq_true_eq]
  omega

end Pattern

end LineCensus.Text
