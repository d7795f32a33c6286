/-!
# UTF-8

`encode` writes characters as bytes. `decode` reads bytes one at a time and stops at the first
byte that no character can have at its place; a `Fault` tells how many bytes made whole
characters and how long the beginning of the refused character is.
`scan_append` says that reading can be cut anywhere.
-/

namespace LineCensus.Text.Utf8

def encode (text : List Char) : List UInt8 :=
  text.flatMap String.utf8EncodeChar

def bytes (text : String) : List UInt8 :=
  encode text.toList

/-- Why bytes are no text: `validUpTo` bytes are whole characters, and then `refused` bytes begin
a character that the next byte does not continue; `none` when the bytes end inside a character. -/
structure Fault where
  validUpTo : Nat
  refused : Option Nat
  deriving DecidableEq, Repr

def Fault.message (fault : Fault) : String :=
  match fault.refused with
  | some n => s!"invalid utf-8 sequence of {n} bytes from index {fault.validUpTo}"
  | none => s!"incomplete utf-8 byte sequence from index {fault.validUpTo}"

/-- A character that has begun: the bits and the number of its bytes so far, the number of bytes
still owed, and the bounds of the next one. -/
structure Pending where
  bits : Nat
  seen : Nat
  owed : Nat
  low : UInt8 := 0x80
  high : UInt8 := 0xBF
  deriving DecidableEq, Repr

/-- The characters read, latest first, the number of their bytes, and the one that has begun. -/
structure State where
  done : List Char := []
  length : Nat := 0
  pending : Option Pending := none
  deriving DecidableEq, Repr

/-- The first byte of a longer character. The bounds of the second byte leave out the overlong
forms, the surrogates and what lies beyond U+10FFFF. -/
def lead (b : UInt8) : Option Pending :=
  if b < 0xC2 then none
  else if b < 0xE0 then some { bits := b.toNat - 0xC0, seen := 1, owed := 1 }
  else if b = 0xE0 then some { bits := 0, seen := 1, owed := 2, low := 0xA0 }
  else if b = 0xED then some { bits := 0xD, seen := 1, owed := 2, high := 0x9F }
  else if b < 0xF0 then some { bits := b.toNat - 0xE0, seen := 1, owed := 2 }
  else if b = 0xF0 then some { bits := 0, seen := 1, owed := 3, low := 0x90 }
  else if b < 0xF4 then some { bits := b.toNat - 0xF0, seen := 1, owed := 3 }
  else if b = 0xF4 then some { bits := 4, seen := 1, owed := 3, high := 0x8F }
  else none

def State.read (s : State) (b : UInt8) : Except Fault State :=
  match s.pending with
  | none =>
    if b < 0x80 then
      .ok { done := Char.ofNat b.toNat :: s.done, length := s.length + 1 }
    else
      match lead b with
      | some p => .ok { s with pending := some p }
      | none => .error ⟨s.length, some 1⟩
  | some p =>
    if p.low ≤ b && b ≤ p.high then
      let bits := p.bits * 64 + (b.toNat - 0x80)
      if p.owed = 1 then
        .ok { done := Char.ofNat bits :: s.done, length := s.length + p.seen + 1 }
      else
        .ok { s with pending := some { bits, seen := p.seen + 1, owed := p.owed - 1 } }
    else
      .error ⟨s.length, some p.seen⟩

def State.finish (s : State) : Except Fault (List Char) :=
  match s.pending with
  | none => .ok s.done.reverse
  | some _ => .error ⟨s.length, none⟩

/-- Reads bytes from a state up to the first refusal. -/
def scan (s : State) : List UInt8 → Except Fault State
  | [] => .ok s
  | b :: rest =>
    match s.read b with
    | .ok next => scan next rest
    | .error fault => .error fault

def decode (input : List UInt8) : Except Fault (List Char) :=
  match scan {} input with
  | .ok s => s.finish
  | .error fault => .error fault

theorem scan_append (s : State) (xs ys : List UInt8) :
    scan s (xs ++ ys) =
      match scan s xs with
      | .ok next => scan next ys
      | .error fault => .error fault := by
  induction xs generalizing s with
  | nil => rfl
  | cons b rest ih =>
    simp only [List.cons_append, scan]
    cases s.read b with
    | error fault => rfl
    | ok next => exact ih next

theorem encode_append (xs ys : List Char) : encode (xs ++ ys) = encode xs ++ encode ys := by
  simp [encode]

end LineCensus.Text.Utf8
