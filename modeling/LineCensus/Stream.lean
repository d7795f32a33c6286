/-!
# Byte streams and their pieces

A stream delivers chunks of bytes, passing interruptions and failures. `readPiece` reads one piece
of it: up to and including a newline, or up to a failure or the end. A piece may take any number of
chunks, and what stands behind the newline in its chunk is left for the next one. `pieces` are all
pieces in order.

What can be seen of a stream apart from its chunks are its `signals`, and `cut` says what pieces
they make. `cut_bytes` says that cutting loses no byte.
-/

namespace LineCensus

inductive Stream.Event where
  /-- Some bytes. A chunk without any is passed over; only the end of the list is the end of the
  stream. -/
  | chunk (bytes : List UInt8)
  /-- Nothing happened; the reader asks again. -/
  | interrupted
  | failed (report : String)
  deriving DecidableEq, Repr

/-- What a stream does until it ends. -/
abbrev Stream := List Stream.Event

namespace Stream

/-- The bytes up to and including a newline, or up to a failure or the end of the stream. -/
structure Piece where
  bytes : List UInt8
  failure : Option String := none
  deriving DecidableEq, Repr

def newline : UInt8 := 0x0A

/-! ### Reading -/

/-- Reads on a piece of which some bytes are read already. What is left of the stream comes with
it. -/
def readFrom (begun : List UInt8) : Stream → Option (Piece × Stream)
  | [] => if begun.isEmpty then none else some ({ bytes := begun }, [])
  | .interrupted :: rest => readFrom begun rest
  | .failed report :: rest => some ({ bytes := begun, failure := some report }, rest)
  | .chunk bytes :: rest =>
    match bytes.dropWhile (· != newline) with
    | [] => readFrom (begun ++ bytes) rest
    | b :: more =>
      some ({ bytes := begun ++ bytes.takeWhile (· != newline) ++ [b] }, .chunk more :: rest)

/-- The first piece, or nothing at the end of the stream. -/
def readPiece (stream : Stream) : Option (Piece × Stream) :=
  readFrom [] stream

def size : Stream → Nat
  | [] => 0
  | .chunk bytes :: rest => bytes.length + 1 + size rest
  | _ :: rest => 1 + size rest

theorem size_readFrom {begun : List UInt8} {stream rest : Stream} {piece : Piece}
    (read : readFrom begun stream = some (piece, rest)) : rest.size < begun.length + stream.size := by
  induction stream generalizing begun with
  | nil =>
    cases begun with
    | nil => simp [readFrom] at read
    | cons b more =>
      simp only [readFrom, List.isEmpty_cons, Bool.false_eq_true, if_false, Option.some.injEq,
        Prod.mk.injEq] at read
      obtain ⟨_, rfl⟩ := read
      simp [size]
  | cons event later ih =>
    cases event with
    | interrupted =>
      have less := ih read
      simp only [size]
      omega
    | failed report =>
      simp only [readFrom, Option.some.injEq, Prod.mk.injEq] at read
      obtain ⟨_, rfl⟩ := read
      simp only [size]
      omega
    | chunk bytes =>
      simp only [readFrom] at read
      split at read
      · have less := ih read
        simp only [List.length_append, size] at less ⊢
        omega
      · next b more cut =>
        have shorter := (List.dropWhile_sublist (· != newline) (l := bytes)).length_le
        simp only [Option.some.injEq, Prod.mk.injEq] at read
        obtain ⟨_, rfl⟩ := read
        simp only [cut, List.length_cons, size] at shorter ⊢
        omega

def pieces (stream : Stream) : List Piece :=
  match read : stream.readPiece with
  | none => []
  | some (piece, rest) =>
    have : rest.size < stream.size := by simpa using size_readFrom read
    piece :: pieces rest
termination_by stream.size

def ofBytes (bytes : List UInt8) : Stream :=
  [.chunk bytes]

/-! ### Bytes and failures -/

inductive Signal where
  | byte (b : UInt8)
  | failure (report : String)
  deriving DecidableEq, Repr

def Event.signals : Event → List Signal
  | .chunk bytes => bytes.map .byte
  | .interrupted => []
  | .failed report => [.failure report]

def signals (stream : Stream) : List Signal :=
  stream.flatMap Event.signals

def Signal.join (s : Signal) (pieces : List Piece) : List Piece :=
  match s with
  | .failure report => { bytes := [], failure := some report } :: pieces
  | .byte b =>
    if b = newline then { bytes := [b] } :: pieces
    else
      match pieces with
      | [] => [{ bytes := [b] }]
      | p :: rest => { p with bytes := b :: p.bytes } :: rest

/-- Cuts after every newline and at every failure. -/
def cut (signals : List Signal) : List Piece :=
  signals.foldr Signal.join []

/-- The bytes of some signals, failures left out. -/
def delivered (signals : List Signal) : List UInt8 :=
  signals.filterMap fun
    | .byte b => some b
    | .failure _ => none

theorem join_bytes (s : Signal) (pieces : List Piece) :
    (s.join pieces).flatMap Piece.bytes = delivered [s] ++ pieces.flatMap Piece.bytes := by
  cases s with
  | failure report => simp [Signal.join, delivered]
  | byte b =>
    by_cases h : b = newline
    · simp [Signal.join, delivered, h]
    · cases pieces <;> simp [Signal.join, delivered, h]

theorem cut_bytes (signals : List Signal) :
    (cut signals).flatMap Piece.bytes = delivered signals := by
  induction signals with
  | nil => rfl
  | cons s rest ih =>
    have h := join_bytes s (cut rest)
    rw [ih] at h
    simpa [cut, delivered, ← List.filterMap_append] using h

end Stream

end LineCensus
