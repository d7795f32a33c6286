import LineCensus.Proofs.Utf8.Decoding

/-!
# Decoding in parts

`decode_append` shows that behind a text decoding begins anew, with the faults moved on.
`decode_append_of_error` shows that what is refused up to a byte below 0x80 stays refused in the
same way whatever follows, because such a byte leaves no character open.
-/

namespace LineCensus.Text.Utf8

def Fault.moved (fault : Fault) (bytes : Nat) : Fault :=
  { fault with validUpTo := bytes + fault.validUpTo }

/-- The state when other characters were read before, given latest first. -/
def State.behind (s : State) (before : List Char) (bytes : Nat) : State :=
  { s with done := s.done ++ before, length := bytes + s.length }

theorem read_behind (s : State) (before : List Char) (bytes : Nat) (b : UInt8) :
    (s.behind before bytes).read b =
      match s.read b with
      | .ok next => .ok (next.behind before bytes)
      | .error fault => .error (fault.moved bytes) := by
  cases pending : s.pending with
  | none =>
    have same : (s.behind before bytes).pending = none := pending
    by_cases single : b < 0x80
    · rw [read_single pending single, read_single same single]
      rfl
    · unfold State.read
      simp only [pending, same, if_neg single]
      cases lead b <;> rfl
  | some p =>
    have same : (s.behind before bytes).pending = some p := pending
    rw [read_pending pending, read_pending same]
    by_cases bounds : p.low ≤ b ∧ b ≤ p.high
    · rw [if_pos bounds, if_pos bounds]
      by_cases owed : p.owed = 1
      · rw [if_pos owed, if_pos owed]
        simp [State.behind, Nat.add_assoc]
      · rw [if_neg owed, if_neg owed]
        rfl
    · rw [if_neg bounds, if_neg bounds]
      rfl

theorem scan_behind (s : State) (before : List Char) (bytes : Nat) (input : List UInt8) :
    scan (s.behind before bytes) input =
      match scan s input with
      | .ok next => .ok (next.behind before bytes)
      | .error fault => .error (fault.moved bytes) := by
  induction input generalizing s with
  | nil => rfl
  | cons b rest ih =>
    rw [scan, scan, read_behind]
    cases s.read b with
    | ok next => exact ih next
    | error fault => rfl

theorem decode_append (text : List Char) (rest : List UInt8) :
    decode (encode text ++ rest) =
      match decode rest with
      | .ok more => .ok (text ++ more)
      | .error fault => .error (fault.moved (encode text).length) := by
  have start : ({ done := text.reverse ++ [], length := 0 + (encode text).length } : State) =
      State.behind {} text.reverse (encode text).length := by
    rw [List.append_nil, Nat.zero_add]
    rfl
  rw [decode, scan_append, scan_encode text rfl]
  simp only
  rw [start, scan_behind, decode]
  cases scan {} rest with
  | error fault => rfl
  | ok s =>
    simp only [State.finish, State.behind]
    cases s.pending <;> simp [Fault.moved]

/-- A byte below 0x80 leaves no character open. -/
theorem pending_of_single {s t : State} {input part : List UInt8} {b : UInt8}
    (reads : s.Reads input part) (single : b < 0x80) (h : s.read b = .ok t) : t.pending = none := by
  cases pending : s.pending with
  | none =>
    rw [read_single pending single] at h
    cases h
    rfl
  | some p =>
    have lowest := (reads.holds p pending).bounded.low
    rw [read_pending pending] at h
    rw [UInt8.lt_iff_toNat_lt] at single
    have below : b.toNat < 0x80 := single
    rw [if_neg (by rw [UInt8.le_iff_toNat_le]; omega)] at h
    cases h

theorem decode_append_of_error {input : List UInt8} {b : UInt8} {fault : Fault} (single : b < 0x80)
    (h : decode (input ++ [b]) = .error fault) (rest : List UInt8) :
    decode (input ++ b :: rest) = .error fault := by
  have refused : scan {} (input ++ [b]) = .error fault := by
    unfold decode at h
    split at h
    next t scanned =>
      rw [scan_append] at scanned
      split at scanned
      next s first =>
        obtain ⟨_, reads⟩ := reads_of_scan first
        have last : s.read b = .ok t := by
          rw [scan] at scanned
          split at scanned
          next next read =>
            cases scanned
            exact read
          next => cases scanned
        rw [State.finish, pending_of_single reads single last] at h
        cases h
      next => cases scanned
    next other scanned =>
      cases h
      exact scanned
  rw [List.append_cons, decode, scan_append, refused]

end LineCensus.Text.Utf8
