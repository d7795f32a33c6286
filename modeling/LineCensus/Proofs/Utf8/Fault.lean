import LineCensus.Proofs.Utf8.Decoding

/-!
# Where decoding stops

`Fault.FirstIn` says without the machine what a fault tells of bytes that are no text: the longest
part in front that is one, and how much of the refused character could still have begun one.
`decode_eq_error_iff` shows that decoding reports exactly this fault.
-/

namespace LineCensus.Text.Utf8

def IsText (input : List UInt8) : Prop :=
  ∃ text, input = encode text

/-- More bytes can make it a text. -/
def BeginsText (input : List UInt8) : Prop :=
  ∃ more, IsText (input ++ more)

/-- The first fault of bytes that are no text. Behind the longest text in front, `refused` counts
the bytes with which a text can go on, but at least one. -/
structure Fault.FirstIn (fault : Fault) (input : List UInt8) : Prop where
  valid : IsText (input.take fault.validUpTo)
  longest : ∀ n ≤ input.length, IsText (input.take n) → n ≤ fault.validUpTo
  inside : fault.validUpTo < input.length
  incomplete : fault.refused = none ↔ BeginsText input
  refused : ∀ k, fault.refused = some k → ∃ m, k = max m 1 ∧
    BeginsText (input.take (fault.validUpTo + m)) ∧
    ¬ BeginsText (input.take (fault.validUpTo + m + 1))

theorem IsText.begins {input : List UInt8} (h : IsText input) : BeginsText input :=
  ⟨[], by rwa [List.append_nil]⟩

theorem BeginsText.take {input : List UInt8} (h : BeginsText input) (n : Nat) :
    BeginsText (input.take n) := by
  obtain ⟨more, isText⟩ := h
  exact ⟨input.drop n ++ more, by rwa [← List.append_assoc, List.take_append_drop]⟩

/-! ### Reading on -/

theorem read_length {s t : State} {b : UInt8} (h : s.read b = .ok t) : s.length ≤ t.length := by
  unfold State.read at h
  repeat' split at h
  all_goals cases h
  all_goals simp only [Nat.le_refl, Nat.le_add_right, Nat.add_assoc]

theorem scan_length {s t : State} {input : List UInt8} (h : scan s input = .ok t) :
    s.length ≤ t.length := by
  induction input generalizing s with
  | nil =>
    cases h
    exact Nat.le_refl _
  | cons b rest ih =>
    rw [scan] at h
    split at h
    next next read => exact Nat.le_trans (read_length read) (ih h)
    next => cases h

/-- A refusal comes at one byte, and everything before it is read. -/
theorem scan_error {s : State} {input : List UInt8} {fault : Fault}
    (h : scan s input = .error fault) :
    ∃ before b after reached, input = before ++ b :: after ∧ scan s before = .ok reached ∧
      reached.read b = .error fault := by
  induction input generalizing s with
  | nil => cases h
  | cons b rest ih =>
    rw [scan] at h
    split at h
    next next read =>
      obtain ⟨before, x, after, reached, rfl, scanned, refused⟩ := ih h
      refine ⟨b :: before, x, after, reached, rfl, ?_, refused⟩
      rw [scan, read]
      exact scanned
    next refusal read =>
      cases h
      exact ⟨[], b, rest, s, rfl, rfl, read⟩

theorem Pending.exists_admits {p : Pending} (bounded : p.Bounded) : ∃ n, p.Admits n := by
  obtain ⟨k, owed⟩ : ∃ k, p.owed = k + 1 := ⟨p.owed - 1, by have := bounded.owed; omega⟩
  refine ⟨(p.bits * 64 + (p.low.toNat - 0x80)) * 64 ^ k, (admits_iff owed).mpr ?_⟩
  have lowest := bounded.low
  have between := bounded.low_le_high
  have highest := bounded.high
  rw [Nat.mul_div_cancel _ (Nat.pow_pos (by decide))]
  omega

theorem reads_begins {s : State} {input part : List UInt8} (reads : s.Reads input part) :
    BeginsText input := by
  cases pending : s.pending with
  | none =>
    refine ⟨[], s.done.reverse, ?_⟩
    rw [reads.input_eq, reads.part_nil pending, List.append_nil, List.append_nil]
  | some p =>
    have holds := reads.holds p pending
    obtain ⟨n, admits⟩ := Pending.exists_admits holds.bounded
    refine ⟨trailers n p.owed, s.done.reverse ++ [Char.ofNat n], ?_⟩
    rw [reads.input_eq, encode_append, List.append_assoc, ← (holds.encode n admits).2]
    simp [encode]

/-- The machine refuses no byte of what can become a text, and the first byte of what cannot. -/
theorem scan_eq_ok_iff {input : List UInt8} :
    (∃ s, scan {} input = .ok s) ↔ BeginsText input := by
  constructor
  · rintro ⟨s, scanned⟩
    obtain ⟨_, reads⟩ := reads_of_scan scanned
    exact reads_begins reads
  · rintro ⟨more, text, whole⟩
    have decoded := decode_eq_ok_iff.mpr whole
    cases scanned : scan {} input with
    | ok s => exact ⟨s, rfl⟩
    | error fault =>
      rw [decode, scan_append, scanned] at decoded
      cases decoded

theorem not_begins_of_refused {before : List UInt8} {b : UInt8} {s : State} {fault : Fault}
    (scanned : scan {} before = .ok s) (refused : s.read b = .error fault) :
    ¬ BeginsText (before ++ [b]) := by
  intro begins
  obtain ⟨t, whole⟩ := scan_eq_ok_iff.mpr begins
  rw [scan_append, scanned] at whole
  simp only [scan, refused] at whole
  cases whole

/-! ### The longest text in front -/

theorem finish_of_isText {s : State} {input : List UInt8} (scanned : scan {} input = .ok s)
    (h : IsText input) : s.pending = none ∧ s.length = input.length := by
  obtain ⟨text, rfl⟩ := h
  rw [scan_encode text rfl] at scanned
  obtain rfl := Except.ok.inj scanned
  exact ⟨rfl, Nat.zero_add _⟩

/-- No text in front ends behind the characters that the machine has read whole. -/
theorem length_of_isText_take {s : State} {before after : List UInt8} {n : Nat}
    (scanned : scan {} before = .ok s) (bound : n ≤ (before ++ after).length)
    (stuck : after = [] ∨
      ∃ b rest, after = b :: rest ∧ ¬ BeginsText (before ++ [b]))
    (h : IsText ((before ++ after).take n)) : n ≤ s.length := by
  by_cases le : n ≤ before.length
  · rw [List.take_append_of_le_length le] at h
    obtain ⟨t, first⟩ := scan_eq_ok_iff.mpr h.begins
    have split : scan t (before.drop n) = .ok s := by
      rw [← List.take_append_drop n before, scan_append, first] at scanned
      exact scanned
    have shorter := scan_length split
    rw [(finish_of_isText first h).2, List.length_take, Nat.min_eq_left le] at shorter
    exact shorter
  · rcases stuck with rfl | ⟨b, rest, rfl, never⟩
    · rw [List.append_nil] at bound
      exact absurd bound le
    · refine absurd (h.begins.take (before.length + 1)) ?_
      rw [List.take_take, Nat.min_eq_left (by omega), List.take_append, List.take_of_length_le (by omega),
        Nat.add_sub_cancel_left]
      exact never

theorem validUpTo_of_read {s : State} {b : UInt8} {fault : Fault}
    (h : s.read b = .error fault) : fault.validUpTo = s.length := by
  unfold State.read at h
  repeat' split at h
  all_goals cases h
  all_goals rfl

/-- How many bytes are refused with a character that has begun, or without one. -/
theorem refused_of_read {s : State} {input part : List UInt8} {b : UInt8} {fault : Fault}
    (reads : s.Reads input part) (h : s.read b = .error fault) :
    fault.refused = some (max part.length 1) := by
  cases pending : s.pending with
  | none =>
    rw [reads.part_nil pending]
    unfold State.read at h
    simp only [pending] at h
    repeat' split at h
    all_goals cases h
    rfl
  | some p =>
    have holds := reads.holds p pending
    rw [read_pending pending] at h
    have positive := holds.bounded.seen
    repeat' split at h
    all_goals cases h
    rw [holds.seen, Nat.max_eq_left positive]

theorem firstIn_of_scan {before rest : List UInt8} {b : UInt8} {s : State} {fault : Fault}
    (scanned : scan {} before = .ok s) (refused : s.read b = .error fault) :
    fault.FirstIn (before ++ b :: rest) := by
  obtain ⟨part, reads⟩ := reads_of_scan scanned
  have never := not_begins_of_refused scanned refused
  have validUpTo := validUpTo_of_read refused
  have length : before.length = fault.validUpTo + part.length := by
    rw [reads.input_eq, List.length_append, validUpTo, reads.length_eq]
  have upTo : (before ++ b :: rest).take (fault.validUpTo + part.length) = before := by
    rw [← length, List.take_left']
    rfl
  have upToNext : (before ++ b :: rest).take (fault.validUpTo + part.length + 1) = before ++ [b] := by
    rw [← length, List.take_append, List.take_of_length_le (by omega), Nat.add_sub_cancel_left]
    rfl
  have notBegins : ¬ BeginsText (before ++ b :: rest) := by
    intro begins
    have cut := begins.take (fault.validUpTo + part.length + 1)
    rw [upToNext] at cut
    exact never cut
  refine ⟨⟨s.done.reverse, ?_⟩, fun n bound isText => ?_, ?_, ?_, fun k same => ?_⟩
  · rw [validUpTo, reads.length_eq, reads.input_eq, List.append_assoc, List.take_left']
    rfl
  · rw [validUpTo]
    exact length_of_isText_take scanned bound (Or.inr ⟨b, rest, rfl, never⟩) isText
  · rw [List.length_append, List.length_cons]
    omega
  · rw [refused_of_read reads refused]
    exact ⟨nofun, fun begins => absurd begins notBegins⟩
  · rw [refused_of_read reads refused] at same
    refine ⟨part.length, (Option.some.inj same).symm, ?_, ?_⟩
    · rw [upTo]
      exact reads_begins reads
    · rw [upToNext]
      exact never

theorem firstIn_of_finish {input : List UInt8} {s : State} {fault : Fault}
    (scanned : scan {} input = .ok s) (open_ : s.finish = .error fault) : fault.FirstIn input := by
  obtain ⟨part, reads⟩ := reads_of_scan scanned
  unfold State.finish at open_
  split at open_
  · cases open_
  next p pending =>
    cases open_
    have holds := reads.holds p pending
    have positive := holds.bounded.seen
    refine ⟨⟨s.done.reverse, ?_⟩, fun n bound isText => ?_, ?_, ⟨fun _ => ?_, fun _ => rfl⟩, nofun⟩
    · rw [reads.length_eq, reads.input_eq, List.take_left']
      rfl
    · rw [← List.append_nil input] at bound isText
      exact length_of_isText_take scanned bound (Or.inl rfl) isText
    · rw [reads.length_eq, reads.input_eq, List.length_append, holds.seen]
      exact Nat.lt_add_of_pos_right positive
    · exact reads_begins reads

theorem firstIn_of_decode {input : List UInt8} {fault : Fault} (h : decode input = .error fault) :
    fault.FirstIn input := by
  unfold decode at h
  split at h
  next s scanned => exact firstIn_of_finish scanned h
  next refusal scanned =>
    cases h
    obtain ⟨before, b, rest, s, rfl, first, refused⟩ := scan_error scanned
    exact firstIn_of_scan first refused

/-! ### There is one first fault -/

theorem Fault.FirstIn.not_isText {fault : Fault} {input : List UInt8} (h : fault.FirstIn input) :
    ¬ IsText input := by
  intro isText
  have most := h.longest input.length (Nat.le_refl _) (by rwa [List.take_length])
  exact absurd h.inside (Nat.not_lt.mpr most)

theorem Fault.FirstIn.refused_le {fault : Fault} {input : List UInt8} {m n : Nat}
    (begins : BeginsText (input.take (fault.validUpTo + m)))
    (stops : ¬ BeginsText (input.take (fault.validUpTo + n + 1))) : m ≤ n := by
  apply Nat.le_of_not_lt
  intro less
  have cut := begins.take (fault.validUpTo + n + 1)
  rw [List.take_take, Nat.min_eq_left (by omega)] at cut
  exact stops cut

theorem Fault.FirstIn.unique {fault other : Fault} {input : List UInt8}
    (h : fault.FirstIn input) (h' : other.FirstIn input) : fault = other := by
  have upTo : fault.validUpTo = other.validUpTo :=
    Nat.le_antisymm (h'.longest _ (Nat.le_of_lt h.inside) h.valid)
      (h.longest _ (Nat.le_of_lt h'.inside) h'.valid)
  have refused : fault.refused = other.refused := by
    cases first : fault.refused with
    | none => exact (h'.incomplete.mpr (h.incomplete.mp first)).symm
    | some k =>
      cases second : other.refused with
      | none =>
        have none := h.incomplete.mpr (h'.incomplete.mp second)
        rw [first] at none
        cases none
      | some l =>
        obtain ⟨m, rfl, begins, stops⟩ := h.refused k first
        obtain ⟨n, rfl, begins', stops'⟩ := h'.refused l second
        rw [← upTo] at begins' stops'
        rw [Nat.le_antisymm (refused_le begins stops') (refused_le begins' stops)]
  obtain ⟨_, _⟩ := fault
  obtain ⟨_, _⟩ := other
  cases upTo
  cases refused
  rfl

theorem decode_eq_error_iff {input : List UInt8} {fault : Fault} :
    decode input = .error fault ↔ fault.FirstIn input := by
  constructor
  · exact firstIn_of_decode
  · intro first
    cases decoded : decode input with
    | ok text => exact absurd ⟨text, decode_eq_ok_iff.mp decoded⟩ first.not_isText
    | error other => rw [(firstIn_of_decode decoded).unique first]

end LineCensus.Text.Utf8
