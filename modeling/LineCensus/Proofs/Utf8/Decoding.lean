import Mathlib.Algebra.Group.Nat.Defs
import LineCensus.Text.Utf8

/-!
# What decoding accepts

A number is written as a first byte and `trailers`, six bits each. A pending character stands for
the numbers that it `Admits`: those with the bits read so far whose next byte is within the bounds.
`State.Reads` ties the state of the machine to the bytes it has read. `decode_eq_ok_iff` shows that
decoding accepts exactly the bytes of texts.
-/

namespace LineCensus.Text.Utf8

def trailer (n k : Nat) : UInt8 :=
  UInt8.ofNat (0x80 + n / 64 ^ k % 64)

def trailers (n : Nat) : Nat → List UInt8
  | 0 => []
  | k + 1 => trailer n k :: trailers n k

theorem toNat_trailer (n k : Nat) : (trailer n k).toNat = 0x80 + n / 64 ^ k % 64 := by
  simp only [trailer, UInt8.toNat_ofNat']
  omega

theorem length_trailers (n k : Nat) : (trailers n k).length = k := by
  induction k with
  | zero => rfl
  | succ k ih => rw [trailers, List.length_cons, ih]

theorem div_pow_succ (n k : Nat) : n / 64 ^ (k + 1) = n / 64 ^ k / 64 := by
  rw [Nat.pow_succ, Nat.div_div_eq_div_mul]

/-- The numbers that a character may still turn out to have. -/
structure Pending.Admits (p : Pending) (n : Nat) : Prop where
  bits : n / 64 ^ p.owed = p.bits
  low : p.low ≤ trailer n (p.owed - 1)
  high : trailer n (p.owed - 1) ≤ p.high

theorem Pending.admits_iff {p : Pending} {n k : Nat} (owed : p.owed = k + 1) :
    p.Admits n ↔ n / 64 ^ k / 64 = p.bits ∧ p.low.toNat ≤ 0x80 + n / 64 ^ k % 64 ∧
      0x80 + n / 64 ^ k % 64 ≤ p.high.toNat := by
  constructor
  · rintro ⟨bits, low, high⟩
    rw [owed] at bits low high
    rw [UInt8.le_iff_toNat_le, Nat.add_sub_cancel, toNat_trailer] at low high
    exact ⟨div_pow_succ n k ▸ bits, low, high⟩
  · rintro ⟨bits, low, high⟩
    refine ⟨by rw [owed, div_pow_succ, bits], ?_, ?_⟩ <;>
      rwa [UInt8.le_iff_toNat_le, owed, Nat.add_sub_cancel, toNat_trailer]

/-! ### Reading the bytes of a character -/

def Pending.next (p : Pending) (b : UInt8) : Pending where
  bits := p.bits * 64 + (b.toNat - 0x80)
  seen := p.seen + 1
  owed := p.owed - 1

/-- The bounds of a pending character are those of a trailing byte at most. -/
structure Pending.Bounded (p : Pending) : Prop where
  seen : 0 < p.seen
  owed : 0 < p.owed
  low : 0x80 ≤ p.low.toNat
  low_le_high : p.low.toNat ≤ p.high.toNat
  high : p.high.toNat ≤ 0xBF

theorem Pending.owed_next (p : Pending) (b : UInt8) : (p.next b).owed = p.owed - 1 := rfl

theorem Pending.low_next (p : Pending) (b : UInt8) : (p.next b).low = 0x80 := rfl

theorem Pending.high_next (p : Pending) (b : UInt8) : (p.next b).high = 0xBF := rfl

theorem Pending.bounded_next {p : Pending} (b : UInt8) (h : 1 < p.owed) :
    (p.next b).Bounded := by
  refine ⟨Nat.succ_pos p.seen, ?_, ?_, ?_, ?_⟩
  · rw [owed_next]
    omega
  · rw [low_next]
    decide
  · rw [low_next, high_next]
    decide
  · rw [high_next]
    decide

theorem read_pending {s : State} {p : Pending} {b : UInt8} (pending : s.pending = some p) :
    s.read b =
      if p.low ≤ b ∧ b ≤ p.high then
        if p.owed = 1 then
          .ok { done := Char.ofNat (p.bits * 64 + (b.toNat - 0x80)) :: s.done
                length := s.length + p.seen + 1 }
        else .ok { s with pending := some (p.next b) }
      else .error ⟨s.length, some p.seen⟩ := by
  unfold State.read
  rw [pending]
  simp only [Bool.and_eq_true, decide_eq_true_eq]
  rfl

/-- What a pending character admits after one more byte is what it admitted with that byte. -/
theorem Pending.admits_next {p : Pending} {b : UInt8} {n k : Nat} (bounded : p.Bounded)
    (owed : p.owed = k + 2) (low : p.low ≤ b) (high : b ≤ p.high) :
    (p.next b).Admits n ↔ p.Admits n ∧ trailer n (k + 1) = b := by
  have nextOwed : (p.next b).owed = k + 1 := by rw [owed_next]; omega
  have lowest := bounded.low
  have highest := bounded.high
  rw [UInt8.le_iff_toNat_le] at low high
  rw [admits_iff nextOwed, admits_iff owed, ← UInt8.toNat_inj, toNat_trailer, div_pow_succ]
  rw [low_next, high_next, show (0x80 : UInt8).toNat = 0x80 from rfl,
    show (0xBF : UInt8).toNat = 0xBF from rfl, show (p.next b).bits = p.bits * 64 + (b.toNat - 0x80) from rfl]
  omega

theorem Pending.admits_last {p : Pending} {b : UInt8} {n : Nat} (bounded : p.Bounded)
    (owed : p.owed = 1) (low : p.low ≤ b) (high : b ≤ p.high) :
    p.Admits n ∧ trailer n 0 = b ↔ n = p.bits * 64 + (b.toNat - 0x80) := by
  have lowest := bounded.low
  have highest := bounded.high
  rw [UInt8.le_iff_toNat_le] at low high
  rw [admits_iff (show p.owed = 0 + 1 from owed), ← UInt8.toNat_inj, toNat_trailer]
  simp only [Nat.pow_zero, Nat.div_one]
  omega

theorem scan_trailers {s : State} {p : Pending} {n k : Nat} (pending : s.pending = some p)
    (bounded : p.Bounded) (owed : p.owed = k + 1) (admits : p.Admits n) :
    scan s (trailers n (k + 1)) =
      .ok { done := Char.ofNat n :: s.done, length := s.length + p.seen + p.owed } := by
  induction k generalizing s p with
  | zero =>
    have low := admits.low
    have high := admits.high
    simp only [owed, Nat.sub_self, Nat.zero_add] at low high
    have number := (Pending.admits_last bounded owed low high).mp ⟨admits, rfl⟩
    rw [trailers, scan, read_pending pending, if_pos ⟨low, high⟩, if_pos owed, ← number, owed]
    rfl
  | succ k ih =>
    have low := admits.low
    have high := admits.high
    simp only [owed, Nat.add_sub_cancel] at low high
    have nextOwed : (p.next (trailer n (k + 1))).owed = k + 1 := by rw [Pending.owed_next]; omega
    have nextAdmits := (Pending.admits_next bounded owed low high).mpr ⟨admits, rfl⟩
    rw [trailers, scan, read_pending pending, if_pos ⟨low, high⟩, if_neg (by omega)]
    simp only
    rw [ih rfl (p.bounded_next _ (by omega)) nextOwed nextAdmits, nextOwed, owed,
      show (p.next (trailer n (k + 1))).seen = p.seen + 1 from rfl]
    simp only [Except.ok.injEq, State.mk.injEq, true_and, and_true]
    omega

/-! ### First bytes -/

theorem encodeChar_eq (c : Char) :
    String.utf8EncodeChar c =
      if c.toNat < 0x80 then [UInt8.ofNat c.toNat]
      else if c.toNat < 0x800 then UInt8.ofNat (0xC0 + c.toNat / 64) :: trailers c.toNat 1
      else if c.toNat < 0x10000 then UInt8.ofNat (0xE0 + c.toNat / 4096) :: trailers c.toNat 2
      else UInt8.ofNat (0xF0 + c.toNat / 262144) :: trailers c.toNat 3 := by
  have valid : c.toNat < 0x110000 := by
    rcases c.valid with h | h
    · exact Nat.lt_trans h (by decide)
    · exact h.2
  unfold String.utf8EncodeChar
  rw [show c.val.toNat = c.toNat from rfl]
  generalize c.toNat = n at valid
  have second : UInt8.ofNat (n % 64 + 0x80) = trailer n 0 := by
    rw [trailer, Nat.pow_zero, Nat.div_one, Nat.add_comm]
  have third : UInt8.ofNat (n / 64 % 64 + 0x80) = trailer n 1 := by
    rw [trailer, Nat.pow_one, Nat.add_comm]
  have fourth : UInt8.ofNat (n / 4096 % 64 + 0x80) = trailer n 2 := by
    rw [trailer, show 64 ^ 2 = 4096 from rfl, Nat.add_comm]
  simp only [trailers, second, third, fourth]
  by_cases one : n < 0x80
  · rw [if_pos (by omega), if_pos one]
  rw [if_neg (by omega), if_neg one]
  by_cases two : n < 0x800
  · rw [if_pos (by omega), if_pos two, Nat.mod_eq_of_lt (by omega), Nat.add_comm]
  rw [if_neg (by omega), if_neg two]
  by_cases three : n < 0x10000
  · rw [if_pos (by omega), if_pos three, Nat.mod_eq_of_lt (by omega), Nat.add_comm]
  rw [if_neg (by omega), if_neg three, Nat.mod_eq_of_lt (by omega), Nat.add_comm]

theorem toNat_ofNat {n : Nat} (valid : n.isValidChar) : (Char.ofNat n).toNat = n := by
  rw [Char.ofNat, dif_pos valid]
  rfl

theorem isValidChar_iff (n : Nat) :
    n.isValidChar ↔ n < 0xD800 ∨ 0xDFFF < n ∧ n < 0x110000 :=
  Iff.rfl

theorem encode_two {n : Nat} {b : UInt8} (low : 0x80 ≤ n) (high : n < 0x800)
    (first : 0xC0 + n / 64 = b.toNat) :
    n.isValidChar ∧ String.utf8EncodeChar (Char.ofNat n) = b :: trailers n 1 := by
  have valid : n.isValidChar := by rw [isValidChar_iff]; omega
  rw [encodeChar_eq, toNat_ofNat valid, if_neg (by omega), if_pos high, first, UInt8.ofNat_toNat]
  exact ⟨valid, rfl⟩

theorem encode_three {n : Nat} {b : UInt8} (valid : n.isValidChar) (low : 0x800 ≤ n)
    (high : n < 0x10000) (first : 0xE0 + n / 4096 = b.toNat) :
    n.isValidChar ∧ String.utf8EncodeChar (Char.ofNat n) = b :: trailers n 2 := by
  rw [encodeChar_eq, toNat_ofNat valid, if_neg (by omega), if_neg (by omega), if_pos high, first,
    UInt8.ofNat_toNat]
  exact ⟨valid, rfl⟩

theorem encode_four {n : Nat} {b : UInt8} (low : 0x10000 ≤ n) (high : n < 0x110000)
    (first : 0xF0 + n / 262144 = b.toNat) :
    n.isValidChar ∧ String.utf8EncodeChar (Char.ofNat n) = b :: trailers n 3 := by
  have valid : n.isValidChar := by rw [isValidChar_iff]; omega
  rw [encodeChar_eq, toNat_ofNat valid, if_neg (by omega), if_neg (by omega), if_neg (by omega),
    first, UInt8.ofNat_toNat]
  exact ⟨valid, rfl⟩

/-- The bytes read of a pending character are those of every character it may turn out to be. -/
structure Pending.Holds (p : Pending) (part : List UInt8) : Prop where
  seen : part.length = p.seen
  bounded : p.Bounded
  encode : ∀ n, p.Admits n →
    n.isValidChar ∧ String.utf8EncodeChar (Char.ofNat n) = part ++ trailers n p.owed

theorem lead_holds {b : UInt8} {p : Pending} (h : lead b = some p) : p.Holds [b] := by
  have below := b.toNat_lt
  unfold lead at h
  simp only [UInt8.lt_iff_toNat_lt, ← UInt8.toNat_inj, UInt8.reduceToNat] at h
  -- One range of first bytes is for two bytes, three are for three and three for four.
  repeat' split at h
  all_goals simp only [reduceCtorEq, Option.some.injEq] at h
  all_goals subst h
  all_goals
    refine ⟨rfl, ?_, fun n admits => ?_⟩
    · constructor <;> dsimp only <;> decide
  · have bounds := (Pending.admits_iff (k := 0) rfl).mp admits
    simp only [Nat.pow_zero, Nat.div_one] at bounds
    exact encode_two (by omega) (by omega) (by omega)
  iterate 3
    · have bounds := (Pending.admits_iff (k := 1) rfl).mp admits
      simp only [UInt8.reduceToNat, Nat.pow_one] at bounds
      refine encode_three ?_ (by omega) (by omega) (by omega)
      rw [isValidChar_iff]
      omega
  iterate 3
    · have bounds := (Pending.admits_iff (k := 2) rfl).mp admits
      simp only [UInt8.reduceToNat, Nat.reducePow] at bounds
      exact encode_four (by omega) (by omega) (by omega)

/-- The first byte of a longer character leads to a pending one that admits it. -/
theorem lead_of_first {n : Nat} {b : UInt8} (valid : n.isValidChar)
    (first : 0x80 ≤ n ∧ n < 0x800 ∧ b.toNat = 0xC0 + n / 64 ∨
      0x800 ≤ n ∧ n < 0x10000 ∧ b.toNat = 0xE0 + n / 4096 ∨
      0x10000 ≤ n ∧ b.toNat = 0xF0 + n / 262144) :
    ∃ p, lead b = some p ∧ p.Admits n := by
  rw [isValidChar_iff] at valid
  unfold lead
  simp only [UInt8.lt_iff_toNat_lt, ← UInt8.toNat_inj, UInt8.reduceToNat]
  split
  · omega
  split
  · refine ⟨_, rfl, (Pending.admits_iff (k := 0) rfl).mpr ?_⟩
    simp only [UInt8.reduceToNat, Nat.pow_zero, Nat.div_one]
    omega
  iterate 3
    split
    · refine ⟨_, rfl, (Pending.admits_iff (k := 1) rfl).mpr ?_⟩
      simp only [UInt8.reduceToNat, Nat.pow_one]
      omega
  iterate 3
    split
    · refine ⟨_, rfl, (Pending.admits_iff (k := 2) rfl).mpr ?_⟩
      simp only [UInt8.reduceToNat, Nat.reducePow]
      omega
  omega

/-! ### Texts are decoded -/

theorem read_single {s : State} {b : UInt8} (pending : s.pending = none) (h : b < 0x80) :
    s.read b = .ok { done := Char.ofNat b.toNat :: s.done, length := s.length + 1 } := by
  unfold State.read
  rw [pending]
  exact if_pos h

theorem not_lt_of_lead {b : UInt8} {p : Pending} (h : lead b = some p) : ¬ b < 0x80 := by
  intro small
  unfold lead at h
  rw [if_pos (by rw [UInt8.lt_iff_toNat_lt] at small ⊢; exact Nat.lt_trans small (by decide))] at h
  cases h

theorem read_lead {s : State} {b : UInt8} {p : Pending} (pending : s.pending = none)
    (h : lead b = some p) : s.read b = .ok { s with pending := some p } := by
  unfold State.read
  rw [pending]
  simp only [if_neg (not_lt_of_lead h), h]

theorem exists_first (c : Char) (h : 0x80 ≤ c.toNat) :
    ∃ b p, lead b = some p ∧ p.Admits c.toNat := by
  have valid : c.toNat.isValidChar := c.valid
  have bound := (isValidChar_iff _).mp valid
  by_cases two : c.toNat < 0x800
  · have first : (UInt8.ofNat (0xC0 + c.toNat / 64)).toNat = 0xC0 + c.toNat / 64 := by
      rw [UInt8.toNat_ofNat']
      omega
    exact ⟨_, lead_of_first valid (Or.inl ⟨h, two, first⟩)⟩
  by_cases three : c.toNat < 0x10000
  · have first : (UInt8.ofNat (0xE0 + c.toNat / 4096)).toNat = 0xE0 + c.toNat / 4096 := by
      rw [UInt8.toNat_ofNat']
      omega
    exact ⟨_, lead_of_first valid (Or.inr (Or.inl ⟨by omega, three, first⟩))⟩
  · have first : (UInt8.ofNat (0xF0 + c.toNat / 262144)).toNat = 0xF0 + c.toNat / 262144 := by
      rw [UInt8.toNat_ofNat']
      omega
    exact ⟨_, lead_of_first valid (Or.inr (Or.inr ⟨by omega, first⟩))⟩

theorem scan_encodeChar {s : State} (c : Char) (pending : s.pending = none) :
    scan s (String.utf8EncodeChar c) =
      .ok { done := c :: s.done, length := s.length + (String.utf8EncodeChar c).length } := by
  by_cases small : c.toNat < 0x80
  · have byte : (UInt8.ofNat c.toNat).toNat = c.toNat := by
      rw [UInt8.toNat_ofNat']
      omega
    rw [encodeChar_eq, if_pos small, scan, read_single pending, byte, Char.ofNat_toNat]
    · rfl
    · rw [UInt8.lt_iff_toNat_lt, byte]
      exact small
  · obtain ⟨b, p, first, admits⟩ := exists_first c (by omega)
    have holds := lead_holds first
    obtain ⟨k, owed⟩ : ∃ k, p.owed = k + 1 := ⟨p.owed - 1, by have := holds.bounded.owed; omega⟩
    have bytes := (holds.encode _ admits).2
    rw [Char.ofNat_toNat] at bytes
    rw [bytes, List.singleton_append, scan, read_lead pending first, owed]
    simp only
    rw [scan_trailers rfl holds.bounded owed admits, ← holds.seen, owed, Char.ofNat_toNat]
    simp only [List.length_cons, List.length_nil, length_trailers, Except.ok.injEq, State.mk.injEq,
      true_and, and_true]
    omega

theorem scan_encode {s : State} (text : List Char) (pending : s.pending = none) :
    scan s (encode text) =
      .ok { done := text.reverse ++ s.done, length := s.length + (encode text).length } := by
  induction text generalizing s with
  | nil =>
    obtain ⟨done, length, _⟩ := s
    cases pending
    rfl
  | cons c rest ih =>
    have split : encode (c :: rest) = String.utf8EncodeChar c ++ encode rest := rfl
    rw [split, scan_append, scan_encodeChar c pending]
    simp only
    rw [ih rfl, List.length_append, List.reverse_cons, List.append_assoc, Nat.add_assoc]
    rfl

theorem decode_encode (text : List Char) : decode (encode text) = .ok text := by
  rw [decode, scan_encode text rfl]
  simp [State.finish]

/-! ### What is decoded is a text -/

theorem Pending.holds_next {p : Pending} {part : List UInt8} {b : UInt8} (holds : p.Holds part)
    (owed : p.owed ≠ 1) (low : p.low ≤ b) (high : b ≤ p.high) :
    (p.next b).Holds (part ++ [b]) := by
  have bounded := holds.bounded
  obtain ⟨k, owed⟩ : ∃ k, p.owed = k + 2 := ⟨p.owed - 2, by have := bounded.owed; omega⟩
  refine ⟨?_, bounded_next b (by omega), fun n admits => ?_⟩
  · rw [List.length_append, holds.seen]
    rfl
  · obtain ⟨before, rfl⟩ := (admits_next bounded owed low high).mp admits
    obtain ⟨valid, bytes⟩ := holds.encode n before
    refine ⟨valid, ?_⟩
    rw [bytes, owed, trailers, owed_next, owed, List.append_assoc]
    rfl

theorem Pending.holds_last {p : Pending} {part : List UInt8} {b : UInt8} (holds : p.Holds part)
    (owed : p.owed = 1) (low : p.low ≤ b) (high : b ≤ p.high) :
    String.utf8EncodeChar (Char.ofNat (p.bits * 64 + (b.toNat - 0x80))) = part ++ [b] := by
  obtain ⟨admits, last⟩ := (admits_last holds.bounded owed low high).mpr rfl
  rw [(holds.encode _ admits).2, owed, trailers, last]
  rfl

/-- A state of the machine and all bytes it has read from the beginning on. -/
structure State.Reads (s : State) (input part : List UInt8) : Prop where
  input_eq : input = encode s.done.reverse ++ part
  length_eq : s.length = (encode s.done.reverse).length
  part_nil : s.pending = none → part = []
  holds : ∀ p, s.pending = some p → p.Holds part

theorem reads_start : State.Reads {} [] [] :=
  ⟨rfl, rfl, fun _ => rfl, nofun⟩

theorem reads_push {s : State} {input part : List UInt8} {c : Char} {b : UInt8}
    (reads : s.Reads input part) (bytes : String.utf8EncodeChar c = part ++ [b]) :
    State.Reads { done := c :: s.done, length := s.length + part.length + 1 } (input ++ [b]) [] := by
  have encoded : encode (c :: s.done).reverse = encode s.done.reverse ++ (part ++ [b]) := by
    rw [List.reverse_cons, encode_append, ← bytes]
    simp [encode]
  refine ⟨?_, ?_, fun _ => rfl, fun _ same => by cases same⟩
  · rw [encoded, reads.input_eq, List.append_nil, List.append_assoc]
  · rw [encoded, reads.length_eq, List.length_append, List.length_append]
    rfl

theorem encodeChar_single {b : UInt8} (h : b < 0x80) :
    String.utf8EncodeChar (Char.ofNat b.toNat) = [b] := by
  rw [UInt8.lt_iff_toNat_lt] at h
  have small : b.toNat < 0x80 := h
  have valid : b.toNat.isValidChar := by rw [isValidChar_iff]; omega
  rw [encodeChar_eq, toNat_ofNat valid, if_pos small, UInt8.ofNat_toNat]

theorem reads_read {s t : State} {input part : List UInt8} {b : UInt8}
    (reads : s.Reads input part) (h : s.read b = .ok t) : ∃ next, t.Reads (input ++ [b]) next := by
  cases pending : s.pending with
  | none =>
    obtain rfl := reads.part_nil pending
    by_cases small : b < 0x80
    · rw [read_single pending small] at h
      cases h
      exact ⟨[], reads_push reads (encodeChar_single small)⟩
    · unfold State.read at h
      simp only [pending, if_neg small] at h
      split at h
      next p first =>
        cases h
        refine ⟨[b], ?_, reads.length_eq, nofun, fun q same => ?_⟩
        · rw [reads.input_eq, List.append_nil]
        · cases same
          exact lead_holds first
      next => cases h
  | some p =>
    have holds := reads.holds p pending
    rw [read_pending pending] at h
    split at h
    next bounds =>
      split at h
      next owed =>
        obtain rfl := Except.ok.inj h
        rw [← holds.seen]
        exact ⟨[], reads_push reads (Pending.holds_last holds owed bounds.1 bounds.2)⟩
      next owed =>
        obtain rfl := Except.ok.inj h
        refine ⟨part ++ [b], ?_, reads.length_eq, nofun, fun q same => ?_⟩
        · rw [reads.input_eq, List.append_assoc]
        · obtain rfl := Option.some.inj same
          exact Pending.holds_next holds owed bounds.1 bounds.2
    next => cases h

theorem reads_scan {s t : State} {input part more : List UInt8} (reads : s.Reads input part)
    (h : scan s more = .ok t) : ∃ next, t.Reads (input ++ more) next := by
  induction more generalizing s input part with
  | nil =>
    cases h
    exact ⟨part, by rwa [List.append_nil]⟩
  | cons b rest ih =>
    rw [scan] at h
    cases read : s.read b with
    | error fault =>
      rw [read] at h
      cases h
    | ok next =>
      rw [read] at h
      obtain ⟨_, nextReads⟩ := reads_read reads read
      have reached := ih nextReads h
      rwa [List.append_assoc] at reached

theorem reads_of_scan {s : State} {input : List UInt8} (h : scan {} input = .ok s) :
    ∃ part, s.Reads input part :=
  reads_scan reads_start h

theorem decode_eq_ok_iff {input : List UInt8} {text : List Char} :
    decode input = .ok text ↔ input = encode text := by
  constructor
  · intro h
    unfold decode at h
    split at h
    next s scanned =>
      obtain ⟨part, reads⟩ := reads_of_scan scanned
      unfold State.finish at h
      split at h
      next pending =>
        cases h
        rw [reads.input_eq, reads.part_nil pending, List.append_nil]
      next => cases h
    next => cases h
  · rintro rfl
    exact decode_encode text

end LineCensus.Text.Utf8
