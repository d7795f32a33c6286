import Mathlib.Data.List.Basic
import LineCensus.Report

/-!
# Reading a report back

A report is read by its lines, a line by what stands before and behind its colon, and a number by its digits. Each
reader reads what is written and nothing else (`endedLines?_eq_some_iff`, `labelled?_eq_some_iff`,
`number?_eq_some_iff`), and so does `Totals.ofReport?`, which is put together from them. `report_readBack` says what
this makes of reports.
-/

namespace LineCensus.Text

/-! ### Numbers -/

/-- Digits only, at least one, and a zero in front of no other digit. -/
def IsNumeral (digits : List Char) : Prop :=
  digits ≠ [] ∧ digits.all Char.isDigit = true ∧ (digits.head? = some '0' → digits = ['0'])

instance (digits : List Char) : Decidable (IsNumeral digits) :=
  inferInstanceAs (Decidable (_ ∧ _ ∧ _))

/-- The number that a decimal numeral stands for. -/
def number? (digits : List Char) : Option Nat :=
  if IsNumeral digits then some (Nat.ofDigitChars 10 digits 0) else none

theorem digitChar_of_isDigit {c : Char} (digit : c.isDigit = true) :
    c.toNat - '0'.toNat < 10 ∧ (c.toNat - '0'.toNat).digitChar = c := by
  have bounds : 48 ≤ c.toNat ∧ c.toNat ≤ 57 := by
    simpa [Char.isDigit, UInt32.le_iff_toNat_le] using digit
  have zero : '0'.toNat = 48 := rfl
  have small : c.toNat - '0'.toNat < 10 := by omega
  refine ⟨small, Char.toNat_inj.mp ?_⟩
  rw [Nat.toNat_digitChar_of_lt_ten small]
  omega

/-- Digits behind a number that is not zero are the last digits of a larger one. -/
theorem toDigits_ofDigitChars {front : Nat} (positive : 0 < front) {digits : List Char}
    (all : ∀ c ∈ digits, c.isDigit = true) :
    Nat.toDigits 10 (Nat.ofDigitChars 10 digits front) = Nat.toDigits 10 front ++ digits := by
  induction digits generalizing front with
  | nil => rw [Nat.ofDigitChars_nil, List.append_nil]
  | cons c rest ih =>
    -- What is in front stays positive, so the next digit is never the first one and may be a zero.
    obtain ⟨small, char⟩ := digitChar_of_isDigit (all c List.mem_cons_self)
    have next := Nat.toDigits_append_toDigits (b := 10) (by decide) positive small
    rw [Nat.toDigits_of_lt_base small, char] at next
    rw [Nat.ofDigitChars_cons, ih (by omega) fun d mem => all d (List.mem_cons_of_mem c mem), ← next,
      List.append_assoc, List.singleton_append]

theorem toDigits_of_isNumeral {digits : List Char} (numeral : IsNumeral digits) :
    Nat.toDigits 10 (Nat.ofDigitChars 10 digits 0) = digits := by
  obtain ⟨nonempty, all, leads⟩ := numeral
  rw [List.all_eq_true] at all
  obtain ⟨c, rest, rfl⟩ := List.exists_cons_of_ne_nil nonempty
  obtain ⟨small, char⟩ := digitChar_of_isDigit (all c List.mem_cons_self)
  by_cases zero : c.toNat - '0'.toNat = 0
  · rw [zero] at char
    rw [leads (congrArg some char.symm)]
    rfl
  · rw [Nat.ofDigitChars_cons, Nat.mul_zero, Nat.zero_add,
      toDigits_ofDigitChars (Nat.pos_of_ne_zero zero) fun d mem => all d (List.mem_cons_of_mem c mem),
      Nat.toDigits_of_lt_base small, char, List.singleton_append]

theorem eq_zero_of_head?_toDigits (n : Nat) (zero : (Nat.toDigits 10 n).head? = some '0') : n = 0 := by
  induction n using Nat.strongRecOn with
  | ind n ih =>
    rw [Nat.toDigits_eq_if (by decide)] at zero
    split at zero
    · simpa using zero
    · -- The first digit is that of a tenth of the number, and the tenth is not zero.
      rw [List.head?_append_of_ne_nil _ Nat.toDigits_ne_nil] at zero
      have tenth := ih (n / 10) (by omega) zero
      omega

theorem isNumeral_toDigits (n : Nat) : IsNumeral (Nat.toDigits 10 n) := by
  refine ⟨Nat.toDigits_ne_nil, ?_, ?_⟩
  · rw [List.all_eq_true]
    exact fun c mem => Nat.isDigit_of_mem_toDigits (by decide) (by decide) mem
  · intro zero
    rw [eq_zero_of_head?_toDigits n zero]
    rfl

theorem number?_eq_some_iff (digits : List Char) (n : Nat) :
    number? digits = some n ↔ digits = Nat.toDigits 10 n := by
  unfold number?
  constructor
  · intro read
    obtain ⟨numeral, value⟩ := Option.ite_none_right_eq_some.mp read
    obtain rfl := Option.some.inj value
    exact (toDigits_of_isNumeral numeral).symm
  · rintro rfl
    rw [if_pos (isNumeral_toDigits n), Nat.ofDigitChars_ten_toDigits]

theorem not_mem_toDigits {c : Char} (other : c.isDigit = false) (n : Nat) : c ∉ Nat.toDigits 10 n := by
  intro mem
  rw [Nat.isDigit_of_mem_toDigits (by decide) (by decide) mem] at other
  cases other

/-! ### A number with its label -/

/-- No part of a text that is cut at a character has this character in it. -/
theorem not_mem_of_mem_splitOn {c : Char} {text part : List Char} (mem : part ∈ text.splitOn c) : c ∉ part := by
  induction text generalizing part with
  | nil =>
    rw [List.splitOn_nil, List.mem_singleton] at mem
    rw [mem]
    exact List.not_mem_nil
  | cons d rest ih =>
    rw [List.splitOn_cons_eq_if_modifyHead] at mem
    split at mem
    · rcases List.mem_cons.mp mem with rfl | mem
      · exact List.not_mem_nil
      · exact ih mem
    · next other =>
      obtain ⟨first, more, parts⟩ := List.exists_cons_of_ne_nil (List.splitOn_ne_nil c rest)
      rw [parts] at mem ih
      rcases List.mem_cons.mp mem with rfl | mem
      · rw [List.mem_cons, not_or]
        refine ⟨?_, ih List.mem_cons_self⟩
        rintro rfl
        exact other (beq_self_eq_true c)
      · exact ih (List.mem_cons_of_mem first mem)

def labelled (label : String) (n : Nat) : String :=
  label ++ ": " ++ toString n

/-- The label and the number of a line with one colon, a blank behind the colon, and the number behind the blank. -/
def labelled? (line : String) : Option (String × Nat) :=
  match line.toList.splitOn ':' with
  | [label, ' ' :: digits] => (number? digits).map (String.ofList label, ·)
  | _ => none

theorem toList_labelled (label : String) (n : Nat) :
    (labelled label n).toList = label.toList ++ ':' :: ' ' :: Nat.toDigits 10 n := by
  rw [labelled, String.toList_append, String.toList_append, Nat.toString_eq_repr, Nat.toList_repr, List.append_assoc]
  rfl

theorem newline_not_mem_labelled {label : String} (plain : '\n' ∉ label.toList) (n : Nat) :
    '\n' ∉ (labelled label n).toList := by
  rw [toList_labelled]
  simp [plain, not_mem_toDigits]

theorem labelled?_labelled (label : String) (n : Nat) (plain : ':' ∉ label.toList) :
    labelled? (labelled label n) = some (label, n) := by
  have rest : (' ' :: Nat.toDigits 10 n).splitOn ':' = [' ' :: Nat.toDigits 10 n] := by
    apply List.splitOn_eq_singleton
    simp [not_mem_toDigits]
  have number := (number?_eq_some_iff (Nat.toDigits 10 n) n).mpr rfl
  unfold labelled?
  rw [toList_labelled, List.splitOn_append_cons_self_of_not_mem plain, rest]
  simp [number]

theorem labelled?_eq_some_iff (line label : String) (n : Nat) :
    labelled? line = some (label, n) ↔ ':' ∉ label.toList ∧ line = labelled label n := by
  constructor
  · intro read
    unfold labelled? at read
    split at read
    · next front digits parts =>
      obtain ⟨value, number, same⟩ := Option.map_eq_some_iff.mp read
      obtain ⟨rfl, rfl⟩ := Prod.mk.inj same
      obtain rfl := (number?_eq_some_iff digits value).mp number
      have whole : [':'].intercalate (line.toList.splitOn ':') = line.toList := List.intercalate_splitOn ':'
      rw [parts] at whole
      constructor
      · rw [String.toList_ofList]
        exact not_mem_of_mem_splitOn (parts ▸ List.mem_cons_self)
      · apply String.toList_inj.mp
        rw [toList_labelled, String.toList_ofList, ← whole]
        simp [List.intercalate]
    · cases read
  · rintro ⟨plain, rfl⟩
    exact labelled?_labelled label n plain

/-! ### Lines that all end -/

/-- The text is made of these lines, with a line feed behind each and none in any of them. -/
structure ConsistsOf (text : String) (lines : List String) : Prop where
  joined : text = String.join (lines.map (· ++ "\n"))
  single : ∀ line ∈ lines, '\n' ∉ line.toList

/-- The lines of a text that has no characters behind its last line feed. -/
def endedLines? (text : String) : Option (List String) :=
  let parts := text.toList.splitOn '\n'
  if parts.getLast? = some [] then some (parts.dropLast.map String.ofList) else none

theorem intercalate_concat_nil (c : Char) (lines : List (List Char)) :
    [c].intercalate (lines ++ [[]]) = lines.flatMap (· ++ [c]) := by
  induction lines with
  | nil => rfl
  | cons line rest ih =>
    rw [List.flatMap_cons, ← ih]
    cases rest <;> simp [List.intercalate]

theorem toList_joined (lines : List String) :
    (String.join (lines.map (· ++ "\n"))).toList = ['\n'].intercalate (lines.map String.toList ++ [[]]) := by
  rw [intercalate_concat_nil, String.toList_join, List.flatMap_map, List.flatMap_map]
  exact congrArg (lines.flatMap ·) (funext fun line => String.toList_append)

theorem endedLines?_eq_some_iff (text : String) (lines : List String) :
    endedLines? text = some lines ↔ ConsistsOf text lines := by
  unfold endedLines?
  constructor
  · intro read
    obtain ⟨last, same⟩ := Option.ite_none_right_eq_some.mp read
    obtain rfl := Option.some.inj same
    have whole : ['\n'].intercalate (text.toList.splitOn '\n') = text.toList := List.intercalate_splitOn '\n'
    have parts := List.dropLast_append_getLast? [] last
    constructor
    · apply String.toList_inj.mp
      rw [toList_joined, List.map_map, String.toList_comp_ofList, List.map_id, parts, whole]
    · intro line mem
      obtain ⟨part, before, rfl⟩ := List.mem_map.mp mem
      rw [String.toList_ofList]
      exact not_mem_of_mem_splitOn (List.dropLast_subset _ before)
  · rintro ⟨rfl, single⟩
    have plain : ∀ part ∈ lines.map String.toList ++ [[]], '\n' ∉ part := by
      simpa [or_imp, forall_and] using single
    have parts := List.splitOn_intercalate '\n' plain (by simp)
    rw [toList_joined, parts]
    simp

/-- A text has its lines in one way only. -/
theorem ConsistsOf.unique {text : String} {lines others : List String} (consists : ConsistsOf text lines)
    (other : ConsistsOf text others) : others = lines := by
  rw [← endedLines?_eq_some_iff] at consists other
  rw [consists] at other
  exact (Option.some.inj other).symm

end LineCensus.Text

namespace LineCensus.Totals

open Text

/-- What stands in the lines of a report in front of the numbers. -/
def headings : List String :=
  ["", "Scan results:", "Files scanned", "Code lines", "Blank lines", "Comment lines"]

/-- The totals in a report. A text that is not a report to the letter has none. -/
def ofReport? (text : String) : Option Totals := do
  let [above, title, first, second, third, fourth] ← endedLines? text | none
  let (filesLabel, files) ← labelled? first
  let (codeLabel, code) ← labelled? second
  let (blankLabel, blank) ← labelled? third
  let (commentLabel, comment) ← labelled? fourth
  if [above, title, filesLabel, codeLabel, blankLabel, commentLabel] = headings then
    some { files, code, blank, comment }
  else none

theorem report_consistsOf (t : Totals) :
    ConsistsOf t.report ["", "Scan results:", labelled "Files scanned" t.files, labelled "Code lines" t.code,
      labelled "Blank lines" t.blank, labelled "Comment lines" t.comment] := by
  refine ⟨rfl, ?_⟩
  simp only [List.forall_mem_cons]
  refine ⟨by decide, by decide, ?_, ?_, ?_, ?_, nofun⟩
  all_goals exact newline_not_mem_labelled (by decide) _

theorem ofReport?_report (t : Totals) : ofReport? t.report = some t := by
  have ended := (endedLines?_eq_some_iff _ _).mpr (report_consistsOf t)
  have files := labelled?_labelled "Files scanned" t.files (by decide)
  have code := labelled?_labelled "Code lines" t.code (by decide)
  have blank := labelled?_labelled "Blank lines" t.blank (by decide)
  have comment := labelled?_labelled "Comment lines" t.comment (by decide)
  simp [ofReport?, headings, ended, files, code, blank, comment]

theorem eq_report_of_ofReport? {text : String} {t : Totals} (read : ofReport? text = some t) :
    text = t.report := by
  unfold ofReport? at read
  obtain ⟨lines, ended, read⟩ := Option.bind_eq_some_iff.mp read
  have joined := ((endedLines?_eq_some_iff text lines).mp ended).joined
  split at read
  · obtain ⟨⟨filesLabel, files⟩, first, read⟩ := Option.bind_eq_some_iff.mp read
    obtain ⟨⟨codeLabel, code⟩, second, read⟩ := Option.bind_eq_some_iff.mp read
    obtain ⟨⟨blankLabel, blank⟩, third, read⟩ := Option.bind_eq_some_iff.mp read
    obtain ⟨⟨commentLabel, comment⟩, fourth, read⟩ := Option.bind_eq_some_iff.mp read
    obtain ⟨same, value⟩ := Option.ite_none_right_eq_some.mp read
    obtain rfl := Option.some.inj value
    simp only [headings, List.cons.injEq] at same
    obtain ⟨rfl, rfl, rfl, rfl, rfl, rfl, -⟩ := same
    rw [labelled?_eq_some_iff] at first second third fourth
    rw [joined, first.2, second.2, third.2, fourth.2]
    rfl
  · cases read

theorem ofReport?_eq_some_iff (text : String) (t : Totals) : ofReport? text = some t ↔ text = t.report := by
  constructor
  · exact eq_report_of_ofReport?
  · rintro rfl
    exact ofReport?_report t

theorem report_eq_iff (t u : Totals) : t.report = u.report ↔ t = u := by
  rw [← ofReport?_eq_some_iff, ofReport?_report, Option.some.injEq]

/-- A report is six lines that all end with a line feed: an empty one, the title, and four with a number behind
their only colon, in the order of the totals. So no two totals have the same report, and the only text that is read
as a report of some totals is theirs. -/
theorem report_readBack (t : Totals) :
    (∀ u : Totals, t.report = u.report ↔ t = u) ∧
      (∀ text, ofReport? text = some t ↔ text = t.report) ∧
      ∃ files code blank comment : String,
        (∀ lines, ConsistsOf t.report lines ↔ lines = ["", "Scan results:", files, code, blank, comment]) ∧
          labelled? files = some ("Files scanned", t.files) ∧ labelled? code = some ("Code lines", t.code) ∧
          labelled? blank = some ("Blank lines", t.blank) ∧
          labelled? comment = some ("Comment lines", t.comment) := by
  refine ⟨report_eq_iff t, fun text => ofReport?_eq_some_iff text t, labelled "Files scanned" t.files,
    labelled "Code lines" t.code, labelled "Blank lines" t.blank, labelled "Comment lines" t.comment, ?_, ?_⟩
  · intro lines
    constructor
    · exact (report_consistsOf t).unique
    · rintro rfl
      exact report_consistsOf t
  · refine ⟨?_, ?_, ?_, ?_⟩
    all_goals exact labelled?_labelled _ _ (by decide)

example : labelled? "Code lines: 42" = some ("Code lines", 42) ∧ labelled? "Code lines: 042" = none := by
  cbv

end LineCensus.Totals
