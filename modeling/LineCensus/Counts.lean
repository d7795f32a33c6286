import LineCensus.Line

/-!
# Counts and totals

`Counts` holds the number of lines of each kind in one file, `Totals` the sums over many files.
`Counts.total_ofLines` says that every line is counted exactly once.
-/

namespace LineCensus

/-- The lines of one file by kind. -/
structure Counts where
  code : Nat := 0
  blank : Nat := 0
  comment : Nat := 0
  deriving DecidableEq, Repr

namespace Counts

def total (c : Counts) : Nat :=
  c.code + c.blank + c.comment

def record (c : Counts) : Line.Kind → Counts
  | .code => { c with code := c.code + 1 }
  | .blank => { c with blank := c.blank + 1 }
  | .comment => { c with comment := c.comment + 1 }

def recordLines (c : Counts) (lines : List (List Char)) : Counts :=
  lines.foldl (fun c line => c.record (Line.classify line)) c

def ofLines (lines : List (List Char)) : Counts :=
  recordLines {} lines

protected def add (c d : Counts) : Counts :=
  ⟨c.code + d.code, c.blank + d.blank, c.comment + d.comment⟩

instance : Add Counts := ⟨Counts.add⟩

instance : Zero Counts := ⟨{}⟩

theorem total_record (c : Counts) (kind : Line.Kind) : (c.record kind).total = c.total + 1 := by
  cases kind <;> simp only [record, total] <;> omega

theorem total_recordLines (c : Counts) (lines : List (List Char)) :
    (c.recordLines lines).total = c.total + lines.length := by
  induction lines generalizing c with
  | nil => rfl
  | cons line rest ih =>
    have h := ih (c.record (Line.classify line))
    rw [total_record] at h
    simp only [recordLines, List.foldl_cons, List.length_cons] at h ⊢
    omega

theorem total_ofLines (lines : List (List Char)) : (ofLines lines).total = lines.length := by
  rw [ofLines, total_recordLines]
  simp [total]

end Counts

/-- The sums over the files of a scan, a file that could not be counted included in `files`. -/
structure Totals where
  files : Nat := 0
  code : Nat := 0
  blank : Nat := 0
  comment : Nat := 0
  deriving DecidableEq, Repr

namespace Totals

def lines (t : Totals) : Nat :=
  t.code + t.blank + t.comment

def addFile (t : Totals) (c : Counts) : Totals where
  files := t.files + 1
  code := t.code + c.code
  blank := t.blank + c.blank
  comment := t.comment + c.comment

end Totals

end LineCensus
