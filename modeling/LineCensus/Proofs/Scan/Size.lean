import Mathlib.Algebra.Order.BigOperators.Group.List
import Mathlib.Algebra.Order.Group.Nat
import LineCensus.Proofs.Scan.Records
import LineCensus.Proofs.Scan.Totals
import LineCensus.Proofs.Tally.Size

/-!
# Lines of a scan and sizes of its files

A file has no more lines than bytes, so a scan counts no more lines than the files that it counts have bytes
(`lines_sumTotals_le`). `ofTree_sizes` draws from it that counters of 64 bits are large enough for a scan of files
that have less than 2^64 bytes together: none of them wraps around, wherever the scan is.
-/

namespace LineCensus

/-- The counters of a file, and their sum, are words of 64 bits. -/
structure Counts.Fits (c : Counts) : Prop where
  code : c.code < 2 ^ 64
  blank : c.blank < 2 ^ 64
  comment : c.comment < 2 ^ 64
  total : c.total < 2 ^ 64

theorem Counts.fits_of_total {c : Counts} (total : c.total < 2 ^ 64) : c.Fits := by
  have parts : c.total = c.code + c.blank + c.comment := rfl
  constructor <;> omega

/-- The line counters of a scan are words of 64 bits. -/
structure Totals.Fits (t : Totals) : Prop where
  code : t.code < 2 ^ 64
  blank : t.blank < 2 ^ 64
  comment : t.comment < 2 ^ 64

theorem Totals.fits_of_lines {t : Totals} (lines : t.lines < 2 ^ 64) : t.Fits := by
  have parts : t.lines = t.code + t.blank + t.comment := rfl
  constructor <;> omega

theorem Totals.lines_add (t u : Totals) : (t + u).lines = t.lines + u.lines := by
  rw [add_def]
  simp only [lines]
  omega

namespace Scan

variable {t : FileTree} {s : Settings}

/-- The size of the file that a path leads to. What leads to no file has none. -/
def fileSize (t : FileTree) (path : Path) : Nat :=
  match t.nodeAt path with
  | .ok (.file content _) => content.length
  | _ => 0

def sizes (t : FileTree) (paths : List Path) : Nat :=
  (paths.map (fileSize t)).sum

def isCounted (t : FileTree) (path : Path) : Bool :=
  (countFile t path).isOk

theorem sizes_mono {xs ys : List Path} (sublist : xs.Sublist ys) : sizes t xs ≤ sizes t ys := by
  unfold sizes
  exact (sublist.map (fileSize t)).sum_le_sum fun _ _ => Nat.zero_le _

theorem fileSize_le_sizes {paths : List Path} {path : Path} (mem : path ∈ paths) :
    fileSize t path ≤ sizes t paths := by
  have one : sizes t [path] = fileSize t path := by simp [sizes]
  rw [← one]
  exact sizes_mono (List.singleton_sublist.mpr mem)

/-! ### One file -/

theorem length_of_read {path : Path} {bytes : List UInt8} (read : t.read path = .ok bytes) :
    bytes.length = fileSize t path := by
  unfold FileTree.read at read
  unfold fileSize
  cases found : t.nodeAt path with
  | error fault =>
    rw [found] at read
    cases read
  | ok node =>
    rw [found] at read
    cases node with
    | file content readable =>
      cases readable with
      | true => rw [Except.ok.inj read]
      | false => cases read
    | directory entries rights => cases read
    | link target => cases read
    | fifo | device => rw [← Except.ok.inj read, List.length_nil]

theorem countFile_cases (t : FileTree) (path : Path) :
    (∃ bytes, t.read path = .ok bytes ∧ countFile t path = Tally.countBytes bytes) ∨
      ∃ fault, countFile t path = .error (.unreadable fault) := by
  unfold countFile
  cases t.read path with
  | ok bytes => exact Or.inl ⟨bytes, rfl, rfl⟩
  | error fault => exact Or.inr ⟨_, rfl⟩

theorem total_le_fileSize {path : Path} {counts : Counts} (counted : countFile t path = .ok counts) :
    counts.total ≤ fileSize t path := by
  obtain ⟨bytes, read, same⟩ | ⟨fault, unread⟩ := countFile_cases t path
  · rw [← length_of_read read]
    exact Tally.total_le_of_countBytes (same.symm.trans counted)
  · rw [counted] at unread
    cases unread

theorem line_le_fileSize {path : Path} {line : Nat} {cause : Text.Utf8.Fault}
    (failed : countFile t path = .error (.undecodable line cause)) : line ≤ fileSize t path := by
  obtain ⟨bytes, read, same⟩ | ⟨fault, unread⟩ := countFile_cases t path
  · rw [← length_of_read read]
    exact Tally.line_le_of_countBytes (same.symm.trans failed)
  · rw [failed] at unread
    cases unread

/-- No counter wraps around at a file, however far counting has come in it, nor does the line number of a
fault. -/
structure FitsAt (t : FileTree) (path : Path) : Prop where
  passed : ∀ bytes, t.read path = .ok bytes → ∀ tally, Tally.Passes {} (Stream.pieces (.ofBytes bytes)) tally →
    tally.line < 2 ^ 64 ∧ tally.counts.Fits
  counted : ∀ counts, countFile t path = .ok counts → counts.Fits
  fault : ∀ line cause, countFile t path = .error (.undecodable line cause) → line < 2 ^ 64

theorem fitsAt_of_fileSize {path : Path} (small : fileSize t path < 2 ^ 64) : FitsAt t path := by
  constructor
  · intro bytes read tally passes
    obtain ⟨all, bound⟩ := passes.total_le
    rw [length_of_read read] at bound
    have total := Nat.lt_of_le_of_lt bound small
    exact ⟨all ▸ total, Counts.fits_of_total total⟩
  · intro counts counted
    exact Counts.fits_of_total (Nat.lt_of_le_of_lt (total_le_fileSize counted) small)
  · intro line cause failed
    exact Nat.lt_of_le_of_lt (line_le_fileSize failed) small

/-! ### All files -/

theorem lines_fileTotals_le (path : Path) :
    (fileTotals t path).lines ≤ sizes t ([path].filter (isCounted t)) := by
  unfold fileTotals isCounted sizes
  cases outcome : countFile t path with
  | ok counts =>
    have bound : (Totals.ofFile counts).lines ≤ fileSize t path := total_le_fileSize outcome
    simpa [outcome, Except.toOption, Except.isOk, Except.toBool] using bound
  | error fault => exact Nat.zero_le _

theorem lines_sumTotals_le (paths : List Path) :
    (sumTotals t paths).lines ≤ sizes t (paths.filter (isCounted t)) := by
  induction paths with
  | nil => exact Nat.zero_le _
  | cons path rest ih =>
    have first := lines_fileTotals_le (t := t) path
    have both : sizes t ((path :: rest).filter (isCounted t)) =
        sizes t ([path].filter (isCounted t)) + sizes t (rest.filter (isCounted t)) := by
      unfold sizes
      rw [← List.sum_append, ← List.map_append, ← List.filter_append]
      rfl
    have sum : sumTotals t (path :: rest) = fileTotals t path + sumTotals t rest := by simp [sumTotals]
    rw [sum, Totals.lines_add, both]
    omega

/-- The lines of a text are as many as its newlines, its carriage returns with no newline behind and a last line
that nothing ends, so no more than its bytes. A scan counts no more lines than there are bytes in the files that it
counts. So where the files that the walk finds have less than 2^64 bytes together, no line counter wraps around in 64
bits, nor does the sum of those of a file, nor the line number of a fault. -/
theorem ofTree_sizes (t : FileTree) (s : Settings) :
    (∀ bytes, Text.Utf8.IsText bytes → ∃ counts, Tally.countBytes bytes = .ok counts ∧
        counts.total = bytes.count Stream.newline + Stream.loneReturns bytes + Stream.unended bytes ∧
        counts.total ≤ bytes.length) ∧
      (∀ scan, ofTree t s = .ok scan →
        scan.totals.code + scan.totals.blank + scan.totals.comment ≤
          sizes t ((Walk.files t s).filter (isCounted t))) ∧
      (sizes t (Walk.files t s) < 2 ^ 64 →
        (∀ path ∈ Walk.files t s, FitsAt t path) ∧
          ∀ front, front <+: Walk.files t s →
            (addFiles t { root := s.root, visits := Walk.visits t s } front).totals.Fits) := by
  refine ⟨?_, ?_, ?_⟩
  · intro bytes isText
    obtain ⟨counts, counted, total⟩ := Tally.countBytes_total isText
    exact ⟨counts, counted, total, Tally.total_le_of_countBytes counted⟩
  · intro scan scanned
    have directory : t.stat s.root = .ok .directory := by
      by_contra other
      rw [ofTree_of_other other] at scanned
      cases scanned
    obtain ⟨same, again, totals, _⟩ := ofTree_of_directory directory
    rw [scanned] at again
    obtain rfl := Except.ok.inj again
    rw [totals]
    exact lines_sumTotals_le _
  · intro small
    refine ⟨?_, ?_⟩
    · intro path mem
      exact fitsAt_of_fileSize (Nat.lt_of_le_of_lt (fileSize_le_sizes mem) small)
    · intro front begins
      apply Totals.fits_of_lines
      rw [totals_addFiles, Totals.lines_add]
      have lines := lines_sumTotals_le (t := t) front
      have counted := sizes_mono (t := t) (List.filter_sublist (p := isCounted t) (l := front))
      have all := sizes_mono (t := t) begins.sublist
      have zero : ({ root := s.root, visits := Walk.visits t s } : Scan).totals.lines = 0 := rfl
      omega

/-- Three lines, an empty one among them, and each of them ends in another way. -/
def ends : List UInt8 :=
  [0x61, 0x0D, 0x0A, 0x0D, 0x62]

theorem mixed_sizes :
    (∃ counts, Tally.countBytes ends = .ok counts ∧ counts.total = 3 ∧ counts.total ≤ 5) ∧
      Walk.files mixed (.ofRoot ⟨"."⟩) = [⟨"./bad.js"⟩, ⟨"./main.py"⟩] ∧
      sizes mixed (Walk.files mixed (.ofRoot ⟨"."⟩)) = 2 ∧
      (∃ scan, ofTree mixed (.ofRoot ⟨"."⟩) = .ok scan ∧
        scan.totals.code + scan.totals.blank + scan.totals.comment ≤ 1) ∧
      FitsAt mixed ⟨"./bad.js"⟩ ∧
      (addFiles mixed { root := ⟨"."⟩, visits := Walk.visits mixed (.ofRoot ⟨"."⟩) }
        [⟨"./bad.js"⟩]).totals.Fits := by
  have files : Walk.files mixed (.ofRoot ⟨"."⟩) = [⟨"./bad.js"⟩, ⟨"./main.py"⟩] := by decide +kernel
  have size : sizes mixed (Walk.files mixed (.ofRoot ⟨"."⟩)) = 2 := by
    rw [files]
    rfl
  have counted : sizes mixed ((Walk.files mixed (.ofRoot ⟨"."⟩)).filter (isCounted mixed)) = 1 := by
    rw [files]
    decide +kernel
  obtain ⟨scan, scanned, _⟩ := ofTree_of_directory (t := mixed) (s := .ofRoot ⟨"."⟩) rfl
  obtain ⟨texts, scans, small⟩ := ofTree_sizes mixed (.ofRoot ⟨"."⟩)
  obtain ⟨fits, fronts⟩ := small (by omega)
  refine ⟨texts ends ⟨['a', '\r', '\n', '\r', 'b'], rfl⟩, files, size, ⟨scan, scanned, ?_⟩, ?_, ?_⟩
  · rw [← counted]
    exact scans scan scanned
  · exact fits _ (by rw [files]; exact List.mem_cons_self)
  · exact fronts _ (by rw [files]; exact ⟨[⟨"./main.py"⟩], rfl⟩)

end Scan

end LineCensus
