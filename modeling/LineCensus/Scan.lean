import LineCensus.Problem
import LineCensus.Walk

/-!
# Scans

A `Scan` goes through the files that a walk found, one at a time, and keeps the totals, the files
that could not be counted and what was written to the log about each. A file that cannot be
counted adds one to the files and nothing to the lines.
-/

namespace LineCensus

structure Scan where
  root : Path
  visits : List Walk.Visit
  totals : Totals := {}
  /-- The files that could not be counted. -/
  failures : List (Path × Tally.Fault) := []
  fileRecords : List Log.Record := []

namespace Scan

/-- The only failure before the bytes are looked at is that of opening the file. -/
def countFile (t : FileTree) (path : Path) : Except Tally.Fault Counts :=
  match t.read path with
  | .ok bytes => Tally.countBytes bytes
  | .error fault => .error (.unreadable (.system fault))

def addOutcome (scan : Scan) (path : Path) : Except Tally.Fault Counts → Scan
  | .ok counts =>
    { scan with
      totals := scan.totals.addFile counts
      fileRecords := scan.fileRecords ++
        [⟨.debug, .scan, s!"{path.text}: {counts.total} lines"⟩] }
  | .error fault =>
    { scan with
      totals := scan.totals.addFile 0
      failures := scan.failures ++ [(path, fault)]
      fileRecords := scan.fileRecords ++
        [⟨.debug, .scan, (Problem.file path fault).message⟩] }

def addFiles (t : FileTree) (scan : Scan) : List Path → Scan
  | [] => scan
  | path :: rest => addFiles t (scan.addOutcome path (countFile t path)) rest

def ofTree (t : FileTree) (s : Settings) : Except Problem Scan :=
  match t.stat s.root with
  | .ok .directory =>
    .ok (addFiles t { root := s.root, visits := Walk.visits t s } (Walk.files t s))
  | _ => .error (.invalidRoot s.root)

def summary (scan : Scan) : Log.Record :=
  ⟨.info, .scan,
    s!"scanned {scan.totals.files} files under {scan.root.text} " ++
      s!"({scan.failures.length} unreadable)"⟩

/-- What a scan writes to the log: the walk first, then each file, then the summary. -/
def records (scan : Scan) : List Log.Record :=
  scan.visits.filterMap Walk.Visit.record? ++ scan.fileRecords ++ [scan.summary]

end Scan

end LineCensus
