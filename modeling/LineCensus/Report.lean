import LineCensus.Counts

/-!
# The report of a scan

`Totals.report` writes the totals as a heading and four labelled lines after an empty one.
-/

namespace LineCensus.Totals

def reportLines (t : Totals) : List String :=
  [ "",
    "Scan results:",
    s!"Files scanned: {t.files}",
    s!"Code lines: {t.code}",
    s!"Blank lines: {t.blank}",
    s!"Comment lines: {t.comment}" ]

def report (t : Totals) : String :=
  String.join (t.reportLines.map (· ++ "\n"))

end LineCensus.Totals
