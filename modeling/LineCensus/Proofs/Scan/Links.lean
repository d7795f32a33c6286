import LineCensus.Proofs.FileTree.Rights
import LineCensus.Proofs.Scan.Records
import LineCensus.Proofs.Scan.Spelling
import LineCensus.Proofs.Tally.Delivery

/-!
# Links, looked at and opened

The walk follows a link to see whether it counts as a file, and counting opens it again. Where nothing is
forbidden the two agree (`Opens`): what the walk could follow is a regular file and can be read, and what it
could not follow cannot be opened for the same reason. So a scan reports each collected link that leads
nowhere once (`ofTree_links`).
-/

namespace LineCensus.Scan

open FileTree (Name Fault)

variable {t : FileTree} {s : Settings}

/-! ### One path -/

theorem countBytes_ne_unreadable (bytes : List UInt8) (cause : ReadFault) :
    Tally.countBytes bytes ≠ .error (.unreadable cause) := by
  rcases Tally.countBytes_cases bytes with ⟨_, counts, counted⟩ | ⟨_, line, fault, failed⟩
  · rw [counted]
    exact nofun
  · rw [failed]
    exact nofun

/-- How opening a path ends: it cannot be followed, or there is a regular file that may be read. -/
inductive Opens (t : FileTree) (path : Path) : Prop where
  | unfollowed {fault : Fault} (known : fault ∈ FileTree.wayFaults)
      (failed : t.stat path = .error fault)
      (outcome : countFile t path = .error (.unreadable (.system fault)))
  | file {content : List UInt8} (found : t.nodeAt path = .ok (.file content true))
      (outcome : countFile t path = Tally.countBytes content)

theorem countFile_of_stat_error {path : Path} {fault : Fault} (failed : t.stat path = .error fault) :
    countFile t path = .error (.unreadable (.system fault)) := by
  unfold countFile
  rw [FileTree.read_of_stat_error failed]

theorem opens_of_stat (free : t.top.unrestricted = true) {path : Path}
    (clean : '\x00' ∉ path.text.toList)
    (leads : (∃ fault, t.stat path = .error fault) ∨ t.stat path = .ok .file) : Opens t path := by
  rcases leads with ⟨fault, failed⟩ | file
  · exact .unfollowed (FileTree.stat_fault free clean failed) failed (countFile_of_stat_error failed)
  · obtain ⟨content, found, read⟩ := FileTree.nodeAt_file free file
    refine .file found ?_
    unfold countFile
    rw [read]

theorem Opens.unreadable_iff {path : Path} (opens : Opens t path) (cause : ReadFault) :
    countFile t path = .error (.unreadable cause) ↔
      ∃ fault ∈ FileTree.wayFaults, t.stat path = .error fault ∧ cause = .system fault := by
  cases opens with
  | @unfollowed fault known failed outcome =>
    rw [outcome]
    constructor
    · intro same
      obtain rfl := Tally.Fault.unreadable.inj (Except.error.inj same)
      exact ⟨fault, known, failed, rfl⟩
    · rintro ⟨other, _, again, rfl⟩
      rw [failed] at again
      rw [Except.error.inj again]
  | @file content found outcome =>
    rw [outcome]
    refine iff_of_false (countBytes_ne_unreadable content cause) ?_
    rintro ⟨fault, _, failed, _⟩
    rw [FileTree.stat_eq_error, found] at failed
    cases failed

/-! ### The failures of a scan -/

theorem not_mem_failed {paths : List Path} {path : Path} (absent : path ∉ paths) :
    (failed t paths).filter (fun failure => failure.1 = path) = [] := by
  rw [List.filter_eq_nil_iff]
  rintro ⟨other, fault⟩ mem same
  obtain rfl := of_decide_eq_true same
  exact absent (mem_failed.mp mem).1

/-- A path that cannot be counted is reported once, with its fault. -/
theorem failed_once {paths : List Path} (nodup : paths.Nodup) {path : Path} (mem : path ∈ paths)
    {fault : Tally.Fault} (outcome : countFile t path = .error fault) :
    (failed t paths).filter (fun failure => failure.1 = path) = [(path, fault)] := by
  obtain ⟨before, after, rfl⟩ := List.append_of_mem mem
  rw [List.nodup_middle, List.nodup_cons, List.mem_append, not_or] at nodup
  have one : failed t [path] = [(path, fault)] := by
    simp [failed, outcome]
  rw [← List.singleton_append, failed_append, failed_append, List.filter_append, List.filter_append,
    not_mem_failed nodup.1.1, not_mem_failed nodup.1.2, one]
  simp

theorem opens_of_mem_files (free : t.top.unrestricted = true)
    (directory : t.stat s.root = .ok .directory) {path : Path} (mem : path ∈ Walk.files t s) :
    Opens t path := by
  refine opens_of_stat free ?_ (Walk.stat_of_mem_files directory mem)
  obtain ⟨names, rfl, _⟩ := Walk.eligible_of_mem_files directory mem
  obtain ⟨_, _, here⟩ := FileTree.directory_of_stat directory
  have accepted := (FileTree.refusal_eq_none s.root).mp (FileTree.nodeAt_eq_ok here).1
  exact Path.nul_not_mem_below (Walk.root_nonempty directory) accepted.1 names

/-- Where nothing is forbidden, the walk and the counting agree about each collected path: it cannot be
opened exactly if it could not be followed, for the same reason, and otherwise it leads to a regular file,
whose lines are counted. So each collected path that leads nowhere is reported once, and no other failure
than that of such a way comes from the system. Collected are all the links with an included extension that are
reached and lead nowhere, unless the root stands for the standard input: that brings nothing, even if it leads
to a directory. -/
theorem ofTree_links (t : FileTree) (s : Settings) (free : t.top.unrestricted = true)
    (directory : t.stat s.root = .ok .directory) :
    ∃ scan, ofTree t s = .ok scan ∧
      (∀ path ∈ Walk.files t s, Opens t path ∧ ∀ cause,
        countFile t path = .error (.unreadable cause) ↔
          ∃ fault ∈ FileTree.wayFaults, t.stat path = .error fault ∧ cause = .system fault) ∧
      (∀ path cause, (path, .unreadable cause) ∈ scan.failures →
        ∃ fault ∈ FileTree.wayFaults, t.stat path = .error fault ∧ cause = .system fault) ∧
      (∀ path ∈ Walk.files t s, ∀ fault, t.stat path = .error fault →
        scan.failures.filter (fun failure => failure.1 = path) =
          [(path, .unreadable (.system fault))]) ∧
      (s.root.isDash = false → ∀ way name target fault,
        Walk.Reached t s s.root way name (.link target) → Walk.Included s name →
          t.stat (s.root.below (way ++ [name])) = .error fault →
            scan.failures.filter (fun failure => failure.1 = s.root.below (way ++ [name])) =
              [(s.root.below (way ++ [name]), .unreadable (.system fault))]) ∧
      (s.root.isDash = true → Walk.files t s = [] ∧ scan.failures = []) := by
  obtain ⟨scan, scanned, accounts, _⟩ := ofTree_eq directory
  have agree : ∀ path ∈ Walk.files t s, Opens t path :=
    fun path mem => opens_of_mem_files free directory mem
  have once : ∀ path ∈ Walk.files t s, ∀ fault, t.stat path = .error fault →
      scan.failures.filter (fun failure => failure.1 = path) =
        [(path, .unreadable (.system fault))] := by
    intro path mem fault failed
    rw [accounts.failures]
    exact failed_once (Walk.files_nodup directory) mem (countFile_of_stat_error failed)
  refine ⟨scan, scanned, fun path mem => ⟨agree path mem, (agree path mem).unreadable_iff⟩, ?_, once,
    ?_, ?_⟩
  · intro path cause reported
    rw [accounts.failures, mem_failed] at reported
    exact ((agree path reported.1).unreadable_iff cause).mp reported.2
  · intro dash way name target fault reached included failed
    have collected : s.root.below (way ++ [name]) ∈ Walk.files t s := by
      refine ((Walk.files_lists t s directory dash).mem_iff _).mpr ⟨_, rfl, ?_⟩
      exact ⟨way, name, .link target, rfl, reached.entered, reached.has, Or.inl ⟨fault, failed⟩,
        included⟩
    exact once _ collected fault failed
  · intro dash
    have none := Walk.files_of_dash (t := t) dash
    rw [accounts.failures, none]
    exact ⟨rfl, rfl⟩

def loopPy : Name :=
  ⟨"b.py", Eq.refl true⟩

/-- Links that lead nowhere, back to themselves, through a file, to a file, to a directory and to a pipe. -/
def tangle : FileTree where
  top := .directory
    [(plainPy, .link ⟨"gone"⟩), (loopPy, .link ⟨"b.py"⟩), (⟨"c.py", Eq.refl true⟩, .link ⟨"d.js/x"⟩),
      (⟨"d.js", Eq.refl true⟩, .file [0x61] true), (⟨"e.py", Eq.refl true⟩, .link ⟨"./d.js"⟩),
      (⟨"f.py", Eq.refl true⟩, .link ⟨"."⟩), (⟨"g.py", Eq.refl true⟩, .link ⟨"pipe"⟩),
      (⟨"pipe", Eq.refl true⟩, .fifo)] {}
  workingDir := []
  ordered := by decide

theorem tangle_links :
    tangle.top.unrestricted = true ∧ tangle.stat ⟨"."⟩ = .ok .directory ∧
      Walk.files tangle (.ofRoot ⟨"."⟩) =
        [⟨"./a.py"⟩, ⟨"./b.py"⟩, ⟨"./c.py"⟩, ⟨"./d.js"⟩, ⟨"./e.py"⟩] ∧
      (∀ path ∈ Walk.files tangle (.ofRoot ⟨"."⟩), Opens tangle path) ∧
      failuresOf (ofTree tangle (.ofRoot ⟨"."⟩)) =
        [(⟨"./a.py"⟩, .unreadable (.system .notFound)), (⟨"./b.py"⟩, .unreadable (.system .linkLoop)),
          (⟨"./c.py"⟩, .unreadable (.system .notDirectory))] ∧
      ∃ scan, ofTree tangle (.ofRoot ⟨"."⟩) = .ok scan ∧
        scan.failures.filter (fun failure => failure.1 = ⟨"./b.py"⟩) =
          [(⟨"./b.py"⟩, .unreadable (.system .linkLoop))] ∧
        scan.failures.filter (fun failure => failure.1 = ⟨"./c.py"⟩) =
          [(⟨"./c.py"⟩, .unreadable (.system .notDirectory))] := by
  have free : tangle.top.unrestricted = true := by decide
  have directory : tangle.stat ⟨"."⟩ = .ok .directory := by decide
  have reached : Walk.Reached tangle (.ofRoot ⟨"."⟩) ⟨"."⟩ [] loopPy (.link ⟨"b.py"⟩) :=
    ⟨Walk.entered_nil _, _, rfl, by decide⟩
  have included : Walk.Included (.ofRoot ⟨"."⟩) loopPy := ⟨".py", by decide, by decide⟩
  have looped : tangle.stat ((⟨"."⟩ : Path).below [loopPy]) = .error .linkLoop := by decide +kernel
  have files : Walk.files tangle (.ofRoot ⟨"."⟩) =
      [⟨"./a.py"⟩, ⟨"./b.py"⟩, ⟨"./c.py"⟩, ⟨"./d.js"⟩, ⟨"./e.py"⟩] := by decide +kernel
  have collected : ⟨"./c.py"⟩ ∈ Walk.files tangle (.ofRoot ⟨"."⟩) := by simp [files]
  have blocked : tangle.stat ⟨"./c.py"⟩ = .error .notDirectory := by decide +kernel
  obtain ⟨scan, scanned, agree, _, once, reports, _⟩ :=
    ofTree_links tangle (.ofRoot ⟨"."⟩) free directory
  exact ⟨free, directory, files, fun path mem => (agree path mem).1, by decide +kernel, scan, scanned,
    reports rfl [] loopPy _ _ reached included looped, once _ collected _ blocked⟩

end LineCensus.Scan
