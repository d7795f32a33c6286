import LineCensus.Invocation

/-!
# Flags and the root among the arguments

`isVerboseFlag` recognises the arguments that ask for more of the log. They change the verbosity and
nothing else (`readAll_flags`), and nothing else changes the verbosity (`verbosity_of_quiet`).
-/

namespace LineCensus.Invocation

variable {inv next : Invocation}

/-- The long flag, or a dash and one or more letters `v`. -/
def isVerboseFlag (text : String) : Bool :=
  text == "--verbose" ||
    match text.toList with
    | '-' :: c :: rest => (c :: rest).all (· == 'v')
    | _ => false

/-- A dash alone, or a text with no dash in front. -/
def isPlain (text : String) : Bool :=
  text == "-" || text.toList.head? != some '-'

theorem bind_eq_ok {α β ε : Type} {x : Except ε α} {f : α → Except ε β} {b : β}
    (bound : x.bind f = .ok b) : ∃ a, x = .ok a ∧ f a = .ok b := by
  cases x with
  | error stop => cases bound
  | ok a => exact ⟨a, rfl, bound⟩

theorem checkRoot_eq_ok (checked : inv.checkRoot = .ok next) : next = inv := by
  unfold checkRoot at checked
  split at checked
  · cases checked
  · exact (Except.ok.inj checked).symm

theorem checkRoot_of_ne (nonempty : inv.root ≠ some ⟨""⟩) : inv.checkRoot = .ok inv :=
  if_neg nonempty

theorem readFlag_of_ne (nonempty : inv.root ≠ some ⟨""⟩) (effect : Invocation → Except Stop Invocation) :
    inv.readFlag effect = effect inv := by
  rw [readFlag, checkRoot_of_ne nonempty]
  rfl

theorem readFlag_of_empty (empty : inv.root = some ⟨""⟩) (effect : Invocation → Except Stop Invocation) :
    inv.readFlag effect = .error .emptyValue := by
  have refused : inv.checkRoot = .error .emptyValue := if_pos empty
  rw [readFlag, refused]
  rfl

theorem readRoot_verbosity {text : String} (read : inv.readRoot text = .ok next) :
    next.verbosity = inv.verbosity := by
  unfold readRoot at read
  split at read
  · rw [← Except.ok.inj read]
  · cases read

/-! ### Flags -/

/-- As loud as that many flags make the program. -/
def louderBy (inv : Invocation) (n : Nat) : Invocation :=
  { inv with verbosity := min mostVerbose (inv.verbosity + n) }

theorem louder_louderBy (inv : Invocation) (n : Nat) : inv.louder.louderBy n = inv.louderBy (1 + n) := by
  simp only [louder, louderBy, mk.injEq, true_and]
  omega

/-- What a flag counts for: one, or its letters `v`. -/
def loudness (text : String) : Nat :=
  if text = "--verbose" then 1 else text.toList.count 'v'

theorem readCluster_flags (inv : Invocation) (n : Nat) :
    inv.readCluster (List.replicate (n + 1) 'v') =
      inv.readFlag fun inv => .ok (inv.louderBy (n + 1)) := by
  by_cases empty : inv.root = some ⟨""⟩
  · have first : inv.readShort 'v' = .error .emptyValue := readFlag_of_empty empty _
    rw [readFlag_of_empty empty, List.replicate_succ, readCluster, first]
    rfl
  · induction n generalizing inv with
    | zero =>
      rw [readFlag_of_ne empty, List.replicate_one, readCluster, readShort, readFlag_of_ne empty]
      rfl
    | succ n ih =>
      have still : inv.louder.root ≠ some ⟨""⟩ := empty
      have later := ih inv.louder still
      rw [readFlag_of_ne still, louder_louderBy] at later
      rw [readFlag_of_ne empty, List.replicate_succ, readCluster, readShort, readFlag_of_ne empty,
        Nat.add_comm (n + 1) 1]
      exact later

theorem readArgument_flag {text : String} (verbose : isVerboseFlag text = true) :
    inv.readArgument text = inv.readFlag fun inv => .ok (inv.louderBy (loudness text)) := by
  unfold isVerboseFlag at verbose
  rw [Bool.or_eq_true, beq_iff_eq] at verbose
  rcases verbose with rfl | short
  · rfl
  · split at short
    next c rest chars =>
      have letters : c :: rest = List.replicate (rest.length + 1) 'v' :=
        List.eq_replicate_iff.mpr ⟨rfl, fun d mem => beq_iff_eq.mp (List.all_eq_true.mp short d mem)⟩
      obtain ⟨rfl, _⟩ := List.cons.inj (letters.trans List.replicate_succ)
      have count : loudness text = rest.length + 1 := by
        unfold loudness
        rw [if_neg, chars, List.count_cons_of_ne (by decide), letters, List.count_replicate_self]
        rintro rfl
        exact absurd (List.cons.inj (List.cons.inj chars).2).1 (by decide)
      unfold readArgument
      rw [chars, count]
      show inv.readCluster ('v' :: rest) = _
      rw [letters]
      exact readCluster_flags inv _
    next => cases short

/-- Flags before the root change the verbosity and nothing else. -/
theorem readAll_flags (inv : Invocation) (unset : inv.root = none) {flags : List String}
    (verbose : ∀ flag ∈ flags, isVerboseFlag flag = true) :
    ∃ v, inv.readAll false flags = .ok { inv with verbosity := v } := by
  induction flags generalizing inv with
  | nil => exact ⟨inv.verbosity, rfl⟩
  | cons flag rest ih =>
    obtain ⟨first, later⟩ := List.forall_mem_cons.mp verbose
    have nonempty : inv.root ≠ some ⟨""⟩ := by simp [unset]
    have read := (readArgument_flag first).trans (readFlag_of_ne nonempty _)
    obtain ⟨w, readLater⟩ := ih (inv.louderBy (loudness flag)) unset later
    have plain : flag ≠ "--" := by
      rintro rfl
      exact absurd first (by decide)
    refine ⟨w, ?_⟩
    rw [readAll, if_neg Bool.false_ne_true, if_neg plain, read]
    exact readLater

/-! ### What is read -/

theorem readArgument_plain {text : String} (plain : isPlain text = true) :
    inv.readArgument text = inv.readRoot text := by
  unfold isPlain at plain
  rw [Bool.or_eq_true, beq_iff_eq, bne_iff_ne] at plain
  rcases plain with rfl | noDash
  · rfl
  · unfold readArgument
    split
    · next chars => exact absurd (by rw [chars]; rfl) noDash
    · next chars => exact absurd (by rw [chars]; rfl) noDash
    · rfl

theorem readFlag_of_stop {stop : Stop} : inv.readFlag (fun _ => .error stop) ≠ .ok next := by
  intro read
  obtain ⟨_, _, stopped⟩ := bind_eq_ok read
  cases stopped

theorem readShort_eq_ok {c : Char} (read : inv.readShort c = .ok next) : c = 'v' := by
  unfold readShort at read
  split at read
  · rfl
  · exact absurd read readFlag_of_stop
  · exact absurd read readFlag_of_stop
  · cases read

theorem readCluster_eq_ok {cs : List Char} (read : inv.readCluster cs = .ok next) :
    ∀ c ∈ cs, c = 'v' := by
  induction cs generalizing inv with
  | nil => exact fun _ mem => absurd mem List.not_mem_nil
  | cons c rest ih =>
    obtain ⟨middle, first, later⟩ := bind_eq_ok read
    exact List.forall_mem_cons.mpr ⟨readShort_eq_ok first, ih later⟩

theorem readLong_eq_ok {text : String} (read : inv.readLong text = .ok next) : text = "verbose" := by
  unfold readLong at read
  simp only at read
  split at read
  · split at read
    · cases read
    · next whole =>
      split at read
      · next flag => exact (Decidable.of_not_not whole).symm.trans flag
      · split at read
        · exact absurd read readFlag_of_stop
        · exact absurd read readFlag_of_stop
  · cases read

/-- An argument that is read is a verbose flag or the root. -/
theorem readArgument_eq_ok {text : String} (read : inv.readArgument text = .ok next) :
    isVerboseFlag text = true ∨ isPlain text = true ∧ inv.readRoot text = .ok next := by
  unfold readArgument at read
  split at read
  · next rest chars =>
    left
    have long := readLong_eq_ok read
    have whole : text = "--verbose" := by
      rw [← String.toList_inj, chars, ← String.toList_ofList (l := rest), long]
      rfl
    rw [whole]
    rfl
  · next c rest _ chars =>
    left
    have letters := readCluster_eq_ok read
    unfold isVerboseFlag
    rw [chars]
    simpa using Or.inr letters
  · next noLong noShort =>
    right
    refine ⟨?_, read⟩
    unfold isPlain
    rw [Bool.or_eq_true, beq_iff_eq, bne_iff_ne]
    by_cases dash : text.toList.head? = some '-'
    · obtain ⟨rest, chars⟩ := List.head?_eq_some_iff.mp dash
      cases rest with
      | nil => exact Or.inl (String.toList_inj.mp chars)
      | cons c more => exact absurd chars (noShort c more)
    · exact Or.inr dash

theorem readAll_escaped_verbosity {arguments : List String}
    (read : inv.readAll true arguments = .ok next) : next.verbosity = inv.verbosity := by
  induction arguments generalizing inv with
  | nil => rw [← Except.ok.inj read]
  | cons text rest ih =>
    rw [readAll, if_pos rfl] at read
    obtain ⟨middle, first, later⟩ := bind_eq_ok read
    rw [ih later, readRoot_verbosity first]

theorem readAll_verbosity {arguments : List String}
    (quiet : ∀ text ∈ arguments.takeWhile (· ≠ "--"), isVerboseFlag text = false)
    (read : inv.readAll false arguments = .ok next) : next.verbosity = inv.verbosity := by
  induction arguments generalizing inv with
  | nil => rw [← Except.ok.inj read]
  | cons text rest ih =>
    rw [readAll, if_neg Bool.false_ne_true] at read
    by_cases escape : text = "--"
    · rw [if_pos escape] at read
      exact readAll_escaped_verbosity read
    · rw [if_neg escape] at read
      rw [List.takeWhile_cons_of_pos (by simpa using escape)] at quiet
      obtain ⟨plain, quietLater⟩ := List.forall_mem_cons.mp quiet
      obtain ⟨middle, first, later⟩ := bind_eq_ok read
      have root := (readArgument_eq_ok first).resolve_left (by rw [plain]; exact Bool.false_ne_true)
      rw [ih quietLater later, readRoot_verbosity root.2]

/-- Without a verbose flag in front of a double dash nothing is asked of the log. -/
theorem verbosity_of_quiet {arguments : List String}
    (quiet : ∀ text ∈ arguments.takeWhile (· ≠ "--"), isVerboseFlag text = false)
    (parsed : parse arguments = .ok inv) : inv.verbosity = 0 := by
  obtain ⟨before, read, checked⟩ := bind_eq_ok parsed
  rw [checkRoot_eq_ok checked]
  exact readAll_verbosity quiet read

/-! ### The root behind flags -/

theorem parse_flags {flags : List String} (verbose : ∀ flag ∈ flags, isVerboseFlag flag = true) :
    ∃ v, parse flags = .ok { verbosity := v } ∧
      ∀ path ≠ "", parse (flags ++ ["--", path]) = .ok { root := some ⟨path⟩, verbosity := v } := by
  obtain ⟨v, read⟩ := readAll_flags {} rfl verbose
  have noEscape : "--" ∉ flags := fun mem => absurd (verbose _ mem) (by decide)
  refine ⟨v, ?_, fun path nonempty => ?_⟩
  · unfold parse
    rw [read]
    rfl
  · unfold parse
    rw [readAll_append {} flags ["--", path] noEscape, read]
    show Except.bind (.ok { root := some ⟨path⟩, verbosity := v }) checkRoot = _
    simp [Except.bind, checkRoot, nonempty]

end LineCensus.Invocation
