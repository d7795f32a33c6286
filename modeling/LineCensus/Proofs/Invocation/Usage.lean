import Mathlib.Algebra.GroupWithZero.Nat
import LineCensus.Proofs.Invocation

/-!
# Arguments that are accepted

Reading arguments one after the other comes to what can be said of them as a whole: in front of the first
double dash there are flags and roots only, and there is one root at most, which is not empty
(`parse_usage`).
-/

namespace LineCensus.Invocation

variable {inv next : Invocation}

/-- The arguments in front of the first double dash. -/
def front (arguments : List String) : List String :=
  arguments.takeWhile (· ≠ "--")

/-- The arguments behind the first double dash. -/
def back (arguments : List String) : List String :=
  (arguments.dropWhile (· ≠ "--")).drop 1

/-- The arguments that stand for a root. Behind a double dash all of them do. -/
def roots (arguments : List String) : List String :=
  (front arguments).filter isPlain ++ back arguments

/-- How many flags there are, letters of a cluster counted each. -/
def asked (arguments : List String) : Nat :=
  (((front arguments).filter isVerboseFlag).map loudness).sum

theorem front_cons {text : String} (plain : text ≠ "--") (rest : List String) :
    front (text :: rest) = text :: front rest :=
  List.takeWhile_cons_of_pos (by simpa using plain)

theorem back_cons {text : String} (plain : text ≠ "--") (rest : List String) :
    back (text :: rest) = back rest := by
  unfold back
  rw [List.dropWhile_cons_of_pos (by simpa using plain)]

theorem isPlain_of_flag {text : String} (verbose : isVerboseFlag text = true) : isPlain text = false := by
  unfold isVerboseFlag at verbose
  rw [Bool.or_eq_true, beq_iff_eq] at verbose
  rcases verbose with rfl | short
  · rfl
  · split at short
    · next c rest chars =>
      have long : text ≠ "-" := by
        rintro rfl
        cases chars
      unfold isPlain
      rw [chars, beq_false_of_ne long]
      rfl
    · cases short

theorem flag_cons {text : String} (verbose : isVerboseFlag text = true) (rest : List String) :
    roots (text :: rest) = roots rest ∧ asked (text :: rest) = loudness text + asked rest := by
  have plain : text ≠ "--" := by
    rintro rfl
    exact absurd verbose (by decide)
  unfold roots asked
  rw [front_cons plain, back_cons plain, List.filter_cons_of_pos verbose,
    List.filter_cons_of_neg (by rw [isPlain_of_flag verbose]; exact Bool.false_ne_true)]
  exact ⟨rfl, rfl⟩

theorem plain_cons {text : String} (isRoot : isPlain text = true) (rest : List String) :
    roots (text :: rest) = text :: roots rest ∧ asked (text :: rest) = asked rest := by
  have plain : text ≠ "--" := by
    rintro rfl
    exact absurd isRoot (by decide)
  have noFlag : ¬ isVerboseFlag text = true := by
    intro verbose
    rw [isPlain_of_flag verbose] at isRoot
    cases isRoot
  unfold roots asked
  rw [front_cons plain, back_cons plain, List.filter_cons_of_pos isRoot,
    List.filter_cons_of_neg noFlag]
  exact ⟨rfl, rfl⟩

/-! ### What texts and flags come to -/

/-- The invocation has the one text as its root, which is not empty, and as many flags. -/
structure Has (texts : List String) (flags : Nat) (inv : Invocation) : Prop where
  single : texts.length ≤ 1
  nonempty : "" ∉ texts
  root : inv.root = texts.head?.map Path.mk
  verbosity : inv.verbosity = min mostVerbose flags

def given (inv : Invocation) : List String :=
  (inv.root.map Path.text).toList

theorem given_of_none (unset : inv.root = none) : inv.given = [] := by
  unfold given
  rw [unset]
  rfl

theorem given_of_some {root : Path} (set : inv.root = some root) : inv.given = [root.text] := by
  unfold given
  rw [set]
  rfl

theorem has_given (low : inv.verbosity ≤ mostVerbose) (nonempty : inv.root ≠ some ⟨""⟩) :
    Has inv.given inv.verbosity inv := by
  have verbosity := (Nat.min_eq_right low).symm
  cases root : inv.root with
  | none =>
    rw [given_of_none root]
    exact ⟨Nat.zero_le 1, nofun, root, verbosity⟩
  | some path =>
    rw [given_of_some root]
    refine ⟨Nat.le_refl 1, fun mem => ?_, root, verbosity⟩
    have empty : path = ⟨""⟩ := congrArg Path.mk (List.mem_singleton.mp mem).symm
    exact nonempty (root.trans (congrArg some empty))

theorem Has.unique {texts : List String} {flags : Nat} (has : Has texts flags inv)
    (same : Has texts flags next) : next = inv := by
  obtain ⟨root, verbosity⟩ := inv
  obtain ⟨root', verbosity'⟩ := next
  rw [mk.injEq]
  exact ⟨same.root.trans has.root.symm, same.verbosity.trans has.verbosity.symm⟩

theorem not_has_of_empty (empty : inv.root = some ⟨""⟩) (more : List String) (flags : Nat) :
    ¬ Has (inv.given ++ more) flags next := by
  rw [given_of_some empty]
  exact fun has => has.nonempty List.mem_cons_self

theorem has_root {text : String} {more : List String} {flags : Nat} :
    Has (inv.given ++ text :: more) flags next ↔
      inv.root = none ∧ Has (given { inv with root := some ⟨text⟩ } ++ more) flags next := by
  cases root : inv.root with
  | none =>
    rw [given_of_none root]
    exact (and_iff_right rfl).symm
  | some path =>
    rw [given_of_some root]
    refine iff_of_false (fun has => ?_) nofun
    have two := has.single
    simp only [List.length_append, List.length_cons, List.length_nil] at two
    omega

theorem has_louder {more : List String} {n flags : Nat} :
    Has (inv.given ++ more) (inv.verbosity + (n + flags)) next ↔
      inv.root ≠ some ⟨""⟩ ∧
        Has ((inv.louderBy n).given ++ more) ((inv.louderBy n).verbosity + flags) next := by
  have sums : min mostVerbose ((inv.louderBy n).verbosity + flags) =
      min mostVerbose (inv.verbosity + (n + flags)) := by
    simp only [louderBy]
    omega
  by_cases empty : inv.root = some ⟨""⟩
  · exact iff_of_false (not_has_of_empty empty more _) fun both => both.1 empty
  · rw [and_iff_right empty]
    constructor
    · rintro ⟨single, nonempty, root, verbosity⟩
      exact ⟨single, nonempty, root, verbosity.trans sums.symm⟩
    · rintro ⟨single, nonempty, root, verbosity⟩
      exact ⟨single, nonempty, root, verbosity.trans sums⟩

/-! ### Reading -/

theorem bind_bind {α β γ ε : Type} (x : Except ε α) (f : α → Except ε β) (g : β → Except ε γ) :
    (x.bind f).bind g = x.bind fun a => (f a).bind g := by
  cases x <;> rfl

theorem checkRoot_iff (low : inv.verbosity ≤ mostVerbose) :
    inv.checkRoot = .ok next ↔ Has inv.given inv.verbosity next := by
  by_cases empty : inv.root = some ⟨""⟩
  · have refused : inv.checkRoot = .error .emptyValue := if_pos empty
    rw [refused, ← List.append_nil inv.given]
    exact iff_of_false nofun (not_has_of_empty empty [] _)
  · have has := has_given low empty
    constructor
    · intro checked
      rw [checkRoot_eq_ok checked]
      exact has
    · intro other
      rw [has.unique other]
      exact checkRoot_of_ne empty

theorem readRoot_bind_iff {text : String} {f : Invocation → Except Stop Invocation} :
    (inv.readRoot text).bind f = .ok next ↔
      inv.root = none ∧ f { inv with root := some ⟨text⟩ } = .ok next := by
  unfold readRoot
  cases inv.root with
  | none => exact (and_iff_right rfl).symm
  | some root => exact iff_of_false nofun nofun

theorem readFlag_bind_iff {n : Nat} {f : Invocation → Except Stop Invocation} :
    (inv.readFlag fun inv => .ok (inv.louderBy n)).bind f = .ok next ↔
      inv.root ≠ some ⟨""⟩ ∧ f (inv.louderBy n) = .ok next := by
  by_cases empty : inv.root = some ⟨""⟩
  · rw [readFlag_of_empty empty]
    exact iff_of_false nofun fun both => both.1 empty
  · rw [readFlag_of_ne empty]
    exact (and_iff_right empty).symm

theorem readAll_escaped_iff (low : inv.verbosity ≤ mostVerbose) (arguments : List String) :
    (inv.readAll true arguments).bind checkRoot = .ok next ↔
      Has (inv.given ++ arguments) inv.verbosity next := by
  induction arguments generalizing inv with
  | nil =>
    rw [List.append_nil]
    exact checkRoot_iff low
  | cons text rest ih =>
    rw [readAll, if_pos rfl, bind_bind, readRoot_bind_iff, has_root]
    exact and_congr_right fun _ => ih low

/-- The induction is on the arguments. What was read before them is in the invocation. -/
theorem readAll_iff (low : inv.verbosity ≤ mostVerbose) (arguments : List String) :
    (inv.readAll false arguments).bind checkRoot = .ok next ↔
      (∀ text ∈ front arguments, isVerboseFlag text = true ∨ isPlain text = true) ∧
        Has (inv.given ++ roots arguments) (inv.verbosity + asked arguments) next := by
  induction arguments generalizing inv with
  | nil =>
    rw [show roots [] = [] from rfl, show asked [] = 0 from rfl, List.append_nil]
    exact (checkRoot_iff low).trans (and_iff_right (List.forall_mem_nil _)).symm
  | cons text rest ih =>
    rw [readAll, if_neg Bool.false_ne_true]
    by_cases escape : text = "--"
    · rw [if_pos escape, escape]
      exact (readAll_escaped_iff low rest).trans (and_iff_right (List.forall_mem_nil _)).symm
    rw [if_neg escape, bind_bind, front_cons escape, List.forall_mem_cons]
    by_cases verbose : isVerboseFlag text = true
    · obtain ⟨sameRoots, louder⟩ := flag_cons verbose rest
      have low' : (inv.louderBy (loudness text)).verbosity ≤ mostVerbose := Nat.min_le_left _ _
      rw [readArgument_flag verbose, readFlag_bind_iff, ih low', sameRoots, louder, has_louder,
        and_iff_right (Or.inl verbose)]
      exact and_left_comm
    by_cases isRoot : isPlain text = true
    · obtain ⟨moreRoots, same⟩ := plain_cons isRoot rest
      have low' : ({ inv with root := some ⟨text⟩ } : Invocation).verbosity ≤ mostVerbose := low
      rw [readArgument_plain isRoot, readRoot_bind_iff, ih low', moreRoots, same, has_root,
        and_iff_right (Or.inr isRoot)]
      exact and_left_comm
    · refine iff_of_false (fun read => ?_) fun both => both.1.1.elim verbose isRoot
      obtain ⟨middle, first, _⟩ := bind_eq_ok read
      exact (readArgument_eq_ok first).elim verbose fun both => isRoot both.1

/-! ### The arguments as a whole -/

theorem isVerboseFlag_iff (text : String) :
    isVerboseFlag text = true ↔
      text = "--verbose" ∨ ∃ n, text.toList = '-' :: List.replicate (n + 1) 'v' := by
  unfold isVerboseFlag
  rw [Bool.or_eq_true, beq_iff_eq]
  refine or_congr_right ?_
  constructor
  · intro short
    split at short
    · next c rest chars =>
      refine ⟨rest.length, chars.trans (congrArg _ (List.eq_replicate_iff.mpr ⟨rfl, ?_⟩))⟩
      exact fun d mem => beq_iff_eq.mp (List.all_eq_true.mp short d mem)
    · cases short
  · rintro ⟨n, chars⟩
    rw [chars, List.replicate_succ]
    simp

theorem isPlain_iff (text : String) :
    isPlain text = true ↔ text = "-" ∨ text.toList.head? ≠ some '-' := by
  unfold isPlain
  rw [Bool.or_eq_true, beq_iff_eq, bne_iff_ne]

theorem parse_iff (arguments : List String) :
    parse arguments = .ok inv ↔
      (∀ text ∈ front arguments, isVerboseFlag text = true ∨ isPlain text = true) ∧
        Has (roots arguments) (asked arguments) inv := by
  have low : ({} : Invocation).verbosity ≤ mostVerbose := Nat.zero_le _
  refine (readAll_iff low arguments).trans ?_
  rw [given_of_none rfl, List.nil_append, show ({} : Invocation).verbosity = 0 from rfl, Nat.zero_add]

/-- Arguments are accepted exactly if each in front of the first double dash is a flag or stands for a
root, and there is one root among all at most, which is not empty. It is then the root, and the flags are
counted wherever they stand. -/
theorem parse_usage (argv : List String) :
    ((∃ inv, parse (argv.drop 1) = .ok inv) ↔
      (∀ text ∈ front (argv.drop 1), text = "--verbose" ∨
        (∃ n, text.toList = '-' :: List.replicate (n + 1) 'v') ∨ text = "-" ∨
          text.toList.head? ≠ some '-') ∧
        (roots (argv.drop 1)).length ≤ 1 ∧ "" ∉ roots (argv.drop 1)) ∧
      ∀ inv, parse (argv.drop 1) = .ok inv →
        inv.root = (roots (argv.drop 1)).head?.map Path.mk ∧
          inv.verbosity = min 255 (asked (argv.drop 1)) := by
  have kinds (text : String) : (isVerboseFlag text = true ∨ isPlain text = true) ↔
      text = "--verbose" ∨ (∃ n, text.toList = '-' :: List.replicate (n + 1) 'v') ∨ text = "-" ∨
        text.toList.head? ≠ some '-' := by
    rw [isVerboseFlag_iff, isPlain_iff, or_assoc]
  simp only [← kinds]
  refine ⟨⟨?_, ?_⟩, ?_⟩
  · rintro ⟨inv, parsed⟩
    obtain ⟨each, has⟩ := (parse_iff _).mp parsed
    exact ⟨each, has.single, has.nonempty⟩
  · rintro ⟨each, single, nonempty⟩
    exact ⟨⟨_, _⟩, (parse_iff _).mpr ⟨each, single, nonempty, rfl, rfl⟩⟩
  · intro inv parsed
    have has := ((parse_iff _).mp parsed).2
    exact ⟨has.root, has.verbosity⟩

/-- What looks like a flag is the root behind a double dash. -/
theorem parse_escaped : ∃ inv, parse ["-vv", "--verbose", "--", "-v"] = .ok inv ∧
    inv.root = some ⟨"-v"⟩ ∧ inv.verbosity = 3 := by
  obtain ⟨accepts, told⟩ := parse_usage [programName, "-vv", "--verbose", "--", "-v"]
  have each : ∀ text ∈ ["-vv", "--verbose"], text = "--verbose" ∨
      (∃ n, text.toList = '-' :: List.replicate (n + 1) 'v') ∨ text = "-" ∨
        text.toList.head? ≠ some '-' := by
    intro text mem
    rw [List.mem_cons, List.mem_singleton] at mem
    rcases mem with rfl | rfl
    · exact Or.inr (Or.inl ⟨1, rfl⟩)
    · exact Or.inl rfl
  obtain ⟨inv, parsed⟩ := accepts.mpr ⟨each, by decide, by decide⟩
  obtain ⟨root, verbosity⟩ := told inv parsed
  exact ⟨inv, parsed, root, verbosity⟩

end LineCensus.Invocation
