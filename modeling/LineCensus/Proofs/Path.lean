import LineCensus.FileTree.Resolve

/-!
# Names behind a path

`Path.below` puts names behind a path. A name behind a path is one more step down (`trunk_join`), so
no two lists of names give the same path (`below_injective`).
-/

namespace LineCensus.Path

open FileTree (Name Step)

/-- The path with names put behind it, a slash before each unless the path ends in one. -/
def below (root : Path) : List Name → Path
  | [] => root
  | name :: rest =>
    ⟨root.text ++ (if root.text.toList.getLast? = some '/' then "" else "/") ++
      "/".intercalate ((name :: rest).map Name.text)⟩

/-- The steps of a path without the one that a slash at its end asks for. -/
def trunk (p : Path) : List Step :=
  if p.text.toList.getLast? = some '/' then p.steps.dropLast else p.steps

theorem name_ne_empty (name : Name) : name.text.toList ≠ [] := by
  intro empty
  have valid := name.valid
  rw [String.toList_eq_nil_iff.mp empty] at valid
  exact absurd valid (by decide)

theorem slash_not_mem (name : Name) : '/' ∉ name.text.toList := by
  have valid := name.valid
  simp only [FileTree.isName, Bool.and_eq_true, Bool.not_eq_true', List.contains_eq_mem,
    decide_eq_false_iff_not] at valid
  exact valid.1.1.2

theorem nul_not_mem (name : Name) : '\x00' ∉ name.text.toList := by
  have valid := name.valid
  simp only [FileTree.isName, Bool.and_eq_true, Bool.not_eq_true', List.contains_eq_mem,
    decide_eq_false_iff_not] at valid
  exact valid.1.2

theorem getLast?_name (name : Name) : name.text.toList.getLast? ≠ some '/' :=
  fun last => slash_not_mem name (List.mem_of_getLast? last)

/-! ### One name -/

theorem join_of_slash {p : Path} (slash : p.text.toList.getLast? = some '/') (part : String) :
    p.join part = ⟨p.text ++ part⟩ :=
  if_pos (Or.inr slash)

theorem join_of_no_slash {p : Path} (nonempty : p.text ≠ "")
    (slash : p.text.toList.getLast? ≠ some '/') (part : String) :
    p.join part = ⟨p.text ++ "/" ++ part⟩ :=
  if_neg (not_or.mpr ⟨nonempty, slash⟩)

theorem getLast?_join (p : Path) (name : Name) :
    (p.join name.text).text.toList.getLast? = name.text.toList.getLast? := by
  have ends : name.text.toList.getLast? = some (name.text.toList.getLast (name_ne_empty name)) :=
    List.getLast?_eq_some_getLast _
  unfold join
  split <;> rw [String.toList_append, List.getLast?_append, ends, Option.some_or]

theorem join_nonempty (p : Path) (name : Name) : (p.join name.text).text ≠ "" := by
  intro empty
  have last := getLast?_join p name
  rw [empty] at last
  exact name_ne_empty name (List.getLast?_eq_none_iff.mp last.symm)

theorem mem_join {p : Path} {part : String} {c : Char} (mem : c ∈ (p.join part).text.toList) :
    c ∈ p.text.toList ∨ c = '/' ∨ c ∈ part.toList := by
  unfold join at mem
  split at mem
  · rw [String.toList_append, List.mem_append] at mem
    exact mem.imp_right Or.inr
  · rw [String.toList_append, String.toList_append, List.mem_append, List.mem_append, or_assoc] at mem
    exact mem.imp_right (Or.imp_left List.mem_singleton.mp)

theorem nul_not_mem_join {p : Path} (clean : '\x00' ∉ p.text.toList) (name : Name) :
    '\x00' ∉ (p.join name.text).text.toList := by
  intro mem
  rcases mem_join mem with inside | slash | inside
  · exact clean inside
  · cases slash
  · exact nul_not_mem name inside

theorem isAbsolute_join {p : Path} (nonempty : p.text ≠ "") (part : String) :
    (p.join part).isAbsolute = p.isAbsolute := by
  obtain ⟨first, rest, chars⟩ := List.exists_cons_of_ne_nil
    (fun empty => nonempty (String.toList_eq_nil_iff.mp empty))
  unfold join isAbsolute
  split <;> simp [chars]

/-- What stands before a slash at the end of a path, and the parts that it makes. -/
theorem parts_of_slash {p : Path} (slash : p.text.toList.getLast? = some '/') :
    ∃ init, p.text.toList = init ++ ['/'] ∧ p.parts = (init.splitOn '/').map String.ofList ++ [""] := by
  obtain ⟨init, split⟩ := List.getLast?_eq_some_iff.mp slash
  refine ⟨init, split, ?_⟩
  unfold parts
  rw [split, List.splitOn_append_cons_self, List.splitOn_nil, List.map_append]
  rfl

theorem steps_eq_trunk (p : Path) : p.steps = p.trunk ∨ p.steps = p.trunk ++ [.stay] := by
  unfold trunk
  split
  · next slash =>
    obtain ⟨init, _, parts⟩ := parts_of_slash slash
    have steps : p.steps = ((init.splitOn '/').map String.ofList).map Step.ofPart ++ [.stay] := by
      rw [steps, parts, List.map_append]
      rfl
    rw [steps, List.dropLast_concat]
    exact Or.inr rfl
  · exact Or.inl rfl

/-- A name comes behind the parts of a path, in place of the empty one behind a last slash. -/
theorem parts_join {p : Path} (nonempty : p.text ≠ "") (name : Name) :
    ∃ front, front ≠ [] ∧ p.trunk = front.map Step.ofPart ∧
      (p.join name.text).parts = front ++ [name.text] := by
  have alone : name.text.toList.splitOn '/' = [name.text.toList] :=
    List.splitOn_eq_singleton (slash_not_mem name)
  by_cases slash : p.text.toList.getLast? = some '/'
  · obtain ⟨init, split, parts⟩ := parts_of_slash slash
    refine ⟨(init.splitOn '/').map String.ofList, by simp, ?_, ?_⟩
    · rw [trunk, if_pos slash, steps, parts, List.map_append, List.map_singleton,
        List.dropLast_concat]
    · rw [join_of_slash slash, Path.parts, String.toList_append, split, List.append_assoc,
        List.singleton_append, List.splitOn_append_cons_self, alone, List.map_append,
        List.map_singleton, String.ofList_toList]
  · have chars : (p.text ++ "/" ++ name.text).toList =
        p.text.toList ++ '/' :: name.text.toList := by
      simp
    refine ⟨p.parts, by simp [parts], ?_, ?_⟩
    · rw [trunk, if_neg slash, steps]
    · rw [join_of_no_slash nonempty slash, parts, chars, List.splitOn_append_cons_self, alone,
        List.map_append, List.map_singleton, String.ofList_toList, parts]

theorem steps_join {p : Path} (nonempty : p.text ≠ "") (name : Name) :
    (p.join name.text).steps = p.trunk ++ [.down name] := by
  obtain ⟨front, _, trunk, parts⟩ := parts_join nonempty name
  rw [steps, parts, List.map_append, trunk, List.map_singleton, Step.ofPart_text]

/-- A path with a name behind it is not the standard input, even behind a dash. -/
theorem isDash_join {p : Path} (nonempty : p.text ≠ "") (name : Name) :
    (p.join name.text).isDash = false := by
  obtain ⟨front, some_, _, parts⟩ := parts_join nonempty name
  obtain ⟨first, rest, rfl⟩ := List.exists_cons_of_ne_nil some_
  have valid := name.valid
  simp only [FileTree.isName, Bool.and_eq_true, bne_iff_ne, ne_eq] at valid
  unfold isDash
  rw [parts]
  simp [valid]

theorem trunk_join {p : Path} (nonempty : p.text ≠ "") (name : Name) :
    (p.join name.text).trunk = p.trunk ++ [.down name] := by
  have last : (p.join name.text).text.toList.getLast? ≠ some '/' := by
    rw [getLast?_join]
    exact getLast?_name name
  rw [trunk, if_neg last, steps_join nonempty]

/-! ### Several names -/

theorem below_cons {p : Path} (nonempty : p.text ≠ "") (name : Name) (rest : List Name) :
    p.below (name :: rest) = (p.join name.text).below rest := by
  have single : p.below [name] = p.join name.text := by
    by_cases slash : p.text.toList.getLast? = some '/'
    · simp [below, slash, join_of_slash slash]
    · simp [below, slash, join_of_no_slash nonempty slash]
  cases rest with
  | nil => exact single
  | cons next rest =>
    have last : (p.join name.text).text.toList.getLast? ≠ some '/' := by
      rw [getLast?_join]
      exact getLast?_name name
    have here : (p.join name.text).text =
        p.text ++ (if p.text.toList.getLast? = some '/' then "" else "/") ++ name.text := by
      rw [← single]
      simp [below]
    rw [below, below, if_neg last, here, List.map_cons, List.map_cons,
      String.intercalate_cons_cons]
    simp only [String.append_assoc]

theorem below_concat {p : Path} (nonempty : p.text ≠ "") (names : List Name) (name : Name) :
    p.below (names ++ [name]) = (p.below names).join name.text := by
  induction names generalizing p with
  | nil => exact below_cons nonempty name []
  | cons first rest ih =>
    rw [List.cons_append, below_cons nonempty, ih (join_nonempty p first), below_cons nonempty]

theorem nul_not_mem_below {p : Path} (nonempty : p.text ≠ "") (clean : '\x00' ∉ p.text.toList)
    (names : List Name) : '\x00' ∉ (p.below names).text.toList := by
  induction names generalizing p with
  | nil => exact clean
  | cons name rest ih =>
    rw [below_cons nonempty]
    exact ih (join_nonempty p name) (nul_not_mem_join clean name)

theorem trunk_below {p : Path} (nonempty : p.text ≠ "") (names : List Name) :
    (p.below names).trunk = p.trunk ++ names.map .down := by
  induction names generalizing p with
  | nil => exact (List.append_nil _).symm
  | cons name rest ih =>
    rw [below_cons nonempty, ih (join_nonempty p name), trunk_join nonempty, List.append_assoc]
    rfl

theorem below_injective {p : Path} (nonempty : p.text ≠ "") {names others : List Name}
    (same : p.below names = p.below others) : names = others := by
  have trunks := congrArg trunk same
  rw [trunk_below nonempty, trunk_below nonempty] at trunks
  have steps := List.append_cancel_left trunks
  exact (List.map_inj_right fun _ _ => Step.down.inj).mp steps

end LineCensus.Path
