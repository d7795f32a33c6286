import LineCensus.Counts
import LineCensus.Text.Lines

/-!
# Lines and where a text may be cut

`universalLines_append` shows that a text may be cut behind the end of a line, and
`pieceLines_append_newline` and `pieceLines_of_not_mem` that stripping and splitting a piece gives
the lines that going through it once gives. `Counts.ofLines_eq` reads the counts off the kinds.
-/

namespace LineCensus.Text

/-! ### One character at a time -/

theorem universalLinesFrom_crlf (begun rest : List Char) :
    universalLinesFrom begun ('\r' :: '\n' :: rest) = begun.reverse :: universalLines rest :=
  rfl

theorem universalLinesFrom_lf (begun rest : List Char) :
    universalLinesFrom begun ('\n' :: rest) = begun.reverse :: universalLines rest := by
  rw [universalLinesFrom, if_pos (Or.inl rfl)]
  · rfl
  · nofun

theorem universalLinesFrom_cr {begun rest : List Char} (h : rest.head? ≠ some '\n') :
    universalLinesFrom begun ('\r' :: rest) = begun.reverse :: universalLines rest := by
  rw [universalLinesFrom, if_pos (Or.inr rfl)]
  · rfl
  · rintro more - rfl
    exact h rfl

theorem universalLinesFrom_other {begun rest : List Char} {c : Char} (lf : c ≠ '\n')
    (cr : c ≠ '\r') : universalLinesFrom begun (c :: rest) = universalLinesFrom (c :: begun) rest := by
  rw [universalLinesFrom, if_neg (by simp [lf, cr])]
  rintro more rfl
  exact absurd rfl cr

/-! ### Cutting behind the end of a line -/

/-- A line ends between two parts of a text: no line feed follows a carriage return there. -/
def LineEnds (before after : List Char) : Prop :=
  before.getLast? = some '\n' ∨ before.getLast? = some '\r' ∧ after.head? ≠ some '\n'

theorem lineEnds_cons {c : Char} {before after : List Char} (h : LineEnds (c :: before) after)
    (nonempty : before ≠ []) : LineEnds before after := by
  obtain ⟨d, rest, rfl⟩ := List.exists_cons_of_ne_nil nonempty
  unfold LineEnds at h ⊢
  rwa [List.getLast?_cons_cons] at h

theorem universalLinesFrom_append (begun xs ys : List Char)
    (h : LineEnds xs ys ∨ xs = [] ∧ begun = []) :
    universalLinesFrom begun (xs ++ ys) = universalLinesFrom begun xs ++ universalLines ys := by
  have shorter {c : Char} {rest : List Char} (h : LineEnds (c :: rest) ys) :
      LineEnds rest ys ∨ rest = [] ∧ ([] : List Char) = [] := by
    by_cases empty : rest = []
    · exact Or.inr ⟨empty, rfl⟩
    · exact Or.inl (lineEnds_cons h empty)
  fun_induction universalLinesFrom begun xs with
  | case1 begun =>
    obtain ⟨-, rfl⟩ := h.resolve_left (by simp [LineEnds])
    rfl
  | case2 begun nonempty =>
    obtain ⟨-, rfl⟩ := h.resolve_left (by simp [LineEnds])
    exact absurd rfl nonempty
  | case3 begun rest ih =>
    have ends := lineEnds_cons (h.resolve_right nofun) (List.cons_ne_nil _ _)
    exact congrArg _ (ih (shorter ends))
  | case4 begun c rest single isEnd ih =>
    have ends := h.resolve_right nofun
    rcases isEnd with rfl | rfl
    · exact (universalLinesFrom_lf begun (rest ++ ys)).trans (congrArg _ (ih (shorter ends)))
    · have apart : (rest ++ ys).head? ≠ some '\n' := by
        cases rest with
        | nil => exact (ends.resolve_left (by simp)).2
        | cons d more =>
          intro same
          obtain rfl := Option.some.inj same
          exact single more rfl rfl
      exact (universalLinesFrom_cr apart).trans (congrArg _ (ih (shorter ends)))
  | case5 begun c rest _ other ih =>
    rw [not_or] at other
    have nonempty : rest ≠ [] := by
      rintro rfl
      simp [LineEnds, other.1, other.2] at h
    rw [List.cons_append, universalLinesFrom_other other.1 other.2]
    exact ih (Or.inl (lineEnds_cons (h.resolve_right nofun) nonempty))

theorem universalLines_append {xs ys : List Char} (h : LineEnds xs ys) :
    universalLines (xs ++ ys) = universalLines xs ++ universalLines ys :=
  universalLinesFrom_append [] xs ys (Or.inl h)

/-! ### Stripping and splitting a piece -/

theorem dropEnd_append_cons (c d : Char) (xs ys : List Char) :
    dropEnd c (xs ++ d :: ys) = xs ++ dropEnd c (d :: ys) := by
  unfold dropEnd
  have last : (xs ++ d :: ys).getLast? = (d :: ys).getLast? := by
    rw [List.getLast?_append, List.getLast?_eq_some_getLast (List.cons_ne_nil d ys), Option.some_or]
  rw [last, List.dropLast_append_of_ne_nil (List.cons_ne_nil d ys)]
  split <;> rfl

/-- The lines of a piece whose line feed, if it has one, is `ending`. The induction is on what
has not been read; `begun` is the line read so far. -/
theorem splitOn_dropEnd (begun body ending : List Char) (feed : '\n' ∉ body) (cr : '\r' ∉ begun)
    (h : ending = ['\n'] ∨ ending = [] ∧ begun.reverse ++ body ≠ []) :
    (dropEnd '\r' (begun.reverse ++ body)).splitOn '\r' =
      universalLinesFrom begun (body ++ ending) := by
  induction body generalizing begun with
  | nil =>
    have noCr : '\r' ∉ begun.reverse := fun mem => cr (List.mem_reverse.mp mem)
    rw [List.append_nil, dropEnd_of_ne _ _ (fun last => noCr (List.mem_of_getLast? last)),
      List.splitOn_eq_singleton noCr, List.nil_append]
    rcases h with rfl | ⟨rfl, nonempty⟩
    · exact (universalLinesFrom_lf begun []).symm
    · rw [universalLinesFrom, if_neg (by simpa using nonempty)]
  | cons c rest ih =>
    rw [List.mem_cons, not_or] at feed
    by_cases isCr : c = '\r'
    · subst isCr
      have noCr : '\r' ∉ begun.reverse := fun mem => cr (List.mem_reverse.mp mem)
      cases rest with
      | nil =>
        rw [dropEnd_append, List.splitOn_eq_singleton noCr]
        rcases h with rfl | ⟨rfl, _⟩
        · exact (universalLinesFrom_crlf begun []).symm
        · exact (@universalLinesFrom_cr begun [] nofun).symm
      | cons d more =>
        have apart : (d :: more ++ ending).head? ≠ some '\n' := by
          intro same
          obtain rfl := Option.some.inj same
          exact feed.2 List.mem_cons_self
        have next := ih [] feed.2 nofun (h.imp_right fun h => ⟨h.1, List.cons_ne_nil _ _⟩)
        rw [show begun.reverse ++ '\r' :: d :: more = (begun.reverse ++ ['\r']) ++ d :: more by simp,
          dropEnd_append_cons, List.append_assoc, List.singleton_append,
          List.splitOn_append_cons_self_of_not_mem noCr, List.cons_append, universalLinesFrom_cr apart]
        exact congrArg _ next
    · have same : begun.reverse ++ c :: rest = (c :: begun).reverse ++ rest := by simp
      rw [List.cons_append, universalLinesFrom_other (fun e => feed.1 e.symm) isCr]
      rw [same] at h ⊢
      exact ih (c :: begun) feed.2 (by simp [cr, Ne.symm isCr]) h

theorem pieceLines_append_newline {body : List Char} (feed : '\n' ∉ body) :
    pieceLines (body ++ ['\n']) = universalLines (body ++ ['\n']) := by
  rw [pieceLines, dropEnd_append]
  exact splitOn_dropEnd [] body ['\n'] feed nofun (Or.inl rfl)

theorem pieceLines_of_not_mem {body : List Char} (feed : '\n' ∉ body) (nonempty : body ≠ []) :
    pieceLines body = universalLines body := by
  rw [pieceLines, dropEnd_of_ne _ _ (fun last => feed (List.mem_of_getLast? last))]
  have lines := splitOn_dropEnd [] body [] feed nofun (Or.inr ⟨rfl, nonempty⟩)
  rwa [List.append_nil] at lines

end LineCensus.Text

namespace LineCensus.Counts

theorem recordLines_eq (c : Counts) (lines : List (List Char)) :
    c.recordLines lines =
      { code := c.code + (lines.map Line.classify).count .code
        blank := c.blank + (lines.map Line.classify).count .blank
        comment := c.comment + (lines.map Line.classify).count .comment } := by
  induction lines generalizing c with
  | nil => rfl
  | cons line rest ih =>
    have step : c.recordLines (line :: rest) = (c.record (Line.classify line)).recordLines rest := rfl
    rw [step, ih, List.map_cons]
    cases Line.classify line
    all_goals
      simp only [record, List.count_cons, reduceCtorEq, beq_iff_eq, if_true, if_false, mk.injEq]
      omega

theorem ofLines_eq (lines : List (List Char)) :
    ofLines lines =
      { code := (lines.map Line.classify).count .code
        blank := (lines.map Line.classify).count .blank
        comment := (lines.map Line.classify).count .comment } := by
  rw [ofLines, recordLines_eq]
  simp only [Nat.zero_add]

end LineCensus.Counts
