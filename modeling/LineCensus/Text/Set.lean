import LineCensus.Text.Order

/-!
# Sets of texts

A `TextSet` keeps its members in byte order, each once, so that two sets with the same members are
equal (`TextSet.ext`). `mem_ofList` says that a set made from a list has its members.
-/

namespace LineCensus

structure TextSet where
  members : List String
  ordered : members.Pairwise Text.Before
  deriving DecidableEq

namespace TextSet

instance : Membership String TextSet := ⟨fun s text => text ∈ s.members⟩

instance (text : String) (s : TextSet) : Decidable (text ∈ s) :=
  inferInstanceAs (Decidable (text ∈ s.members))

def empty : TextSet := ⟨[], List.Pairwise.nil⟩

/-- A list in byte order with one more text in its place. -/
def place (text : String) : List String → List String
  | [] => [text]
  | first :: rest =>
    if text = first then first :: rest
    else if Text.Before text first then text :: first :: rest
    else first :: place text rest

theorem mem_place {text : String} {members : List String} {x : String} :
    x ∈ place text members ↔ x = text ∨ x ∈ members := by
  induction members with
  | nil => simp [place]
  | cons first rest ih =>
    rw [place]
    split
    next e => simp [e]
    next e =>
      split
      · simp
      · simp only [List.mem_cons, ih]
        constructor
        · rintro (h | h | h) <;> simp [h]
        · rintro (h | h | h) <;> simp [h]

theorem ordered_place {text : String} {members : List String}
    (h : members.Pairwise Text.Before) : (place text members).Pairwise Text.Before := by
  induction members with
  | nil => simp [place]
  | cons first rest ih =>
    obtain ⟨hfirst, hrest⟩ := List.pairwise_cons.mp h
    rw [place]
    split
    next e => exact h
    next e =>
      split
      next hb =>
        refine List.pairwise_cons.mpr ⟨fun x hx => ?_, h⟩
        rcases List.mem_cons.mp hx with rfl | hx
        · exact hb
        · exact hb.trans (hfirst x hx)
      next hb =>
        refine List.pairwise_cons.mpr ⟨fun x hx => ?_, ih hrest⟩
        rcases mem_place.mp hx with rfl | hx
        · exact (Text.before_or_before e).resolve_left hb
        · exact hfirst x hx

def insert (s : TextSet) (text : String) : TextSet :=
  ⟨place text s.members, ordered_place s.ordered⟩

def ofList (texts : List String) : TextSet :=
  texts.foldr (fun text s => s.insert text) empty

theorem mem_insert {s : TextSet} {text x : String} : x ∈ s.insert text ↔ x = text ∨ x ∈ s :=
  mem_place

theorem mem_ofList {texts : List String} {x : String} : x ∈ ofList texts ↔ x ∈ texts := by
  induction texts with
  | nil => exact ⟨nofun, nofun⟩
  | cons text rest ih =>
    rw [List.mem_cons, ← ih]
    exact mem_insert

theorem eq_of_mem_iff {xs ys : List String} (hxs : xs.Pairwise Text.Before)
    (hys : ys.Pairwise Text.Before) (h : ∀ x, x ∈ xs ↔ x ∈ ys) : xs = ys := by
  induction xs generalizing ys with
  | nil =>
    cases ys with
    | nil => rfl
    | cons y ys => exact absurd ((h y).mpr List.mem_cons_self) (by simp)
  | cons x xs ih =>
    cases ys with
    | nil => exact absurd ((h x).mp List.mem_cons_self) (by simp)
    | cons y ys =>
      obtain ⟨hx, hxrest⟩ := List.pairwise_cons.mp hxs
      obtain ⟨hy, hyrest⟩ := List.pairwise_cons.mp hys
      have hxy : x = y := by
        rcases List.mem_cons.mp ((h x).mp List.mem_cons_self) with e | hmem
        · exact e
        · rcases List.mem_cons.mp ((h y).mpr List.mem_cons_self) with e | hmem'
          · exact e.symm
          · exact absurd ((hx y hmem').trans (hy x hmem)) (Text.Before.irrefl x)
      subst hxy
      refine congrArg _ (ih hxrest hyrest (fun z => ⟨fun hz => ?_, fun hz => ?_⟩))
      · rcases List.mem_cons.mp ((h z).mp (List.mem_cons_of_mem _ hz)) with rfl | hmem
        · exact absurd (hx z hz) (Text.Before.irrefl z)
        · exact hmem
      · rcases List.mem_cons.mp ((h z).mpr (List.mem_cons_of_mem _ hz)) with rfl | hmem
        · exact absurd (hy z hz) (Text.Before.irrefl z)
        · exact hmem

theorem ext {s t : TextSet} (h : ∀ x, x ∈ s ↔ x ∈ t) : s = t := by
  obtain ⟨xs, hxs⟩ := s
  obtain ⟨ys, hys⟩ := t
  cases eq_of_mem_iff hxs hys h
  rfl

end TextSet

end LineCensus
