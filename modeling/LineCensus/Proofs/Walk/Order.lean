import Mathlib.Data.List.Lex
import Mathlib.Data.List.Sort
import LineCensus.FileTree.Name

/-!
# Values in the order of names

`Lists P values` says that a list has each value that `P` relates to some names once, in the order of
the names. The lists of a walk are put together from those of its parts, and there is no other list of
the same values (`Lists.unique`).
-/

namespace LineCensus.Walk

open FileTree (Name)

/-- One list of names is before another component by component, in byte order. -/
def Earlier : List Name → List Name → Prop :=
  List.Lex fun a b => Text.Before a.text b.text

theorem Earlier.irrefl (names : List Name) : ¬ Earlier names names :=
  List.lex_irrefl (fun name => Text.Before.irrefl name.text) names

theorem earlier_of_before {first second : Name} (before : Text.Before first.text second.text)
    (names others : List Name) : Earlier (first :: names) (second :: others) :=
  List.Lex.rel before

theorem Earlier.asymm {names others : List Name} (before : Earlier names others) :
    ¬ Earlier others names := by
  have asymm : Std.Asymm fun a b : Name => Text.Before a.text b.text :=
    ⟨fun a b ab ba => Text.Before.irrefl a.text (ab.trans ba)⟩
  exact (List.Lex.asymm fun a b : Name => Text.Before a.text b.text).asymm _ _ before

instance : Std.Irrefl Earlier := ⟨Earlier.irrefl⟩

instance : Std.Antisymm Earlier := ⟨fun _ _ before after => absurd after before.asymm⟩

/-- A list has the values that names stand for, once each and in the order of the names. -/
def Lists {α : Type} (P : List Name → α → Prop) (values : List α) : Prop :=
  ∃ found : List (List Name × α), values = found.map Prod.snd ∧
    found.Pairwise (fun a b => Earlier a.1 b.1) ∧
      ∀ names value, (names, value) ∈ found ↔ P names value

namespace Lists

variable {α β : Type} {P Q : List Name → α → Prop} {values others : List α}

theorem congr (lists : Lists P values) (same : ∀ names value, P names value ↔ Q names value) :
    Lists Q values := by
  obtain ⟨found, maps, order, mem⟩ := lists
  exact ⟨found, maps, order, fun names value => (mem names value).trans (same names value)⟩

theorem nil (none : ∀ names value, ¬ P names value) : Lists P [] := by
  refine ⟨[], rfl, List.Pairwise.nil, fun names value => ?_⟩
  exact iff_of_false List.not_mem_nil (none names value)

theorem single (names : List Name) (value : α) :
    Lists (fun others other => others = names ∧ other = value) [value] := by
  refine ⟨[(names, value)], rfl, List.pairwise_singleton _ _, fun others other => ?_⟩
  rw [List.mem_singleton, Prod.mk.injEq]

theorem append (left : Lists P values) (right : Lists Q others)
    (before : ∀ names value, P names value → ∀ later other, Q later other → Earlier names later) :
    Lists (fun names value => P names value ∨ Q names value) (values ++ others) := by
  obtain ⟨found, rfl, order, mem⟩ := left
  obtain ⟨more, rfl, orderMore, memMore⟩ := right
  refine ⟨found ++ more, List.map_append.symm, ?_, fun names value => ?_⟩
  · refine List.pairwise_append.mpr ⟨order, orderMore, ?_⟩
    intro a inFound b inMore
    exact before a.1 a.2 ((mem _ _).mp inFound) b.1 b.2 ((memMore _ _).mp inMore)
  · rw [List.mem_append, mem, memMore]

theorem behind (name : Name) (lists : Lists P values) :
    Lists (fun names value => ∃ rest, names = name :: rest ∧ P rest value) values := by
  obtain ⟨found, rfl, order, mem⟩ := lists
  refine ⟨found.map fun entry => (name :: entry.1, entry.2), ?_, ?_, fun names value => ?_⟩
  · rw [List.map_map]
    rfl
  · exact List.pairwise_map.mpr (order.imp fun earlier => List.Lex.cons earlier)
  · rw [List.mem_map]
    constructor
    · rintro ⟨⟨rest, other⟩, inFound, pair⟩
      obtain ⟨rfl, rfl⟩ := Prod.mk.inj pair
      exact ⟨rest, rfl, (mem rest other).mp inFound⟩
    · rintro ⟨rest, rfl, holds⟩
      exact ⟨(rest, value), (mem rest value).mpr holds, rfl⟩

theorem filterMap (f : α → Option β) (lists : Lists P values) :
    Lists (fun names new => ∃ value, P names value ∧ f value = some new) (values.filterMap f) := by
  obtain ⟨found, rfl, order, mem⟩ := lists
  refine ⟨found.filterMap fun entry => (f entry.2).map (entry.1, ·), ?_, ?_, fun names new => ?_⟩
  · rw [List.map_filterMap, List.filterMap_map]
    congr
    funext entry
    cases image : f entry.2 <;> simp [image]
  · refine List.Pairwise.filterMap _ (fun a b earlier a' isA b' isB => ?_) order
    obtain ⟨_, _, rfl⟩ := Option.map_eq_some_iff.mp isA
    obtain ⟨_, _, rfl⟩ := Option.map_eq_some_iff.mp isB
    exact earlier
  · rw [List.mem_filterMap]
    constructor
    · rintro ⟨⟨_, value⟩, inFound, paired⟩
      obtain ⟨_, image, pair⟩ := Option.map_eq_some_iff.mp paired
      obtain ⟨rfl, rfl⟩ := Prod.mk.inj pair
      exact ⟨value, (mem _ _).mp inFound, image⟩
    · rintro ⟨value, holds, image⟩
      exact ⟨(names, value), (mem _ _).mpr holds, by rw [image]; rfl⟩

theorem filter (keep : α → Bool) (lists : Lists P values) :
    Lists (fun names value => P names value ∧ keep value = true) (values.filter keep) := by
  rw [← List.filterMap_eq_filter]
  refine (lists.filterMap _).congr fun names value => ?_
  constructor
  · rintro ⟨other, holds, kept⟩
    obtain ⟨rfl, true⟩ := Option.guard_eq_some_iff.mp kept
    exact ⟨holds, true⟩
  · rintro ⟨holds, true⟩
    exact ⟨value, holds, Option.guard_eq_some_iff.mpr ⟨rfl, true⟩⟩

/-- Where the values are made from the names, a list of them is one of names. -/
theorem names {f : List Name → α} {Q : List Name → Prop}
    (lists : Lists (fun names value => value = f names ∧ Q names) values) :
    ∃ found : List (List Name), values = found.map f ∧ found.Pairwise Earlier ∧
      ∀ names, names ∈ found ↔ Q names := by
  obtain ⟨found, rfl, order, mem⟩ := lists
  refine ⟨found.map Prod.fst, ?_, List.pairwise_map.mpr order, fun names => ?_⟩
  · rw [List.map_map]
    exact List.map_congr_left fun entry inFound => ((mem _ _).mp inFound).1
  · rw [List.mem_map]
    constructor
    · rintro ⟨entry, inFound, rfl⟩
      exact ((mem _ _).mp inFound).2
    · exact fun holds => ⟨(names, f names), (mem _ _).mpr ⟨rfl, holds⟩, rfl⟩

theorem unique (lists : Lists P values) (same : Lists P others) : values = others := by
  obtain ⟨found, rfl, order, mem⟩ := lists
  obtain ⟨more, rfl, orderMore, memMore⟩ := same
  let before (a b : List Name × α) : Prop := Earlier a.1 b.1
  have irrefl : Std.Irrefl before := ⟨fun a => Earlier.irrefl a.1⟩
  have antisymm : Std.Antisymm before := ⟨fun a b ab ba => absurd ba ab.asymm⟩
  have equal : found = more := by
    apply List.Pairwise.eq_of_mem_iff order orderMore
    rintro ⟨names, value⟩
    rw [mem, memMore]
  rw [equal]

/-- No value is there twice if none stands for two lists of names. -/
theorem nodup (lists : Lists P values)
    (names_unique : ∀ names others value, P names value → P others value → names = others) :
    values.Nodup := by
  obtain ⟨found, rfl, order, mem⟩ := lists
  rw [List.nodup_iff_pairwise_ne, List.pairwise_map]
  refine order.imp_of_mem fun {a b} inFound inFound' earlier same => ?_
  have first := (mem a.1 a.2).mp inFound
  have second := (mem b.1 b.2).mp inFound'
  rw [← same] at second
  rw [names_unique _ _ _ first second] at earlier
  exact Earlier.irrefl _ earlier

theorem mem_iff (lists : Lists P values) (value : α) : value ∈ values ↔ ∃ names, P names value := by
  obtain ⟨found, rfl, _, mem⟩ := lists
  rw [List.mem_map]
  constructor
  · rintro ⟨⟨names, other⟩, inFound, rfl⟩
    exact ⟨names, (mem names other).mp inFound⟩
  · rintro ⟨names, holds⟩
    exact ⟨(names, value), (mem names value).mpr holds, rfl⟩

end Lists

end LineCensus.Walk
