import LineCensus.Text.Utf8

/-!
# The byte order of texts

`Before` compares two strings by their bytes, the first difference deciding. It is a strict
order, and of two different strings one is before the other (`before_or_before`).
-/

namespace LineCensus.Text

/-- The bytes of `a` come first, byte by byte. -/
def Before (a b : String) : Prop :=
  Utf8.bytes a < Utf8.bytes b

instance (a b : String) : Decidable (Before a b) :=
  inferInstanceAs (Decidable (Utf8.bytes a < Utf8.bytes b))

theorem Before.irrefl (a : String) : ¬ Before a a :=
  List.lt_irrefl _

theorem Before.trans {a b c : String} (hab : Before a b) (hbc : Before b c) : Before a c :=
  List.lt_trans hab hbc

theorem bytes_injective {a b : String} (h : Utf8.bytes a = Utf8.bytes b) : a = b := by
  have key (s : String) : s.toByteArray = (Utf8.bytes s).toByteArray := by
    conv => lhs; rw [← String.ofList_toList (s := s), String.toByteArray_ofList]
    rfl
  rw [← String.toByteArray_inj, key, key, h]

theorem before_or_before {a b : String} (h : a ≠ b) : Before a b ∨ Before b a := by
  by_cases hab : Before a b
  · exact Or.inl hab
  · by_cases hba : Before b a
    · exact Or.inr hba
    · exact absurd (bytes_injective (List.le_antisymm hba hab)) h

end LineCensus.Text
