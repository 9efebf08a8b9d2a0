import Mathlib.Data.List.Basic

/-! Where a list stands in another one, and what stays of it when more is appended. -/
namespace Occurrence

variable {α : Type} {needle s t : List α} {i j : ℕ}

/-- `needle` stands in `s` at position `i`. -/
def OccursAt (needle s : List α) (i : ℕ) : Prop := needle <+: s.drop i

/-- It stands there and nowhere before. -/
structure FirstAt (needle s : List α) (i : ℕ) : Prop where
  occurs : OccursAt needle s i
  first : ∀ j, j < i → ¬OccursAt needle s j

theorem OccursAt.length_le (h : OccursAt needle s i) (hneedle : needle ≠ []) :
    i + needle.length ≤ s.length := by
  have hle := List.IsPrefix.length_le h
  have hpos := List.length_pos_iff.mpr hneedle
  rw [List.length_drop] at hle
  omega

/-- The last element of an occurrence decides whether it lies in the first of two parts. -/
theorem occursAt_append_iff (h : i + needle.length ≤ s.length) :
    OccursAt needle (s ++ t) i ↔ OccursAt needle s i := by
  unfold OccursAt
  rw [List.drop_append_of_le_length (by omega)]
  constructor
  · intro hpre
    have hle : needle.length ≤ (s.drop i).length := by
      rw [List.length_drop]
      omega
    exact List.prefix_of_prefix_length_le hpre (List.prefix_append ..) hle
  · exact fun hpre => hpre.trans (List.prefix_append ..)

theorem OccursAt.append (h : OccursAt needle s i) (hneedle : needle ≠ []) (t : List α) :
    OccursAt needle (s ++ t) i :=
  (occursAt_append_iff (h.length_le hneedle)).mpr h

/-- A first occurrence stays the first one. -/
theorem FirstAt.append (h : FirstAt needle s i) (hneedle : needle ≠ []) (t : List α) :
    FirstAt needle (s ++ t) i := by
  have hle := h.occurs.length_le hneedle
  refine ⟨h.occurs.append hneedle t, ?_⟩
  intro j hj hoccurs
  exact h.first j hj ((occursAt_append_iff (by omega)).mp hoccurs)

/-- A new occurrence reaches into what was appended. -/
theorem OccursAt.lt_of_append (h : OccursAt needle (s ++ t) i)
    (hnone : ∀ j, ¬OccursAt needle s j) : s.length < i + needle.length := by
  by_contra hle
  exact hnone i ((occursAt_append_iff (by omega)).mp h)

end Occurrence
