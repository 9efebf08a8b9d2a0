import Mathlib.Data.List.Basic

/-! Interleavings of the actions of several threads, and what does not depend on the order in
which the threads take turns. -/

/-- The actions of some threads in one order: each thread takes its own actions in order, and at
each step any thread may go on. -/
inductive Interleaving {α : Type} : List (List α) → List α → Prop
  | done {threads : List (List α)} (h : ∀ actions ∈ threads, actions = []) :
    Interleaving threads []
  | step {before after : List (List α)} {a : α} {rest taken : List α}
    (h : Interleaving (before ++ rest :: after) taken) :
    Interleaving (before ++ (a :: rest) :: after) (a :: taken)

namespace Interleaving
variable {α : Type}

theorem perm {threads : List (List α)} {taken : List α} (h : Interleaving threads taken) :
    taken.Perm threads.flatten := by
  induction h with
  | done h => rw [List.flatten_eq_nil_iff.mpr h]
  | @step before after a rest taken _ ih =>
    have hflatten : (before ++ (a :: rest) :: after).flatten =
        before.flatten ++ a :: (rest ++ after.flatten) := by simp
    have hrest : (before ++ rest :: after).flatten =
        before.flatten ++ (rest ++ after.flatten) := by simp
    rw [hrest] at ih
    rw [hflatten]
    exact (ih.cons a).trans List.perm_middle.symm

/-- The threads may run one after the other. -/
theorem flatten (threads : List (List α)) : Interleaving threads threads.flatten := by
  have hfrom : ∀ finished : List (List α), (∀ actions ∈ finished, actions = []) →
      Interleaving (finished ++ threads) threads.flatten := by
    induction threads with
    | nil =>
      intro finished h
      rw [List.append_nil]
      exact .done h
    | cons actions threads ih =>
      intro finished h
      induction actions with
      | nil =>
        have hnext := ih (finished ++ [[]]) fun actions hmem => by
          rcases List.mem_append.mp hmem with hmem | hmem
          · exact h actions hmem
          · exact List.mem_singleton.mp hmem
        rwa [List.append_assoc] at hnext
      | cons a actions ih' => exact .step ih'
  exact hfrom [] (by simp)

end Interleaving
