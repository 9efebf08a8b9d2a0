import Mathlib.Data.Nat.Count

/-! Runs of a machine that reads one input of an infinite schedule at each step. -/
namespace Schedule

variable {σ ι : Type} (step : σ → ι → σ) (s : σ) (inputs : ℕ → ι)

/-- The state after some steps. -/
def run : ℕ → σ
  | 0 => s
  | n + 1 => step (run n) (inputs n)

variable {step s inputs} {P : σ → Prop} {i j : ℕ}

/-- What every step of a stretch preserves holds at its end. -/
theorem run_of_le (hij : i ≤ j) (hi : P (run step s inputs i))
    (hstep : ∀ k, i ≤ k → P (run step s inputs k) → P (step (run step s inputs k) (inputs k))) :
    P (run step s inputs j) := by
  induction j, hij using Nat.le_induction with
  | base => exact hi
  | succ j hij ih => exact hstep j hij ih

/-- The number of steps, among `n` from `i` on, that start in a state with `p`. -/
def visits (step : σ → ι → σ) (s : σ) (inputs : ℕ → ι) (p : σ → Prop) [DecidablePred p]
    (i n : ℕ) : ℕ :=
  Nat.count (fun k => p (run step s inputs (i + k))) n

/-- A state that is left for good is visited only finitely often. -/
theorem visits_le {p : σ → Prop} [DecidablePred p] (hij : i ≤ j)
    (hleft : ∀ k, j ≤ k → ¬ p (run step s inputs k)) (n : ℕ) :
    visits step s inputs p i n ≤ j - i := by
  unfold visits
  by_cases hn : n ≤ j - i
  · exact (Nat.count_le _).trans hn
  · obtain ⟨rest, rfl⟩ := Nat.exists_eq_add_of_le (Nat.le_of_not_le hn)
    have hnone : Nat.count (fun k => p (run step s inputs (i + (j - i + k)))) rest = 0 :=
      Nat.count_iff_forall_not.mpr fun k _ => hleft _ (by omega)
    rw [Nat.count_add, hnone]
    exact Nat.count_le _

end Schedule
