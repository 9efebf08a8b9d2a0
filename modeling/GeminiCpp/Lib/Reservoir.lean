import Mathlib.Algebra.BigOperators.Group.List.Basic
import Mathlib.Algebra.Order.Floor.Ring
import Mathlib.Tactic.Linarith

/-! A level that rises at a constant rate up to a cap, and from which amounts are drawn that it
covers. -/
namespace Reservoir

variable {K : Type} [Field K] [LinearOrder K]

/-- The level after some time in which nothing is drawn. -/
def fill (cap rate level time : K) : K := min cap (level + time * rate)

section
variable {cap rate level time : K}

theorem fill_le_cap (cap rate level time : K) : fill cap rate level time ≤ cap := min_le_left ..

theorem fill_le_add (cap rate level time : K) :
    fill cap rate level time ≤ level + time * rate := min_le_right ..

theorem fill_zero (hlevel : level ≤ cap) : fill cap rate level 0 = level := by
  unfold fill
  rw [zero_mul, add_zero, min_eq_right hlevel]

variable [IsStrictOrderedRing K]

theorem le_fill (hrate : 0 ≤ rate) (htime : 0 ≤ time) (hlevel : level ≤ cap) :
    level ≤ fill cap rate level time := by
  have hgain := mul_nonneg htime hrate
  exact le_min hlevel (by linarith)

/-- How long it takes until the level covers an amount. -/
theorem le_fill_iff {amount : K} (hrate : 0 < rate) (hamount : amount ≤ cap) :
    amount ≤ fill cap rate level time ↔ (amount - level) / rate ≤ time := by
  unfold fill
  rw [le_min_iff, div_le_iff₀ hrate, sub_le_iff_le_add']
  exact and_iff_right hamount

/-- The same in whole ticks of a clock. -/
theorem le_fill_ticks_iff [FloorRing K] {amount ticks : K} (hrate : 0 < rate) (hticks : 0 < ticks)
    (hamount : amount ≤ cap) (n : ℤ) :
    amount ≤ fill cap rate level (n / ticks) ↔ ⌈(amount - level) / rate * ticks⌉ ≤ n := by
  rw [le_fill_iff hrate hamount, Int.ceil_le, le_div_iff₀ hticks]

end

/-- Amounts that are drawn one after the other, each after some time, with the levels before and
after them. -/
inductive Draws (cap rate : K) : K → List (K × K) → K → Prop
  | nil (level : K) : Draws cap rate level [] level
  | cons {level level' time amount : K} {draws : List (K × K)} (htime : 0 ≤ time)
    (hamount : 0 ≤ amount) (hcovered : amount ≤ fill cap rate level time)
    (h : Draws cap rate (fill cap rate level time - amount) draws level') :
    Draws cap rate level ((time, amount) :: draws) level'

def times (draws : List (K × K)) : K := (draws.map Prod.fst).sum

def amounts (draws : List (K × K)) : K := (draws.map Prod.snd).sum

namespace Draws
variable [IsStrictOrderedRing K] {cap rate level level' : K} {draws : List (K × K)}

theorem bounds (h : Draws cap rate level draws level') (hlow : 0 ≤ level) (hhigh : level ≤ cap) :
    0 ≤ level' ∧ level' ≤ cap := by
  induction h with
  | nil level => exact ⟨hlow, hhigh⟩
  | @cons level level' time amount draws htime hamount hcovered _ ih =>
    have hcap := fill_le_cap cap rate level time
    exact ih (by linarith) (by linarith)

/-- What is drawn, and what is left, was there or has flowed in. -/
theorem amounts_add_le (h : Draws cap rate level draws level') :
    amounts draws + level' ≤ level + times draws * rate := by
  induction h with
  | nil level =>
    unfold amounts times
    simp
  | @cons level level' time amount draws htime hamount hcovered _ ih =>
    have hfill := fill_le_add cap rate level time
    have hamounts : amounts ((time, amount) :: draws) = amount + amounts draws := by
      simp [amounts]
    have htimes : times ((time, amount) :: draws) = time + times draws := by
      simp [times]
    rw [hamounts, htimes, add_mul]
    linarith

/-- No more is drawn than the cap and what flows in. -/
theorem amounts_le (h : Draws cap rate level draws level') (hlow : 0 ≤ level)
    (hhigh : level ≤ cap) : amounts draws ≤ cap + times draws * rate := by
  have hleft := (h.bounds hlow hhigh).1
  have htotal := h.amounts_add_le
  linarith

end Draws

end Reservoir
