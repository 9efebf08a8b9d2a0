import Mathlib.Algebra.Group.Nat.Defs
import Mathlib.Data.Int.Notation
import Mathlib.Data.Nat.Notation

/-! Arithmetic on machine integers, in a program that is run twice: with results that wrap around,
as the machine has them, and with a fault where a result would wrap around. -/
namespace MachineInt

/-- Why a program does not return. -/
inductive Fault
  | wraps
  | outOfFuel
deriving DecidableEq

abbrev Run (α : Type) := Except Fault α

/-- The result of an operation with an exact value, in a type of some width. -/
structure Arithmetic where
  unsigned : ℕ → ℕ → Run ℕ
  signed : ℕ → ℤ → Run ℤ

namespace Arithmetic

/-- Results modulo a power of two. -/
def modular : Arithmetic :=
  { unsigned := fun bits n => .ok (n % 2 ^ bits)
    signed := fun bits z => .ok (z.bmod (2 ^ bits)) }

/-- Results that must not wrap around. -/
def checked : Arithmetic :=
  { unsigned := fun bits n => if n < 2 ^ bits then .ok n else .error .wraps
    signed := fun bits z =>
      if -((2 ^ (bits - 1) : ℕ) : ℤ) ≤ z ∧ z < ((2 ^ (bits - 1) : ℕ) : ℤ) then .ok z else .error .wraps }

/-- Exact values that the type can hold are results. -/
structure Exact (A : Arithmetic) : Prop where
  unsigned : ∀ bits n, n < 2 ^ bits → A.unsigned bits n = .ok n
  signed : ∀ bits z, 0 < bits → -((2 ^ (bits - 1) : ℕ) : ℤ) ≤ z →
    z < ((2 ^ (bits - 1) : ℕ) : ℤ) → A.signed bits z = .ok z

theorem exact_modular : modular.Exact := by
  constructor
  · intro bits n h
    exact congrArg Except.ok (Nat.mod_eq_of_lt h)
  · intro bits z hbits hlow hhigh
    obtain ⟨n, rfl⟩ := Nat.exists_eq_succ_of_ne_zero (Nat.pos_iff_ne_zero.mp hbits)
    have hpow : 2 ^ (n + 1) = 2 * 2 ^ n := by rw [Nat.pow_succ, Nat.mul_comm]
    rw [Nat.succ_sub_one] at hlow hhigh
    apply congrArg Except.ok
    rw [Nat.succ_eq_add_one, hpow]
    generalize 2 ^ n = half at hlow hhigh ⊢
    apply Int.bmod_eq_of_le <;> omega

theorem exact_checked : checked.Exact := by
  constructor
  · intro bits n h
    exact if_pos h
  · intro bits z _ hlow hhigh
    exact if_pos ⟨hlow, hhigh⟩

end Arithmetic

@[simp] theorem ok_bind {α β : Type} (a : α) (f : α → Run β) : ((.ok a : Run α) >>= f) = f a := rfl

@[simp] theorem pure_eq {α : Type} (a : α) : (pure a : Run α) = .ok a := rfl

end MachineInt
