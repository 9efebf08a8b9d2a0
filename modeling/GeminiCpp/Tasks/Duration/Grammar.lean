import Mathlib.Algebra.Order.Floor.Semifield
import Mathlib.Data.Rat.Floor
import GeminiCpp.Tasks.Duration.Parse

/-! The grammar of durations and the numbers that they denote. -/
namespace GeminiCpp.ParseDuration
open Decimal MachineInt

inductive Sign
  | none
  | plus
  | minus
deriving DecidableEq

def Sign.text : Sign → Bytes
  | .none => []
  | .plus => [ParseDuration.plus]
  | .minus => [ParseDuration.minus]

def Sign.apply : Sign → ℕ → ℤ
  | .minus, n => -n
  | _, n => n

/-- A number with its unit. There may be no dot, but there is a digit. -/
structure Pair where
  whole : Bytes
  frac : Option Bytes
  unit : TimeUnit
  whole_digits : Digits whole
  frac_digits : Digits (frac.getD [])
  hasDigit : whole ≠ [] ∨ frac.getD [] ≠ []

namespace Pair
variable (p : Pair)

/-- The digits after the dot. -/
def fracDigits : Bytes := p.frac.getD []

def number : Bytes :=
  p.whole ++ match p.frac with
    | none => []
    | some ds => dot :: ds

def text : Bytes := p.number ++ p.unit.name

/-- The rational that the digits denote. -/
def rational : ℚ :=
  (value (p.whole ++ p.fracDigits) : ℚ) / ((10 ^ p.fracDigits.length : ℕ) : ℚ)

/-- Whole nanoseconds. -/
def nanos : ℕ := ⌊p.rational * p.unit.nanos⌋₊

/-- The pair with at most 18 digits after the dot. -/
def cut : Pair :=
  { p with
    frac := p.frac.map (List.take 18)
    frac_digits := by
      intro c hc
      apply p.frac_digits c
      cases hfrac : p.frac with
      | none => rw [hfrac] at hc; exact hc
      | some ds => rw [hfrac] at hc; exact List.mem_of_mem_take hc
    hasDigit := by
      refine p.hasDigit.imp_right fun hfrac => ?_
      cases hds : p.frac with
      | none => rw [hds] at hfrac; exact hfrac
      | some ds =>
        rw [hds] at hfrac
        cases ds with
        | nil => exact hfrac
        | cons c ds => exact List.cons_ne_nil _ _ }

end Pair

/-- A sign and one or more pairs. -/
structure Duration where
  sign : Sign
  pairs : List Pair
  nonempty : pairs ≠ []

namespace Duration
variable (d : Duration)

def text : Bytes := d.sign.text ++ d.pairs.flatMap Pair.text

/-- The sum of the pairs in whole nanoseconds, with the sign. -/
def exact : ℤ := d.sign.apply (d.pairs.map Pair.nanos).sum

/-- The same sum with at most 18 digits after each dot. -/
def cut : ℤ := d.sign.apply (d.pairs.map fun p => p.cut.nanos).sum

end Duration

/-- A signed 64-bit count of nanoseconds. -/
def InRange (z : ℤ) : Prop := int64Min ≤ z ∧ z < 9223372036854775808

instance (z : ℤ) : Decidable (InRange z) := inferInstanceAs (Decidable (_ ∧ _))

/-- The strings of the grammar, a zero without a unit or a duration, with their exact values. -/
inductive Denotes : Bytes → ℤ → Prop
  | zero (sign : Sign) : Denotes (sign.text ++ ascii "0") 0
  | duration (d : Duration) : Denotes d.text d.exact

/-! The value of a pair in whole nanoseconds, as integers. -/

theorem floor_div (n unit scale : ℕ) :
    ⌊((n : ℚ) / ((10 ^ scale : ℕ) : ℚ)) * unit⌋₊ = n * unit / 10 ^ scale := by
  have hquotient : ((n : ℚ) / ((10 ^ scale : ℕ) : ℚ)) * unit =
      ((n * unit : ℕ) : ℚ) / ((10 ^ scale : ℕ) : ℚ) := by
    rw [Nat.cast_mul]
    ring
  rw [hquotient, Nat.floor_div_eq_div]

theorem Pair.nanos_eq (p : Pair) : p.nanos =
    value (p.whole ++ p.fracDigits) * p.unit.nanos / 10 ^ p.fracDigits.length := floor_div ..

/-- The part before the dot gives whole nanoseconds of its own. -/
theorem Pair.nanos_split (p : Pair) : p.nanos = value p.whole * p.unit.nanos +
    value p.fracDigits * p.unit.nanos / 10 ^ p.fracDigits.length := by
  have hpos : 0 < 10 ^ p.fracDigits.length := by positivity
  have hsum : value (p.whole ++ p.fracDigits) * p.unit.nanos =
      value p.fracDigits * p.unit.nanos +
        value p.whole * p.unit.nanos * 10 ^ p.fracDigits.length := by
    rw [value_append]
    ring
  rw [nanos_eq, hsum, Nat.add_mul_div_right _ _ hpos, Nat.add_comm]

@[simp] theorem Pair.whole_cut (p : Pair) : p.cut.whole = p.whole := rfl

@[simp] theorem Pair.unit_cut (p : Pair) : p.cut.unit = p.unit := rfl

@[simp] theorem Pair.fracDigits_cut (p : Pair) : p.cut.fracDigits = p.fracDigits.take 18 := by
  change (p.frac.map (List.take 18)).getD [] = (p.frac.getD []).take 18
  cases p.frac <;> rfl

/-- Dropping the low digits of a numerator and of its scale loses less than the dropped scale. -/
theorem div_pow_split (high low unit k j : ℕ) :
    high * unit / 10 ^ k ≤ (high * 10 ^ j + low) * unit / 10 ^ (k + j) := by
  have hpos : 0 < 10 ^ j := by positivity
  have hle : high * unit * 10 ^ j ≤ (high * 10 ^ j + low) * unit := by
    have hexpand : (high * 10 ^ j + low) * unit = high * unit * 10 ^ j + low * unit := by ring
    omega
  calc high * unit / 10 ^ k = high * unit * 10 ^ j / (10 ^ k * 10 ^ j) :=
        (Nat.mul_div_mul_right _ _ hpos).symm
    _ ≤ (high * 10 ^ j + low) * unit / (10 ^ k * 10 ^ j) := Nat.div_le_div_right hle
    _ = (high * 10 ^ j + low) * unit / 10 ^ (k + j) := by rw [Nat.pow_add]

theorem Pair.nanos_cut_le (p : Pair) : p.cut.nanos ≤ p.nanos := by
  have hsplit := List.take_append_drop 18 p.fracDigits
  have hle : value (p.fracDigits.take 18) * p.unit.nanos / 10 ^ (p.fracDigits.take 18).length ≤
      value p.fracDigits * p.unit.nanos / 10 ^ p.fracDigits.length := by
    have hvalue := value_append (p.fracDigits.take 18) (p.fracDigits.drop 18)
    have hlength : p.fracDigits.length =
        (p.fracDigits.take 18).length + (p.fracDigits.drop 18).length := by
      rw [← List.length_append, hsplit]
    rw [hsplit] at hvalue
    rw [hvalue, hlength]
    exact div_pow_split ..
  rw [nanos_split, nanos_split]
  simp only [whole_cut, unit_cut, fracDigits_cut]
  omega

end GeminiCpp.ParseDuration
