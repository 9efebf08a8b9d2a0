import Mathlib.Data.List.TakeWhile
import GeminiCpp.Cli.Args
import GeminiCpp.Lib.Decimal
import GeminiCpp.Logging
import GeminiCpp.Types
import GeminiCpp.Wire.Decode

/-! Options that are numbers (`cli_args.cpp`), and the options that the commands share
(`main.cpp`). -/
namespace GeminiCpp

/-- `parse_level`. -/
def Log.parseLevel (text : Bytes) : Option Log.Level :=
  [.debug, .info, .warn, .error, .off].find? fun level => text = Log.levelName level

namespace Cli

def signed (negative : Bool) (n : ℕ) : ℤ := if negative then -n else n

/-- The digits at the start of a text, as an `int` with a sign, and the text after them. -/
def readInt (negative : Bool) (t : Bytes) : Option (Int32 × Bytes) :=
  let digits := t.takeWhile Decimal.isDigit
  let n := signed negative (Decimal.value digits)
  if digits = [] then none
  else if -2 ^ 31 ≤ n ∧ n < 2 ^ 31 then some (Int32.ofInt n, t.dropWhile Decimal.isDigit)
  else none

/-- `std::from_chars` into an `int`: the number, and the text after it. -/
def fromCharsInt (s : Bytes) : Option (Int32 × Bytes) :=
  match s with
  | 0x2D :: t => readInt true t
  | _ => readInt false s

namespace Args
variable (a : Args)

/-- The value of `out` after the call, or an error message. -/
def getInt (name : Bytes) (out : Option Int32) : Except Bytes (Option Int32) :=
  match a.get name with
  | none => .ok out
  | some v =>
    match fromCharsInt v with
    | some (value, []) => .ok (some value)
    | _ => .error (dashes ++ name ++ ascii " expects an integer, got '" ++ v ++ ascii "'")

/-- A double is kept as its bits. -/
def getDouble (name : Bytes) (out : Option UInt64) :
    Except Bytes (Option UInt64) :=
  match a.get name with
  | none => .ok out
  | some v =>
    let (value, read) := Strtod.strtod v
    if v = [] ∨ read ≠ v.length then
      .error (dashes ++ name ++ ascii " expects a number, got '" ++ v ++ ascii "'")
    else .ok (some value)

/-- The options of the log: what `set_level` and `set_json` are called with. -/
structure LogOptions where
  level : Option Log.Level
  json : Bool

/-- Applies options shared by every command, or returns an error message on bad input. -/
def applyCommon (config : GenerationConfig) :
    Except Bytes (LogOptions × GenerationConfig) := do
  let level ← match a.get (ascii "log-level") with
    | none => pure none
    | some text =>
      match Log.parseLevel text with
      | none => throw (ascii "invalid --log-level '" ++ text ++ ascii "'")
      | some level => pure (some level)
  let temperature ← a.getDouble (ascii "temperature") config.temperature
  let maxOutputTokens ← a.getInt (ascii "max-tokens") config.maxOutputTokens
  let thinkingBudget ← a.getInt (ascii "thinking-budget") config.thinkingBudget
  return ({ level, json := a.flag (ascii "log-json") },
    { config with temperature, maxOutputTokens, thinkingBudget })

end Args

/-- A text that spells an integer: digits, with a sign if it is negative. -/
inductive Spells : Bytes → ℤ → Prop
  | natural {digits : Bytes} (h : Decimal.Digits digits) (hne : digits ≠ []) :
    Spells digits (Decimal.value digits)
  | negative {digits : Bytes} (h : Decimal.Digits digits) (hne : digits ≠ []) :
    Spells (0x2D :: digits) (-(Decimal.value digits : ℤ))

theorem readInt_eq_some_iff {negative : Bool} {t : Bytes} {value : Int32} :
    readInt negative t = some (value, []) ↔ Decimal.Digits t ∧ t ≠ [] ∧
      value.toInt = signed negative (Decimal.value t) := by
  constructor
  · intro h
    simp only [readInt] at h
    split_ifs at h with hnone hfits
    obtain ⟨hvalue, hrest⟩ := Prod.mk.inj (Option.some.inj h)
    have hdigits : Decimal.Digits t := by
      intro c hc
      have hall := List.dropWhile_eq_nil_iff.mp hrest
      exact hall c hc
    have htake : t.takeWhile Decimal.isDigit = t := List.takeWhile_eq_self_iff.mpr hdigits
    rw [htake] at hnone hfits hvalue
    refine ⟨hdigits, hnone, ?_⟩
    rw [← hvalue]
    exact Int32.toInt_ofInt_of_le hfits.1 hfits.2
  · intro ⟨hdigits, hne, hvalue⟩
    have htake : t.takeWhile Decimal.isDigit = t := List.takeWhile_eq_self_iff.mpr hdigits
    have hdrop : t.dropWhile Decimal.isDigit = [] := List.dropWhile_eq_nil_iff.mpr hdigits
    have hlow : -2 ^ 31 ≤ value.toInt := value.le_toInt
    have hhigh : value.toInt < 2 ^ 31 := value.toInt_lt
    simp only [readInt]
    rw [htake, hdrop, ← hvalue, if_neg hne, if_pos ⟨hlow, hhigh⟩, Int32.ofInt_toInt]

/-- A number is read to the end of a text when the text spells it. -/
theorem fromCharsInt_eq_some_iff {s : Bytes} {value : Int32} :
    fromCharsInt s = some (value, []) ↔ Spells s value.toInt := by
  have hminus : ∀ t, fromCharsInt (0x2D :: t) = readInt true t := fun t => rfl
  have hplain : ∀ t : Bytes, t.head? ≠ some 0x2D → fromCharsInt t = readInt false t := by
    intro t ht
    unfold fromCharsInt
    split
    · exact absurd rfl ht
    · rfl
  constructor
  · intro h
    by_cases hsign : s.head? = some 0x2D
    · obtain ⟨t, rfl⟩ := List.head?_eq_some_iff.mp hsign
      rw [hminus] at h
      obtain ⟨hdigits, hne, hvalue⟩ := readInt_eq_some_iff.mp h
      rw [hvalue]
      exact .negative hdigits hne
    · rw [hplain s hsign] at h
      obtain ⟨hdigits, hne, hvalue⟩ := readInt_eq_some_iff.mp h
      rw [hvalue]
      exact .natural hdigits hne
  · intro h
    generalize hn : value.toInt = n at h
    cases h with
    | natural hdigits hne =>
      rw [hplain, readInt_eq_some_iff]
      · exact ⟨hdigits, hne, hn⟩
      · intro hsign
        have hdigit := hdigits _ (List.mem_of_mem_head? hsign)
        exact absurd hdigit (by decide)
    | negative hdigits hne =>
      rw [hminus, readInt_eq_some_iff]
      exact ⟨hdigits, hne, hn⟩

end Cli
end GeminiCpp
