import GeminiCpp.Lib.Binary64
import GeminiCpp.Lib.Decimal

/-! The numbers that the C library reads from a text, in the C locale. -/
namespace Strtod

inductive Numeral
  /-- A number, by its sign and what follows it. -/
  | number (negative : Bool) (x : ℚ)
  | infinite (negative : Bool)
  | nan
deriving DecidableEq

def isSpace (c : UInt8) : Bool := c = 0x20 || (0x09 ≤ c && c ≤ 0x0D)

/-- A letter as a small one. -/
def lower (c : UInt8) : UInt8 := c ||| 0x20

def isHexDigit (c : UInt8) : Bool :=
  Decimal.isDigit c || (0x61 ≤ lower c && lower c ≤ 0x66)

def hexDigit (c : UInt8) : ℕ :=
  if Decimal.isDigit c then Decimal.digit c else (lower c).toNat - 0x57

def hexValue (s : List UInt8) : ℕ := s.foldl (fun n c => n * 16 + hexDigit c) 0

def readSign : List UInt8 → Bool × List UInt8
  | 0x2B :: s => (false, s)
  | 0x2D :: s => (true, s)
  | s => (false, s)

/-- The digits before and after the point, at least one, and the rest. -/
def readMantissa (digit : UInt8 → Bool) (s : List UInt8) :
    Option (List UInt8 × List UInt8 × List UInt8) :=
  let whole := s.takeWhile digit
  let (part, rest) := match s.dropWhile digit with
    | 0x2E :: t => (t.takeWhile digit, t.dropWhile digit)
    | rest => ([], rest)
  if whole = [] ∧ part = [] then none else some (whole, part, rest)

/-- An exponent after a letter. A letter without digits is not read. -/
def readExponent (letter : UInt8) : List UInt8 → ℤ × List UInt8
  | [] => (0, [])
  | c :: s =>
    let (negative, t) := readSign s
    let digits := t.takeWhile Decimal.isDigit
    if lower c = letter ∧ digits ≠ [] then
      (if negative then -(Decimal.value digits : ℤ) else Decimal.value digits,
        t.dropWhile Decimal.isDigit)
    else (0, c :: s)

def readDecimal (s : List UInt8) : Option (ℚ × List UInt8) :=
  (readMantissa Decimal.isDigit s).map fun (whole, part, rest) =>
    let (exponent, rest) := readExponent 0x65 rest
    (Decimal.value (whole ++ part) * 10 ^ (exponent - part.length), rest)

/-- A hexadecimal number, whose exponent is one of two. -/
def readHex : List UInt8 → Option (ℚ × List UInt8)
  | 0x30 :: x :: s =>
    if lower x = 0x78 then
      (readMantissa isHexDigit s).map fun (whole, part, rest) =>
        let (exponent, rest) := readExponent 0x70 rest
        (hexValue (whole ++ part) * 2 ^ (exponent - 4 * part.length), rest)
    else none
  | _ => none

/-- What follows a word, whatever the case of its letters. -/
def readWord (word s : List UInt8) : Option (List UInt8) :=
  if (s.take word.length).map lower = word then some (s.drop word.length) else none

def isNameChar (c : UInt8) : Bool :=
  Decimal.isDigit c || (0x61 ≤ lower c && lower c ≤ 0x7A) || c = 0x5F

/-- The parenthesis that may follow `nan`. -/
def readPayload : List UInt8 → List UInt8
  | 0x28 :: s =>
    match s.dropWhile isNameChar with
    | 0x29 :: rest => rest
    | _ => 0x28 :: s
  | s => s

/-- A numeral without sign, from the longest form that fits. -/
def readUnsigned (negative : Bool) (s : List UInt8) : Option (Numeral × List UInt8) :=
  let infinite := (readWord [0x69, 0x6E, 0x66, 0x69, 0x6E, 0x69, 0x74, 0x79] s).or
    (readWord [0x69, 0x6E, 0x66] s)
  let nan := (readWord [0x6E, 0x61, 0x6E] s).map readPayload
  let number := (readHex s).or (readDecimal s)
  (infinite.map fun rest => (.infinite negative, rest)).or <|
    (nan.map fun rest => (.nan, rest)).or <|
      number.map fun (x, rest) => (.number negative x, rest)

def readNumeral (s : List UInt8) : Option (Numeral × List UInt8) :=
  let (negative, rest) := readSign (s.dropWhile isSpace)
  readUnsigned negative rest

def Numeral.bits : Numeral → UInt64
  | number negative x => Binary64.ofMagnitude negative x
  | infinite negative => Binary64.infinity negative
  | nan => Binary64.quietNaN

/-- The double, and how many bytes were read. -/
def strtod (s : List UInt8) : UInt64 × ℕ :=
  match readNumeral s with
  | some (numeral, rest) => (numeral.bits, s.length - rest.length)
  | none => (Binary64.zero, 0)

theorem nonneg_of_readDecimal {s rest : List UInt8} {x : ℚ} (h : readDecimal s = some (x, rest)) :
    0 ≤ x := by
  obtain ⟨⟨whole, part, rest'⟩, -, hx⟩ := Option.map_eq_some_iff.mp h
  rw [← (Prod.mk.inj hx).1]
  exact mul_nonneg (Nat.cast_nonneg _) (zpow_nonneg (by norm_num) _)

theorem nonneg_of_readHex {s rest : List UInt8} {x : ℚ} (h : readHex s = some (x, rest)) :
    0 ≤ x := by
  unfold readHex at h
  split at h
  · split_ifs at h
    obtain ⟨⟨whole, part, rest'⟩, -, hx⟩ := Option.map_eq_some_iff.mp h
    rw [← (Prod.mk.inj hx).1]
    exact mul_nonneg (Nat.cast_nonneg _) (zpow_nonneg (by norm_num) _)
  · cases h

theorem nonneg_of_readNumeral {s rest : List UInt8} {negative : Bool} {x : ℚ}
    (h : readNumeral s = some (.number negative x, rest)) : 0 ≤ x := by
  unfold readNumeral readUnsigned at h
  rcases Option.or_eq_some_iff.mp h with hinfinite | ⟨-, h⟩
  · obtain ⟨_, -, hrest⟩ := Option.map_eq_some_iff.mp hinfinite
    cases hrest
  rcases Option.or_eq_some_iff.mp h with hnan | ⟨-, h⟩
  · obtain ⟨_, -, hrest⟩ := Option.map_eq_some_iff.mp hnan
    cases hrest
  obtain ⟨⟨y, rest'⟩, hnumber, hy⟩ := Option.map_eq_some_iff.mp h
  cases hy
  rcases Option.or_eq_some_iff.mp hnumber with hhex | ⟨-, hdecimal⟩
  · exact nonneg_of_readHex hhex
  · exact nonneg_of_readDecimal hdecimal

/-- A text is read whole if nothing follows its numeral. -/
theorem strtod_eq_length_iff {s : List UInt8} (hs : s ≠ []) :
    (strtod s).2 = s.length ↔ ∃ numeral, readNumeral s = some (numeral, []) := by
  have hlength := List.length_pos_of_ne_nil hs
  unfold strtod
  cases hread : readNumeral s with
  | none =>
    refine iff_of_false (by simp; omega) ?_
    simp
  | some read =>
    obtain ⟨numeral, rest⟩ := read
    constructor
    · intro h
      have hrest : rest = [] := List.length_eq_zero_iff.mp (by dsimp only at h; omega)
      exact ⟨numeral, by rw [hrest]⟩
    · intro h
      obtain ⟨numeral', h⟩ := h
      obtain ⟨-, rfl⟩ := Prod.mk.inj (Option.some.inj h)
      simp

example : strtod [0x31, 0x2E, 0x35, 0x73] = (0x3FF8000000000000, 3) := by decide +kernel

end Strtod
