import GeminiCpp.Bytes
import GeminiCpp.Lib.Decimal
import GeminiCpp.Lib.MachineInt

/-! The reference solution of the task `parse-duration`. -/
namespace GeminiCpp.ParseDuration
open Decimal MachineInt

def dot : UInt8 := 0x2E
def plus : UInt8 := 0x2B
def minus : UInt8 := 0x2D

/-- |INT64_MIN| -/
def limit : ℕ := 2 ^ 63

def int64Min : ℤ := -9223372036854775808

/-- Digits of a fraction are read up to this scale. -/
def maxScale : ℕ := 10 ^ 18

inductive TimeUnit
  | ns
  | us
  /-- U+00B5, the micro sign. -/
  | micro
  /-- U+03BC, the Greek letter. -/
  | mu
  | ms
  | s
  | m
  | h
deriving DecidableEq

def TimeUnit.name : TimeUnit → Bytes
  | .ns => ascii "ns"
  | .us => ascii "us"
  | .micro => [0xC2, 0xB5] ++ ascii "s"
  | .mu => [0xCE, 0xBC] ++ ascii "s"
  | .ms => ascii "ms"
  | .s => ascii "s"
  | .m => ascii "m"
  | .h => ascii "h"

/-- Nanoseconds of a unit. -/
def TimeUnit.nanos : TimeUnit → ℕ
  | .ns => 1
  | .us | .micro | .mu => 1000
  | .ms => 1000000
  | .s => 1000000000
  | .m => 60000000000
  | .h => 3600000000000

def unitOf (name : Bytes) : Option TimeUnit :=
  [.ns, .us, .micro, .mu, .ms, .s, .m, .h].find? fun unit => unit.name = name

def isUnitByte (c : UInt8) : Bool := c != dot && !isDigit c

variable (A : Arithmetic)

/-- The digits before the dot: their value, whether there is any digit, and what follows. -/
def wholeDigits (whole : ℕ) (anyDigit : Bool) : Bytes → Run (Option (ℕ × Bool × Bytes))
  | [] => return some (whole, anyDigit, [])
  | c :: s =>
    if isDigit c then do
      let tens ← A.unsigned 128 (whole * 10)
      let whole ← A.unsigned 128 (tens + digit c)
      if limit < whole then return none
      wholeDigits whole true s
    else return some (whole, anyDigit, c :: s)

/-- The digits after the dot: their value, its scale, whether there is any digit in the number,
and what follows. -/
def fracDigits (frac scale : ℕ) (anyDigit : Bool) : Bytes → Run (ℕ × ℕ × Bool × Bytes)
  | [] => return (frac, scale, anyDigit, [])
  | c :: s =>
    if isDigit c then
      if scale < maxScale then do
        let tens ← A.unsigned 64 (frac * 10)
        let frac ← A.unsigned 64 (tens + digit c)
        let scale ← A.unsigned 64 (scale * 10)
        fracDigits frac scale true s
      else fracDigits frac scale true s
    else return (frac, scale, anyDigit, c :: s)

/-- The fraction of a number, if a dot follows. -/
def fraction (anyDigit : Bool) : Bytes → Run (ℕ × ℕ × Bool × Bytes)
  | [] => return (0, 1, anyDigit, [])
  | c :: s => if c = dot then fracDigits A 0 1 anyDigit s else return (0, 1, anyDigit, c :: s)

/-- One number with its unit is added to the total; with what follows. -/
def addPair (total : ℕ) (s : Bytes) : Run (Option (ℕ × Bytes)) := do
  match ← wholeDigits A 0 false s with
  | none => return none
  | some (whole, anyDigit, s) =>
    let (frac, scale, anyDigit, s) ← fraction A anyDigit s
    if anyDigit = false then return none
    match unitOf (s.takeWhile isUnitByte) with
    | none => return none
    | some unit =>
      let ofWhole ← A.unsigned 128 (whole * unit.nanos)
      let ofFrac ← A.unsigned 128 (frac * unit.nanos)
      let sum ← A.unsigned 128 (ofWhole + ofFrac / scale)
      let total ← A.unsigned 128 (total + sum)
      if limit < total then return none
      return some (total, s.dropWhile isUnitByte)

/-- The loop over the pairs, of which at most `fuel` are left. -/
def addPairs : (fuel total : ℕ) → Bytes → Run (Option ℕ)
  | _, total, [] => return some total
  | 0, _, _ :: _ => .error .outOfFuel
  | fuel + 1, total, s => do
    match ← addPair A total s with
    | none => return none
    | some (total, s) => addPairs fuel total s

/-- The signed count of nanoseconds. -/
def signedTotal (negative : Bool) (total : ℕ) : Run (Option ℤ) := do
  if negative = false ∧ total = limit then return none
  if negative then
    if total = limit then return some int64Min
    let count ← A.signed 64 total
    return some (← A.signed 64 (-count))
  return some (← A.signed 64 total)

/-- The sign, and what follows it. -/
def splitSign (s : Bytes) : Bool × Bytes :=
  match s with
  | [] => (false, [])
  | c :: rest => if c = plus ∨ c = minus then (c = minus, rest) else (false, c :: rest)

/-- `parse_duration`. The loop takes a byte at least in each round. -/
def parseWith (text : Bytes) : Run (Option ℤ) := do
  let (negative, s) := splitSign text
  if s = ascii "0" then return some 0
  if s = [] then return none
  match ← addPairs A s.length 0 s with
  | none => return none
  | some total => signedTotal A negative total

/-- The function as the machine runs it. -/
def parseDuration (text : Bytes) : Run (Option ℤ) := parseWith .modular text

end GeminiCpp.ParseDuration
