import GeminiCpp.Error
import GeminiCpp.Lib.Traced

/-! The calculator tool (`tools.cpp`): a recursive-descent parser that evaluates as it reads. Its
numbers and the operations on them are given. What it reads of the text, where it goes, and which
calls of `expr` and `unary` are active can be seen in the events of a run. -/
namespace GeminiCpp
open Traced

/-- The operations on `double` that the calculator uses. -/
structure Arith (ν : Type) where
  add : ν → ν → ν
  sub : ν → ν → ν
  mul : ν → ν → ν
  div : ν → ν → ν
  fmod : ν → ν → ν
  pow : ν → ν → ν
  neg : ν → ν
  pi : ν
  e : ν
  sqrt : ν → ν
  fabs : ν → ν
  sin : ν → ν
  cos : ν → ν
  tan : ν → ν
  exp : ν → ν
  floor : ν → ν
  ceil : ν → ν
  log : ν → ν
  log10 : ν → ν
  /-- The value and the number of bytes read. -/
  strtod : Bytes → ν × ℕ
  /-- `x == 0.0`. -/
  isZero : ν → Bool
  /-- `x < 0`. -/
  isNegative : ν → Bool
  /-- `x <= 0`. -/
  isNonPositive : ν → Bool
  isFinite : ν → Bool

/-- The fields of `ExpressionParser` that change. -/
structure ExpressionParser where
  pos : ℕ
  depth : ℕ

namespace ExpressionParser

inductive Action
  /-- A character of the text is read. -/
  | read (i : ℕ)
  /-- `pos_` is set. -/
  | move (pos : ℕ)
  /-- A call of `expr` or `unary` has passed its depth check. -/
  | enter
  /-- It returns. -/
  | leave
deriving DecidableEq

/-- The exception of a run that is cut off: the model follows recursion and loops up to a bound. -/
inductive Halt
  | cutOff
deriving DecidableEq

abbrev Parse (α : Type) := Prog Action Halt ExpressionParser α

def maxDepth : ℕ := 200

variable {ν : Type} (A : Arith ν) (text : Bytes)

def fail {α : Type} (message : Bytes) : Parse (Result α) := do
  let s ← Prog.get
  return .error (makeError .invalidArgument
    (message ++ ascii " at position " ++ toDecimal s.pos))

/-- `text_[i]`. -/
def charAt (i : ℕ) : Parse UInt8 := do
  Prog.emit (.read i)
  return text[i]?.getD 0

/-- `i < text_.size() && test(text_[i])`. -/
def testAt (i : ℕ) (test : UInt8 → Bool) : Parse Bool :=
  if i < text.length then test <$> charAt text i else return false

def moveTo (pos : ℕ) : Parse Unit := do
  Prog.emit (.move pos)
  Prog.modify fun s => { s with pos }

/-- `while (pos_ < text_.size() && test(text_[pos_])) ++pos_`, with `left` characters to go. -/
def skipWhile (test : UInt8 → Bool) : (left : ℕ) → Parse Unit
  | 0 => return ()
  | left + 1 => do
    let s ← Prog.get
    if ← testAt text s.pos test then
      moveTo (s.pos + 1)
      skipWhile test left
    else return ()

def skip (test : UInt8 → Bool) : Parse Unit := do
  let s ← Prog.get
  skipWhile text test (text.length - s.pos)

def isBlank (c : UInt8) : Bool := c = ' '.toUInt8 || c = '\t'.toUInt8

def isDigit (c : UInt8) : Bool := '0'.toUInt8 ≤ c && c ≤ '9'.toUInt8

def isLetter (c : UInt8) : Bool :=
  ('a'.toUInt8 ≤ c && c ≤ 'z'.toUInt8) || ('A'.toUInt8 ≤ c && c ≤ 'Z'.toUInt8)

/-- Characters of a number before its exponent. -/
def isMantissa (c : UInt8) : Bool := isDigit c || c = '.'.toUInt8

def isExponentMark (c : UInt8) : Bool := c = 'e'.toUInt8 || c = 'E'.toUInt8

def isSign (c : UInt8) : Bool := c = '+'.toUInt8 || c = '-'.toUInt8

def isAlphanumeric (c : UInt8) : Bool := isLetter c || isDigit c

def skipSpace : Parse Unit := skip text isBlank

def accept (c : UInt8) : Parse Bool := do
  skipSpace text
  let s ← Prog.get
  if ← testAt text s.pos (· = c) then
    moveTo (s.pos + 1)
    return true
  else return false

/-- The first of some characters that is accepted. -/
def acceptAny {α : Type} : List (UInt8 × α) → Parse (Option α)
  | [] => return none
  | (c, op) :: ops => do
    if ← accept text c then return some op else acceptAny ops

inductive AddOp
  | plus
  | minus
deriving DecidableEq

inductive MulOp
  | times
  | over
  | modulo
deriving DecidableEq

def addOps : List (UInt8 × AddOp) := [('+'.toUInt8, .plus), ('-'.toUInt8, .minus)]

def mulOps : List (UInt8 × MulOp) :=
  [('*'.toUInt8, .times), ('/'.toUInt8, .over), ('%'.toUInt8, .modulo)]

def AddOp.apply : AddOp → ν → ν → ν
  | .plus => A.add
  | .minus => A.sub

def MulOp.apply : MulOp → ν → ν → ν
  | .times => A.mul
  | .over => A.div
  | .modulo => A.fmod

/-- `text_.substr(start, pos_ - start)`. -/
def tokenFrom (start : ℕ) : Parse Bytes := do
  let s ← Prog.get
  return (text.drop start).take (s.pos - start)

/-- The exponent of a number: `pos_` moves only if there is one. -/
def exponent : Parse Unit := do
  let s ← Prog.get
  if ← testAt text s.pos isExponentMark then
    let signed ← testAt text (s.pos + 1) isSign
    let look := if signed then s.pos + 2 else s.pos + 1
    if ← testAt text look isDigit then
      moveTo look
      skip text isDigit
    else return ()
  else return ()

def number : Parse (Result ν) := do
  let s ← Prog.get
  skip text isMantissa
  exponent text
  let token ← tokenFrom text s.pos
  if (A.strtod token).2 ≠ token.length then
    moveTo s.pos
    fail (ascii "malformed number '" ++ token ++ ascii "'")
  else return .ok (A.strtod token).1

/-- What `identifier` does with a name and its argument. -/
def call (name : Bytes) (x : ν) : Parse (Result ν) :=
  if name = ascii "sqrt" then
    if A.isNegative x then fail (ascii "sqrt of negative number") else return .ok (A.sqrt x)
  else if name = ascii "abs" then return .ok (A.fabs x)
  else if name = ascii "sin" then return .ok (A.sin x)
  else if name = ascii "cos" then return .ok (A.cos x)
  else if name = ascii "tan" then return .ok (A.tan x)
  else if name = ascii "exp" then return .ok (A.exp x)
  else if name = ascii "floor" then return .ok (A.floor x)
  else if name = ascii "ceil" then return .ok (A.ceil x)
  else if name = ascii "log" ∨ name = ascii "log10" then
    if A.isNonPositive x then fail (ascii "log of non-positive number")
    else return .ok (if name = ascii "log" then A.log x else A.log10 x)
  else fail (ascii "unknown function '" ++ name ++ ascii "'")

/-- The calls of the parser to itself, and how often its loops may go round. -/
structure Next (ν : Type) where
  expr : Parse (Result ν)
  unary : Parse (Result ν)
  rounds : ℕ

variable (next : Next ν)

/-- An expression after its opening parenthesis, up to the closing one. -/
def enclosed : Parse (Result ν) := do
  match ← next.expr with
  | .error e => return .error e
  | .ok inner => if ← accept text ')'.toUInt8 then return .ok inner else fail (ascii "expected ')'")

def identifier : Parse (Result ν) := do
  let s ← Prog.get
  skip text isAlphanumeric
  let name ← tokenFrom text s.pos
  if name = ascii "pi" then return .ok A.pi
  else if name = ascii "e" then return .ok A.e
  else if ← accept text '('.toUInt8 then
    match ← enclosed text next with
    | .error e => return .error e
    | .ok x => call A name x
  else fail (ascii "unknown identifier '" ++ name ++ ascii "'")

def primary : Parse (Result ν) := do
  skipSpace text
  let s ← Prog.get
  if text.length ≤ s.pos then fail (ascii "unexpected end of expression")
  else if ← accept text '('.toUInt8 then enclosed text next
  else
    let s ← Prog.get
    let c ← charAt text s.pos
    if isMantissa c then number A text
    else if isLetter c then identifier A text next
    else fail (ascii "unexpected character '" ++ [c] ++ ascii "'")

def power : Parse (Result ν) := do
  match ← primary A text next with
  | .error e => return .error e
  | .ok base =>
    if ← accept text '^'.toUInt8 then
      match ← next.unary with
      | .error e => return .error e
      | .ok exponent => return .ok (A.pow base exponent)
    else return .ok base

/-- The depth check of `expr` and `unary`, and the call that it lets through. -/
def nested (body : Parse (Result ν)) : Parse (Result ν) := do
  Prog.modify fun s => { s with depth := s.depth + 1 }
  let s ← Prog.get
  if maxDepth < s.depth then fail (ascii "expression nested too deeply")
  else
    Prog.emit .enter
    let r ← body
    Prog.emit .leave
    return r

/-- `--depth_`. -/
def unnest : Parse Unit := Prog.modify fun s => { s with depth := s.depth - 1 }

/-- What `unary` assigns to `out`. -/
def signed : Parse (Result ν) := do
  if ← accept text '-'.toUInt8 then
    let out ← next.unary
    return out.map A.neg
  else if ← accept text '+'.toUInt8 then next.unary
  else power A text next

def unary : Parse (Result ν) := nested do
  let out ← signed A text next
  unnest
  return out

def termLoop : (rounds : ℕ) → ν → Parse (Result ν)
  | 0, _ => Prog.ofExcept (.error .cutOff)
  | rounds + 1, lhs => do
    match ← acceptAny text mulOps with
    | none => return .ok lhs
    | some op =>
      match ← next.unary with
      | .error e => return .error e
      | .ok rhs =>
        if (op = .over ∨ op = .modulo) ∧ A.isZero rhs then fail (ascii "division by zero")
        else termLoop rounds (op.apply A lhs rhs)

def term : Parse (Result ν) := do
  match ← next.unary with
  | .error e => return .error e
  | .ok lhs => termLoop A text next next.rounds lhs

/-- Only a loop that ends by itself gives `depth_` back. -/
def exprLoop : (rounds : ℕ) → ν → Parse (Result ν)
  | 0, _ => Prog.ofExcept (.error .cutOff)
  | rounds + 1, lhs => do
    match ← acceptAny text addOps with
    | none =>
      unnest
      return .ok lhs
    | some op =>
      match ← term A text next with
      | .error e => return .error e
      | .ok rhs => exprLoop rounds (op.apply A lhs rhs)

/-- What `expr` does when it has been let in. -/
def exprBody : Parse (Result ν) := do
  match ← term A text next with
  | .error e =>
    unnest
    return .error e
  | .ok lhs => exprLoop A text next next.rounds lhs

def expr : Parse (Result ν) := nested (exprBody A text next)

/-- The parser with recursion up to a bound. -/
def descend : (bound : ℕ) → Next ν
  | 0 => ⟨Prog.ofExcept (.error .cutOff), Prog.ofExcept (.error .cutOff), 0⟩
  | bound + 1 =>
    ⟨expr A text (descend bound), unary A text (descend bound), bound + 1⟩

/-- `parse` when the text has been read as far as an expression goes. -/
def finish (value : ν) : Parse (Result ν) := do
  skipSpace text
  let s ← Prog.get
  if s.pos ≠ text.length then
    let c ← charAt text s.pos
    fail (ascii "unexpected character '" ++ [c] ++ ascii "'")
  else if A.isFinite value then return .ok value
  else fail (ascii "result is not a finite number")

def parse (bound : ℕ) : Parse (Result ν) := do
  match ← (descend A text bound).expr with
  | .error e => return .error e
  | .ok value => finish A text value

/-- A bound for a text of some length: no recursion goes deeper than two calls a character. -/
def boundFor (size : ℕ) : ℕ := 2 * size + 2

end ExpressionParser

open ExpressionParser in
/-- A run of a new parser. -/
def runParser {ν : Type} (A : Arith ν) (text : Bytes) (bound : ℕ) :
    Outcome Action Halt ExpressionParser (Result ν) :=
  parse A text bound { pos := 0, depth := 0 }

def evaluateExpression {ν : Type} (A : Arith ν) (expression : Bytes) :
    Except ExpressionParser.Halt (Result ν) :=
  if 4096 < expression.length then
    .ok (.error (makeError .invalidArgument (ascii "expression too long")))
  else (runParser A expression (ExpressionParser.boundFor expression.length)).result

end GeminiCpp
