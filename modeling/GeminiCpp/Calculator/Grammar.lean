import GeminiCpp.Calculator.Parser

/-! The grammar that the calculator documents, as trees that keep every byte of a text. A tree has
a text, a value unless its evaluation fails, and a nesting. -/
namespace GeminiCpp.ExpressionParser
variable {ν : Type}

/-- Spaces and tabs. -/
abbrev Blanks := { b : Bytes // ∀ c ∈ b, isBlank c = true }

def Blanks.none : Blanks := ⟨[], fun _ h => by cases h⟩

def Blanks.append (b b' : Blanks) : Blanks :=
  ⟨b.1 ++ b'.1, fun c hc => (List.mem_append.mp hc).elim (b.2 c) (b'.2 c)⟩

inductive IsExponent : Bytes → Prop
  | none : IsExponent []
  | some {mark : UInt8} {sign digits : Bytes} (hmark : isExponentMark mark = true)
    (hshort : sign.length ≤ 1) (hsign : ∀ c ∈ sign, isSign c = true) (hne : digits ≠ [])
    (hdigits : ∀ c ∈ digits, isDigit c = true) : IsExponent (mark :: (sign ++ digits))

/-- What is written as a number: digits and points, perhaps with an exponent. -/
inductive IsNumber : Bytes → Prop
  | intro {mantissa exponent : Bytes} (hne : mantissa ≠ [])
    (hmantissa : ∀ c ∈ mantissa, isMantissa c = true) (hexponent : IsExponent exponent) :
    IsNumber (mantissa ++ exponent)

/-- The longest number with which some bytes begin. -/
structure LongestNumber (token r : Bytes) : Prop where
  number : IsNumber token
  begins : token <+: r
  longest : ∀ other, IsNumber other → other <+: r → other.length ≤ token.length

/-- A number which `strtod` reads to the end. -/
structure Number (A : Arith ν) where
  mantissa : Bytes
  exponent : Bytes
  mantissa_ne_nil : mantissa ≠ []
  isMantissa : ∀ c ∈ mantissa, isMantissa c = true
  isExponent : IsExponent exponent
  strtod_reads : (A.strtod (mantissa ++ exponent)).2 = (mantissa ++ exponent).length

def Number.token {A : Arith ν} (n : Number A) : Bytes := n.mantissa ++ n.exponent

def Number.value {A : Arith ν} (n : Number A) : ν := (A.strtod n.token).1

structure Name where
  first : UInt8
  rest : Bytes
  isLetter : isLetter first = true
  isAlphanumeric : ∀ c ∈ rest, isAlphanumeric c = true

def Name.token (name : Name) : Bytes := name.first :: name.rest

/-- The bytes do not go on with a name. -/
def EndsName (r : Bytes) : Prop := ∀ c, r.head? = some c → isAlphanumeric c = false

/-- The nonterminals, from the loosest to the tightest. -/
inductive Level
  | expr
  | term
  | unary
  | power
  | primary
deriving DecidableEq

/-- The productions, with the blanks before each token. The repetitions in `expr` and `term` are
read from the left. -/
inductive Tree (A : Arith ν) : Level → Type
  | term (t : Tree A .term) : Tree A .expr
  | addOp (lhs : Tree A .expr) (b : Blanks) (op : AddOp) (rhs : Tree A .term) : Tree A .expr
  | unary (u : Tree A .unary) : Tree A .term
  | mulOp (lhs : Tree A .term) (b : Blanks) (op : MulOp) (rhs : Tree A .unary) : Tree A .term
  | sign (b : Blanks) (op : AddOp) (u : Tree A .unary) : Tree A .unary
  | power (p : Tree A .power) : Tree A .unary
  | pow (base : Tree A .primary) (b : Blanks) (exponent : Tree A .unary) : Tree A .power
  | primary (p : Tree A .primary) : Tree A .power
  | number (b : Blanks) (n : Number A) : Tree A .primary
  | ident (b : Blanks) (name : Name) : Tree A .primary
  | call (b : Blanks) (name : Name) (b' : Blanks) (arg : Tree A .expr) (b'' : Blanks) :
    Tree A .primary
  | paren (b : Blanks) (inner : Tree A .expr) (b' : Blanks) : Tree A .primary

def AddOp.char : AddOp → UInt8
  | .plus => '+'.toUInt8
  | .minus => '-'.toUInt8

def MulOp.char : MulOp → UInt8
  | .times => '*'.toUInt8
  | .over => '/'.toUInt8
  | .modulo => '%'.toUInt8

variable (A : Arith ν)

/-- What a sign does to a value. -/
def AddOp.sign : AddOp → ν → ν
  | .plus => id
  | .minus => A.neg

/-- There is no division by zero. -/
def MulOp.defined : MulOp → ν → Bool
  | .times, _ => true
  | .over, y | .modulo, y => !A.isZero y

def constants : List (Bytes × ν) := [(ascii "pi", A.pi), (ascii "e", A.e)]

/-- The named functions, with their domains. -/
def functions : List (Bytes × (ν → Option ν)) :=
  [(ascii "sqrt", fun x => if A.isNegative x then none else some (A.sqrt x)),
    (ascii "abs", fun x => some (A.fabs x)), (ascii "sin", fun x => some (A.sin x)),
    (ascii "cos", fun x => some (A.cos x)), (ascii "tan", fun x => some (A.tan x)),
    (ascii "exp", fun x => some (A.exp x)), (ascii "floor", fun x => some (A.floor x)),
    (ascii "ceil", fun x => some (A.ceil x)),
    (ascii "log", fun x => if A.isNonPositive x then none else some (A.log x)),
    (ascii "log10", fun x => if A.isNonPositive x then none else some (A.log10 x))]

def applyFunction (name : Bytes) (x : ν) : Option ν :=
  ((functions A).lookup name).bind fun f => f x

namespace Tree
variable {A}

def bytes {l : Level} : Tree A l → Bytes
  | .term t => t.bytes
  | .addOp lhs b op rhs => lhs.bytes ++ (b.1 ++ op.char :: rhs.bytes)
  | .unary u => u.bytes
  | .mulOp lhs b op rhs => lhs.bytes ++ (b.1 ++ op.char :: rhs.bytes)
  | .sign b op u => b.1 ++ op.char :: u.bytes
  | .power p => p.bytes
  | .pow base b exponent => base.bytes ++ (b.1 ++ '^'.toUInt8 :: exponent.bytes)
  | .primary p => p.bytes
  | .number b n => b.1 ++ n.token
  | .ident b name => b.1 ++ name.token
  | .call b name b' arg b'' =>
    b.1 ++ (name.token ++ (b'.1 ++ '('.toUInt8 :: (arg.bytes ++ (b''.1 ++ [')'.toUInt8]))))
  | .paren b inner b' => b.1 ++ '('.toUInt8 :: (inner.bytes ++ (b'.1 ++ [')'.toUInt8]))

/-- The value, if all names are known and no operation is outside its domain. -/
def value {l : Level} : Tree A l → Option ν
  | .term t => t.value
  | .addOp lhs _ op rhs => do
    let x ← lhs.value
    let y ← rhs.value
    return op.apply A x y
  | .unary u => u.value
  | .mulOp lhs _ op rhs => do
    let x ← lhs.value
    let y ← rhs.value
    if op.defined A y then some (op.apply A x y) else none
  | .sign _ op u => op.sign A <$> u.value
  | .power p => p.value
  | .pow base _ exponent => do
    let x ← base.value
    let y ← exponent.value
    return A.pow x y
  | .primary p => p.value
  | .number _ n => some n.value
  | .ident _ name => (constants A).lookup name.token
  | .call _ name _ arg _ => do
    let x ← arg.value
    applyFunction A name.token x
  | .paren _ inner _ => inner.value

/-- The last token is whole: the bytes that follow do not go on with it. -/
def Whole {l : Level} : Tree A l → Bytes → Prop
  | .term t, r => t.Whole r
  | .addOp _ _ _ rhs, r => rhs.Whole r
  | .unary u, r => u.Whole r
  | .mulOp _ _ _ rhs, r => rhs.Whole r
  | .sign _ _ u, r => u.Whole r
  | .power p, r => p.Whole r
  | .pow _ _ exponent, r => exponent.Whole r
  | .primary p, r => p.Whole r
  | .number _ n, r => LongestNumber n.token (n.token ++ r)
  | .ident _ _, r => EndsName r
  | .call .., _ | .paren .., _ => True

/-- The largest number of `expr` and `unary` productions around one point. -/
def nesting {l : Level} : Tree A l → ℕ
  | .term t => t.nesting + 1
  | .addOp lhs _ _ rhs => max lhs.nesting (rhs.nesting + 1)
  | .unary u => u.nesting
  | .mulOp lhs _ _ rhs => max lhs.nesting rhs.nesting
  | .sign _ _ u => u.nesting + 1
  | .power p => p.nesting + 1
  | .pow base _ exponent => max base.nesting exponent.nesting
  | .primary p => p.nesting
  | .number _ _ | .ident _ _ => 0
  | .call _ _ _ arg _ => arg.nesting
  | .paren _ inner _ => inner.nesting

/-- The tree with more blanks before its first token. -/
def withBlanks (b : Blanks) {l : Level} : Tree A l → Tree A l
  | .term t => .term (t.withBlanks b)
  | .addOp lhs b' op rhs => .addOp (lhs.withBlanks b) b' op rhs
  | .unary u => .unary (u.withBlanks b)
  | .mulOp lhs b' op rhs => .mulOp (lhs.withBlanks b) b' op rhs
  | .sign b' op u => .sign (b.append b') op u
  | .power p => .power (p.withBlanks b)
  | .pow base b' exponent => .pow (base.withBlanks b) b' exponent
  | .primary p => .primary (p.withBlanks b)
  | .number b' n => .number (b.append b') n
  | .ident b' name => .ident (b.append b') name
  | .call b' name b₁ arg b₂ => .call (b.append b') name b₁ arg b₂
  | .paren b' inner b₁ => .paren (b.append b') inner b₁

theorem bytes_withBlanks (b : Blanks) {l : Level} (t : Tree A l) :
    (t.withBlanks b).bytes = b.1 ++ t.bytes := by
  induction t with
  | term t ih => exact ih
  | unary u ih => exact ih
  | power p ih => exact ih
  | primary p ih => exact ih
  | addOp lhs b' op rhs ih _ =>
    rw [withBlanks, bytes, ih, List.append_assoc]
    rfl
  | mulOp lhs b' op rhs ih _ =>
    rw [withBlanks, bytes, ih, List.append_assoc]
    rfl
  | pow base b' exponent ih _ =>
    rw [withBlanks, bytes, ih, List.append_assoc]
    rfl
  | _ => exact List.append_assoc ..

theorem value_withBlanks (b : Blanks) {l : Level} (t : Tree A l) :
    (t.withBlanks b).value = t.value := by
  induction t with
  | term t ih => exact ih
  | unary u ih => exact ih
  | power p ih => exact ih
  | primary p ih => exact ih
  | addOp lhs b' op rhs ih _ => rw [withBlanks, value, value, ih]
  | mulOp lhs b' op rhs ih _ => rw [withBlanks, value, value, ih]
  | pow base b' exponent ih _ => rw [withBlanks, value, value, ih]
  | _ => rfl

theorem whole_withBlanks (b : Blanks) {l : Level} (t : Tree A l) (r : Bytes) :
    (t.withBlanks b).Whole r ↔ t.Whole r := by
  induction t with
  | term t ih => exact ih
  | unary u ih => exact ih
  | power p ih => exact ih
  | primary p ih => exact ih
  | _ => exact Iff.rfl

end Tree

/-- The text is that of a tree, up to blanks at its end. -/
def Derives (text : Bytes) (t : Tree A .expr) : Prop := ∃ b : Blanks, text = t.bytes ++ b.1

end GeminiCpp.ExpressionParser
