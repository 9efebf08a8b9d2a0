import GeminiCpp.Calculator.Grammar

/-! Expressions without their text, and how to write them with the parentheses that they need. -/
namespace GeminiCpp.ExpressionParser
variable {ν : Type} {A : Arith ν}

/-- An expression: only its operations, in their order. -/
inductive Ast (A : Arith ν)
  | number (n : Number A)
  | constant (name : Name)
  | call (name : Name) (arg : Ast A)
  | sign (op : AddOp) (x : Ast A)
  | addOp (op : AddOp) (x y : Ast A)
  | mulOp (op : MulOp) (x y : Ast A)
  | pow (x y : Ast A)

/-- The looser a nonterminal, the lower its rank. -/
def Level.rank : Level → ℕ
  | .expr => 0
  | .term => 1
  | .unary => 2
  | .power => 3
  | .primary => 4

/-- Where something of level `l` is expected, something looser stands in parentheses. -/
def bracket (l k : Level) (m : Bytes) : Bytes :=
  if l.rank ≤ k.rank then m else '('.toUInt8 :: (m ++ [')'.toUInt8])

namespace Ast

def value : Ast A → Option ν
  | .number n => some n.value
  | .constant name => (constants A).lookup name.token
  | .call name arg => do
    let x ← arg.value
    applyFunction A name.token x
  | .sign op x => op.sign A <$> x.value
  | .addOp op x y => do
    let x ← x.value
    let y ← y.value
    return op.apply A x y
  | .mulOp op x y => do
    let x ← x.value
    let y ← y.value
    if op.defined A y then some (op.apply A x y) else none
  | .pow x y => do
    let x ← x.value
    let y ← y.value
    return A.pow x y

/-- What an expression is in the grammar when it stands alone. -/
def level : Ast A → Level
  | .number _ | .constant _ | .call _ _ => .primary
  | .sign _ _ => .unary
  | .addOp _ _ _ => .expr
  | .mulOp _ _ _ => .term
  | .pow _ _ => .power

def print : Ast A → Bytes
  | .number n => n.token
  | .constant name => name.token
  | .call name arg => name.token ++ '('.toUInt8 :: (arg.print ++ [')'.toUInt8])
  | .sign op x => op.char :: bracket .unary x.level x.print
  | .addOp op x y => bracket .expr x.level x.print ++ op.char :: bracket .term y.level y.print
  | .mulOp op x y => bracket .term x.level x.print ++ op.char :: bracket .unary y.level y.print
  | .pow x y => bracket .primary x.level x.print ++ '^'.toUInt8 :: bracket .unary y.level y.print

end Ast

namespace Tree

/-- Any tree is an expression. -/
def toExpr : {k : Level} → Tree A k → Tree A .expr
  | .expr, t => t
  | .term, t => .term t
  | .unary, t => .term (.unary t)
  | .power, t => .term (.unary (.power t))
  | .primary, t => .term (.unary (.power (.primary t)))

def toPrimary : {k : Level} → Tree A k → Tree A .primary
  | .primary, t => t
  | .expr, t | .term, t | .unary, t | .power, t => .paren .none t.toExpr .none

def toPower : {k : Level} → Tree A k → Tree A .power
  | .power, t => t
  | .expr, t | .term, t | .unary, t | .primary, t => .primary t.toPrimary

def toUnary : {k : Level} → Tree A k → Tree A .unary
  | .unary, t => t
  | .expr, t | .term, t | .power, t | .primary, t => .power t.toPower

def toTerm : {k : Level} → Tree A k → Tree A .term
  | .term, t => t
  | .expr, t | .unary, t | .power, t | .primary, t => .unary t.toUnary

/-- A tree where one of level `l` is expected. -/
def fit {k : Level} (t : Tree A k) : (l : Level) → Tree A l
  | .expr => t.toExpr
  | .term => t.toTerm
  | .unary => t.toUnary
  | .power => t.toPower
  | .primary => t.toPrimary

theorem bytes_fit {k : Level} (t : Tree A k) (l : Level) :
    (t.fit l).bytes = bracket l k t.bytes := by
  cases l <;> cases k <;> rfl

theorem value_fit {k : Level} (t : Tree A k) (l : Level) : (t.fit l).value = t.value := by
  cases l <;> cases k <;> rfl

end Tree

namespace Ast

/-- The derivation of the text of an expression. -/
def tree : (a : Ast A) → Tree A a.level
  | .number n => .number .none n
  | .constant name => .ident .none name
  | .call name arg => .call .none name .none arg.tree.toExpr .none
  | .sign op x => .sign .none op (x.tree.fit .unary)
  | .addOp op x y => .addOp (x.tree.fit .expr) .none op (y.tree.fit .term)
  | .mulOp op x y => .mulOp (x.tree.fit .term) .none op (y.tree.fit .unary)
  | .pow x y => .pow (x.tree.fit .primary) .none (y.tree.fit .unary)

theorem bytes_tree (a : Ast A) : a.tree.bytes = a.print := by
  induction a with
  | number n => rfl
  | constant name => rfl
  | call name arg ih =>
    have harg : arg.tree.toExpr.bytes = arg.print := (arg.tree.bytes_fit .expr).trans ih
    change name.token ++ '('.toUInt8 :: (arg.tree.toExpr.bytes ++ [')'.toUInt8]) = _
    rw [harg]
    rfl
  | sign op x ih =>
    change op.char :: (x.tree.fit .unary).bytes = _
    rw [Tree.bytes_fit, ih]
    rfl
  | addOp op x y ihx ihy =>
    change (x.tree.fit .expr).bytes ++ op.char :: (y.tree.fit .term).bytes = _
    rw [Tree.bytes_fit, Tree.bytes_fit, ihx, ihy]
    rfl
  | mulOp op x y ihx ihy =>
    change (x.tree.fit .term).bytes ++ op.char :: (y.tree.fit .unary).bytes = _
    rw [Tree.bytes_fit, Tree.bytes_fit, ihx, ihy]
    rfl
  | pow x y ihx ihy =>
    change (x.tree.fit .primary).bytes ++ '^'.toUInt8 :: (y.tree.fit .unary).bytes = _
    rw [Tree.bytes_fit, Tree.bytes_fit, ihx, ihy]
    rfl

theorem value_tree (a : Ast A) : a.tree.value = a.value := by
  induction a with
  | number n => rfl
  | constant name => rfl
  | call name arg ih =>
    have harg : arg.tree.toExpr.value = arg.value := (arg.tree.value_fit .expr).trans ih
    change (arg.tree.toExpr.value.bind fun x => applyFunction A name.token x) = _
    rw [harg]
    rfl
  | sign op x ih =>
    change op.sign A <$> (x.tree.fit .unary).value = _
    rw [Tree.value_fit, ih]
    rfl
  | addOp op x y ihx ihy =>
    change ((x.tree.fit .expr).value.bind fun u => (y.tree.fit .term).value.bind fun w =>
      some (op.apply A u w)) = _
    rw [Tree.value_fit, Tree.value_fit, ihx, ihy]
    rfl
  | mulOp op x y ihx ihy =>
    change ((x.tree.fit .term).value.bind fun u => (y.tree.fit .unary).value.bind fun w =>
      if op.defined A w then some (op.apply A u w) else none) = _
    rw [Tree.value_fit, Tree.value_fit, ihx, ihy]
    rfl
  | pow x y ihx ihy =>
    change ((x.tree.fit .primary).value.bind fun u => (y.tree.fit .unary).value.bind fun w =>
      some (A.pow u w)) = _
    rw [Tree.value_fit, Tree.value_fit, ihx, ihy]
    rfl

/-- The nesting of the text of an expression. -/
def nesting (a : Ast A) : ℕ := a.tree.toExpr.nesting

theorem derives_print (a : Ast A) : Derives A a.print a.tree.toExpr := by
  have hbytes : a.tree.toExpr.bytes = a.print := (a.tree.bytes_fit .expr).trans a.bytes_tree
  refine ⟨.none, ?_⟩
  rw [hbytes]
  exact (List.append_nil _).symm

theorem value_toExpr_tree (a : Ast A) : a.tree.toExpr.value = a.value :=
  (a.tree.value_fit .expr).trans a.value_tree

end Ast
end GeminiCpp.ExpressionParser
