import GeminiCpp.Calculator.Complete
import GeminiCpp.Calculator.Print
import GeminiCpp.Calculator.Sound

/-! What the calculator makes of a text: the value of its derivation. -/
namespace GeminiCpp.ExpressionParser
open Traced Traced.Prog

variable {ν : Type} {A : Arith ν} {text : Bytes} {n : ℕ} {t : Tree A .expr} {v : ν}

/-- What a run returns for a text with a derivation of the value `v`. -/
def Evaluates (A : Arith ν) (v : ν) (nesting : ℕ) (result : Result ν) : Prop :=
  (nesting ≤ maxDepth ∧ A.isFinite v = true ∧ result = .ok v) ∨
    (nesting ≤ maxDepth ∧ A.isFinite v = false ∧
      ∃ pos, result = .error (failure (ascii "result is not a finite number") pos)) ∨
    (maxDepth < nesting ∧ TooDeep result)

theorem follow_blanks (b : Blanks) (ops : Bytes) : Follow ops b.1 := by
  constructor
  · intro c hc
    exact isWord_of_isBlank (b.2 c (List.mem_of_mem_head? hc))
  · intro c hc
    rw [List.dropWhile_eq_nil_iff.mpr b.2] at hc
    cases hc

/-- A run of the parser on a text that has a derivation. -/
theorem returns_parse_derives (ht : Derives A text t) (hv : t.value = some v)
    (hn : boundFor text.length ≤ n) :
    Returns (Safe text.length 0) (parse A text n) { pos := 0, depth := 0 } fun _ result =>
      Evaluates A v t.nesting result := by
  obtain ⟨b, hb⟩ := ht
  have hstart : ({ pos := 0, depth := 0 } : ExpressionParser) =
      stateBefore text (t.bytes ++ b.1) 0 := by
    rw [← hb, stateBefore, Nat.sub_self]
  have hsuffix : t.bytes ++ b.1 <:+ text := ⟨[], hb.symm⟩
  have hbound : 2 * (t.bytes ++ b.1).length + 2 ≤ n := by
    rw [← hb]
    exact hn
  have hblanks : b.1.dropWhile isBlank = [] := List.dropWhile_eq_nil_iff.mpr b.2
  rw [hstart]
  unfold parse
  apply returns_bind (composes_safe _ _)
  refine ((complete t).expr hv hsuffix (follow_blanks b _) hbound).mono fun s result hresult => ?_
  rw [hblanks] at hresult
  rcases hresult with ⟨hd, rfl, rfl⟩ | ⟨hd, pos, rfl⟩
  · have hdepth : t.nesting ≤ maxDepth := by omega
    unfold finish
    apply returns_bind (composes_safe _ _)
    apply returns_skipSpace
    rw [skipBlanks_stateBefore List.nil_suffix]
    apply returns_bind (composes_safe _ _)
    apply returns_get (composes_safe _ _)
    have hend : (stateBefore text (([] : Bytes).dropWhile isBlank) 0).pos = text.length := rfl
    rw [if_neg (not_not.mpr hend)]
    by_cases hfinite : A.isFinite v = true
    · rw [if_pos hfinite]
      exact returns_pure (composes_safe _ _) (Or.inl ⟨hdepth, hfinite, rfl⟩)
    · rw [if_neg hfinite]
      exact returns_fail (Or.inr (Or.inl ⟨hdepth, eq_false_of_ne_true hfinite, _, rfl⟩))
  · exact returns_pure (composes_safe _ _) (Or.inr (Or.inr ⟨by omega, pos, rfl⟩))

theorem exists_result (A : Arith ν) (hn : boundFor text.length ≤ n) :
    ∃ result, (runParser A text n).result = .ok result := by
  obtain ⟨-, result, hresult, -⟩ := @returns_parse _ A text n hn
  exact ⟨result, hresult⟩

theorem evaluates_of_derives (ht : Derives A text t) (hv : t.value = some v)
    (hn : boundFor text.length ≤ n) {result : Result ν}
    (hresult : (runParser A text n).result = .ok result) : Evaluates A v t.nesting result :=
  (returns_parse_derives ht hv hn).of_result hresult

/-- A run returns a value if the text has a derivation that it is the value of. -/
theorem runParser_eq_ok_iff (hn : boundFor text.length ≤ n) :
    (runParser A text n).result = .ok (.ok v) ↔
      ∃ t, Derives A text t ∧ t.nesting ≤ maxDepth ∧ t.value = some v ∧ A.isFinite v = true := by
  constructor
  · intro hresult
    have hsound := (@returns_parse _ A text n hn).of_result hresult
    obtain ⟨t, ht, hv, hfinite⟩ := hsound v rfl
    refine ⟨t, ht, ?_, hv, hfinite⟩
    rcases evaluates_of_derives ht hv hn hresult with h | ⟨-, -, pos, herror⟩ | ⟨-, pos, herror⟩
    · exact h.1
    · cases herror
    · cases herror
  · rintro ⟨t, ht, hdepth, hv, hfinite⟩
    obtain ⟨result, hresult⟩ := exists_result A hn
    rcases evaluates_of_derives ht hv hn hresult with ⟨-, -, rfl⟩ | ⟨-, hnot, -⟩ | ⟨hdeep, -⟩
    · exact hresult
    · rw [hfinite] at hnot
      cases hnot
    · omega

theorem evaluateExpression_eq_ok_iff :
    evaluateExpression A text = .ok (.ok v) ↔ text.length ≤ 4096 ∧
      ∃ t, Derives A text t ∧ t.nesting ≤ maxDepth ∧ t.value = some v ∧ A.isFinite v = true := by
  unfold evaluateExpression
  by_cases hlong : 4096 < text.length
  · rw [if_pos hlong]
    constructor
    · intro h
      cases h
    · rintro ⟨hshort, -⟩
      omega
  · rw [if_neg hlong, runParser_eq_ok_iff le_rfl]
    constructor
    · intro h
      exact ⟨by omega, h⟩
    · rintro ⟨-, h⟩
      exact h

/-- The calculator returns the value of the text in the grammar, and of an expression when it is
given the text of it. -/
theorem evaluateExpression_computes (A : Arith ν) :
    (∀ (text : Bytes) (v : ν), evaluateExpression A text = .ok (.ok v) ↔ text.length ≤ 4096 ∧
      ∃ t, Derives A text t ∧ t.nesting ≤ maxDepth ∧ t.value = some v ∧ A.isFinite v = true) ∧
    ∀ (a : Ast A) (v : ν), a.value = some v → A.isFinite v = true → a.print.length ≤ 4096 →
      a.nesting ≤ maxDepth → evaluateExpression A a.print = .ok (.ok v) := by
  constructor
  · intro text v
    exact evaluateExpression_eq_ok_iff
  · intro a v hv hfinite hlength hnesting
    rw [evaluateExpression_eq_ok_iff]
    exact ⟨hlength, a.tree.toExpr, a.derives_print, hnesting, a.value_toExpr_tree.trans hv, hfinite⟩

/-- Integers in place of doubles. Of a token the digits at its start are read. -/
def integers : Arith ℤ where
  add := Int.add
  sub := Int.sub
  mul := Int.mul
  div := Int.tdiv
  fmod := Int.tmod
  pow x y := Int.pow x y.toNat
  neg := Int.neg
  pi := 3
  e := 2
  sqrt x := x.toNat.sqrt
  fabs x := x.natAbs
  sin := id
  cos := id
  tan := id
  exp := id
  floor := id
  ceil := id
  log := id
  log10 := id
  strtod token :=
    ((token.takeWhile isDigit).foldl (fun n c => 10 * n + (c.toNat - '0'.toNat : ℕ)) 0,
      (token.takeWhile isDigit).length)
  isZero x := x = 0
  isNegative x := x < 0
  isNonPositive x := x ≤ 0
  isFinite _ := true

/-- A number of one digit. -/
def digit (c : UInt8) (hc : isDigit c = true) : Number integers where
  mantissa := [c]
  exponent := []
  mantissa_ne_nil := List.cons_ne_nil _ _
  isMantissa c' hc' := by
    rw [List.mem_singleton.mp hc']
    exact Bool.or_eq_true_iff.mpr (Or.inl hc)
  isExponent := .none
  strtod_reads := by
    change ([c].takeWhile isDigit).length = 1
    rw [List.takeWhile_cons_of_pos hc]
    rfl

/-- A product that needs parentheses. -/
def product : Ast integers :=
  .mulOp .times
    (.addOp .plus (.number (digit '1'.toUInt8 rfl)) (.number (digit '2'.toUInt8 rfl)))
    (.number (digit '3'.toUInt8 rfl))

theorem evaluateExpression_computes_product :
    evaluateExpression integers (ascii "(1+2)*3") = .ok (.ok 9) := by
  have hprint : product.print = ascii "(1+2)*3" := rfl
  rw [← hprint]
  exact (evaluateExpression_computes integers).2 product 9 (by decide) rfl (by decide) (by decide)

end GeminiCpp.ExpressionParser
