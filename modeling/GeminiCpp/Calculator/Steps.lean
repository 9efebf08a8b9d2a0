import Mathlib.Data.List.DropRight
import Mathlib.Data.List.TakeDrop
import Mathlib.Data.List.TakeWhile
import GeminiCpp.Calculator.Parser
import GeminiCpp.Lib.Returns

/-! What the pieces of the parser do, from any state: each returns, stays within the text, and
leaves the depth alone. -/
namespace GeminiCpp.ExpressionParser
open Traced Traced.Prog

/-- The calls that are active after some actions, from those that were active before. -/
def active (es : List Action) : ℤ := es.count .enter - es.count .leave

theorem active_append (es es' : List Action) : active (es ++ es') = active es + active es' := by
  unfold active
  rw [List.count_append, List.count_append]
  push_cast
  omega

/-- Actions on a text of some size, with `h` calls active before and after them: they stay within
the text, and no call enters when `maxDepth` others are active. -/
structure Safe (size h : ℕ) (es : List Action) : Prop where
  reads : ∀ i, .read i ∈ es → i < size
  moves : ∀ pos, .move pos ∈ es → pos ≤ size
  enters : ∀ es₁ es₂, es = es₁ ++ .enter :: es₂ → active es₁ + h + 1 ≤ maxDepth
  balanced : active es = 0

theorem Safe.nil {size h : ℕ} : Safe size h [] where
  reads i hi := by cases hi
  moves pos hpos := by cases hpos
  enters es₁ es₂ hes := by simp at hes
  balanced := rfl

theorem Safe.append {size h : ℕ} {es es' : List Action} (hes : Safe size h es)
    (hes' : Safe size h es') : Safe size h (es ++ es') where
  reads i hi := (List.mem_append.mp hi).elim (hes.reads i) (hes'.reads i)
  moves pos hpos := (List.mem_append.mp hpos).elim (hes.moves pos) (hes'.moves pos)
  enters es₁ es₂ hsplit := by
    rcases List.append_eq_append_iff.mp hsplit with ⟨a, rfl, hright⟩ | ⟨a, rfl, hleft⟩
    · have henter := hes'.enters a es₂ hright
      rw [active_append, hes.balanced]
      omega
    · cases a with
      | nil =>
        have henter := hes'.enters [] es₂ (by simpa using hleft.symm)
        have hbalanced := hes.balanced
        rw [List.append_nil] at hbalanced
        rw [hbalanced]
        simpa [active] using henter
      | cons e a =>
        obtain ⟨rfl, -⟩ := List.cons.inj hleft
        exact hes.enters es₁ a rfl
  balanced := by rw [active_append, hes.balanced, hes'.balanced, Int.add_zero]

theorem composes_safe (size h : ℕ) : Composes (Safe size h) := ⟨Safe.nil, Safe.append⟩

theorem Safe.read {size h i : ℕ} (hi : i < size) : Safe size h [.read i] where
  reads j hj := by
    obtain rfl := Action.read.inj (List.mem_singleton.mp hj)
    exact hi
  moves pos hpos := by simp at hpos
  enters es₁ es₂ hes := by
    rcases List.singleton_eq_append_iff.mp hes with ⟨-, h⟩ | ⟨-, h⟩
    · cases h
    · cases h
  balanced := rfl

theorem Safe.move {size h pos : ℕ} (hpos : pos ≤ size) : Safe size h [.move pos] where
  reads j hj := by simp at hj
  moves p hp := by
    obtain rfl := Action.move.inj (List.mem_singleton.mp hp)
    exact hpos
  enters es₁ es₂ hes := by
    rcases List.singleton_eq_append_iff.mp hes with ⟨-, h⟩ | ⟨-, h⟩
    · cases h
    · cases h
  balanced := rfl

/-- A call that is let in. -/
theorem Safe.call {size h : ℕ} {es : List Action} (hes : Safe size (h + 1) es)
    (hh : h + 1 ≤ maxDepth) : Safe size h (.enter :: (es ++ [.leave])) where
  reads i hi := by
    simp only [List.mem_cons, List.mem_append, reduceCtorEq, List.not_mem_nil, or_false,
      false_or] at hi
    exact hes.reads i hi
  moves pos hpos := by
    simp only [List.mem_cons, List.mem_append, reduceCtorEq, List.not_mem_nil, or_false,
      false_or] at hpos
    exact hes.moves pos hpos
  enters es₁ es₂ hsplit := by
    cases es₁ with
    | nil =>
      -- the call itself
      change (0 : ℤ) + h + 1 ≤ maxDepth
      omega
    | cons e es₁ =>
      -- a call within it, as the last action is a `leave`
      obtain ⟨rfl, hinner⟩ := List.cons.inj hsplit
      have hwithin : ∃ es₃, es = es₁ ++ .enter :: es₃ := by
        rcases List.eq_nil_or_concat es₂ with rfl | ⟨es₃, e, rfl⟩
        · have hlast := (List.append_inj' hinner rfl).2
          cases hlast
        · rw [List.concat_eq_append] at hinner
          have hsplit' : es ++ [.leave] = (es₁ ++ .enter :: es₃) ++ [e] := by
            rw [hinner]
            simp
          exact ⟨es₃, (List.append_inj' hsplit' rfl).1⟩
      obtain ⟨es₃, hes₃⟩ := hwithin
      have henter := hes.enters es₁ es₃ hes₃
      have hactive : active (.enter :: es₁) = 1 + active es₁ := active_append [.enter] es₁
      rw [hactive]
      omega
  balanced := by
    have hactive := active_append ([.enter] ++ es) [.leave]
    rw [active_append [.enter] es, hes.balanced] at hactive
    exact hactive

variable {α ν : Type} {text : Bytes} {h : ℕ} {s : ExpressionParser}

/-- What is left of the text. -/
def rest (text : Bytes) (s : ExpressionParser) : Bytes := text.drop s.pos

def advance (s : ExpressionParser) (n : ℕ) : ExpressionParser := { s with pos := s.pos + n }

@[simp] theorem advance_pos (n : ℕ) : (s.advance n).pos = s.pos + n := rfl

@[simp] theorem advance_advance (m n : ℕ) : (s.advance m).advance n = s.advance (m + n) := by
  unfold advance
  rw [Nat.add_assoc]

theorem rest_advance (n : ℕ) : (s.advance n).rest text = (s.rest text).drop n := by
  unfold rest
  rw [List.drop_drop, advance_pos]

theorem drop_length_takeWhile (test : UInt8 → Bool) (r : Bytes) :
    r.drop (r.takeWhile test).length = r.dropWhile test := by
  have hsplit : r.takeWhile test ++ r.dropWhile test = r := List.takeWhile_append_dropWhile
  have hdrop := @List.drop_left _ (r.takeWhile test) (r.dropWhile test)
  rwa [hsplit] at hdrop

/-- The state after the blanks at this place. -/
def skipBlanks (text : Bytes) (s : ExpressionParser) : ExpressionParser :=
  s.advance ((s.rest text).takeWhile isBlank).length

theorem rest_skipBlanks : (s.skipBlanks text).rest text = (s.rest text).dropWhile isBlank := by
  unfold skipBlanks
  rw [rest_advance, drop_length_takeWhile]

/-- The error that is reported at a position. -/
def failure (message : Bytes) (pos : ℕ) : Error :=
  makeError .invalidArgument (message ++ ascii " at position " ++ toDecimal pos)

theorem returns_fail {message : Bytes} {Q : ExpressionParser → Result α → Prop}
    (hQ : Q s (.error (failure message s.pos))) :
    Returns (Safe text.length h) (fail message) s Q := by
  apply returns_bind (composes_safe _ _)
  apply returns_get (composes_safe _ _)
  exact returns_pure (composes_safe _ _) hQ

theorem returns_charAt {i : ℕ} (hi : i < text.length) {Q : ExpressionParser → UInt8 → Prop}
    (hQ : Q s (text[i]?.getD 0)) : Returns (Safe text.length h) (charAt text i) s Q := by
  apply returns_bind (composes_safe _ _)
  apply returns_emit (.read hi)
  exact returns_pure (composes_safe _ _) hQ

theorem returns_testAt {i : ℕ} {test : UInt8 → Bool} {Q : ExpressionParser → Bool → Prop}
    (hQ : Q s (text[i]?.any test)) : Returns (Safe text.length h) (testAt text i test) s Q := by
  unfold testAt
  by_cases hi : i < text.length
  · rw [if_pos hi]
    apply returns_map (composes_safe _ _)
    apply returns_charAt hi
    rw [List.getElem?_eq_getElem hi] at hQ ⊢
    exact hQ
  · rw [if_neg hi]
    rw [List.getElem?_eq_none (by omega)] at hQ
    exact returns_pure (composes_safe _ _) hQ

theorem returns_moveTo {pos : ℕ} (hpos : pos ≤ text.length)
    {Q : ExpressionParser → Unit → Prop} (hQ : Q { s with pos } ()) :
    Returns (Safe text.length h) (moveTo pos) s Q := by
  apply returns_bind (composes_safe _ _)
  apply returns_emit (.move hpos)
  exact returns_modify (composes_safe _ _) hQ

/-- A move forward. -/
theorem returns_moveTo_add {n : ℕ} (hn : s.pos + n ≤ text.length)
    {Q : ExpressionParser → Unit → Prop} (hQ : Q (s.advance n) ()) :
    Returns (Safe text.length h) (moveTo (s.pos + n)) s Q :=
  returns_moveTo hn hQ

theorem getElem?_pos (text : Bytes) (s : ExpressionParser) : text[s.pos]? = (s.rest text).head? :=
  List.head?_drop.symm

theorem returns_skipWhile {test : UInt8 → Bool} {left : ℕ} (hleft : left = text.length - s.pos)
    {Q : ExpressionParser → Unit → Prop}
    (hQ : Q (s.advance ((s.rest text).takeWhile test).length) ()) :
    Returns (Safe text.length h) (skipWhile text test left) s Q := by
  induction left generalizing s with
  | zero =>
    have hnil : s.rest text = [] := List.drop_eq_nil_of_le (by omega)
    rw [hnil] at hQ
    exact returns_pure (composes_safe _ _) hQ
  | succ left ih =>
    have hpos : s.pos < text.length := by omega
    have hcons : s.rest text = text[s.pos] :: (s.advance 1).rest text := by
      rw [rest_advance, rest, List.drop_drop]
      exact List.drop_eq_getElem_cons hpos
    unfold skipWhile
    apply returns_bind (composes_safe _ _)
    apply returns_get (composes_safe _ _)
    apply returns_bind (composes_safe _ _)
    apply returns_testAt
    rw [getElem?_pos, hcons]
    rw [hcons] at hQ
    by_cases htest : test text[s.pos] = true
    · rw [List.takeWhile_cons_of_pos htest] at hQ
      simp only [List.head?_cons, Option.any_some, htest, if_true]
      apply returns_bind (composes_safe _ _)
      apply returns_moveTo_add (by omega)
      apply ih (by rw [advance_pos]; omega)
      rw [List.length_cons, Nat.add_comm, ← advance_advance] at hQ
      exact hQ
    · rw [List.takeWhile_cons_of_neg htest] at hQ
      simp only [List.head?_cons, Option.any_some, htest]
      exact returns_pure (composes_safe _ _) hQ

theorem returns_skip {test : UInt8 → Bool} {Q : ExpressionParser → Unit → Prop}
    (hQ : Q (s.advance ((s.rest text).takeWhile test).length) ()) :
    Returns (Safe text.length h) (skip text test) s Q := by
  apply returns_bind (composes_safe _ _)
  apply returns_get (composes_safe _ _)
  exact returns_skipWhile rfl hQ

theorem returns_skipSpace {Q : ExpressionParser → Unit → Prop} (hQ : Q (s.skipBlanks text) ()) :
    Returns (Safe text.length h) (skipSpace text) s Q :=
  returns_skip hQ

theorem le_skipBlanks_pos : s.pos ≤ (s.skipBlanks text).pos := Nat.le_add_right ..

theorem skipBlanks_pos_le (hs : s.pos ≤ text.length) : (s.skipBlanks text).pos ≤ text.length := by
  have hshort : ((s.rest text).takeWhile isBlank).length ≤ (s.rest text).length :=
    (List.takeWhile_prefix _).length_le
  have hrest : (s.rest text).length = text.length - s.pos := List.length_drop
  unfold skipBlanks
  rw [advance_pos]
  omega

theorem skipBlanks_skipBlanks : (s.skipBlanks text).skipBlanks text = s.skipBlanks text := by
  have hnone : ((s.rest text).dropWhile isBlank).takeWhile isBlank = [] := by
    rw [List.takeWhile_eq_nil_iff]
    intro hpos
    simpa using List.dropWhile_get_zero_not isBlank (s.rest text) hpos
  have hagain : (s.skipBlanks text).skipBlanks text = (s.skipBlanks text).advance
      (((s.skipBlanks text).rest text).takeWhile isBlank).length := rfl
  rw [hagain, rest_skipBlanks, hnone]
  rfl

theorem dropWhile_skipBlanks :
    ((s.skipBlanks text).rest text).dropWhile isBlank = (s.rest text).dropWhile isBlank := by
  rw [rest_skipBlanks, List.dropWhile_idempotent]

/-- A character is accepted if it comes next, up to blanks, which are skipped in any case. -/
theorem returns_accept {c : UInt8} {Q : ExpressionParser → Bool → Prop}
    (hyes : ∀ r, (s.rest text).dropWhile isBlank = c :: r →
      Q ((s.skipBlanks text).advance 1) true)
    (hno : ((s.rest text).dropWhile isBlank).head? ≠ some c → Q (s.skipBlanks text) false) :
    Returns (Safe text.length h) (accept text c) s Q := by
  unfold accept
  apply returns_bind (composes_safe _ _)
  apply returns_skipSpace
  apply returns_bind (composes_safe _ _)
  apply returns_get (composes_safe _ _)
  apply returns_bind (composes_safe _ _)
  apply returns_testAt
  rw [getElem?_pos, rest_skipBlanks]
  cases hr : (s.rest text).dropWhile isBlank with
  | nil => exact returns_pure (composes_safe _ _) (hno (by simp [hr]))
  | cons d r =>
    simp only [List.head?_cons, Option.any_some, decide_eq_true_eq]
    by_cases hd : d = c
    · rw [if_pos hd]
      have hlength := congrArg List.length (@rest_skipBlanks text s)
      rw [hr, List.length_cons, rest, List.length_drop] at hlength
      apply returns_bind (composes_safe _ _)
      apply returns_moveTo_add (by omega)
      exact returns_pure (composes_safe _ _) (hyes r (by rw [hr, hd]))
    · rw [if_neg hd]
      exact returns_pure (composes_safe _ _) (hno (by simpa [hr] using hd))

theorem lookup_of_head_ne {r r' : Bytes} {c d : UInt8} {a : α} {ops : List (UInt8 × α)}
    (hhead : r.head? ≠ some c) (hr : r = d :: r') : ((c, a) :: ops).lookup d = ops.lookup d := by
  have hd : d ≠ c := by
    intro hdc
    rw [hr, hdc] at hhead
    exact hhead rfl
  rw [List.lookup_cons, beq_eq_false_iff_ne.mpr hd]

/-- Of some characters the one that comes next is accepted. -/
theorem returns_acceptAny {op : UInt8 × α} {ops : List (UInt8 × α)}
    {Q : ExpressionParser → Option α → Prop}
    (hyes : ∀ c r a, (s.rest text).dropWhile isBlank = c :: r → (op :: ops).lookup c = some a →
      Q ((s.skipBlanks text).advance 1) (some a))
    (hno : (∀ c r, (s.rest text).dropWhile isBlank = c :: r → (op :: ops).lookup c = none) →
      Q (s.skipBlanks text) none) :
    Returns (Safe text.length h) (acceptAny text (op :: ops)) s Q := by
  induction ops generalizing op s with
  | nil =>
    obtain ⟨c, a⟩ := op
    unfold acceptAny
    apply returns_bind (composes_safe _ _)
    apply returns_accept
    · intro r hr
      exact returns_pure (composes_safe _ _) (hyes c r a hr List.lookup_cons_self)
    · intro hhead
      refine returns_pure (composes_safe _ _) (hno fun d r hr => ?_)
      exact lookup_of_head_ne hhead hr
  | cons op' ops ih =>
    obtain ⟨c, a⟩ := op
    unfold acceptAny
    apply returns_bind (composes_safe _ _)
    apply returns_accept
    · intro r hr
      exact returns_pure (composes_safe _ _) (hyes c r a hr List.lookup_cons_self)
    · intro hhead
      apply ih
      · intro d r a' hr hlookup
        rw [dropWhile_skipBlanks] at hr
        rw [skipBlanks_skipBlanks]
        exact hyes d r a' hr ((lookup_of_head_ne hhead hr).trans hlookup)
      · intro hnone
        rw [skipBlanks_skipBlanks]
        refine hno fun d r hr => ?_
        rw [lookup_of_head_ne hhead hr]
        exact hnone d r (by rw [dropWhile_skipBlanks, hr])

theorem returns_tokenFrom {start : ℕ} {Q : ExpressionParser → Bytes → Prop}
    (hQ : Q s ((text.drop start).take (s.pos - start))) :
    Returns (Safe text.length h) (tokenFrom text start) s Q := by
  apply returns_bind (composes_safe _ _)
  apply returns_get (composes_safe _ _)
  exact returns_pure (composes_safe _ _) hQ

/-- A call of `expr` or `unary` that the depth check lets through. -/
theorem returns_nested {body : Parse (Result ν)} (hs : s.depth < maxDepth)
    {Q : ExpressionParser → Result ν → Prop}
    (hbody : Returns (Safe text.length (s.depth + 1)) body { s with depth := s.depth + 1 } Q) :
    Returns (Safe text.length s.depth) (nested body) s Q := by
  obtain ⟨hsafe, r, hr, hQ⟩ := hbody
  have hdeep : ¬ maxDepth < s.depth + 1 := by omega
  have hrun : nested body s =
      ⟨.enter :: ((body { s with depth := s.depth + 1 }).events ++ [.leave]),
        (body { s with depth := s.depth + 1 }).state, .ok r⟩ := by
    rw [run_eq_iff]
    unfold nested
    simp only [wp_bind, wp_modify, then_ok, wp_get, hdeep, if_false, wp_emit]
    rw [wp_iff, hr]
    simp only [then_ok, wp_bind, wp_emit, wp_pure]
    simp
  unfold Returns
  rw [wp_iff, hrun]
  exact ⟨hsafe.call (by omega), r, rfl, hQ⟩

/-- A call that it refuses. -/
theorem returns_nested_refused {body : Parse (Result ν)} (hs : maxDepth ≤ s.depth)
    {Q : ExpressionParser → Result ν → Prop}
    (hQ : Q { s with depth := s.depth + 1 }
      (.error (failure (ascii "expression nested too deeply") s.pos))) :
    Returns (Safe text.length h) (nested body) s Q := by
  have hdeep : maxDepth < s.depth + 1 := by omega
  unfold nested
  apply returns_bind (composes_safe _ _)
  apply returns_modify (composes_safe _ _)
  apply returns_bind (composes_safe _ _)
  apply returns_get (composes_safe _ _)
  rw [if_pos hdeep]
  exact returns_fail hQ

end GeminiCpp.ExpressionParser
