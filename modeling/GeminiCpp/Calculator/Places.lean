import GeminiCpp.Calculator.Follow
import GeminiCpp.Calculator.Sound

/-! Places in a text: the productions around a place, how deep it is nested, and what may be wrong
there. -/
namespace GeminiCpp.ExpressionParser

variable {ν : Type} {A : Arith ν}

def Name.pi : Name :=
  { first := 'p'.toUInt8, rest := ['i'.toUInt8], isLetter := rfl
    isAlphanumeric := fun c hc => by
      rw [List.mem_singleton.mp hc]
      rfl }

/-- What may stand where an operand is missing. -/
def Tree.filler (A : Arith ν) (b : Blanks) : (l : Level) → Tree A l
  | .primary => .ident b .pi
  | .power => .primary (.ident b .pi)
  | .unary => .power (.primary (.ident b .pi))
  | .term => .unary (.power (.primary (.ident b .pi)))
  | .expr => .term (.unary (.power (.primary (.ident b .pi))))

theorem Tree.bytes_filler (b : Blanks) (l : Level) :
    (Tree.filler A b l).bytes = b.1 ++ Name.pi.token := by
  cases l <;> rfl

section Begins
variable (A)

/-- The bytes begin the text of a tree. -/
def Begins (l : Level) (bs : Bytes) : Prop := ∃ t : Tree A l, bs <+: t.bytes

variable {A} {l : Level}

theorem begins_blanks (b : Blanks) (l : Level) : Begins A l b.1 := by
  refine ⟨.filler A b l, ?_⟩
  rw [Tree.bytes_filler]
  exact List.prefix_append _ _

theorem begins_nil (l : Level) : Begins A l [] := begins_blanks .none l

theorem begins_tree (t : Tree A l) : Begins A l t.bytes := ⟨t, List.prefix_rfl⟩

/-- An expression may go on after blanks. -/
theorem begins_expr_blanks (t : Tree A .expr) (b : Blanks) : Begins A .expr (t.bytes ++ b.1) := by
  refine ⟨.addOp t b .plus (.filler A .none .term), ?_⟩
  exact (List.prefix_append_right_inj t.bytes).mpr (List.prefix_append _ _)

theorem begins_term_blanks (t : Tree A .term) (b : Blanks) : Begins A .term (t.bytes ++ b.1) := by
  refine ⟨.mulOp t b .times (.filler A .none .unary), ?_⟩
  exact (List.prefix_append_right_inj t.bytes).mpr (List.prefix_append _ _)

/-- A name may be called after blanks. -/
theorem begins_name_blanks (name : Name) (b : Blanks) :
    Begins A .primary (name.token ++ b.1) := by
  refine ⟨.call .none name b (.filler A .none .expr) .none, ?_⟩
  exact (List.prefix_append_right_inj name.token).mpr (List.prefix_append _ _)

end Begins

section Place
variable (A)

/-- A step into a production: where `l` must begin, after some bytes `l'` must. The number is that
of the productions `expr` and `unary` that are entered. -/
inductive Enters : Level → ℕ → Bytes → Level → Prop
  | blanks (l : Level) (b : Blanks) : Enters l 0 b.1 l
  | expr : Enters .expr 1 [] .term
  | addOp (lhs : Tree A .expr) (b : Blanks) (op : AddOp) :
    Enters .expr 1 (lhs.bytes ++ (b.1 ++ [op.char])) .term
  | term : Enters .term 0 [] .unary
  | mulOp (lhs : Tree A .term) (b : Blanks) (op : MulOp) :
    Enters .term 0 (lhs.bytes ++ (b.1 ++ [op.char])) .unary
  | sign (b : Blanks) (op : AddOp) : Enters .unary 1 (b.1 ++ [op.char]) .unary
  | unary : Enters .unary 1 [] .power
  | power : Enters .power 0 [] .primary
  | pow (base : Tree A .primary) (b : Blanks) :
    Enters .power 0 (base.bytes ++ (b.1 ++ ['^'.toUInt8])) .unary
  | call (name : Name) (b : Blanks) : Enters .primary 0 (name.token ++ (b.1 ++ ['('.toUInt8])) .expr
  | paren (b : Blanks) : Enters .primary 0 (b.1 ++ ['('.toUInt8]) .expr

/-- After these bytes of an expression the production `l` must begin, within `d` productions `expr`
and `unary`. -/
inductive Place : Level → ℕ → Bytes → Prop
  | start : Place .expr 0 []
  | enter {l l' : Level} {d k : ℕ} {bs x : Bytes} (h : Place l d bs) (hx : Enters A l k x l') :
    Place l' (d + k) (bs ++ x)

variable {A} {l l' : Level} {d k : ℕ} {bs x : Bytes}

/-- The production that is entered may be the last one. -/
theorem Enters.exists_tree (h : Enters A l k x l') (t : Tree A l') :
    ∃ (t' : Tree A l) (y : Bytes), t'.bytes = x ++ (t.bytes ++ y) := by
  cases h with
  | blanks l b => exact ⟨t.withBlanks b, [], by rw [Tree.bytes_withBlanks, List.append_nil]⟩
  | expr => exact ⟨.term t, [], by simp [Tree.bytes]⟩
  | addOp lhs b op => exact ⟨.addOp lhs b op t, [], by simp [Tree.bytes]⟩
  | term => exact ⟨.unary t, [], by simp [Tree.bytes]⟩
  | mulOp lhs b op => exact ⟨.mulOp lhs b op t, [], by simp [Tree.bytes]⟩
  | sign b op => exact ⟨.sign b op t, [], by simp [Tree.bytes]⟩
  | unary => exact ⟨.power t, [], by simp [Tree.bytes]⟩
  | power => exact ⟨.primary t, [], by simp [Tree.bytes]⟩
  | pow base b => exact ⟨.pow base b t, [], by simp [Tree.bytes]⟩
  | call name b =>
    exact ⟨.call .none name b t .none, [')'.toUInt8], by simp [Tree.bytes, Blanks.none]⟩
  | paren b => exact ⟨.paren b t .none, [')'.toUInt8], by simp [Tree.bytes, Blanks.none]⟩

theorem Place.exists_tree (h : Place A l d bs) (t : Tree A l) :
    ∃ (t' : Tree A .expr) (y : Bytes), t'.bytes = bs ++ (t.bytes ++ y) := by
  induction h with
  | start => exact ⟨t, [], (List.append_nil _).symm⟩
  | enter _ hx ih =>
    obtain ⟨t₁, y, ht₁⟩ := hx.exists_tree t
    obtain ⟨t₂, y', ht₂⟩ := ih t₁
    exact ⟨t₂, y ++ y', by rw [ht₂, ht₁]; simp⟩

/-- What begins the production goes on with the expression. -/
theorem Place.begins (h : Place A l d bs) (hx : Begins A l x) : Begins A .expr (bs ++ x) := by
  obtain ⟨t, hbegin⟩ := hx
  obtain ⟨t', y, ht'⟩ := h.exists_tree t
  refine ⟨t', ?_⟩
  rw [ht']
  exact (List.prefix_append_right_inj bs).mpr (hbegin.trans (List.prefix_append _ _))

end Place

/-- The bytes with which an operand begins. -/
def beginsOperand (c : UInt8) : Bool := isSign c || c = '('.toUInt8 || isMantissa c || isLetter c

section Complaints
variable (A) (text : Bytes)

/-- What a call looks like in the text. -/
def callBytes (name : Name) (b : Blanks) (arg : Tree A .expr) (b' : Blanks) : Bytes :=
  name.token ++ (b.1 ++ '('.toUInt8 :: (arg.bytes ++ (b'.1 ++ [')'.toUInt8])))

/-- The messages at a place, each with what it says of the text and of the arithmetic. -/
inductive Complaint (pos : ℕ) : Bytes → Prop
  | unexpectedEnd {d : ℕ} (hend : pos = text.length) (hplace : Place A .primary d (text.take pos)) :
    Complaint pos (ascii "unexpected end of expression")
  /-- An operand is expected. -/
  | noOperand {c : UInt8} {d : ℕ} (hc : text[pos]? = some c) (hblank : isBlank c = false)
    (hplace : Place A .primary d (text.take pos)) (hoperand : beginsOperand c = false) :
    Complaint pos (ascii "unexpected character '" ++ [c] ++ ascii "'")
  /-- An operator or the end is expected. -/
  | noOperator {c : UInt8} (hc : text[pos]? = some c) (hblank : isBlank c = false)
    (t : Tree A .expr) (b : Blanks) (hread : text.take pos = t.bytes ++ b.1)
    (hwhole : t.Whole (b.1 ++ text.drop pos)) (hoperator : c ∉ exprOps) :
    Complaint pos (ascii "unexpected character '" ++ [c] ++ ascii "'")
  | malformedNumber {token : Bytes} {d : ℕ} (hplace : Place A .primary d (text.take pos))
    (htoken : LongestNumber token (text.drop pos)) (hreads : (A.strtod token).2 ≠ token.length) :
    Complaint pos (ascii "malformed number '" ++ token ++ ascii "'")
  /-- The expression behind an open parenthesis goes on no more, and is not closed. -/
  | unclosed {d : ℕ} {before : Bytes} (hplace : Place A .expr d before)
    (hopen : ['('.toUInt8] <:+ before) (t : Tree A .expr) (b : Blanks)
    (hread : text.take pos = before ++ (t.bytes ++ b.1))
    (hwhole : t.Whole (b.1 ++ text.drop pos))
    (hclose : ∀ c, text[pos]? = some c → isBlank c = false ∧ c ≠ ')'.toUInt8 ∧ c ∉ exprOps) :
    Complaint pos (ascii "expected ')'")
  | unknownIdentifier {d : ℕ} {before : Bytes} (hplace : Place A .primary d before) (name : Name)
    (b : Blanks) (hread : text.take pos = before ++ (name.token ++ b.1))
    (hwhole : EndsName (b.1 ++ text.drop pos))
    (hunknown : (constants A).lookup name.token = none)
    (hopen : ∀ c, text[pos]? = some c → isBlank c = false ∧ c ≠ '('.toUInt8) :
    Complaint pos (ascii "unknown identifier '" ++ name.token ++ ascii "'")
  /-- The name is not that of a function, or the argument is outside its domain. -/
  | call {d : ℕ} {before : Bytes} (hplace : Place A .primary d before) (name : Name) (b : Blanks)
    (arg : Tree A .expr) (b' : Blanks) {x : ν}
    (hread : text.take pos = before ++ callBytes A name b arg b') (hx : arg.value = some x)
    (hnone : applyFunction A name.token x = none) : Complaint pos (callError name.token)
  | divisionByZero {d : ℕ} {before : Bytes} (hplace : Place A .unary d before) (op : MulOp)
    (hop : op = .over ∨ op = .modulo) (hsign : [op.char] <:+ before) (rhs : Tree A .unary)
    (b : Blanks) {y : ν} (hread : text.take pos = before ++ (rhs.bytes ++ b.1))
    (hwhole : rhs.Whole (b.1 ++ text.drop pos))
    (hend : ∀ c, ((text.drop pos).dropWhile isBlank).head? = some c → c ∉ powOps)
    (hy : rhs.value = some y) (hzero : A.isZero y = true) :
    Complaint pos (ascii "division by zero")
  | tooDeep {l : Level} {d : ℕ} (hplace : Place A l d (text.take pos))
    (hl : l = .expr ∨ l = .unary) (hdeep : maxDepth ≤ d) :
    Complaint pos (ascii "expression nested too deeply")
  | notFinite (t : Tree A .expr) {x : ν} (hend : pos = text.length) (ht : Derives A text t)
    (hx : t.value = some x) (hfinite : A.isFinite x = false) :
    Complaint pos (ascii "result is not a finite number")

/-- An error at a place in the text. Up to there, the text begins an expression. -/
def Fault (e : Error) : Prop :=
  ∃ pos message, pos ≤ text.length ∧ e = failure message pos ∧ Complaint A text pos message ∧
    Begins A .expr (text.take pos)

end Complaints

section Read
variable {text : Bytes} {s s' : ExpressionParser} {l l' : Level} {d k : ℕ} {x y : Bytes}

/-- What is read between two states goes on with what stands before the first. -/
theorem take_read (hs : s.pos ≤ text.length) (hs' : s'.pos ≤ text.length)
    (hrest : s.rest text = x ++ s'.rest text) : text.take s'.pos = text.take s.pos ++ x := by
  have hlength := congrArg List.length hrest
  simp only [rest, List.length_append, List.length_drop] at hlength
  have hread : s'.pos = s.pos + x.length := by omega
  have hdrop : text.drop s.pos = x ++ s'.rest text := hrest
  rw [hread, List.take_add, hdrop, List.take_left]

theorem Place.read (h : Place A l d (text.take s.pos)) (hs : s.pos ≤ text.length)
    (hs' : s'.pos ≤ text.length) (hrest : s.rest text = x ++ s'.rest text)
    (hx : Enters A l k x l') : Place A l' (d + k) (text.take s'.pos) := by
  rw [take_read hs hs' hrest]
  exact .enter h hx

/-- A step that reads nothing. -/
theorem Place.within (h : Place A l d x) (hx : Enters A l k [] l') : Place A l' (d + k) x := by
  have hplace := Place.enter h hx
  rwa [List.append_nil] at hplace

/-- Behind the blanks there is no blank. -/
theorem isBlank_of_skipBlanks {c : UInt8} (hc : text[(s.skipBlanks text).pos]? = some c) :
    isBlank c = false := by
  rw [getElem?_pos, rest_skipBlanks] at hc
  have hnot := List.head?_dropWhile_not isBlank (s.rest text)
  rw [hc] at hnot
  simpa using hnot

/-- An error where the parser stands. -/
theorem Fault.here {message : Bytes} (hplace : Place A l d (text.take s.pos))
    (hs : s.pos ≤ text.length) (hs' : s'.pos ≤ text.length)
    (hrest : s.rest text = x ++ s'.rest text) (hcomplaint : Complaint A text s'.pos message)
    (hbegins : Begins A l x) : Fault A text (failure message s'.pos) := by
  refine ⟨s'.pos, message, hs', rfl, hcomplaint, ?_⟩
  rw [take_read hs hs' hrest]
  exact hplace.begins hbegins

end Read

end GeminiCpp.ExpressionParser
