import GeminiCpp.Calculator.Places

/-! The errors of the calculator. Each names a place in the text and says what is wrong there, and
what stands before that place is the beginning of an expression. -/
namespace GeminiCpp.ExpressionParser
open Traced Traced.Prog

variable {ν : Type}

/-- The operators that go on with what a production has read. -/
def followOps : Level → Bytes
  | .expr => exprOps
  | .term => termOps
  | .unary | .power => powOps
  | .primary => []

section Runs
variable (A : Arith ν) (text : Bytes)

/-- No operator comes next that goes on with the production. -/
def Closed (l : Level) (s : ExpressionParser) : Prop :=
  ∀ c, ((s.rest text).dropWhile isBlank).head? = some c → c ∉ followOps l

/-- What is known of a call that reads `l` when it returns. -/
structure Ends (l : Level) (s : ExpressionParser) (result : Result ν) : Prop where
  fault : ∀ e, result = .error e → Fault A text e
  closed : ∀ v, result = .ok v → Closed text l s

/-- What is known of the calls of the parser to itself, up to the bound `n`. -/
structure NextEnds (next : Next ν) (n : ℕ) : Prop extends NextSound A text next n where
  expr_ends : ∀ s, s.pos ≤ text.length → Place A .expr s.depth (text.take s.pos) →
    2 * (text.length - s.pos) + 2 ≤ n →
      Returns (Safe text.length s.depth) next.expr s (Ends A text .expr)
  unary_ends : ∀ s, s.pos ≤ text.length → Place A .unary s.depth (text.take s.pos) →
    2 * (text.length - s.pos) + 1 ≤ n →
      Returns (Safe text.length s.depth) next.unary s (Ends A text .unary)

variable {A text} {next : Next ν} {n h d : ℕ} {l l' : Level} {s : ExpressionParser}

theorem Closed.skipBlanks (hs : Closed text l s) : Closed text l (s.skipBlanks text) := by
  intro c hc
  rw [dropWhile_skipBlanks] at hc
  exact hs c hc

theorem Ends.ok {v : ν} (hs : Closed text l s) : Ends A text l s (.ok v) :=
  ⟨fun e he => (by cases he), fun _ _ => hs⟩

theorem Ends.error {e : Error} (he : Fault A text e) : Ends A text l s (.error e) := by
  refine ⟨fun e' he' => ?_, fun v hv => by cases hv⟩
  cases he'
  exact he

/-- No operator goes on with an operand. -/
theorem Ends.operand {v : ν} : Ends A text .primary s (.ok v) := .ok fun c _ hc => by cases hc

/-- A call that reads something, and what is done with its value: an error is passed on. -/
theorem Ends.bind {r : Bytes} {p : Parse (Result ν)} {f : ν → Parse (Result ν)}
    (hsound : Returns (Safe text.length h) p s (Sound A text l' r d))
    (hends : Returns (Safe text.length h) p s (Ends A text l'))
    (hf : ∀ s₁ x, s₁.pos ≤ text.length → s₁.depth = d → ReadsFrom A text l' r s₁ x →
      Closed text l' s₁ → Returns (Safe text.length h) (f x) s₁ (Ends A text l)) :
    Returns (Safe text.length h) (do
      match ← p with
      | .error e => return .error e
      | .ok x => f x) s (Ends A text l) := by
  apply returns_bind (composes_safe _ _)
  refine (hsound.and hends).mono fun s₁ result hresult => ?_
  obtain ⟨hread, hend⟩ := hresult
  cases result with
  | error e => exact returns_pure (composes_safe _ _) (.error (hend.fault e rfl))
  | ok x =>
    obtain ⟨hdepth, hreads⟩ := hread.reads x rfl
    exact hf s₁ x hread.pos_le hdepth hreads (hend.closed x rfl)

/-- An expression in parentheses, after the opening one. -/
theorem ends_enclosed (hnext : NextEnds A text next n) (hs : s.pos ≤ text.length)
    (hplace : Place A .expr s.depth (text.take s.pos)) (hopen : ['('.toUInt8] <:+ text.take s.pos)
    (hn : 2 * (text.length - s.pos) + 2 ≤ n) :
    Returns (Safe text.length s.depth) (enclosed text next) s (Ends A text .primary) := by
  unfold enclosed
  refine Ends.bind (hnext.expr s hs hn) (hnext.expr_ends s hs hplace hn) ?_
  intro s₁ v hs₁ _ hreads hclosed
  apply returns_bind (composes_safe _ _)
  apply returns_accept
  · intro r hclose
    exact returns_pure (composes_safe _ _) .operand
  · intro hclose
    obtain ⟨t, b, hread, -, hwhole⟩ := hreads.skipBlanks
    have hpos := skipBlanks_pos_le hs₁
    rw [← List.append_assoc] at hread
    have hcomplaint : Complaint A text (s₁.skipBlanks text).pos (ascii "expected ')'") := by
      apply Complaint.unclosed hplace hopen t b (take_read hs hpos hread) hwhole
      intro c hc
      refine ⟨isBlank_of_skipBlanks hc, ?_⟩
      rw [getElem?_pos, rest_skipBlanks] at hc
      refine ⟨?_, hclosed c hc⟩
      rintro rfl
      exact hclose hc
    exact returns_fail (.error (Fault.here hplace hs hpos hread hcomplaint
      (begins_expr_blanks t _)))

theorem ends_identifier (hnext : NextEnds A text next n) (hs : s.pos ≤ text.length)
    (hplace : Place A .primary s.depth (text.take s.pos))
    (hletter : (s.rest text).head?.any isLetter = true) (hn : 2 * (text.length - s.pos) ≤ n) :
    Returns (Safe text.length s.depth) (identifier A text next) s (Ends A text .primary) := by
  obtain ⟨name, hname⟩ := exists_name hletter
  have hsplit : s.rest text = name.token ++ (s.advance name.token.length).rest text := by
    rw [rest_advance, hname, drop_length_takeWhile]
    exact List.takeWhile_append_dropWhile.symm
  have hlength := congrArg List.length hsplit
  rw [List.length_append] at hlength
  have hpos : (s.advance name.token.length).pos ≤ text.length := advance_pos_le hs (by omega)
  have hnonempty : 0 < name.token.length := Nat.succ_pos _
  apply returns_identifier_name hname.symm
  · exact fun v _ => .operand
  intro hunknown
  apply returns_bind (composes_safe _ _)
  apply returns_accept
  · intro r hr
    obtain ⟨b, hopen⟩ := rest_accepted hr
    have haccepted := pos_accepted hr
    rw [advance_pos] at haccepted
    have hdepth : (((s.advance name.token.length).skipBlanks text).advance 1).depth = s.depth := rfl
    generalize ((s.advance name.token.length).skipBlanks text).advance 1 = s₁
      at hopen haccepted hdepth ⊢
    have hread : s.rest text = (name.token ++ (b.1 ++ ['('.toUInt8])) ++ s₁.rest text := by
      rw [hsplit, hopen]
      simp
    have hargument : Place A .expr s₁.depth (text.take s₁.pos) := by
      rw [hdepth]
      exact hplace.read hs haccepted.2 hread (.call name b)
    have hparen : ['('.toUInt8] <:+ text.take s₁.pos := by
      rw [take_read hs haccepted.2 hread]
      exact ⟨text.take s.pos ++ (name.token ++ b.1), by simp⟩
    rw [← hdepth]
    apply returns_bind (composes_safe _ _)
    have hsound := returns_enclosed hnext.toNextSound haccepted.2 (by omega)
    have hends := ends_enclosed hnext haccepted.2 hargument hparen (by omega)
    refine (hsound.and hends).mono fun s₂ result hresult => ?_
    obtain ⟨⟨hs₂, hreads⟩, hend⟩ := hresult
    cases result with
    | error e => exact returns_pure (composes_safe _ _) (.error (hend.fault e rfl))
    | ok x =>
      obtain ⟨-, t, b', hclosed, hx⟩ := hreads x rfl
      have hcall : s.rest text = callBytes A name b t b' ++ s₂.rest text := by
        rw [hread, hclosed]
        simp [callBytes]
      change Returns _ (call A name.token x) s₂ _
      rw [call_eq]
      cases hv : applyFunction A name.token x with
      | some v => exact returns_pure (composes_safe _ _) .operand
      | none =>
        have hcomplaint := Complaint.call hplace name b t b' (take_read hs hs₂ hcall) hx hv
        exact returns_fail (.error (Fault.here hplace hs hs₂ hcall hcomplaint
          (begins_tree (.call .none name b t b'))))
  · intro hr
    obtain ⟨b, hb⟩ := @exists_blanks text (s.advance name.token.length)
    have hspace := skipBlanks_pos_le hpos
    have hread : s.rest text =
        (name.token ++ b.1) ++ ((s.advance name.token.length).skipBlanks text).rest text := by
      rw [hsplit, hb, List.append_assoc]
    have hopen : ∀ c, text[((s.advance name.token.length).skipBlanks text).pos]? = some c →
        isBlank c = false ∧ c ≠ '('.toUInt8 := by
      intro c hc
      refine ⟨isBlank_of_skipBlanks hc, ?_⟩
      rw [getElem?_pos, rest_skipBlanks] at hc
      rintro rfl
      exact hr hc
    have hwhole : EndsName
        (b.1 ++ ((s.advance name.token.length).skipBlanks text).rest text) := by
      rw [← hb]
      exact endsName_advance hname
    have hcomplaint := Complaint.unknownIdentifier hplace name b (take_read hs hspace hread) hwhole
      hunknown hopen
    exact returns_fail (.error (Fault.here hplace hs hspace hread hcomplaint
      (begins_name_blanks name b)))

theorem ends_number (hs : s.pos ≤ text.length) (hplace : Place A .primary d (text.take s.pos))
    (hdigit : (s.rest text).head?.any isMantissa = true) :
    Returns (Safe text.length s.depth) (number A text) s (Ends A text .primary) := by
  apply returns_number_or hs rfl
  · exact fun _ => .operand
  · intro hreads
    have hcomplaint := Complaint.malformedNumber hplace (longestNumber_take hdigit) hreads
    exact .error (Fault.here hplace hs hs (List.nil_append _).symm hcomplaint (begins_nil _))

/-- An operand. There is no sign before it: `unary` has looked for one. -/
theorem ends_primary (hnext : NextEnds A text next n) (hs : s.pos ≤ text.length)
    (hplace : Place A .primary s.depth (text.take s.pos))
    (hsign : ∀ op : AddOp, ((s.rest text).dropWhile isBlank).head? ≠ some op.char)
    (hn : 2 * (text.length - s.pos) ≤ n) :
    Returns (Safe text.length s.depth) (primary A text next) s (Ends A text .primary) := by
  have hle := @le_skipBlanks_pos text s
  have hpos := skipBlanks_pos_le hs
  obtain ⟨b, hb⟩ := @exists_blanks text s
  have hbehind : Place A .primary s.depth (text.take (s.skipBlanks text).pos) :=
    hplace.read hs hpos hb (.blanks .primary b)
  have hnothing : (s.skipBlanks text).rest text = [] ++ (s.skipBlanks text).rest text := rfl
  unfold primary
  apply returns_bind (composes_safe _ _)
  apply returns_skipSpace
  apply returns_bind (composes_safe _ _)
  apply returns_get (composes_safe _ _)
  by_cases hend : text.length ≤ (s.skipBlanks text).pos
  · rw [if_pos hend]
    exact returns_fail (.error (Fault.here hbehind hpos hpos hnothing
      (.unexpectedEnd (by omega) hbehind) (begins_nil _)))
  rw [if_neg hend]
  apply returns_bind (composes_safe _ _)
  apply returns_accept
  · intro r hr
    rw [dropWhile_skipBlanks] at hr
    rw [skipBlanks_skipBlanks]
    obtain ⟨b₁, hopen⟩ := rest_accepted hr
    have haccepted := pos_accepted hr
    have hread : s.rest text =
        (b₁.1 ++ ['('.toUInt8]) ++ ((s.skipBlanks text).advance 1).rest text := by
      rw [hopen]
      simp
    have hparen : ['('.toUInt8] <:+ text.take ((s.skipBlanks text).advance 1).pos := by
      rw [take_read hs haccepted.2 hread]
      exact ⟨text.take s.pos ++ b₁.1, by simp⟩
    exact ends_enclosed hnext haccepted.2 (hplace.read hs haccepted.2 hread (.paren b₁)) hparen
      (by omega)
  · intro hparen
    rw [skipBlanks_skipBlanks]
    apply returns_bind (composes_safe _ _)
    apply returns_get (composes_safe _ _)
    apply returns_bind (composes_safe _ _)
    apply returns_charAt (by omega)
    obtain ⟨c, r, hrest⟩ : ∃ c r, (s.skipBlanks text).rest text = c :: r :=
      ⟨_, _, List.drop_eq_getElem_cons (by omega)⟩
    have hc : text[(s.skipBlanks text).pos]? = some c := by rw [getElem?_pos, hrest, List.head?_cons]
    have hhead : ((s.rest text).dropWhile isBlank).head? = some c := by
      rw [← rest_skipBlanks, hrest, List.head?_cons]
    rw [hc, Option.getD_some]
    by_cases hnumber : isMantissa c = true
    · rw [if_pos hnumber]
      exact ends_number hpos hbehind (by rw [hrest]; exact hnumber)
    rw [if_neg hnumber]
    by_cases hletter : isLetter c = true
    · rw [if_pos hletter]
      exact ends_identifier hnext hpos hbehind (by rw [hrest]; exact hletter) (by omega)
    · rw [if_neg hletter]
      have hoperand : beginsOperand c = false := by
        rw [dropWhile_skipBlanks, hhead] at hparen
        have hplus := hsign .plus
        have hminus := hsign .minus
        rw [hhead] at hplus hminus
        simp only [beginsOperand, isSign, hnumber, hletter, Bool.or_false, Bool.or_eq_false_iff,
          decide_eq_false_iff_not]
        exact ⟨⟨fun h => hplus (congrArg some h), fun h => hminus (congrArg some h)⟩,
          fun h => hparen (congrArg some h)⟩
      have hcomplaint := Complaint.noOperand hc (isBlank_of_skipBlanks hc) hbehind hoperand
      exact returns_fail (.error (Fault.here hbehind hpos hpos hnothing hcomplaint (begins_nil _)))

theorem ends_power (hnext : NextEnds A text next n) (hs : s.pos ≤ text.length)
    (hplace : Place A .power s.depth (text.take s.pos))
    (hsign : ∀ op : AddOp, ((s.rest text).dropWhile isBlank).head? ≠ some op.char)
    (hn : 2 * (text.length - s.pos) ≤ n) :
    Returns (Safe text.length s.depth) (power A text next) s (Ends A text .power) := by
  unfold power
  refine Ends.bind (returns_primary hnext.toNextSound hs hn)
    (ends_primary hnext hs (hplace.within .power) hsign hn) ?_
  intro s₁ x hs₁ hdepth hx _
  have hlt := hx.pos_lt hs₁
  obtain ⟨t, b, ht, -, -⟩ := hx
  rw [← hdepth]
  apply returns_bind (composes_safe _ _)
  apply returns_accept
  · intro r hr
    have haccepted := pos_accepted hr
    obtain ⟨b', hb'⟩ := rest_accepted hr
    have hread : s.rest text = (t.bytes ++ ((b.append b').1 ++ ['^'.toUInt8])) ++
        ((s₁.skipBlanks text).advance 1).rest text := by
      rw [ht, hb']
      simp [Blanks.append]
    have hexponent : Place A .unary ((s₁.skipBlanks text).advance 1).depth
        (text.take ((s₁.skipBlanks text).advance 1).pos) := by
      have hentered := hplace.read hs haccepted.2 hread (.pow t (b.append b'))
      rw [← hdepth] at hentered
      exact hentered
    refine Ends.bind (hnext.unary _ haccepted.2 (by omega))
      (hnext.unary_ends _ haccepted.2 hexponent (by omega)) ?_
    exact fun s₂ y _ _ _ hclosed => returns_pure (composes_safe _ _) (.ok hclosed)
  · intro hr
    refine returns_pure (composes_safe _ _) (.ok fun c hc hmem => ?_)
    rw [dropWhile_skipBlanks] at hc
    obtain rfl : c = '^'.toUInt8 := List.mem_singleton.mp hmem
    exact hr hc

/-- After the loop over the operators of a list, none of them comes next. -/
theorem not_mem_of_lookup {α : Type} {ops : List (UInt8 × α)} {chars : Bytes} {c : UInt8}
    (hchars : chars.all (fun c => (ops.lookup c).isSome) = true)
    (hnone : ∀ c r, (s.rest text).dropWhile isBlank = c :: r → ops.lookup c = none)
    (hc : ((s.rest text).dropWhile isBlank).head? = some c) : c ∉ chars := by
  intro hmem
  obtain ⟨r, hr⟩ : ∃ r, (s.rest text).dropWhile isBlank = c :: r := by
    cases hrest : (s.rest text).dropWhile isBlank with
    | nil =>
      rw [hrest] at hc
      cases hc
    | cons c' r =>
      rw [hrest] at hc
      obtain rfl := Option.some.inj hc
      exact ⟨r, rfl⟩
  have hsome := List.all_eq_true.mp hchars c hmem
  rw [hnone c r hr] at hsome
  cases hsome

theorem ends_termLoop (hnext : NextEnds A text next n) {s₀ : ExpressionParser} {rounds : ℕ}
    {lhs : ν} (hs₀ : s₀.pos ≤ text.length) (hplace : Place A .term s.depth (text.take s₀.pos))
    (hs : s.pos ≤ text.length) (hn : 2 * (text.length - s.pos) ≤ n)
    (hrounds : text.length - s.pos < rounds) (t : Tree A .term) (b : Blanks)
    (ht : s₀.rest text = t.bytes ++ (b.1 ++ s.rest text)) (hclosed : Closed text .unary s) :
    Returns (Safe text.length s.depth) (termLoop A text next rounds lhs) s (Ends A text .term) := by
  induction rounds generalizing s lhs t b with
  | zero => omega
  | succ rounds ih =>
    unfold termLoop
    apply returns_bind (composes_safe _ _)
    apply returns_acceptAny
    · intro c r' op hr hop
      obtain rfl := lookup_mulOps.mp hop
      have haccepted := pos_accepted hr
      obtain ⟨b', hb'⟩ := rest_accepted hr
      have hread : s₀.rest text = (t.bytes ++ ((b.append b').1 ++ [op.char])) ++
          ((s.skipBlanks text).advance 1).rest text := by
        rw [ht, hb']
        simp [Blanks.append]
      have hoperand := hplace.read hs₀ haccepted.2 hread (.mulOp t (b.append b') op)
      refine Ends.bind (hnext.unary _ haccepted.2 (by omega))
        (hnext.unary_ends _ haccepted.2 hoperand (by omega)) ?_
      intro s₁ rhs hs₁ hdepth hreads hclosed'
      have hlt := hreads.pos_lt hs₁
      have hdepth' : s₁.depth = s.depth := hdepth
      obtain ⟨t', b'', ht', hvalue, hwhole⟩ := hreads
      have hboth : s₀.rest text =
          (Tree.mulOp t (b.append b') op t').bytes ++ (b''.1 ++ s₁.rest text) := by
        rw [hread, ht']
        simp [Tree.bytes]
      by_cases hzero : (op = .over ∨ op = .modulo) ∧ A.isZero rhs = true
      · rw [if_pos hzero]
        rw [← List.append_assoc] at hboth ht'
        have hsign : [op.char] <:+ text.take ((s.skipBlanks text).advance 1).pos := by
          rw [take_read hs₀ haccepted.2 hread]
          exact ⟨text.take s₀.pos ++ (t.bytes ++ (b.append b').1), by simp⟩
        have hcomplaint := Complaint.divisionByZero hoperand op hzero.1 hsign t' b''
          (take_read haccepted.2 hs₁ ht') hwhole hclosed' hvalue hzero.2
        exact returns_fail (.error (Fault.here hplace hs₀ hs₁ hboth hcomplaint
          (begins_term_blanks _ b'')))
      · rw [if_neg hzero]
        rw [← hdepth'] at hplace
        have hloop := @ih s₁ (op.apply A lhs rhs) hplace hs₁ (by omega) (by omega) _ b'' hboth
          hclosed'
        rw [hdepth'] at hloop
        exact hloop
    · intro hnone
      refine returns_pure (composes_safe _ _) (.ok (Closed.skipBlanks fun c hc hmem => ?_))
      rcases List.mem_cons.mp hmem with rfl | hmem
      · exact hclosed _ hc (List.mem_singleton_self _)
      · exact not_mem_of_lookup (by decide) hnone hc hmem

theorem ends_term (hnext : NextEnds A text next n) (hs : s.pos ≤ text.length)
    (hplace : Place A .term s.depth (text.take s.pos)) (hn : 2 * (text.length - s.pos) + 1 ≤ n) :
    Returns (Safe text.length s.depth) (term A text next) s (Ends A text .term) := by
  unfold term
  refine Ends.bind (hnext.unary s hs hn) (hnext.unary_ends s hs (hplace.within .term) hn) ?_
  intro s₁ lhs hs₁ hdepth hlhs hclosed
  have hlt := hlhs.pos_lt hs₁
  have hrounds := hnext.rounds
  obtain ⟨t, b, ht, -, -⟩ := hlhs
  rw [← hdepth] at hplace ⊢
  exact ends_termLoop hnext hs hplace hs₁ (by omega) (by omega) (.unary t) b ht hclosed

theorem ends_exprLoop (hnext : NextEnds A text next n) {s₀ : ExpressionParser} {rounds : ℕ}
    {lhs : ν} (hs₀ : s₀.pos ≤ text.length) (hplace : Place A .expr d (text.take s₀.pos))
    (hdepth : s.depth = d + 1) (hs : s.pos ≤ text.length) (hn : 2 * (text.length - s.pos) ≤ n)
    (hrounds : text.length - s.pos < rounds) (t : Tree A .expr) (b : Blanks)
    (ht : s₀.rest text = t.bytes ++ (b.1 ++ s.rest text)) (hclosed : Closed text .term s) :
    Returns (Safe text.length s.depth) (exprLoop A text next rounds lhs) s (Ends A text .expr) := by
  induction rounds generalizing s lhs t b with
  | zero => omega
  | succ rounds ih =>
    unfold exprLoop
    apply returns_bind (composes_safe _ _)
    apply returns_acceptAny
    · intro c r' op hr hop
      obtain rfl := lookup_addOps.mp hop
      have haccepted := pos_accepted hr
      obtain ⟨b', hb'⟩ := rest_accepted hr
      have hread : s₀.rest text = (t.bytes ++ ((b.append b').1 ++ [op.char])) ++
          ((s.skipBlanks text).advance 1).rest text := by
        rw [ht, hb']
        simp [Blanks.append]
      have hoperand : Place A .term ((s.skipBlanks text).advance 1).depth
          (text.take ((s.skipBlanks text).advance 1).pos) := by
        have hentered := hplace.read hs₀ haccepted.2 hread (.addOp t (b.append b') op)
        rw [← hdepth] at hentered
        exact hentered
      refine Ends.bind (returns_term hnext.toNextSound haccepted.2 (by omega))
        (ends_term hnext haccepted.2 hoperand (by omega)) ?_
      intro s₁ rhs hs₁ hsame hreads hclosed'
      have hlt := hreads.pos_lt hs₁
      have hdepth' : s₁.depth = s.depth := hsame
      obtain ⟨t', b'', ht', -, -⟩ := hreads
      have hboth : s₀.rest text =
          (Tree.addOp t (b.append b') op t').bytes ++ (b''.1 ++ s₁.rest text) := by
        rw [hread, ht']
        simp [Tree.bytes]
      have hloop := @ih s₁ (op.apply A lhs rhs) (hdepth'.trans hdepth) hs₁ (by omega) (by omega) _
        b'' hboth hclosed'
      rw [hdepth'] at hloop
      exact hloop
    · intro hnone
      apply returns_bind (composes_safe _ _)
      apply returns_modify (composes_safe _ _)
      have hend : Closed text .expr s := by
        intro c hc hmem
        have hsplit : exprOps = termOps ++ ascii "+-" := rfl
        have hmem : c ∈ termOps ++ ascii "+-" := hmem
        rcases List.mem_append.mp hmem with hmem | hmem
        · exact hclosed c hc hmem
        · exact not_mem_of_lookup (by decide) hnone hc hmem
      exact returns_pure (composes_safe _ _) (.ok hend.skipBlanks)

/-- A call that the depth check refuses. -/
theorem Fault.tooDeep (hs : s.pos ≤ text.length) (hplace : Place A l d (text.take s.pos))
    (hl : l = .expr ∨ l = .unary) (hdeep : maxDepth ≤ d) :
    Fault A text (failure (ascii "expression nested too deeply") s.pos) :=
  Fault.here hplace hs hs (List.nil_append _).symm (.tooDeep hplace hl hdeep) (begins_nil l)

theorem ends_expr (hnext : NextEnds A text next n) (hs : s.pos ≤ text.length)
    (hplace : Place A .expr s.depth (text.take s.pos)) (hn : 2 * (text.length - s.pos) + 1 ≤ n) :
    Returns (Safe text.length s.depth) (expr A text next) s (Ends A text .expr) := by
  unfold expr
  by_cases hdepth : s.depth < maxDepth
  · apply returns_nested hdepth
    unfold exprBody
    apply returns_bind (composes_safe _ _)
    have hsound := returns_term (s := { s with depth := s.depth + 1 }) hnext.toNextSound hs hn
    have hends := ends_term (s := { s with depth := s.depth + 1 }) hnext hs (hplace.within .expr) hn
    refine (hsound.and hends).mono fun s₁ result hresult => ?_
    obtain ⟨hread, hend⟩ := hresult
    cases result with
    | error e =>
      apply returns_bind (composes_safe _ _)
      apply returns_modify (composes_safe _ _)
      exact returns_pure (composes_safe _ _) (.error (hend.fault e rfl))
    | ok lhs =>
      obtain ⟨hdepth', hlhs⟩ := hread.reads lhs rfl
      have hlt : s.pos < s₁.pos := hlhs.pos_lt hread.pos_le
      have hrounds := hnext.rounds
      obtain ⟨t, b, ht, -, -⟩ := hlhs
      have hloop : Returns (Safe text.length s₁.depth) (exprLoop A text next next.rounds lhs) s₁
          (Ends A text .expr) :=
        ends_exprLoop hnext hs hplace hdepth' hread.pos_le (by omega) (by omega) (.term t) b ht
          (hend.closed lhs rfl)
      rw [hdepth'] at hloop
      exact hloop
  · have hfault := Fault.tooDeep hs hplace (Or.inl rfl) (Nat.le_of_not_lt hdepth)
    exact returns_nested_refused (by omega) (.error hfault)

theorem ends_signed (hnext : NextEnds A text next n) (hs : s.pos ≤ text.length)
    (hplace : Place A .unary d (text.take s.pos)) (hdepth : s.depth = d + 1)
    (hn : 2 * (text.length - s.pos) ≤ n) :
    Returns (Safe text.length s.depth) (signed A text next) s (Ends A text .unary) := by
  have hoperand : ∀ (op : AddOp) (r : Bytes), (s.rest text).dropWhile isBlank = op.char :: r →
      Place A .unary s.depth (text.take ((s.skipBlanks text).advance 1).pos) := by
    intro op r hr
    obtain ⟨b, hb⟩ := rest_accepted hr
    have hread : s.rest text = (b.1 ++ [op.char]) ++ ((s.skipBlanks text).advance 1).rest text := by
      rw [hb]
      simp
    rw [hdepth]
    exact hplace.read hs (pos_accepted hr).2 hread (.sign b op)
  unfold signed
  apply returns_bind (composes_safe _ _)
  apply returns_accept
  · intro r hr
    have haccepted := pos_accepted hr
    apply returns_bind (composes_safe _ _)
    refine (hnext.unary_ends _ haccepted.2 (hoperand .minus r hr) (by omega)).mono
      fun s₁ result hend => ?_
    cases result with
    | error e => exact returns_pure (composes_safe _ _) (.error (hend.fault e rfl))
    | ok y => exact returns_pure (composes_safe _ _) (.ok (hend.closed y rfl))
  · intro hminus
    apply returns_bind (composes_safe _ _)
    apply returns_accept
    · intro r hr
      rw [dropWhile_skipBlanks] at hr
      have haccepted := pos_accepted hr
      rw [skipBlanks_skipBlanks]
      exact hnext.unary_ends _ haccepted.2 (hoperand .plus r hr) (by omega)
    · intro hplus
      rw [skipBlanks_skipBlanks]
      have hle := @le_skipBlanks_pos text s
      obtain ⟨b, hb⟩ := @exists_blanks text s
      have hpos := skipBlanks_pos_le hs
      have hpower : Place A .power s.depth (text.take (s.skipBlanks text).pos) := by
        rw [hdepth]
        exact (hplace.read hs hpos hb (.blanks .unary b)).within .unary
      have hsign : ∀ op : AddOp,
          (((s.skipBlanks text).rest text).dropWhile isBlank).head? ≠ some op.char := by
        intro op
        rw [dropWhile_skipBlanks] at hplus ⊢
        cases op with
        | plus => exact hplus
        | minus => exact hminus
      refine (ends_power hnext hpos hpower hsign (by omega)).mono fun s₁ result hend => ?_
      exact ⟨hend.fault, hend.closed⟩

theorem ends_unary (hnext : NextEnds A text next n) (hs : s.pos ≤ text.length)
    (hplace : Place A .unary s.depth (text.take s.pos)) (hn : 2 * (text.length - s.pos) ≤ n) :
    Returns (Safe text.length s.depth) (unary A text next) s (Ends A text .unary) := by
  unfold unary
  by_cases hdepth : s.depth < maxDepth
  · apply returns_nested hdepth
    apply returns_bind (composes_safe _ _)
    refine (ends_signed (s := { s with depth := s.depth + 1 }) hnext hs hplace rfl hn).mono
      fun s₁ result hend => ?_
    apply returns_bind (composes_safe _ _)
    apply returns_modify (composes_safe _ _)
    exact returns_pure (composes_safe _ _) ⟨hend.fault, hend.closed⟩
  · have hfault := Fault.tooDeep hs hplace (Or.inr rfl) (Nat.le_of_not_lt hdepth)
    exact returns_nested_refused (by omega) (.error hfault)

theorem nextEnds_descend (n : ℕ) : NextEnds A text (descend A text n) n := by
  induction n with
  | zero => exact ⟨nextSound_descend 0, fun s hs _ hn => by omega, fun s hs _ hn => by omega⟩
  | succ n ih =>
    exact ⟨nextSound_descend (n + 1), fun s hs hplace hn => ends_expr ih hs hplace (by omega),
      fun s hs hplace hn => ends_unary ih hs hplace (by omega)⟩

/-- A run of the parser returns no error but one that is a fault of the text. -/
theorem faulty_parse (hn : boundFor text.length ≤ n) :
    Returns (Safe text.length 0) (parse A text n) { pos := 0, depth := 0 } fun _ result =>
      ∀ e, result = .error e → Fault A text e := by
  unfold boundFor at hn
  have hstart : 0 ≤ text.length := Nat.zero_le _
  have hbegin : Place A .expr 0 (text.take 0) := .start
  have hnext := @nextEnds_descend _ A text n
  unfold parse
  apply returns_bind (composes_safe _ _)
  refine ((hnext.expr _ hstart (by exact hn)).and
    (hnext.expr_ends _ hstart hbegin (by exact hn))).mono fun s₁ result hresult => ?_
  obtain ⟨hread, hend⟩ := hresult
  cases result with
  | error e => exact returns_pure (composes_safe _ _) hend.fault
  | ok value =>
    obtain ⟨-, hreads⟩ := hread.reads value rfl
    have hpos := skipBlanks_pos_le hread.pos_le
    obtain ⟨t, b, ht, hvalue, hwhole⟩ := hreads.skipBlanks
    rw [← List.append_assoc] at ht
    have hfail : ∀ message, Complaint A text (s₁.skipBlanks text).pos message →
        ∀ e, (.error (failure message (s₁.skipBlanks text).pos) : Result ν) = .error e →
          Fault A text e := by
      intro message hcomplaint e he
      obtain rfl := Except.error.inj he
      exact Fault.here (s := { pos := 0, depth := 0 }) hbegin hstart hpos ht hcomplaint
        (begins_expr_blanks t b)
    change Returns _ (finish A text value) s₁ _
    unfold finish
    apply returns_bind (composes_safe _ _)
    apply returns_skipSpace
    apply returns_bind (composes_safe _ _)
    apply returns_get (composes_safe _ _)
    by_cases hall : (s₁.skipBlanks text).pos = text.length
    · rw [if_neg (not_not.mpr hall)]
      by_cases hfinite : A.isFinite value = true
      · rw [if_pos hfinite]
        exact returns_pure (composes_safe _ _) fun e he => by cases he
      · rw [if_neg hfinite]
        have hderives : Derives A text t := by
          have hnil : (s₁.skipBlanks text).rest text = [] :=
            List.drop_eq_nil_of_le (Nat.le_of_eq hall.symm)
          rw [hnil, List.append_nil] at ht
          exact ⟨b, ht⟩
        exact returns_fail (hfail _
          (.notFinite t hall hderives hvalue (eq_false_of_ne_true hfinite)))
    · rw [if_pos hall]
      apply returns_bind (composes_safe _ _)
      apply returns_charAt (by omega)
      obtain ⟨c, r, hrest⟩ : ∃ c r, (s₁.skipBlanks text).rest text = c :: r :=
        ⟨_, _, List.drop_eq_getElem_cons (by omega)⟩
      have hc : text[(s₁.skipBlanks text).pos]? = some c := by
        rw [getElem?_pos, hrest, List.head?_cons]
      have hoperator : c ∉ exprOps := by
        refine hend.closed value rfl c ?_
        rw [← rest_skipBlanks, hrest, List.head?_cons]
      have htaken : text.take (s₁.skipBlanks text).pos = t.bytes ++ b.1 :=
        take_read (s := { pos := 0, depth := 0 }) hstart hpos ht
      rw [hc, Option.getD_some]
      exact returns_fail
        (hfail _ (.noOperator hc (isBlank_of_skipBlanks hc) t b htaken hwhole hoperator))

end Runs

end GeminiCpp.ExpressionParser
