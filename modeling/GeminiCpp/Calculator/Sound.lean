import GeminiCpp.Calculator.Tokens

/-! The parser is sound: whatever the text, a run ends, stays safe, and a value that it returns is
that of a tree for the text it has read. -/
namespace GeminiCpp.ExpressionParser
open Traced Traced.Prog

variable {ν : Type} {A : Arith ν} {text : Bytes} {s s' : ExpressionParser}

theorem exists_blanks (s : ExpressionParser) :
    ∃ b : Blanks, s.rest text = b.1 ++ (s.skipBlanks text).rest text := by
  rw [rest_skipBlanks]
  exact ⟨⟨_, fun c hc => List.mem_takeWhile_imp hc⟩, List.takeWhile_append_dropWhile.symm⟩

/-- The text before a character that was accepted, and after it. -/
theorem rest_accepted {c : UInt8} {r : Bytes} (hr : (s.rest text).dropWhile isBlank = c :: r) :
    ∃ b : Blanks, s.rest text = b.1 ++ c :: ((s.skipBlanks text).advance 1).rest text := by
  have hrest : (s.skipBlanks text).rest text = c :: r := by rw [rest_skipBlanks, hr]
  have hnext : ((s.skipBlanks text).advance 1).rest text = r := by
    rw [rest_advance, hrest]
    rfl
  rw [hnext, ← hrest]
  exact exists_blanks s

theorem pos_accepted {c : UInt8} {r : Bytes} (hr : (s.rest text).dropWhile isBlank = c :: r) :
    s.pos < ((s.skipBlanks text).advance 1).pos ∧
      ((s.skipBlanks text).advance 1).pos ≤ text.length := by
  have hlength := congrArg List.length (@rest_skipBlanks text s)
  rw [hr, List.length_cons, rest, List.length_drop] at hlength
  have hle := @le_skipBlanks_pos text s
  rw [advance_pos]
  omega

theorem Tree.length_pos {l : Level} (t : Tree A l) : 0 < t.bytes.length := by
  induction t with
  | term t ih => exact ih
  | unary u ih => exact ih
  | power p ih => exact ih
  | primary p ih => exact ih
  | number b n =>
    have hne := List.length_pos_of_ne_nil n.mantissa_ne_nil
    simp only [Tree.bytes, Number.token, List.length_append]
    omega
  | ident b name =>
    simp only [Tree.bytes, Name.token, List.length_append, List.length_cons]
    omega
  | _ =>
    simp only [Tree.bytes, List.length_append, List.length_cons]
    omega

variable (A text)

/-- Some bytes begin with a tree of some value; blanks and the rest of the text follow, and do not
go on with its last token. -/
def ReadsFrom (l : Level) (r : Bytes) (s : ExpressionParser) (v : ν) : Prop :=
  ∃ (t : Tree A l) (b : Blanks), r = t.bytes ++ (b.1 ++ s.rest text) ∧ t.value = some v ∧
    t.Whole (b.1 ++ s.rest text)

/-- What a call that reads `l` from the bytes `r` leaves behind, if it was made at the depth `d`. -/
structure Sound (l : Level) (r : Bytes) (d : ℕ) (s : ExpressionParser) (result : Result ν) :
    Prop where
  pos_le : s.pos ≤ text.length
  reads : ∀ v, result = .ok v → s.depth = d ∧ ReadsFrom A text l r s v

/-- What is known of the calls of the parser to itself, up to the bound `n`. -/
structure NextSound (next : Next ν) (n : ℕ) : Prop where
  rounds : next.rounds = n
  expr : ∀ s, s.pos ≤ text.length → 2 * (text.length - s.pos) + 2 ≤ n →
    Returns (Safe text.length s.depth) next.expr s (Sound A text .expr (s.rest text) s.depth)
  unary : ∀ s, s.pos ≤ text.length → 2 * (text.length - s.pos) + 1 ≤ n →
    Returns (Safe text.length s.depth) next.unary s (Sound A text .unary (s.rest text) s.depth)

variable {A text} {next : Next ν} {l : Level} {r : Bytes} {d n : ℕ} {v : ν}

theorem ReadsFrom.skipBlanks (h : ReadsFrom A text l r s v) :
    ReadsFrom A text l r (s.skipBlanks text) v := by
  obtain ⟨t, b, hr, hv, hwhole⟩ := h
  obtain ⟨b', hb'⟩ := @exists_blanks text s
  have hrest : b.1 ++ s.rest text = (b.append b').1 ++ (s.skipBlanks text).rest text := by
    rw [hb']
    exact (List.append_assoc ..).symm
  rw [hrest] at hr hwhole
  exact ⟨t, b.append b', hr, hv, hwhole⟩

/-- Blanks before a tree belong to its first token. -/
theorem ReadsFrom.of_skipBlanks {s₀ : ExpressionParser}
    (h : ReadsFrom A text l ((s₀.skipBlanks text).rest text) s v) :
    ReadsFrom A text l (s₀.rest text) s v := by
  obtain ⟨t, b, hr, hv, hwhole⟩ := h
  obtain ⟨b', hb'⟩ := @exists_blanks text s₀
  refine ⟨t.withBlanks b', b, ?_, by rw [Tree.value_withBlanks, hv],
    (Tree.whole_withBlanks b' t _).mpr hwhole⟩
  rw [hb', hr, Tree.bytes_withBlanks, List.append_assoc]

/-- What was read was not empty. -/
theorem ReadsFrom.length_lt (h : ReadsFrom A text l r s v) :
    (s.rest text).length < r.length := by
  obtain ⟨t, b, hr, -⟩ := h
  have hpos := t.length_pos
  rw [hr, List.length_append, List.length_append]
  omega

theorem ReadsFrom.pos_lt {s₀ : ExpressionParser} (h : ReadsFrom A text l (s₀.rest text) s v)
    (hs : s.pos ≤ text.length) : s₀.pos < s.pos := by
  have hlt := h.length_lt
  simp only [rest, List.length_drop] at hlt
  omega

theorem Sound.error (hs : s.pos ≤ text.length) (e : Error) : Sound A text l r d s (.error e) :=
  ⟨hs, fun v h => by cases h⟩

theorem Sound.ok (hs : s.pos ≤ text.length) (hd : s.depth = d) (h : ReadsFrom A text l r s v) :
    Sound A text l r d s (.ok v) := by
  refine ⟨hs, fun v' hv => ?_⟩
  obtain rfl := Except.ok.inj hv
  exact ⟨hd, h⟩

theorem Sound.of_skipBlanks {s₀ : ExpressionParser} {result : Result ν}
    (h : Sound A text l ((s₀.skipBlanks text).rest text) d s result) :
    Sound A text l (s₀.rest text) d s result :=
  ⟨h.pos_le, fun v hv => ⟨(h.reads v hv).1, (h.reads v hv).2.of_skipBlanks⟩⟩

/-- A result that is passed on. -/
theorem Sound.of_error {l' : Level} {r' : Bytes} {d' : ℕ} {e : Error}
    (h : Sound A text l' r' d' s (.error e)) : Sound A text l r d s (.error e) :=
  .error h.pos_le e

/-- A call that reads something, and what is done with its value: an error is passed on. -/
theorem Sound.bind {l' : Level} {r' : Bytes} {d' h : ℕ} {p : Parse (Result ν)}
    {f : ν → Parse (Result ν)} (hp : Returns (Safe text.length h) p s (Sound A text l' r' d'))
    (hf : ∀ s₁ x, s₁.pos ≤ text.length → s₁.depth = d' → ReadsFrom A text l' r' s₁ x →
      Returns (Safe text.length h) (f x) s₁ (Sound A text l r d)) :
    Returns (Safe text.length h) (do
      match ← p with
      | .error e => return .error e
      | .ok x => f x) s (Sound A text l r d) := by
  apply returns_bind (composes_safe _ _)
  refine hp.mono fun s₁ result hresult => ?_
  cases result with
  | error e => exact returns_pure (composes_safe _ _) hresult.of_error
  | ok x =>
    obtain ⟨hdepth, hreads⟩ := hresult.reads x rfl
    exact hf s₁ x hresult.pos_le hdepth hreads

/-- An expression in parentheses, after the opening one. -/
theorem returns_enclosed (hnext : NextSound A text next n) (hs : s.pos ≤ text.length)
    (hn : 2 * (text.length - s.pos) + 2 ≤ n) :
    Returns (Safe text.length s.depth) (enclosed text next) s fun s' result =>
      s'.pos ≤ text.length ∧ ∀ v, result = .ok v → s'.depth = s.depth ∧
        ∃ (t : Tree A .expr) (b : Blanks),
          s.rest text = t.bytes ++ (b.1 ++ ')'.toUInt8 :: s'.rest text) ∧ t.value = some v := by
  unfold enclosed
  apply returns_bind (composes_safe _ _)
  refine (hnext.expr s hs hn).mono fun s₁ result h => ?_
  cases result with
  | error e => exact returns_pure (composes_safe _ _) ⟨h.pos_le, fun v hv => by cases hv⟩
  | ok v =>
    obtain ⟨hdepth, t, b, hr, hv, -⟩ := h.reads v rfl
    apply returns_bind (composes_safe _ _)
    apply returns_accept
    · intro r hrest
      obtain ⟨b', hclose⟩ := rest_accepted hrest
      refine returns_pure (composes_safe _ _) ⟨(pos_accepted hrest).2, fun v' hv' => ?_⟩
      obtain rfl := Except.ok.inj hv'
      refine ⟨hdepth, t, b.append b', ?_, hv⟩
      rw [hr, hclose]
      exact congrArg (t.bytes ++ ·) (List.append_assoc ..).symm
    · intro hrest
      exact returns_fail ⟨skipBlanks_pos_le h.pos_le, fun v hv => by cases hv⟩

theorem advance_pos_le {m : ℕ} (hs : s.pos ≤ text.length) (hm : m ≤ (s.rest text).length) :
    (s.advance m).pos ≤ text.length := by
  rw [rest, List.length_drop] at hm
  rw [advance_pos]
  omega

/-- Behind a name that was read to its end. -/
theorem endsName_advance {name : Name}
    (hname : name.token = (s.rest text).takeWhile isAlphanumeric) :
    EndsName ((s.advance name.token.length).rest text) := by
  intro c hc
  rw [rest_advance, hname, drop_length_takeWhile] at hc
  have hnot := List.head?_dropWhile_not isAlphanumeric (s.rest text)
  rw [hc] at hnot
  simpa using hnot

theorem returns_identifier (hnext : NextSound A text next n) (hs : s.pos ≤ text.length)
    (hletter : (s.rest text).head?.any isLetter = true) (hn : 2 * (text.length - s.pos) ≤ n) :
    Returns (Safe text.length s.depth) (identifier A text next) s
      (Sound A text .primary (s.rest text) s.depth) := by
  obtain ⟨name, hname⟩ := exists_name hletter
  have hsplit : s.rest text = name.token ++ (s.advance name.token.length).rest text := by
    rw [rest_advance, hname, drop_length_takeWhile]
    exact List.takeWhile_append_dropWhile.symm
  have hlength := congrArg List.length hsplit
  rw [List.length_append] at hlength
  have hpos : (s.advance name.token.length).pos ≤ text.length := advance_pos_le hs (by omega)
  have hnonempty : 0 < name.token.length := Nat.succ_pos _
  apply returns_identifier_name hname.symm
  · intro v hv
    exact .ok hpos rfl ⟨.ident .none name, .none, hsplit, hv, endsName_advance hname⟩
  intro _
  apply returns_bind (composes_safe _ _)
  apply returns_accept
  · intro r hr
    obtain ⟨b₁, hopen⟩ := rest_accepted hr
    have haccepted := pos_accepted hr
    rw [advance_pos] at haccepted
    apply returns_bind (composes_safe _ _)
    refine (returns_enclosed hnext haccepted.2 (by omega)).mono fun s₁ result h => ?_
    obtain ⟨hs₁, hreads⟩ := h
    cases result with
    | error e => exact returns_pure (composes_safe _ _) (.error hs₁ e)
    | ok x =>
      obtain ⟨hdepth, t, b', hr', hx⟩ := hreads x rfl
      apply returns_call
      · intro v hv
        refine .ok hs₁ hdepth ⟨.call .none name b₁ t b', .none, ?_, ?_, trivial⟩
        · rw [hsplit, hopen, hr']
          simp [Tree.bytes, Blanks.none]
        · change (t.value.bind fun x => applyFunction A name.token x) = some v
          rw [hx]
          exact hv
      · exact fun _ e => .error hs₁ e
  · intro hr
    exact returns_fail (.error (skipBlanks_pos_le hpos) _)

theorem returns_number_sound (hs : s.pos ≤ text.length)
    (hdigit : (s.rest text).head?.any isMantissa = true) :
    Returns (Safe text.length s.depth) (number A text) s
      (Sound A text .primary (s.rest text) s.depth) := by
  apply returns_number hs rfl
  · intro hreads
    obtain ⟨number, htoken⟩ := exists_number hdigit hreads
    have hlongest := longestNumber_take hdigit
    have hsplit := @List.take_append_drop _ (numberLength (s.rest text)) (s.rest text)
    rw [← htoken, ← rest_advance] at hsplit
    rw [← htoken] at hlongest ⊢
    have hwhole : LongestNumber number.token
        (number.token ++ (s.advance (numberLength (s.rest text))).rest text) := by
      rw [hsplit]
      exact hlongest
    exact .ok (advance_pos_le hs (numberLength_le _)) rfl
      ⟨.number .none number, .none, hsplit.symm, rfl, hwhole⟩
  · exact fun _ e => .error hs e

theorem returns_primary (hnext : NextSound A text next n) (hs : s.pos ≤ text.length)
    (hn : 2 * (text.length - s.pos) ≤ n) :
    Returns (Safe text.length s.depth) (primary A text next) s
      (Sound A text .primary (s.rest text) s.depth) := by
  have hle := @le_skipBlanks_pos text s
  have hpos := skipBlanks_pos_le hs
  unfold primary
  apply returns_bind (composes_safe _ _)
  apply returns_skipSpace
  apply returns_bind (composes_safe _ _)
  apply returns_get (composes_safe _ _)
  by_cases hend : text.length ≤ (s.skipBlanks text).pos
  · rw [if_pos hend]
    exact returns_fail (.error hpos _)
  rw [if_neg hend]
  apply returns_bind (composes_safe _ _)
  apply returns_accept
  · intro r hr
    rw [dropWhile_skipBlanks] at hr
    rw [skipBlanks_skipBlanks]
    obtain ⟨b₁, hopen⟩ := rest_accepted hr
    have haccepted := pos_accepted hr
    refine (returns_enclosed hnext haccepted.2 (by omega)).mono fun s₁ result h => ?_
    obtain ⟨hs₁, hreads⟩ := h
    refine ⟨hs₁, fun v hv => ?_⟩
    obtain ⟨hdepth, t, b₂, hr', ht⟩ := hreads v hv
    refine ⟨hdepth, .paren b₁ t b₂, .none, ?_, ht, trivial⟩
    rw [hopen, hr']
    simp [Tree.bytes, Blanks.none]
  · intro hr
    rw [skipBlanks_skipBlanks]
    apply returns_bind (composes_safe _ _)
    apply returns_get (composes_safe _ _)
    apply returns_bind (composes_safe _ _)
    apply returns_charAt (by omega)
    obtain ⟨c, r, hrest⟩ : ∃ c r, (s.skipBlanks text).rest text = c :: r :=
      ⟨_, _, List.drop_eq_getElem_cons (by omega)⟩
    rw [getElem?_pos, hrest, List.head?_cons, Option.getD_some]
    by_cases hnumber : isMantissa c = true
    · rw [if_pos hnumber]
      exact (returns_number_sound hpos (by rw [hrest]; exact hnumber)).mono
        fun s₁ result h => h.of_skipBlanks
    rw [if_neg hnumber]
    by_cases hletter : isLetter c = true
    · rw [if_pos hletter]
      exact (returns_identifier hnext hpos (by rw [hrest]; exact hletter) (by omega)).mono
        fun s₁ result h => h.of_skipBlanks
    · rw [if_neg hletter]
      exact returns_fail (.error hpos _)

/-- Two trees with an operator between them. -/
theorem ReadsFrom.operator {l₁ l₂ : Level} {c : UInt8} {r' : Bytes} {x y z : ν}
    (hx : ReadsFrom A text l₁ r s x) (hr : (s.rest text).dropWhile isBlank = c :: r')
    (hy : ReadsFrom A text l₂ (((s.skipBlanks text).advance 1).rest text) s' y)
    (op : Tree A l₁ → Blanks → Tree A l₂ → Tree A l)
    (hbytes : ∀ t b t', (op t b t').bytes = t.bytes ++ (b.1 ++ c :: t'.bytes))
    (hwhole : ∀ t b t' r, t'.Whole r → (op t b t').Whole r)
    (hvalue : ∀ t b t', t.value = some x → t'.value = some y → (op t b t').value = some z) :
    ReadsFrom A text l r s' z := by
  obtain ⟨t, b, ht, htx, -⟩ := hx
  obtain ⟨b', hb'⟩ := rest_accepted hr
  obtain ⟨t', b'', ht', hty, hend⟩ := hy
  refine ⟨op t (b.append b') t', b'', ?_, hvalue _ _ _ htx hty, hwhole _ _ _ _ hend⟩
  rw [ht, hb', ht', hbytes]
  simp [Blanks.append]

theorem returns_power (hnext : NextSound A text next n) (hs : s.pos ≤ text.length)
    (hn : 2 * (text.length - s.pos) ≤ n) :
    Returns (Safe text.length s.depth) (power A text next) s
      (Sound A text .power (s.rest text) s.depth) := by
  unfold power
  apply Sound.bind (returns_primary hnext hs hn)
  intro s₁ x hs₁ hdepth hx
  have hlt := hx.pos_lt hs₁
  rw [← hdepth]
  apply returns_bind (composes_safe _ _)
  apply returns_accept
  · intro r hr
    have haccepted := pos_accepted hr
    apply Sound.bind (hnext.unary _ haccepted.2 (by omega))
    intro s₂ y hs₂ hdepth' hy
    refine returns_pure (composes_safe _ _) (.ok hs₂ hdepth' ?_)
    apply hx.operator hr hy Tree.pow (fun t b t' => rfl) fun t b t' r h => h
    intro t b t' htx hty
    change (t.value.bind fun x => t'.value.bind fun y => some (A.pow x y)) = _
    rw [htx, hty]
    rfl
  · intro hr
    obtain ⟨t, b, ht, htx, hwhole⟩ := hx.skipBlanks
    exact returns_pure (composes_safe _ _)
      (.ok (skipBlanks_pos_le hs₁) rfl ⟨.primary t, b, ht, htx, hwhole⟩)

theorem returns_termLoop (hnext : NextSound A text next n) {rounds : ℕ} {lhs : ν}
    (hs : s.pos ≤ text.length) (hn : 2 * (text.length - s.pos) ≤ n)
    (hrounds : text.length - s.pos < rounds) (hlhs : ReadsFrom A text .term r s lhs) :
    Returns (Safe text.length s.depth) (termLoop A text next rounds lhs) s
      (Sound A text .term r s.depth) := by
  induction rounds generalizing s lhs with
  | zero => omega
  | succ rounds ih =>
    unfold termLoop
    apply returns_bind (composes_safe _ _)
    apply returns_acceptAny
    · intro c r' op hr hop
      obtain rfl := lookup_mulOps.mp hop
      have haccepted := pos_accepted hr
      apply Sound.bind (hnext.unary _ haccepted.2 (by omega))
      intro s₁ rhs hs₁ hdepth hrhs
      have hlt := hrhs.pos_lt hs₁
      have hdepth' : s₁.depth = s.depth := hdepth
      by_cases hzero : (op = .over ∨ op = .modulo) ∧ A.isZero rhs = true
      · rw [if_pos hzero]
        exact returns_fail (.error hs₁ _)
      · rw [if_neg hzero]
        -- what the check in the loop leaves is what the grammar calls defined
        have hdefined : op.defined A rhs = true := by
          cases op <;> simp_all [MulOp.defined]
        have hboth : ReadsFrom A text .term r s₁ (op.apply A lhs rhs) := by
          apply hlhs.operator hr hrhs (fun t b t' => Tree.mulOp t b op t') (fun t b t' => rfl)
            fun t b t' r h => h
          intro t b t' htx hty
          change (t.value.bind fun x => t'.value.bind fun y =>
            if op.defined A y then some (op.apply A x y) else none) = _
          rw [htx, hty]
          exact if_pos hdefined
        have hloop := ih hs₁ (by omega) (by omega) hboth
        rw [hdepth'] at hloop
        exact hloop
    · intro hr
      exact returns_pure (composes_safe _ _)
        (.ok (skipBlanks_pos_le hs) rfl hlhs.skipBlanks)

theorem returns_term (hnext : NextSound A text next n) (hs : s.pos ≤ text.length)
    (hn : 2 * (text.length - s.pos) + 1 ≤ n) :
    Returns (Safe text.length s.depth) (term A text next) s
      (Sound A text .term (s.rest text) s.depth) := by
  unfold term
  apply Sound.bind (hnext.unary s hs hn)
  intro s₁ lhs hs₁ hdepth hlhs
  have hlt := hlhs.pos_lt hs₁
  obtain ⟨t, b, ht, hv, hwhole⟩ := hlhs
  have hrounds := hnext.rounds
  rw [← hdepth]
  exact returns_termLoop hnext hs₁ (by omega) (by omega) ⟨.unary t, b, ht, hv, hwhole⟩

/-- The loop gives back one level of depth. -/
theorem returns_exprLoop (hnext : NextSound A text next n) {rounds : ℕ} {lhs : ν}
    (hs : s.pos ≤ text.length) (hn : 2 * (text.length - s.pos) ≤ n)
    (hrounds : text.length - s.pos < rounds) (hlhs : ReadsFrom A text .expr r s lhs) :
    Returns (Safe text.length s.depth) (exprLoop A text next rounds lhs) s
      (Sound A text .expr r (s.depth - 1)) := by
  induction rounds generalizing s lhs with
  | zero => omega
  | succ rounds ih =>
    unfold exprLoop
    apply returns_bind (composes_safe _ _)
    apply returns_acceptAny
    · intro c r' op hr hop
      obtain rfl := lookup_addOps.mp hop
      have haccepted := pos_accepted hr
      apply Sound.bind (returns_term hnext haccepted.2 (by omega))
      intro s₁ rhs hs₁ hdepth hrhs
      have hlt := hrhs.pos_lt hs₁
      have hdepth' : s₁.depth = s.depth := hdepth
      have hboth : ReadsFrom A text .expr r s₁ (op.apply A lhs rhs) := by
        apply hlhs.operator hr hrhs (fun t b t' => Tree.addOp t b op t') (fun t b t' => rfl)
          fun t b t' r h => h
        intro t b t' htx hty
        change (t.value.bind fun x => t'.value.bind fun y => some (op.apply A x y)) = _
        rw [htx, hty]
        rfl
      have hloop := ih hs₁ (by omega) (by omega) hboth
      rw [hdepth'] at hloop
      exact hloop
    · intro hr
      apply returns_bind (composes_safe _ _)
      apply returns_modify (composes_safe _ _)
      exact returns_pure (composes_safe _ _)
        (.ok (skipBlanks_pos_le hs) rfl hlhs.skipBlanks)

theorem returns_expr (hnext : NextSound A text next n) (hs : s.pos ≤ text.length)
    (hn : 2 * (text.length - s.pos) + 1 ≤ n) :
    Returns (Safe text.length s.depth) (expr A text next) s
      (Sound A text .expr (s.rest text) s.depth) := by
  unfold expr
  by_cases hdepth : s.depth < maxDepth
  · apply returns_nested hdepth
    unfold exprBody
    apply returns_bind (composes_safe _ _)
    refine (returns_term (s := { s with depth := s.depth + 1 }) hnext hs hn).mono
      fun s₁ result h => ?_
    have hs₁ := h.pos_le
    cases result with
    | error e =>
      apply returns_bind (composes_safe _ _)
      apply returns_modify (composes_safe _ _)
      exact returns_pure (composes_safe _ _) (.error (by exact hs₁) e)
    | ok lhs =>
      obtain ⟨hdepth, hlhs⟩ := h.reads lhs rfl
      have hlt : s.pos < s₁.pos := hlhs.pos_lt hs₁
      obtain ⟨t, b, ht, hv, hwhole⟩ := hlhs
      have hrounds := hnext.rounds
      have hloop : Returns (Safe text.length s₁.depth) (exprLoop A text next next.rounds lhs) s₁
          (Sound A text .expr (s.rest text) (s₁.depth - 1)) :=
        returns_exprLoop hnext hs₁ (by omega) (by omega) ⟨.term t, b, ht, hv, hwhole⟩
      rw [hdepth] at hloop
      exact hloop
  · exact returns_nested_refused (by omega) (.error (by exact hs) _)

/-- A sign before what was read. -/
theorem ReadsFrom.sign (op : AddOp) {r' : Bytes} {y : ν}
    (hr : (s.rest text).dropWhile isBlank = op.char :: r')
    (hy : ReadsFrom A text .unary (((s.skipBlanks text).advance 1).rest text) s' y) :
    ReadsFrom A text .unary (s.rest text) s' (op.sign A y) := by
  obtain ⟨b, hb⟩ := rest_accepted hr
  obtain ⟨t, b', ht, hty, hwhole⟩ := hy
  refine ⟨.sign b op t, b', ?_, ?_, hwhole⟩
  · rw [hb, ht]
    simp [Tree.bytes]
  · change op.sign A <$> t.value = _
    rw [hty]
    rfl

theorem returns_signed (hnext : NextSound A text next n) (hs : s.pos ≤ text.length)
    (hn : 2 * (text.length - s.pos) ≤ n) :
    Returns (Safe text.length s.depth) (signed A text next) s
      (Sound A text .unary (s.rest text) s.depth) := by
  unfold signed
  apply returns_bind (composes_safe _ _)
  apply returns_accept
  · intro r hr
    have haccepted := pos_accepted hr
    apply returns_bind (composes_safe _ _)
    refine (hnext.unary _ haccepted.2 (by omega)).mono fun s₁ result h => ?_
    cases result with
    | error e => exact returns_pure (composes_safe _ _) h.of_error
    | ok y =>
      obtain ⟨hdepth, hy⟩ := h.reads y rfl
      have hsign : ReadsFrom A text .unary (s.rest text) s₁ (A.neg y) :=
        ReadsFrom.sign .minus hr hy
      exact returns_pure (composes_safe _ _) (.ok h.pos_le hdepth hsign)
  · intro hminus
    apply returns_bind (composes_safe _ _)
    apply returns_accept
    · intro r hr
      rw [dropWhile_skipBlanks] at hr
      have haccepted := pos_accepted hr
      rw [skipBlanks_skipBlanks]
      refine (hnext.unary _ haccepted.2 (by omega)).mono fun s₁ result h => ⟨h.pos_le, ?_⟩
      intro v hv
      obtain ⟨hdepth, hy⟩ := h.reads v hv
      exact ⟨hdepth, ReadsFrom.sign .plus hr hy⟩
    · intro hplus
      rw [skipBlanks_skipBlanks]
      have hle := @le_skipBlanks_pos text s
      refine (returns_power hnext (skipBlanks_pos_le hs) (by omega)).mono fun s₁ result h => ?_
      refine ⟨h.pos_le, fun v hv => ?_⟩
      obtain ⟨hdepth, t, b, ht, htv, hwhole⟩ := (h.of_skipBlanks).reads v hv
      exact ⟨hdepth, .power t, b, ht, htv, hwhole⟩

theorem returns_unary (hnext : NextSound A text next n) (hs : s.pos ≤ text.length)
    (hn : 2 * (text.length - s.pos) ≤ n) :
    Returns (Safe text.length s.depth) (unary A text next) s
      (Sound A text .unary (s.rest text) s.depth) := by
  unfold unary
  by_cases hdepth : s.depth < maxDepth
  · apply returns_nested hdepth
    apply returns_bind (composes_safe _ _)
    refine (returns_signed (s := { s with depth := s.depth + 1 }) hnext hs hn).mono
      fun s₁ result h => ?_
    apply returns_bind (composes_safe _ _)
    apply returns_modify (composes_safe _ _)
    refine returns_pure (composes_safe _ _) ⟨h.pos_le, fun v hv => ?_⟩
    obtain ⟨hdepth₁, hreads⟩ := h.reads v hv
    refine ⟨?_, hreads⟩
    rw [hdepth₁]
    rfl
  · exact returns_nested_refused (by omega) (.error (by exact hs) _)

theorem nextSound_descend (n : ℕ) : NextSound A text (descend A text n) n := by
  induction n with
  | zero => exact ⟨rfl, fun s hs hn => by omega, fun s hs hn => by omega⟩
  | succ n ih =>
    exact ⟨rfl, fun s hs hn => returns_expr ih hs (by omega),
      fun s hs hn => returns_unary ih hs (by omega)⟩

/-- A run of the parser ends, stays safe, and returns only values of the text. -/
theorem returns_parse (hn : boundFor text.length ≤ n) :
    Returns (Safe text.length 0) (parse A text n) { pos := 0, depth := 0 } fun _ result =>
      ∀ v, result = .ok v → ∃ t, Derives A text t ∧ t.value = some v ∧ A.isFinite v = true := by
  unfold boundFor at hn
  unfold parse
  apply returns_bind (composes_safe _ _)
  refine ((nextSound_descend n).expr _ (Nat.zero_le _) (by exact hn)).mono fun s₁ result h => ?_
  have hs₁ := h.pos_le
  cases result with
  | error e => exact returns_pure (composes_safe _ _) fun v hv => by cases hv
  | ok value =>
    obtain ⟨-, hreads⟩ := h.reads value rfl
    unfold finish
    apply returns_bind (composes_safe _ _)
    apply returns_skipSpace
    apply returns_bind (composes_safe _ _)
    apply returns_get (composes_safe _ _)
    have hpos := skipBlanks_pos_le hs₁
    by_cases hend : (s₁.skipBlanks text).pos = text.length
    · rw [if_neg (not_not.mpr hend)]
      by_cases hfinite : A.isFinite value = true
      · rw [if_pos hfinite]
        refine returns_pure (composes_safe _ _) fun v hv => ?_
        obtain rfl := Except.ok.inj hv
        obtain ⟨t, b, ht, htv, -⟩ := hreads.skipBlanks
        have hnil : (s₁.skipBlanks text).rest text = [] :=
          List.drop_eq_nil_of_le (Nat.le_of_eq hend.symm)
        rw [hnil, List.append_nil] at ht
        exact ⟨t, ⟨b, ht⟩, htv, hfinite⟩
      · rw [if_neg hfinite]
        exact returns_fail fun v hv => by cases hv
    · rw [if_pos hend]
      apply returns_bind (composes_safe _ _)
      apply returns_charAt (by omega)
      exact returns_fail fun v hv => by cases hv

end GeminiCpp.ExpressionParser
