import GeminiCpp.Calculator.Follow

/-! The parser is complete: it reads a tree that stands in the text to its end and returns its
value, unless the tree is nested too deeply, and fails for that reason then. -/
namespace GeminiCpp.ExpressionParser
open Traced Traced.Prog

variable {ν : Type} {A : Arith ν} {text : Bytes}

/-- The error of an expression that is nested too deeply. -/
def TooDeep (result : Result ν) : Prop :=
  ∃ pos, result = .error (failure (ascii "expression nested too deeply") pos)

/-- A call at the depth `d` returns a value and leaves `r`, or its tree is nested too deeply. -/
def Finishes (text r : Bytes) (d : ℕ) (v : ν) (nesting : ℕ) (s : ExpressionParser)
    (result : Result ν) : Prop :=
  (d + nesting ≤ maxDepth ∧ s = stateBefore text r d ∧ result = .ok v) ∨
    (maxDepth < d + nesting ∧ TooDeep result)

variable (A text)

/-- What the parser does with a tree that comes next. For `expr` and `term`, it goes on with its
loop after the tree. -/
def Complete : {l : Level} → Tree A l → Prop
  | .primary, t => ∀ n r r₀ d v, t.value = some v → r₀ <:+ text →
    r₀.dropWhile isBlank = (t.bytes ++ r).dropWhile isBlank → Follow [] r → 2 * r₀.length ≤ n →
    d ≤ maxDepth →
    Returns (Safe text.length d) (primary A text (descend A text n)) (stateBefore text r₀ d)
      (Finishes text r d v t.nesting)
  | .power, t => ∀ n r r₀ d v, t.value = some v → r₀ <:+ text →
    r₀.dropWhile isBlank = (t.bytes ++ r).dropWhile isBlank → Follow powOps r →
    2 * r₀.length ≤ n → d ≤ maxDepth →
    Returns (Safe text.length d) (power A text (descend A text n)) (stateBefore text r₀ d)
      (Finishes text (r.dropWhile isBlank) d v t.nesting)
  | .unary, t => ∀ n r d v, t.value = some v → t.bytes ++ r <:+ text → Follow powOps r →
    2 * (t.bytes ++ r).length + 1 ≤ n →
    Returns (Safe text.length d) (descend A text n).unary (stateBefore text (t.bytes ++ r) d)
      (Finishes text (r.dropWhile isBlank) d v t.nesting)
  | .term, t => ∀ n r d v Q, t.value = some v → t.bytes ++ r <:+ text → Follow powOps r →
    2 * (t.bytes ++ r).length + 1 ≤ n →
    (d + t.nesting ≤ maxDepth → ∀ rounds, (r.dropWhile isBlank).length < rounds →
      Returns (Safe text.length d) (termLoop A text (descend A text n) rounds v)
        (stateBefore text (r.dropWhile isBlank) d) Q) →
    (maxDepth < d + t.nesting → ∀ s result, TooDeep result → Q s result) →
    Returns (Safe text.length d) (term A text (descend A text n))
      (stateBefore text (t.bytes ++ r) d) Q
  | .expr, t => ∀ n r d v Q, t.value = some v → t.bytes ++ r <:+ text → Follow termOps r →
    2 * (t.bytes ++ r).length + 1 ≤ n →
    (d + t.nesting ≤ maxDepth + 1 → ∀ rounds, (r.dropWhile isBlank).length < rounds →
      Returns (Safe text.length d) (exprLoop A text (descend A text n) rounds v)
        (stateBefore text (r.dropWhile isBlank) d) Q) →
    (maxDepth + 1 < d + t.nesting → ∀ s result, TooDeep result → Q s result) →
    Returns (Safe text.length d) (exprBody A text (descend A text n))
      (stateBefore text (t.bytes ++ r) d) Q

variable {A text} {n d : ℕ} {r r₀ : Bytes} {v : ν}

theorem Finishes.tooDeep {nesting : ℕ} {s : ExpressionParser} {result : Result ν}
    (h : TooDeep result) (hd : maxDepth < d + nesting) :
    Finishes text r d v nesting s result :=
  Or.inr ⟨hd, h⟩

/-- A call that finishes, and what is done with its value: an error is passed on. -/
theorem Finishes.bind {p : Parse (Result ν)} {f : ν → Parse (Result ν)} {s : ExpressionParser}
    {nesting h : ℕ} {Q : ExpressionParser → Result ν → Prop}
    (hp : Returns (Safe text.length h) p s (Finishes text r d v nesting))
    (hok : d + nesting ≤ maxDepth → Returns (Safe text.length h) (f v) (stateBefore text r d) Q)
    (hdeep : maxDepth < d + nesting → ∀ s result, TooDeep result → Q s result) :
    Returns (Safe text.length h) (do
      match ← p with
      | .error e => return .error e
      | .ok x => f x) s Q := by
  apply returns_bind (composes_safe _ _)
  refine hp.mono fun s' result hresult => ?_
  rcases hresult with ⟨hd, rfl, rfl⟩ | ⟨hd, pos, rfl⟩
  · exact hok hd
  · exact returns_pure (composes_safe _ _) (hdeep hd _ _ ⟨pos, rfl⟩)

theorem isBlank_of_isWord {c : UInt8} (hc : isWord c = true) : isBlank c = false := by
  by_contra hblank
  have hnot := isWord_of_isBlank (eq_true_of_ne_false hblank)
  rw [hnot] at hc
  cases hc

theorem isMantissa_of_isLetter {c : UInt8} (hc : isLetter c = true) : isMantissa c = false := by
  by_contra hmantissa
  simp only [isLetter, isMantissa, isDigit, Bool.or_eq_true, Bool.and_eq_true, decide_eq_true_eq,
    Bool.not_eq_false, UInt8.le_iff_toNat_le] at hc hmantissa
  have hdigits : '0'.toUInt8.toNat = 48 ∧ '9'.toUInt8.toNat = 57 := by decide
  have hletters : 'a'.toUInt8.toNat = 97 ∧ 'z'.toUInt8.toNat = 122 ∧ 'A'.toUInt8.toNat = 65 ∧
      'Z'.toUInt8.toNat = 90 := by decide
  rcases hmantissa with hdigit | rfl
  · omega
  · have hpoint : '.'.toUInt8.toNat = 46 := by decide
    omega

/-- Where `primary` goes when the text does not end. -/
theorem returns_primary_start {next : Next ν} {c : UInt8} {r' : Bytes} (hr₀ : r₀ <:+ text)
    (hc : r₀.dropWhile isBlank = c :: r') {Q : ExpressionParser → Result ν → Prop}
    (hQ : c :: r' <:+ text → (c :: r').dropWhile isBlank = c :: r' →
      (stateBefore text (c :: r') d).pos < text.length → Returns (Safe text.length d) (do
        if ← accept text '('.toUInt8 then enclosed text next
        else
          let s ← Prog.get
          let c ← charAt text s.pos
          if isMantissa c then number A text
          else if isLetter c then identifier A text next
          else fail (ascii "unexpected character '" ++ [c] ++ ascii "'"))
        (stateBefore text (c :: r') d) Q) :
    Returns (Safe text.length d) (primary A text next) (stateBefore text r₀ d) Q := by
  have hsuffix := dropWhile_suffix hr₀
  rw [hc] at hsuffix
  have hlength := hsuffix.length_le
  rw [List.length_cons] at hlength
  have hpos : (stateBefore text (c :: r') d).pos < text.length := by
    change text.length - (r'.length + 1) < text.length
    omega
  unfold primary
  apply returns_bind (composes_safe _ _)
  apply returns_skipSpace
  rw [skipBlanks_stateBefore hr₀, hc]
  apply returns_bind (composes_safe _ _)
  apply returns_get (composes_safe _ _)
  rw [if_neg (Nat.not_le.mpr hpos)]
  exact hQ hsuffix (by rw [← hc, List.dropWhile_idempotent]) hpos

/-- When a word comes next. -/
theorem returns_primary_word {next : Next ν} {c : UInt8} {r' : Bytes} (hr₀ : r₀ <:+ text)
    (hc : r₀.dropWhile isBlank = c :: r') (hparen : c ≠ '('.toUInt8)
    {Q : ExpressionParser → Result ν → Prop}
    (hQ : Returns (Safe text.length d)
      (if isMantissa c then number A text
        else if isLetter c then identifier A text next
        else fail (ascii "unexpected character '" ++ [c] ++ ascii "'"))
      (stateBefore text (c :: r') d) Q) :
    Returns (Safe text.length d) (primary A text next) (stateBefore text r₀ d) Q := by
  apply returns_primary_start hr₀ hc
  intro hsuffix hagain hpos
  apply returns_bind (composes_safe _ _)
  apply returns_accept_no hsuffix
  · rw [hagain]
    intro hhead
    exact hparen (Option.some.inj hhead)
  rw [hagain]
  apply returns_bind (composes_safe _ _)
  apply returns_get (composes_safe _ _)
  apply returns_bind (composes_safe _ _)
  apply returns_charAt hpos
  rw [getElem?_pos, rest_stateBefore hsuffix]
  exact hQ

/-- When a parenthesis comes next. -/
theorem returns_primary_paren {next : Next ν} {r' : Bytes} (hr₀ : r₀ <:+ text)
    (hc : r₀.dropWhile isBlank = '('.toUInt8 :: r') {Q : ExpressionParser → Result ν → Prop}
    (hQ : Returns (Safe text.length d) (enclosed text next) (stateBefore text r' d) Q) :
    Returns (Safe text.length d) (primary A text next) (stateBefore text r₀ d) Q := by
  apply returns_primary_start hr₀ hc
  intro hsuffix hagain hpos
  apply returns_bind (composes_safe _ _)
  apply returns_accept_yes hsuffix hagain
  exact hQ

theorem complete_number (b : Blanks) (number : Number A) : Complete A text (.number b number) := by
  intro n r r₀ d v hv hr₀ htoken hfollow hn hd
  obtain ⟨c, m, hm⟩ := List.exists_cons_of_ne_nil number.mantissa_ne_nil
  have hc : isMantissa c = true := number.isMantissa c (by rw [hm]; exact List.mem_cons_self)
  have hword : isWord c = true := Bool.or_eq_true_iff.mpr (Or.inl hc)
  have hcons : number.token ++ r = c :: (m ++ number.exponent ++ r) := by
    rw [Number.token, hm]
    rfl
  change r₀.dropWhile isBlank = ((b.1 ++ number.token) ++ r).dropWhile isBlank at htoken
  rw [List.append_assoc, dropWhile_blanks b (by
    intro c' hc'
    rw [hcons] at hc'
    rw [← Option.some.inj hc']
    exact isBlank_of_isWord hword), hcons] at htoken
  have hsuffix := dropWhile_suffix hr₀
  rw [htoken] at hsuffix
  apply returns_primary_word hr₀ htoken
  · rintro rfl
    cases hc
  rw [if_pos hc]
  have hlength := numberLength_append number hfollow.word
  rw [← hcons] at hsuffix ⊢
  have hread : number.token = ((stateBefore text (number.token ++ r) d).rest text).take
      (numberLength ((stateBefore text (number.token ++ r) d).rest text)) := by
    rw [rest_stateBefore hsuffix, hlength, List.take_left]
  apply returns_number stateBefore_pos_le hread
  · intro _
    rw [rest_stateBefore hsuffix, hlength, advance_stateBefore hsuffix]
    obtain rfl := Option.some.inj hv
    exact Or.inl ⟨hd, rfl, rfl⟩
  · intro hnot
    exact absurd number.strtod_reads hnot

theorem Tree.nesting_pos {t : Tree A .expr} : 0 < t.nesting := by
  cases t with
  | term t => exact Nat.succ_pos _
  | addOp lhs b op rhs => exact Nat.lt_of_lt_of_le (Nat.succ_pos _) (Nat.le_max_right _ _)

theorem rounds_descend (n : ℕ) : (descend A text n).rounds = n := by
  cases n <;> rfl

theorem lookup_addOps_none {c : UInt8} (hc : c ∉ exprOps) : addOps.lookup c = none := by
  cases hop : addOps.lookup c with
  | none => rfl
  | some op =>
    obtain rfl := lookup_addOps.mp hop
    cases op <;> exact absurd (by decide) hc

theorem lookup_mulOps_none {c : UInt8} (hc : c ∉ termOps) : mulOps.lookup c = none := by
  cases hop : mulOps.lookup c with
  | none => rfl
  | some op =>
    obtain rfl := lookup_mulOps.mp hop
    cases op <;> exact absurd (by decide) hc

/-- The loop of `expr` ends, and gives back a level of depth. -/
theorem returns_exprLoop_done {next : Next ν} {rounds : ℕ} (hrounds : 0 < rounds)
    (hr : r <:+ text) (hfollow : Follow exprOps r) {Q : ExpressionParser → Result ν → Prop}
    (hQ : Q (stateBefore text (r.dropWhile isBlank) (d - 1)) (.ok v)) {h : ℕ} :
    Returns (Safe text.length h) (exprLoop A text next rounds v)
      (stateBefore text (r.dropWhile isBlank) d) Q := by
  obtain ⟨rounds, rfl⟩ : ∃ k, rounds = k + 1 := ⟨rounds - 1, by omega⟩
  unfold exprLoop
  apply returns_bind (composes_safe _ _)
  apply returns_acceptAny_none (dropWhile_suffix hr)
  · intro c hc
    rw [List.dropWhile_idempotent] at hc
    exact lookup_addOps_none (hfollow.token c hc)
  · rw [List.dropWhile_idempotent]
    apply returns_bind (composes_safe _ _)
    apply returns_modify (composes_safe _ _)
    exact returns_pure (composes_safe _ _) hQ

/-- The loop of `term` ends. -/
theorem returns_termLoop_done {next : Next ν} {rounds : ℕ} (hrounds : 0 < rounds)
    (hr : r <:+ text) (hfollow : Follow termOps r) {Q : ExpressionParser → Result ν → Prop}
    (hQ : Q (stateBefore text (r.dropWhile isBlank) d) (.ok v)) {h : ℕ} :
    Returns (Safe text.length h) (termLoop A text next rounds v)
      (stateBefore text (r.dropWhile isBlank) d) Q := by
  obtain ⟨rounds, rfl⟩ : ∃ k, rounds = k + 1 := ⟨rounds - 1, by omega⟩
  unfold termLoop
  apply returns_bind (composes_safe _ _)
  apply returns_acceptAny_none (dropWhile_suffix hr)
  · intro c hc
    rw [List.dropWhile_idempotent] at hc
    exact lookup_mulOps_none (hfollow.token c hc)
  · rw [List.dropWhile_idempotent]
    exact returns_pure (composes_safe _ _) hQ

/-- A call of `expr` at a tree. -/
theorem Complete.expr {t : Tree A .expr} (h : Complete A text t) (hv : t.value = some v)
    (hr : t.bytes ++ r <:+ text) (hfollow : Follow exprOps r)
    (hn : 2 * (t.bytes ++ r).length + 2 ≤ n) :
    Returns (Safe text.length d) (descend A text n).expr (stateBefore text (t.bytes ++ r) d)
      (Finishes text (r.dropWhile isBlank) d v t.nesting) := by
  obtain ⟨n, rfl⟩ : ∃ k, n = k + 1 := ⟨n - 1, by omega⟩
  have hpos := @Tree.nesting_pos _ _ t
  change Returns _ (nested (exprBody A text (descend A text n))) _ _
  by_cases hd : d < maxDepth
  · -- This call is one level of the tree; the end of the loop gives it back.
    refine returns_nested (s := stateBefore text (t.bytes ++ r) d) hd ?_
    refine h n r (d + 1) v _ hv hr (hfollow.mono termOps_prefix) (by omega) ?_ ?_
    · intro hnesting rounds hrounds
      apply returns_exprLoop_done (by omega) ((List.suffix_append _ _).trans hr) hfollow
      exact Or.inl ⟨by omega, rfl, rfl⟩
    · exact fun hdeep s result htooDeep => .tooDeep htooDeep (by omega)
  · refine returns_nested_refused (s := stateBefore text (t.bytes ++ r) d) (Nat.le_of_not_lt hd) ?_
    exact .tooDeep ⟨_, rfl⟩ (by omega)

theorem complete_enclosed {inner : Tree A .expr} (h : Complete A text inner) (b : Blanks)
    (hv : inner.value = some v) (hr : inner.bytes ++ (b.1 ++ ')'.toUInt8 :: r) <:+ text)
    (hn : 2 * (inner.bytes ++ (b.1 ++ ')'.toUInt8 :: r)).length + 2 ≤ n) :
    Returns (Safe text.length d) (enclosed text (descend A text n))
      (stateBefore text (inner.bytes ++ (b.1 ++ ')'.toUInt8 :: r)) d)
      (Finishes text r d v inner.nesting) := by
  have hfollow : Follow exprOps (b.1 ++ ')'.toUInt8 :: r) :=
    follow_cons b (by decide) (by decide) (by decide)
  have hclose : (b.1 ++ ')'.toUInt8 :: r).dropWhile isBlank = ')'.toUInt8 :: r :=
    dropWhile_blanks b fun c hc => by rw [← Option.some.inj hc]; decide
  have hsuffix : b.1 ++ ')'.toUInt8 :: r <:+ text := (List.suffix_append _ _).trans hr
  unfold enclosed
  apply Finishes.bind (h.expr hv hr hfollow hn)
  · intro hd
    apply returns_bind (composes_safe _ _)
    apply returns_accept_yes (dropWhile_suffix hsuffix) (by rw [List.dropWhile_idempotent, hclose])
    exact returns_pure (composes_safe _ _) (Or.inl ⟨hd, rfl, rfl⟩)
  · exact fun hd s result htooDeep => .tooDeep htooDeep hd

theorem dropWhile_blanks_cons (b : Blanks) {c : UInt8} {m : Bytes} (hc : isBlank c = false) :
    (b.1 ++ c :: m).dropWhile isBlank = c :: m :=
  dropWhile_blanks b fun c' hc' => by rw [← Option.some.inj hc']; exact hc

theorem length_dropWhile_le (r : Bytes) : (r.dropWhile isBlank).length ≤ r.length :=
  (List.dropWhile_suffix _).length_le

theorem complete_paren (b : Blanks) {inner : Tree A .expr} (h : Complete A text inner)
    (b' : Blanks) : Complete A text (.paren b inner b') := by
  intro n r r₀ d v hv hr₀ htoken hfollow hn hd
  have hcons : (b.1 ++ '('.toUInt8 :: (inner.bytes ++ (b'.1 ++ [')'.toUInt8]))) ++ r =
      b.1 ++ '('.toUInt8 :: (inner.bytes ++ (b'.1 ++ ')'.toUInt8 :: r)) := by simp
  change r₀.dropWhile isBlank = ((b.1 ++ _) ++ r).dropWhile isBlank at htoken
  rw [hcons, dropWhile_blanks_cons b (by decide)] at htoken
  have hsuffix := dropWhile_suffix hr₀
  have hlength := length_dropWhile_le r₀
  rw [htoken] at hsuffix hlength
  rw [List.length_cons] at hlength
  apply returns_primary_paren hr₀ htoken
  exact complete_enclosed h b' hv ((List.suffix_cons _ _).trans hsuffix) (by omega)

/-- Where `primary` goes with a name. -/
theorem returns_primary_name {next : Next ν} (name : Name) (hr₀ : r₀ <:+ text)
    (hc : r₀.dropWhile isBlank = name.token ++ r)
    (hword : ∀ c, r.head? = some c → isWord c = false) {Q : ExpressionParser → Result ν → Prop}
    (hconstant : ∀ v, (constants A).lookup name.token = some v →
      Q (stateBefore text r d) (.ok v))
    (hcall : (constants A).lookup name.token = none →
      Returns (Safe text.length d) (do
        if ← accept text '('.toUInt8 then
          match ← enclosed text next with
          | .error e => return .error e
          | .ok x => call A name.token x
        else fail (ascii "unknown identifier '" ++ name.token ++ ascii "'"))
        (stateBefore text r d) Q) :
    Returns (Safe text.length d) (primary A text next) (stateBefore text r₀ d) Q := by
  have hletter := name.isLetter
  have hsuffix := dropWhile_suffix hr₀
  rw [hc] at hsuffix
  have hname : ((stateBefore text (name.token ++ r) d).rest text).takeWhile isAlphanumeric =
      name.token := by
    rw [rest_stateBefore hsuffix]
    exact takeWhile_name name hword
  apply returns_primary_word hr₀ hc
  · intro hparen
    rw [hparen] at hletter
    cases hletter
  rw [if_neg (by rw [isMantissa_of_isLetter hletter]; exact Bool.false_ne_true), if_pos hletter]
  apply returns_identifier_name hname
  · rw [advance_stateBefore hsuffix]
    exact hconstant
  · rw [advance_stateBefore hsuffix]
    exact hcall

theorem Name.isBlank_first (name : Name) : isBlank name.first = false :=
  isBlank_of_isWord (Bool.or_eq_true_iff.mpr (Or.inr name.isLetter))

theorem complete_ident (b : Blanks) (name : Name) : Complete A text (.ident b name) := by
  intro n r r₀ d v hv hr₀ htoken hfollow hn hd
  change r₀.dropWhile isBlank = ((b.1 ++ name.token) ++ r).dropWhile isBlank at htoken
  have hfirst : (b.1 ++ (name.token ++ r)).dropWhile isBlank = name.token ++ r :=
    dropWhile_blanks_cons b name.isBlank_first
  rw [List.append_assoc, hfirst] at htoken
  apply returns_primary_name name hr₀ htoken hfollow.word
  · intro v' hv'
    obtain rfl := Option.some.inj (hv.symm.trans hv')
    exact Or.inl ⟨hd, rfl, rfl⟩
  · intro hnone
    have hsome : (constants A).lookup name.token = some v := hv
    rw [hnone] at hsome
    cases hsome

theorem lookup_constants_none {name : Bytes} {x : ν} (h : applyFunction A name x = some v) :
    (constants A).lookup name = none := by
  simp only [constants, lookup_cons_eq, List.lookup_nil]
  have hpi : name ≠ ascii "pi" := by
    rintro rfl
    cases h
  have he : name ≠ ascii "e" := by
    rintro rfl
    cases h
  rw [if_neg hpi, if_neg he]

theorem complete_call (b : Blanks) (name : Name) (b' : Blanks) {arg : Tree A .expr}
    (h : Complete A text arg) (b'' : Blanks) : Complete A text (.call b name b' arg b'') := by
  intro n r r₀ d v hv hr₀ htoken hfollow hn hd
  obtain ⟨x, hx, happly⟩ := Option.bind_eq_some_iff.mp hv
  have hbytes : (Tree.call b name b' arg b'').bytes ++ r = b.1 ++ (name.token ++ (b'.1 ++
      '('.toUInt8 :: (arg.bytes ++ (b''.1 ++ ')'.toUInt8 :: r)))) := by
    simp [Tree.bytes]
  have hfirst : ∀ m : Bytes, (b.1 ++ (name.token ++ m)).dropWhile isBlank = name.token ++ m :=
    fun m => dropWhile_blanks_cons b name.isBlank_first
  have hopen : (b'.1 ++ '('.toUInt8 :: (arg.bytes ++ (b''.1 ++ ')'.toUInt8 :: r))).dropWhile
      isBlank = '('.toUInt8 :: (arg.bytes ++ (b''.1 ++ ')'.toUInt8 :: r)) :=
    dropWhile_blanks_cons b' (by decide)
  have hword : Follow [] (b'.1 ++ '('.toUInt8 :: (arg.bytes ++ (b''.1 ++ ')'.toUInt8 :: r))) :=
    follow_cons b' (by decide) (by decide) List.not_mem_nil
  rw [hbytes, hfirst] at htoken
  have hsuffix := dropWhile_suffix hr₀
  have hlength := length_dropWhile_le r₀
  rw [htoken] at hsuffix hlength
  rw [List.length_append, List.length_append, List.length_cons] at hlength
  have hnone := lookup_constants_none happly
  apply returns_primary_name name hr₀ htoken hword.word
  · intro v' hv'
    rw [hnone] at hv'
    cases hv'
  intro _
  have hafter : b'.1 ++ '('.toUInt8 :: (arg.bytes ++ (b''.1 ++ ')'.toUInt8 :: r)) <:+ text :=
    (List.suffix_append _ _).trans hsuffix
  have hinner : arg.bytes ++ (b''.1 ++ ')'.toUInt8 :: r) <:+ text :=
    ((List.suffix_cons _ _).trans (List.suffix_append _ _)).trans hafter
  apply returns_bind (composes_safe _ _)
  apply returns_accept_yes hafter hopen
  apply Finishes.bind (complete_enclosed h b'' hx hinner (by omega))
  · intro hd'
    apply returns_call
    · intro v' hv'
      obtain rfl := Option.some.inj (happly.symm.trans hv')
      exact Or.inl ⟨hd', rfl, rfl⟩
    · intro hnot
      rw [happly] at hnot
      cases hnot
  · exact fun hd' s result htooDeep => .tooDeep htooDeep hd'

theorem number_head (number : Number A) :
    ∃ c m, number.token = c :: m ∧ isMantissa c = true := by
  obtain ⟨c, m, hm⟩ := List.exists_cons_of_ne_nil number.mantissa_ne_nil
  refine ⟨c, m ++ number.exponent, ?_, number.isMantissa c (by rw [hm]; exact List.mem_cons_self)⟩
  rw [Number.token, hm]
  rfl

/-- A primary begins with no sign. -/
theorem primary_head (t : Tree A .primary) :
    ∃ c m, (∀ r, (t.bytes ++ r).dropWhile isBlank = c :: (m ++ r)) ∧ isSign c = false := by
  have hhead : ∀ (b : Blanks) {c : UInt8} {m : Bytes}, isBlank c = false → t.bytes = b.1 ++ c :: m →
      ∀ r, (t.bytes ++ r).dropWhile isBlank = c :: (m ++ r) := by
    intro b c m hc ht r
    rw [ht, List.append_assoc]
    exact dropWhile_blanks_cons b hc
  cases t with
  | number b number =>
    obtain ⟨c, m, htoken, hc⟩ := number_head number
    have hword : isWord c = true := Bool.or_eq_true_iff.mpr (Or.inl hc)
    refine ⟨c, m, hhead b (isBlank_of_isWord hword) ?_, isSign_of_isWord hword⟩
    rw [Tree.bytes, htoken]
  | ident b name =>
    have hword : isWord name.first = true := Bool.or_eq_true_iff.mpr (Or.inr name.isLetter)
    exact ⟨_, _, hhead b name.isBlank_first rfl, isSign_of_isWord hword⟩
  | call b name b' arg b'' =>
    have hword : isWord name.first = true := Bool.or_eq_true_iff.mpr (Or.inr name.isLetter)
    exact ⟨_, _, hhead b name.isBlank_first rfl, isSign_of_isWord hword⟩
  | paren b inner b' => exact ⟨_, _, hhead b (by decide) rfl, by decide⟩

theorem power_head (t : Tree A .power) (r : Bytes) :
    ∃ c m, (t.bytes ++ r).dropWhile isBlank = c :: m ∧ isSign c = false := by
  cases t with
  | primary p =>
    obtain ⟨c, m, hm, hc⟩ := primary_head p
    exact ⟨c, _, hm r, hc⟩
  | pow base b exponent =>
    obtain ⟨c, m, hm, hc⟩ := primary_head base
    refine ⟨c, m ++ (b.1 ++ '^'.toUInt8 :: exponent.bytes ++ r), ?_, hc⟩
    rw [Tree.bytes, List.append_assoc]
    exact hm _

theorem complete_primary {p : Tree A .primary} (h : Complete A text p) :
    Complete A text (.primary p) := by
  intro n r r₀ d v hv hr₀ htoken hfollow hn hd
  have hsuffix : r <:+ text := by
    obtain ⟨c, m, hm, -⟩ := primary_head p
    have hdrop := dropWhile_suffix hr₀
    rw [htoken] at hdrop
    change (p.bytes ++ r).dropWhile isBlank <:+ text at hdrop
    rw [hm] at hdrop
    exact (List.suffix_append (c :: m) r).trans hdrop
  unfold power
  apply Finishes.bind (h n r r₀ d v hv hr₀ htoken (hfollow.mono List.nil_prefix) hn hd)
  · intro hd'
    apply returns_bind (composes_safe _ _)
    apply returns_accept_no hsuffix
    · intro hhead
      exact hfollow.token _ hhead (by decide)
    · exact returns_pure (composes_safe _ _) (Or.inl ⟨hd', rfl, rfl⟩)
  · exact fun hd' s result htooDeep => .tooDeep htooDeep hd'

theorem complete_pow {base : Tree A .primary} (hbase : Complete A text base) (b : Blanks)
    {exponent : Tree A .unary} (hexponent : Complete A text exponent) :
    Complete A text (.pow base b exponent) := by
  intro n r r₀ d v hv hr₀ htoken hfollow hn hd
  obtain ⟨x, hx, hv⟩ := Option.bind_eq_some_iff.mp hv
  obtain ⟨y, hy, hv⟩ := Option.bind_eq_some_iff.mp hv
  obtain rfl := Option.some.inj hv
  have hbytes : (Tree.pow base b exponent).bytes ++ r =
      base.bytes ++ (b.1 ++ '^'.toUInt8 :: (exponent.bytes ++ r)) := by
    simp [Tree.bytes]
  have hcaret : (b.1 ++ '^'.toUInt8 :: (exponent.bytes ++ r)).dropWhile isBlank =
      '^'.toUInt8 :: (exponent.bytes ++ r) := dropWhile_blanks_cons b (by decide)
  rw [hbytes] at htoken
  obtain ⟨c, m, hm, -⟩ := primary_head base
  have hdrop := dropWhile_suffix hr₀
  have hlength := length_dropWhile_le r₀
  rw [htoken, hm] at hdrop hlength
  have hafter := (List.suffix_append (c :: m) _).trans hdrop
  have hinner : exponent.bytes ++ r <:+ text :=
    ((List.suffix_cons _ _).trans (List.suffix_append _ _)).trans hafter
  simp only [List.length_cons, List.length_append] at hlength
  have hnesting : (Tree.pow base b exponent).nesting = max base.nesting exponent.nesting := rfl
  rw [hnesting]
  have hfollow' : Follow [] (b.1 ++ '^'.toUInt8 :: (exponent.bytes ++ r)) :=
    follow_cons b (by decide) (by decide) List.not_mem_nil
  unfold power
  apply Finishes.bind (hbase n _ r₀ d x hx hr₀ htoken hfollow' hn hd)
  · intro hd'
    apply returns_bind (composes_safe _ _)
    apply returns_accept_yes hafter hcaret
    apply Finishes.bind (hexponent n r d y hy hinner hfollow (by rw [List.length_append]; omega))
    · intro hd''
      exact returns_pure (composes_safe _ _) (Or.inl ⟨by omega, rfl, rfl⟩)
    · exact fun hd'' s result htooDeep => .tooDeep htooDeep (by omega)
  · exact fun hd' s result htooDeep => .tooDeep htooDeep (by omega)

/-- A call of `unary` goes one level deeper than the factor it reads. -/
theorem finishes_unary {next : Next ν} {nesting : ℕ} {r₁ : Bytes}
    (h : d < maxDepth → Returns (Safe text.length (d + 1)) (signed A text next)
      (stateBefore text r₁ (d + 1)) (Finishes text r (d + 1) v nesting)) :
    Returns (Safe text.length d) (unary A text next) (stateBefore text r₁ d)
      (Finishes text r d v (nesting + 1)) := by
  unfold unary
  by_cases hd : d < maxDepth
  · refine returns_nested (s := stateBefore text r₁ d) hd ?_
    apply returns_bind (composes_safe _ _)
    refine (h hd).mono fun s result hresult => ?_
    rcases hresult with ⟨hd', rfl, rfl⟩ | ⟨hd', pos, rfl⟩
    · apply returns_bind (composes_safe _ _)
      apply returns_modify (composes_safe _ _)
      exact returns_pure (composes_safe _ _) (Or.inl ⟨by omega, rfl, rfl⟩)
    · apply returns_bind (composes_safe _ _)
      apply returns_modify (composes_safe _ _)
      exact returns_pure (composes_safe _ _) (.tooDeep ⟨pos, rfl⟩ (by omega))
  · refine returns_nested_refused (s := stateBefore text r₁ d) (Nat.le_of_not_lt hd) ?_
    exact .tooDeep ⟨_, rfl⟩ (by omega)

theorem AddOp.isBlank_char (op : AddOp) : isBlank op.char = false := by
  cases op <;> rfl

theorem MulOp.isBlank_char (op : MulOp) : isBlank op.char = false := by
  cases op <;> rfl

theorem follow_addOp (b : Blanks) (op : AddOp) (r : Bytes) :
    Follow termOps (b.1 ++ op.char :: r) := by
  cases op
  · exact follow_cons b rfl rfl (by decide)
  · exact follow_cons b rfl rfl (by decide)

theorem follow_mulOp (b : Blanks) (op : MulOp) (r : Bytes) :
    Follow powOps (b.1 ++ op.char :: r) := by
  cases op
  · exact follow_cons b rfl rfl (by decide)
  · exact follow_cons b rfl rfl (by decide)
  · exact follow_cons b rfl rfl (by decide)

theorem complete_sign (b : Blanks) (op : AddOp) {u : Tree A .unary} (h : Complete A text u) :
    Complete A text (.sign b op u) := by
  intro n r d v hv hr hfollow hn
  obtain ⟨x, hx, rfl⟩ := Option.map_eq_some_iff.mp hv
  have hbytes : (Tree.sign b op u).bytes ++ r = b.1 ++ op.char :: (u.bytes ++ r) := by
    simp [Tree.bytes]
  have hfirst : (b.1 ++ op.char :: (u.bytes ++ r)).dropWhile isBlank =
      op.char :: (u.bytes ++ r) := dropWhile_blanks_cons b op.isBlank_char
  rw [hbytes] at hr hn ⊢
  have hinner : u.bytes ++ r <:+ text :=
    ((List.suffix_cons _ _).trans (List.suffix_append _ _)).trans hr
  rw [List.length_append, List.length_cons] at hn
  obtain ⟨n, rfl⟩ : ∃ k, n = k + 1 := ⟨n - 1, by omega⟩
  apply finishes_unary
  intro hd
  have hu := h n r (d + 1) x hx hinner hfollow (by omega)
  unfold signed
  apply returns_bind (composes_safe _ _)
  cases op with
  | minus =>
    apply returns_accept_yes hr hfirst
    apply returns_bind (composes_safe _ _)
    refine hu.mono fun s result hresult => ?_
    rcases hresult with ⟨hd', rfl, rfl⟩ | ⟨hd', pos, rfl⟩
    · exact returns_pure (composes_safe _ _) (Or.inl ⟨hd', rfl, rfl⟩)
    · exact returns_pure (composes_safe _ _) (.tooDeep ⟨pos, rfl⟩ hd')
  | plus =>
    have hsuffix := dropWhile_suffix hr
    apply returns_accept_no hr
    · rw [hfirst]
      intro hhead
      exact absurd (Option.some.inj hhead) (by decide)
    apply returns_bind (composes_safe _ _)
    apply returns_accept_yes hsuffix (by rw [List.dropWhile_idempotent, hfirst]; rfl)
    exact hu

theorem complete_power {p : Tree A .power} (h : Complete A text p) :
    Complete A text (.power p) := by
  intro n r d v hv hr hfollow hn
  change p.bytes ++ r <:+ text at hr
  change 2 * (p.bytes ++ r).length + 1 ≤ n at hn
  obtain ⟨c, m, hfirst, hc⟩ := power_head p r
  have hsuffix := dropWhile_suffix hr
  have hlength := length_dropWhile_le (p.bytes ++ r)
  have hunsigned : ∀ c', isSign c' = true →
      ((p.bytes ++ r).dropWhile isBlank).head? ≠ some c' := by
    intro c' hc' hhead
    rw [hfirst] at hhead
    rw [← Option.some.inj hhead, hc] at hc'
    cases hc'
  obtain ⟨n, rfl⟩ : ∃ k, n = k + 1 := ⟨n - 1, by omega⟩
  apply finishes_unary
  intro hd
  unfold signed
  apply returns_bind (composes_safe _ _)
  apply returns_accept_no hr (hunsigned _ rfl)
  apply returns_bind (composes_safe _ _)
  apply returns_accept_no hsuffix
  · rw [List.dropWhile_idempotent]
    exact hunsigned _ rfl
  rw [List.dropWhile_idempotent]
  exact h n r _ (d + 1) v hv hsuffix (List.dropWhile_idempotent ..) hfollow (by omega) hd

theorem complete_unary {u : Tree A .unary} (h : Complete A text u) :
    Complete A text (.unary u) := by
  intro n r d v Q hv hr hfollow hn hloop hdeep
  have hlength := length_dropWhile_le r
  have hlong : r.length ≤ (u.bytes ++ r).length := (List.suffix_append _ _).length_le
  change 2 * (u.bytes ++ r).length + 1 ≤ n at hn
  unfold term
  refine Finishes.bind (h n r d v hv hr hfollow hn) (fun hd => ?_) hdeep
  apply hloop hd
  rw [rounds_descend]
  omega

theorem complete_mulOp {lhs : Tree A .term} (hlhs : Complete A text lhs) (b : Blanks) (op : MulOp)
    {rhs : Tree A .unary} (hrhs : Complete A text rhs) :
    Complete A text (.mulOp lhs b op rhs) := by
  intro n r d v Q hv hr hfollow hn hloop hdeep
  obtain ⟨x, hx, hv⟩ := Option.bind_eq_some_iff.mp hv
  obtain ⟨y, hy, hv⟩ := Option.bind_eq_some_iff.mp hv
  have hdefined : op.defined A y = true := by
    by_contra hnot
    rw [if_neg hnot] at hv
    cases hv
  rw [if_pos hdefined] at hv
  obtain rfl := Option.some.inj hv
  have hnonzero : ¬((op = .over ∨ op = .modulo) ∧ A.isZero y = true) := by
    rintro ⟨rfl | rfl, hzero⟩
    · rw [MulOp.defined, hzero] at hdefined
      cases hdefined
    · rw [MulOp.defined, hzero] at hdefined
      cases hdefined
  have hbytes : (Tree.mulOp lhs b op rhs).bytes ++ r =
      lhs.bytes ++ (b.1 ++ op.char :: (rhs.bytes ++ r)) := by
    simp [Tree.bytes]
  have hnesting : (Tree.mulOp lhs b op rhs).nesting = max lhs.nesting rhs.nesting := rfl
  have hop : (b.1 ++ op.char :: (rhs.bytes ++ r)).dropWhile isBlank =
      op.char :: (rhs.bytes ++ r) := dropWhile_blanks_cons b op.isBlank_char
  have hlength := length_dropWhile_le r
  rw [hbytes] at hr hn ⊢
  rw [hnesting] at hloop hdeep
  have hafter : op.char :: (rhs.bytes ++ r) <:+ text :=
    ((List.suffix_append _ _).trans (List.suffix_append _ _)).trans hr
  -- The loop after the left operand takes the operator and the right one, and goes on.
  apply hlhs n _ d x Q hx hr (follow_mulOp b op _) hn
  · intro hd rounds hrounds
    rw [hop] at hrounds ⊢
    simp only [List.length_append, List.length_cons] at hrounds hn
    obtain ⟨rounds, rfl⟩ : ∃ k, rounds = k + 1 := ⟨rounds - 1, by omega⟩
    unfold termLoop
    apply returns_bind (composes_safe _ _)
    apply returns_acceptAny_some (a := op) hafter
    · rw [← hop, List.dropWhile_idempotent, hop]
    · exact lookup_mulOps.mpr rfl
    have hinner := (List.suffix_cons _ _).trans hafter
    apply Finishes.bind (hrhs n r d y hy hinner hfollow (by rw [List.length_append]; omega))
    · intro hd'
      rw [if_neg hnonzero]
      exact hloop (by omega) rounds (by omega)
    · exact fun hd' => hdeep (by omega)
  · intro hd
    exact hdeep (by omega)

theorem complete_term {t : Tree A .term} (h : Complete A text t) : Complete A text (.term t) := by
  intro n r d v Q hv hr hfollow hn hloop hdeep
  have hnesting : (Tree.term t).nesting = t.nesting + 1 := rfl
  have hlength := length_dropWhile_le r
  have hsuffix : r <:+ text := (List.suffix_append _ _).trans hr
  have hlong : r.length ≤ (t.bytes ++ r).length := (List.suffix_append _ _).length_le
  change 2 * (t.bytes ++ r).length + 1 ≤ n at hn
  rw [hnesting] at hloop hdeep
  unfold exprBody
  apply returns_bind (composes_safe _ _)
  refine h n r d v _ hv hr (hfollow.mono powOps_prefix) hn ?_ ?_
  · intro hd rounds hrounds
    apply returns_termLoop_done (by omega) hsuffix hfollow
    refine hloop (by omega) _ ?_
    rw [rounds_descend]
    omega
  · rintro hd s result ⟨pos, rfl⟩
    apply returns_bind (composes_safe _ _)
    apply returns_modify (composes_safe _ _)
    exact returns_pure (composes_safe _ _) (hdeep (by omega) _ _ ⟨pos, rfl⟩)

theorem complete_addOp {lhs : Tree A .expr} (hlhs : Complete A text lhs) (b : Blanks) (op : AddOp)
    {rhs : Tree A .term} (hrhs : Complete A text rhs) :
    Complete A text (.addOp lhs b op rhs) := by
  intro n r d v Q hv hr hfollow hn hloop hdeep
  obtain ⟨x, hx, hv⟩ := Option.bind_eq_some_iff.mp hv
  obtain ⟨y, hy, hv⟩ := Option.bind_eq_some_iff.mp hv
  obtain rfl := Option.some.inj hv
  have hbytes : (Tree.addOp lhs b op rhs).bytes ++ r =
      lhs.bytes ++ (b.1 ++ op.char :: (rhs.bytes ++ r)) := by
    simp [Tree.bytes]
  have hnesting : (Tree.addOp lhs b op rhs).nesting = max lhs.nesting (rhs.nesting + 1) := rfl
  have hop : (b.1 ++ op.char :: (rhs.bytes ++ r)).dropWhile isBlank =
      op.char :: (rhs.bytes ++ r) := dropWhile_blanks_cons b op.isBlank_char
  have hlength := length_dropWhile_le r
  rw [hbytes] at hr hn ⊢
  rw [hnesting] at hloop hdeep
  have hafter : op.char :: (rhs.bytes ++ r) <:+ text :=
    ((List.suffix_append _ _).trans (List.suffix_append _ _)).trans hr
  have hinner : rhs.bytes ++ r <:+ text := (List.suffix_cons _ _).trans hafter
  have hsuffix : r <:+ text := (List.suffix_append _ _).trans hinner
  apply hlhs n _ d x Q hx hr (follow_addOp b op _) hn
  · intro hd rounds hrounds
    rw [hop] at hrounds ⊢
    simp only [List.length_append, List.length_cons] at hrounds hn
    obtain ⟨rounds, rfl⟩ : ∃ k, rounds = k + 1 := ⟨rounds - 1, by omega⟩
    unfold exprLoop
    apply returns_bind (composes_safe _ _)
    apply returns_acceptAny_some (a := op) hafter
    · rw [← hop, List.dropWhile_idempotent, hop]
    · exact lookup_addOps.mpr rfl
    apply returns_bind (composes_safe _ _)
    refine hrhs n r d y _ hy hinner (hfollow.mono powOps_prefix) (by
      rw [List.length_append]; omega) ?_ ?_
    · intro hd' rounds' hrounds'
      apply returns_termLoop_done (by omega) hsuffix hfollow
      exact hloop (by omega) rounds (by omega)
    · rintro hd' s result ⟨pos, rfl⟩
      exact returns_pure (composes_safe _ _) (hdeep (by omega) _ _ ⟨pos, rfl⟩)
  · intro hd
    exact hdeep (by omega)

/-- By the production at the root of the tree. -/
theorem complete {l : Level} (t : Tree A l) : Complete A text t := by
  induction t with
  | term t ih => exact complete_term ih
  | addOp lhs b op rhs ihl ihr => exact complete_addOp ihl b op ihr
  | unary u ih => exact complete_unary ih
  | mulOp lhs b op rhs ihl ihr => exact complete_mulOp ihl b op ihr
  | sign b op u ih => exact complete_sign b op ih
  | power p ih => exact complete_power ih
  | pow base b exponent ihb ihe => exact complete_pow ihb b ihe
  | primary p ih => exact complete_primary ih
  | number b number => exact complete_number b number
  | ident b name => exact complete_ident b name
  | call b name b' arg b'' ih => exact complete_call b name b' ih b''
  | paren b inner b' ih => exact complete_paren b ih b'

end GeminiCpp.ExpressionParser
