import GeminiCpp.Calculator.Grammar
import GeminiCpp.Calculator.Steps

/-! Numbers and names: the parser reads as much of the text as it can, and that is a token of the
grammar. -/
namespace GeminiCpp.ExpressionParser
open Traced Traced.Prog

variable {α ν : Type} {A : Arith ν} {text : Bytes} {h : ℕ} {s : ExpressionParser}

/-- Characters that may stand in a number or a name. -/
def isWord (c : UInt8) : Bool := isMantissa c || isLetter c

/-- The length of a sign at the beginning of some bytes. -/
def signLength (r : Bytes) : ℕ := if r.head?.any isSign then 1 else 0

/-- The length of an exponent at the beginning of some bytes. -/
def exponentLength : Bytes → ℕ
  | [] => 0
  | mark :: r =>
    if isExponentMark mark && (r.drop (signLength r)).head?.any isDigit then
      1 + signLength r + ((r.drop (signLength r)).takeWhile isDigit).length
    else 0

/-- The length of a number at the beginning of some bytes. -/
def numberLength (r : Bytes) : ℕ :=
  (r.takeWhile isMantissa).length + exponentLength (r.dropWhile isMantissa)

theorem getElem?_add (n : ℕ) : text[s.pos + n]? = ((s.rest text).drop n).head? := by
  rw [rest, List.drop_drop, List.head?_drop]

/-- Digits at a distance of `k`, where the parser moves only if there are any. -/
theorem returns_digits (k : ℕ) {Q : ExpressionParser → Unit → Prop}
    (hyes : ((s.rest text).drop k).head?.any isDigit = true →
      Q (s.advance (k + (((s.rest text).drop k).takeWhile isDigit).length)) ())
    (hno : ¬((s.rest text).drop k).head?.any isDigit = true → Q s ()) :
    Returns (Safe text.length h) (do
      if ← testAt text (s.pos + k) isDigit then
        moveTo (s.pos + k)
        skip text isDigit
      else return ()) s Q := by
  apply returns_bind (composes_safe _ _)
  apply returns_testAt
  rw [getElem?_add]
  by_cases hdigit : ((s.rest text).drop k).head?.any isDigit = true
  · have hk : k < (s.rest text).length := by
      by_contra hle
      rw [List.drop_eq_nil_of_le (by omega)] at hdigit
      cases hdigit
    rw [rest, List.length_drop] at hk
    rw [if_pos hdigit]
    apply returns_bind (composes_safe _ _)
    apply returns_moveTo_add (by omega)
    apply returns_skip
    rw [rest_advance, advance_advance]
    exact hyes hdigit
  · rw [if_neg hdigit]
    exact returns_pure (composes_safe _ _) (hno hdigit)

theorem returns_exponent {Q : ExpressionParser → Unit → Prop}
    (hQ : Q (s.advance (exponentLength (s.rest text))) ()) :
    Returns (Safe text.length h) (exponent text) s Q := by
  unfold exponent
  apply returns_bind (composes_safe _ _)
  apply returns_get (composes_safe _ _)
  apply returns_bind (composes_safe _ _)
  apply returns_testAt
  rw [getElem?_pos]
  cases hr : s.rest text with
  | nil =>
    rw [hr] at hQ
    exact returns_pure (composes_safe _ _) hQ
  | cons mark r =>
    rw [hr] at hQ
    by_cases hmark : isExponentMark mark = true
    · have hlook : (if r.head?.any isSign then s.pos + 2 else s.pos + 1) =
          s.pos + (1 + signLength r) := by
        unfold signLength
        split <;> rfl
      have hdrop : (s.rest text).drop (1 + signLength r) = r.drop (signLength r) := by
        rw [hr, Nat.add_comm, List.drop_succ_cons]
      simp only [exponentLength, hmark, Bool.true_and] at hQ
      simp only [List.head?_cons, Option.any_some, hmark, if_true]
      apply returns_bind (composes_safe _ _)
      apply returns_testAt
      rw [getElem?_add, hr, List.drop_succ_cons, List.drop_zero, hlook]
      apply returns_digits
      · intro hdigit
        rw [hdrop] at hdigit ⊢
        rw [if_pos hdigit] at hQ
        exact hQ
      · intro hdigit
        rw [hdrop] at hdigit
        rw [if_neg hdigit] at hQ
        exact hQ
    · simp only [List.head?_cons, Option.any_some, hmark]
      simp only [exponentLength, hmark, Bool.false_and, Bool.false_eq_true, if_false] at hQ
      exact returns_pure (composes_safe _ _) hQ

/-- A number that the C library reads to its end is its value; any other is an error where it
begins. -/
theorem returns_number_or (hs : s.pos ≤ text.length) {Q : ExpressionParser → Result ν → Prop}
    {token : Bytes} (htoken : token = (s.rest text).take (numberLength (s.rest text)))
    (hyes : (A.strtod token).2 = token.length →
      Q (s.advance (numberLength (s.rest text))) (.ok (A.strtod token).1))
    (hno : (A.strtod token).2 ≠ token.length →
      Q s (.error (failure (ascii "malformed number '" ++ token ++ ascii "'") s.pos))) :
    Returns (Safe text.length h) (number A text) s Q := by
  have hend : (s.advance ((s.rest text).takeWhile isMantissa).length).advance (exponentLength
      ((s.advance ((s.rest text).takeWhile isMantissa).length).rest text)) =
      s.advance (numberLength (s.rest text)) := by
    rw [rest_advance, drop_length_takeWhile, advance_advance]
    rfl
  unfold number
  apply returns_bind (composes_safe _ _)
  apply returns_get (composes_safe _ _)
  apply returns_bind (composes_safe _ _)
  apply returns_skip
  apply returns_bind (composes_safe _ _)
  apply returns_exponent
  rw [hend]
  apply returns_bind (composes_safe _ _)
  apply returns_tokenFrom
  have hread : (text.drop s.pos).take ((s.advance (numberLength (s.rest text))).pos - s.pos) =
      token := by
    rw [advance_pos, Nat.add_sub_cancel_left, htoken]
    rfl
  rw [hread]
  by_cases hreads : (A.strtod token).2 = token.length
  · rw [if_neg (not_not.mpr hreads)]
    exact returns_pure (composes_safe _ _) (hyes hreads)
  · rw [if_pos hreads]
    apply returns_bind (composes_safe _ _)
    apply returns_moveTo hs
    exact returns_fail (hno hreads)

theorem returns_number (hs : s.pos ≤ text.length) {Q : ExpressionParser → Result ν → Prop}
    {token : Bytes} (htoken : token = (s.rest text).take (numberLength (s.rest text)))
    (hyes : (A.strtod token).2 = token.length →
      Q (s.advance (numberLength (s.rest text))) (.ok (A.strtod token).1))
    (hno : (A.strtod token).2 ≠ token.length → ∀ e, Q s (.error e)) :
    Returns (Safe text.length h) (number A text) s Q :=
  returns_number_or hs htoken hyes fun hreads => hno hreads _

theorem isWord_of_isDigit {c : UInt8} (hc : isDigit c = true) : isWord c = true := by
  simp [isWord, isMantissa, hc]

theorem isSign_of_isWord {c : UInt8} (hc : isWord c = true) : isSign c = false := by
  by_contra hsign
  simp only [isSign, Bool.or_eq_false_iff, not_and_or, decide_eq_false_iff_not, not_not] at hsign
  rcases hsign with rfl | rfl
  · cases hc
  · cases hc

theorem take_length_takeWhile (test : UInt8 → Bool) (r : Bytes) :
    r.take (r.takeWhile test).length = r.takeWhile test := by
  have hsplit : r.takeWhile test ++ r.dropWhile test = r := List.takeWhile_append_dropWhile
  have htake := @List.take_left _ (r.takeWhile test) (r.dropWhile test)
  rwa [hsplit] at htake

theorem signLength_le (r : Bytes) : signLength r ≤ 1 := by
  unfold signLength
  split <;> omega

theorem isSign_of_mem_take {r : Bytes} {c : UInt8} (hc : c ∈ r.take (signLength r)) :
    isSign c = true := by
  unfold signLength at hc
  by_cases hsign : r.head?.any isSign = true
  · rw [if_pos hsign] at hc
    cases r with
    | nil => cases hc
    | cons d r =>
      obtain rfl := List.mem_singleton.mp hc
      exact hsign
  · rw [if_neg hsign] at hc
    cases hc

theorem signLength_append {sign r : Bytes} (hshort : sign.length ≤ 1)
    (hsign : ∀ c ∈ sign, isSign c = true) (hr : ∀ c, r.head? = some c → isSign c = false) :
    signLength (sign ++ r) = sign.length := by
  unfold signLength
  cases sign with
  | nil =>
    have hnot : ¬ r.head?.any isSign = true := by
      cases r with
      | nil => simp
      | cons c r => simp [hr c rfl]
    exact if_neg hnot
  | cons c sign =>
    have hnil : sign = [] := by
      rw [List.length_cons] at hshort
      exact List.length_eq_zero_iff.mp (by omega)
    rw [hnil]
    exact if_pos (hsign c List.mem_cons_self)

theorem exponentLength_le (r : Bytes) : exponentLength r ≤ r.length := by
  cases r with
  | nil => exact le_refl 0
  | cons mark r =>
    rw [exponentLength, List.length_cons]
    have htake := (List.takeWhile_prefix isDigit (l := r.drop (signLength r))).length_le
    rw [List.length_drop] at htake
    split
    · rename_i hexponent
      obtain ⟨-, hdigit⟩ := Bool.and_eq_true_iff.mp hexponent
      have hsign : signLength r < r.length := by
        by_contra hle
        rw [List.drop_eq_nil_of_le (by omega)] at hdigit
        cases hdigit
      omega
    · omega

theorem numberLength_le (r : Bytes) : numberLength r ≤ r.length := by
  have hexponent := exponentLength_le (r.dropWhile isMantissa)
  have hsplit := congrArg List.length (@List.takeWhile_append_dropWhile _ isMantissa r)
  rw [List.length_append] at hsplit
  unfold numberLength
  omega

/-- What is read as an exponent is one. -/
theorem isExponent_take (r : Bytes) : IsExponent (r.take (exponentLength r)) := by
  cases r with
  | nil => exact .none
  | cons mark r =>
    rw [exponentLength]
    by_cases hexponent :
        (isExponentMark mark && (r.drop (signLength r)).head?.any isDigit) = true
    · obtain ⟨hmark, hdigit⟩ := Bool.and_eq_true_iff.mp hexponent
      rw [if_pos hexponent, Nat.add_assoc, Nat.add_comm 1, List.take_succ_cons, List.take_add,
        take_length_takeWhile]
      have hshort : (r.take (signLength r)).length ≤ 1 :=
        (List.length_take_le _ _).trans (signLength_le r)
      refine .some hmark hshort (fun c hc => isSign_of_mem_take hc) ?_
        (fun c hc => List.mem_takeWhile_imp hc)
      cases hdigits : r.drop (signLength r) with
      | nil => simp [hdigits] at hdigit
      | cons d digits =>
        rw [hdigits] at hdigit
        have hd : isDigit d = true := hdigit
        rw [List.takeWhile_cons_of_pos hd]
        exact List.cons_ne_nil _ _
    · rw [if_neg hexponent]
      exact .none

theorem isDigit_of_isWord {c : UInt8} (hc : isWord c = false) : isDigit c = false := by
  simp only [isWord, isMantissa, Bool.or_eq_false_iff] at hc
  exact hc.1.1

theorem isExponentMark_of_isWord {c : UInt8} (hc : isWord c = false) :
    isExponentMark c = false := by
  by_contra hmark
  simp only [isExponentMark, Bool.or_eq_false_iff, not_and_or, decide_eq_false_iff_not,
    not_not] at hmark
  rcases hmark with rfl | rfl
  · cases hc
  · cases hc

/-- An exponent that no word goes on after is read to its end. -/
theorem exponentLength_append {e r : Bytes} (he : IsExponent e)
    (hr : ∀ c, r.head? = some c → isWord c = false) : exponentLength (e ++ r) = e.length := by
  cases he with
  | none =>
    cases r with
    | nil => rfl
    | cons c r =>
      have hmark := isExponentMark_of_isWord (hr c rfl)
      simp [exponentLength, hmark]
  | @some mark sign digits hmark hshort hsign hne hdigits =>
    obtain ⟨d, digits, rfl⟩ := List.exists_cons_of_ne_nil hne
    have hdigit : isDigit d = true := hdigits d List.mem_cons_self
    have hsigns : signLength (sign ++ (d :: digits ++ r)) = sign.length := by
      apply signLength_append hshort hsign
      intro c hc
      obtain rfl := Option.some.inj hc
      exact isSign_of_isWord (isWord_of_isDigit hdigit)
    have htake : (d :: digits ++ r).takeWhile isDigit = d :: digits :=
      takeWhile_append hdigits fun c hc => isDigit_of_isWord (hr c hc)
    rw [List.cons_append, List.append_assoc, exponentLength, hsigns, List.drop_left, htake]
    simp [hmark, hdigit]
    omega

/-- A number that no word goes on after is read to its end. -/
theorem numberLength_append (n : Number A) {r : Bytes}
    (hr : ∀ c, r.head? = some c → isWord c = false) :
    numberLength (n.token ++ r) = n.token.length := by
  have hstop : ∀ c, (n.exponent ++ r).head? = some c → isMantissa c = false := by
    intro c hc
    have hexponent := n.isExponent
    generalize n.exponent = e at hc hexponent
    cases hexponent with
    | none =>
      have hword := hr c hc
      simp only [isWord, Bool.or_eq_false_iff] at hword
      exact hword.1
    | some hmark =>
      obtain rfl := Option.some.inj hc
      by_contra hmantissa
      simp only [isExponentMark, Bool.or_eq_true, decide_eq_true_eq] at hmark
      rcases hmark with rfl | rfl
      · exact hmantissa rfl
      · exact hmantissa rfl
  unfold numberLength Number.token
  rw [List.append_assoc, takeWhile_append n.isMantissa hstop, dropWhile_append n.isMantissa hstop,
    exponentLength_append n.isExponent hr, List.length_append]

/-- An exponent is read, whatever follows it. -/
theorem le_exponentLength {e : Bytes} (he : IsExponent e) (r : Bytes) :
    e.length ≤ exponentLength (e ++ r) := by
  cases he with
  | none => exact Nat.zero_le _
  | @some mark sign digits hmark hshort hsign hne hdigits =>
    obtain ⟨d, digits, rfl⟩ := List.exists_cons_of_ne_nil hne
    have hdigit : isDigit d = true := hdigits d List.mem_cons_self
    have hsigns : signLength (sign ++ (d :: digits ++ r)) = sign.length := by
      apply signLength_append hshort hsign
      intro c hc
      obtain rfl := Option.some.inj hc
      exact isSign_of_isWord (isWord_of_isDigit hdigit)
    have htake : (d :: digits).length ≤ ((d :: digits ++ r).takeWhile isDigit).length := by
      rw [List.takeWhile_append_of_pos hdigits, List.length_append]
      exact Nat.le_add_right _ _
    rw [List.cons_append, List.append_assoc, exponentLength, hsigns, List.drop_left]
    rw [List.cons_append] at htake ⊢
    rw [hmark, List.head?_cons, Option.any_some, hdigit, Bool.and_self, if_pos rfl,
      List.length_cons, List.length_append]
    omega

theorem le_numberLength {token r : Bytes} (htoken : IsNumber token) (hr : token <+: r) :
    token.length ≤ numberLength r := by
  obtain ⟨t, rfl⟩ := hr
  cases htoken with
  | @intro mantissa exponent hne hmantissa hexponent =>
    rw [List.append_assoc, numberLength, List.takeWhile_append_of_pos hmantissa,
      List.dropWhile_append_of_pos hmantissa, List.length_append, List.length_append]
    have hread := le_exponentLength hexponent t
    cases hexponent with
    | none =>
      rw [List.length_nil]
      omega
    | @some mark sign digits hmark =>
      have hstop : ¬ isMantissa mark = true := by
        simp only [isExponentMark, Bool.or_eq_true, decide_eq_true_eq] at hmark
        rcases hmark with rfl | rfl <;> decide
      rw [List.cons_append, List.dropWhile_cons_of_neg hstop]
      rw [List.cons_append] at hread
      omega

/-- What is read as a number is the longest one. -/
theorem longestNumber_take {r : Bytes} (hr : r.head?.any isMantissa = true) :
    LongestNumber (r.take (numberLength r)) r where
  number := by
    unfold numberLength
    rw [List.take_add, take_length_takeWhile, drop_length_takeWhile]
    refine .intro ?_ (fun c hc => List.mem_takeWhile_imp hc) (isExponent_take _)
    cases r with
    | nil => cases hr
    | cons c r =>
      have hc : isMantissa c = true := hr
      rw [List.takeWhile_cons_of_pos hc]
      exact List.cons_ne_nil _ _
  begins := List.take_prefix _ _
  longest other hother hbegins := by
    rw [List.length_take, min_eq_left (numberLength_le r)]
    exact le_numberLength hother hbegins

/-- What is read as a number, if `strtod` reads it to its end, is one. -/
theorem exists_number {r : Bytes} (hr : r.head?.any isMantissa = true)
    (hreads : (A.strtod (r.take (numberLength r))).2 = (r.take (numberLength r)).length) :
    ∃ n : Number A, n.token = r.take (numberLength r) := by
  have hnumber := (longestNumber_take hr).number
  generalize r.take (numberLength r) = token at hreads hnumber ⊢
  cases hnumber with
  | intro hne hmantissa hexponent => exact ⟨⟨_, _, hne, hmantissa, hexponent, hreads⟩, rfl⟩

theorem isAlphanumeric_of_isWord {c : UInt8} (hc : isWord c = false) :
    isAlphanumeric c = false := by
  simp only [isWord, isMantissa, Bool.or_eq_false_iff] at hc
  exact Bool.or_eq_false_iff.mpr ⟨hc.2, hc.1.1⟩

/-- A name that no word goes on after is read to its end. -/
theorem takeWhile_name (name : Name) {r : Bytes} (hr : ∀ c, r.head? = some c → isWord c = false) :
    (name.token ++ r).takeWhile isAlphanumeric = name.token := by
  apply takeWhile_append
  · intro c hc
    rcases List.mem_cons.mp hc with rfl | hrest
    · exact Bool.or_eq_true_iff.mpr (Or.inl name.isLetter)
    · exact name.isAlphanumeric c hrest
  · exact fun c hc => isAlphanumeric_of_isWord (hr c hc)

theorem exists_name {r : Bytes} (hr : r.head?.any isLetter = true) :
    ∃ name : Name, name.token = r.takeWhile isAlphanumeric := by
  cases r with
  | nil => cases hr
  | cons c r =>
    have hc : isLetter c = true := hr
    have hfirst : isAlphanumeric c = true := Bool.or_eq_true_iff.mpr (Or.inl hc)
    refine ⟨⟨c, r.takeWhile isAlphanumeric, hc, fun d hd => List.mem_takeWhile_imp hd⟩, ?_⟩
    rw [List.takeWhile_cons_of_pos hfirst]
    rfl

theorem lookup_cons_eq {κ : Type} [BEq κ] [LawfulBEq κ] [DecidableEq κ] (k key : κ) (a : α)
    (entries : List (κ × α)) :
    ((key, a) :: entries).lookup k = if k = key then some a else entries.lookup k := by
  rw [List.lookup_cons]
  by_cases hk : k = key
  · simp [hk]
  · simp [hk, beq_eq_false_iff_ne.mpr hk]

/-- Returns a value, or fails if there is none. -/
def returnOr (message : Bytes) : Option ν → Parse (Result ν)
  | some v => return .ok v
  | none => fail message

/-- The error of a call that has no value. -/
def callError (name : Bytes) : Bytes :=
  if name = ascii "sqrt" then ascii "sqrt of negative number"
  else if name = ascii "log" ∨ name = ascii "log10" then ascii "log of non-positive number"
  else ascii "unknown function '" ++ name ++ ascii "'"

theorem returnOr_domain (refused : Bool) (message : Bytes) (v : ν) :
    (if refused then fail message else return .ok v) =
      returnOr message (if refused then none else some v) := by
  cases refused <;> rfl

theorem call_eq (name : Bytes) (x : ν) :
    call A name x = returnOr (callError name) (applyFunction A name x) := by
  by_cases hsqrt : name = ascii "sqrt"
  · subst hsqrt
    exact returnOr_domain _ _ _
  by_cases htotal : name ∈ [ascii "abs", ascii "sin", ascii "cos", ascii "tan", ascii "exp",
      ascii "floor", ascii "ceil"]
  · simp only [List.mem_cons, List.not_mem_nil, or_false] at htotal
    rcases htotal with rfl | rfl | rfl | rfl | rfl | rfl | rfl <;> rfl
  by_cases hlog : name = ascii "log" ∨ name = ascii "log10"
  · rcases hlog with rfl | rfl
    · exact returnOr_domain _ _ _
    · exact returnOr_domain _ _ _
  · unfold call applyFunction functions callError
    simp only [List.mem_cons, List.not_mem_nil, or_false, not_or] at htotal hlog
    simp only [lookup_cons_eq, List.lookup_nil, hsqrt, htotal, hlog, if_false, or_self,
      Option.bind_none]
    rfl

theorem returns_call {name : Bytes} {x : ν} {Q : ExpressionParser → Result ν → Prop}
    (hyes : ∀ v, applyFunction A name x = some v → Q s (.ok v))
    (hno : applyFunction A name x = none → ∀ e, Q s (.error e)) :
    Returns (Safe text.length h) (call A name x) s Q := by
  rw [call_eq]
  cases hv : applyFunction A name x with
  | none => exact returns_fail (hno hv _)
  | some v => exact returns_pure (composes_safe _ _) (hyes v hv)

/-- A name is read to its end. It is a constant, or has to be called. -/
theorem returns_identifier_name {next : Next ν} {name : Name}
    (hname : (s.rest text).takeWhile isAlphanumeric = name.token)
    {Q : ExpressionParser → Result ν → Prop}
    (hconstant : ∀ v, (constants A).lookup name.token = some v →
      Q (s.advance name.token.length) (.ok v))
    (hcall : (constants A).lookup name.token = none →
      Returns (Safe text.length h) (do
        if ← accept text '('.toUInt8 then
          match ← enclosed text next with
          | .error e => return .error e
          | .ok x => call A name.token x
        else fail (ascii "unknown identifier '" ++ name.token ++ ascii "'"))
        (s.advance name.token.length) Q) :
    Returns (Safe text.length h) (identifier A text next) s Q := by
  have hread : (text.drop s.pos).take ((s.advance name.token.length).pos - s.pos) =
      name.token := by
    rw [advance_pos, Nat.add_sub_cancel_left]
    change (s.rest text).take _ = _
    rw [← hname, take_length_takeWhile]
  unfold identifier
  apply returns_bind (composes_safe _ _)
  apply returns_get (composes_safe _ _)
  apply returns_bind (composes_safe _ _)
  apply returns_skip
  rw [hname]
  apply returns_bind (composes_safe _ _)
  apply returns_tokenFrom
  rw [hread]
  simp only [constants, lookup_cons_eq, List.lookup_nil] at hconstant hcall
  by_cases hpi : name.token = ascii "pi"
  · rw [if_pos hpi] at hconstant ⊢
    exact returns_pure (composes_safe _ _) (hconstant A.pi rfl)
  rw [if_neg hpi] at hconstant hcall ⊢
  by_cases he : name.token = ascii "e"
  · rw [if_pos he] at hconstant ⊢
    exact returns_pure (composes_safe _ _) (hconstant A.e rfl)
  rw [if_neg he] at hcall ⊢
  exact hcall rfl

theorem lookup_addOps {c : UInt8} {op : AddOp} : addOps.lookup c = some op ↔ c = op.char := by
  constructor
  · intro h
    simp only [addOps, lookup_cons_eq, List.lookup_nil] at h
    split_ifs at h with hplus hminus
    · obtain rfl := Option.some.inj h
      exact hplus
    · obtain rfl := Option.some.inj h
      exact hminus
  · rintro rfl
    cases op <;> rfl

theorem lookup_mulOps {c : UInt8} {op : MulOp} : mulOps.lookup c = some op ↔ c = op.char := by
  constructor
  · intro h
    simp only [mulOps, lookup_cons_eq, List.lookup_nil] at h
    split_ifs at h with htimes hover hmodulo
    · obtain rfl := Option.some.inj h
      exact htimes
    · obtain rfl := Option.some.inj h
      exact hover
    · obtain rfl := Option.some.inj h
      exact hmodulo
  · rintro rfl
    cases op <;> rfl

end GeminiCpp.ExpressionParser
