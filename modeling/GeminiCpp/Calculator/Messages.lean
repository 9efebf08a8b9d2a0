import GeminiCpp.Calculator.Evaluate
import GeminiCpp.Calculator.Faults

/-! The messages of the calculator's errors. They are printable, unless one quotes a byte that is no
character. -/
namespace GeminiCpp.ExpressionParser

variable {ν : Type}

def tooLong : Error := makeError .invalidArgument (ascii "expression too long")

variable {A : Arith ν} {text : Bytes} {e : Error}

theorem fault_of_error (h : evaluateExpression A text = .ok (.error e)) :
    (4096 < text.length ∧ e = tooLong) ∨ Fault A text e := by
  unfold evaluateExpression at h
  by_cases hlong : 4096 < text.length
  · rw [if_pos hlong] at h
    cases h
    exact Or.inl ⟨hlong, rfl⟩
  · rw [if_neg hlong] at h
    exact Or.inr ((faulty_parse (le_refl _)).of_result h e rfl)

/-- A message quotes a byte of the text that is no character by itself. -/
def QuotesByte (text : Bytes) (e : Error) : Prop :=
  ∃ pos c, text[pos]? = some c ∧ 0x80 ≤ c ∧
    e = failure (ascii "unexpected character '" ++ [c] ++ ascii "'") pos

theorem le_of_isAlphanumeric {c : UInt8} (hc : isAlphanumeric c = true) : c ≤ 0x7F := by
  simp only [isAlphanumeric, isLetter, isDigit, Bool.or_eq_true, Bool.and_eq_true,
    decide_eq_true_eq] at hc
  rcases hc with (hc | hc) | hc
  · exact UInt8.le_trans hc.2 (by decide)
  · exact UInt8.le_trans hc.2 (by decide)
  · exact UInt8.le_trans hc.2 (by decide)

theorem le_of_isDigit {c : UInt8} (hc : isDigit c = true) : c ≤ 0x7F :=
  le_of_isAlphanumeric (Bool.or_eq_true_iff.mpr (Or.inr hc))

theorem valid_name (name : Name) : Utf8.valid name.token = true := by
  apply Utf8.valid_of_ascii
  intro c hc
  rcases List.mem_cons.mp hc with rfl | hc
  · exact le_of_isAlphanumeric (Bool.or_eq_true_iff.mpr (Or.inl name.isLetter))
  · exact le_of_isAlphanumeric (name.isAlphanumeric c hc)

theorem valid_number {token : Bytes} (h : IsNumber token) : Utf8.valid token = true := by
  obtain ⟨-, hmantissa, hexponent⟩ := h
  have hone : ∀ {c d d' : UInt8}, (decide (c = d) || decide (c = d')) = true → d ≤ 0x7F →
      d' ≤ 0x7F → c ≤ 0x7F := by
    intro c d d' hc hd hd'
    simp only [Bool.or_eq_true, decide_eq_true_eq] at hc
    rcases hc with rfl | rfl
    · exact hd
    · exact hd'
  apply Utf8.valid_of_ascii
  intro c hc
  rcases List.mem_append.mp hc with hc | hc
  · rcases Bool.or_eq_true_iff.mp (hmantissa c hc) with hdigit | hpoint
    · exact le_of_isDigit hdigit
    · rw [of_decide_eq_true hpoint]
      decide
  · cases hexponent with
    | none => cases hc
    | some hmark hshort hsign hne hdigits =>
      rcases List.mem_cons.mp hc with rfl | hc
      · exact hone hmark (by decide) (by decide)
      · rcases List.mem_append.mp hc with hc | hc
        · exact hone (hsign c hc) (by decide) (by decide)
        · exact le_of_isDigit (hdigits c hc)

theorem valid_quoted {before after : List Char} {quoted : Bytes}
    (hbefore : before.all (fun c => c.toNat ≤ 0x7F) = true) (hquoted : Utf8.valid quoted = true)
    (hafter : after.all (fun c => c.toNat ≤ 0x7F) = true) :
    Utf8.valid (ascii (String.ofList before) ++ quoted ++ ascii (String.ofList after)) = true :=
  Utf8.valid_append_of_valid (Utf8.valid_append_of_valid (valid_ascii hbefore) hquoted)
    (valid_ascii hafter)

theorem valid_callError (name : Name) : Utf8.valid (callError name.token) = true := by
  unfold callError
  split_ifs
  · exact valid_ascii (by decide)
  · exact valid_ascii (by decide)
  · exact valid_quoted (by decide) (valid_name name) (by decide)

theorem Complaint.valid_or {pos : ℕ} {message : Bytes} (h : Complaint A text pos message) :
    Utf8.valid message = true ∨ ∃ c, text[pos]? = some c ∧ 0x80 ≤ c ∧
      message = ascii "unexpected character '" ++ [c] ++ ascii "'" := by
  have hquotes : ∀ c, text[pos]? = some c → message = ascii "unexpected character '" ++ [c] ++
      ascii "'" → Utf8.valid message = true ∨ ∃ c, text[pos]? = some c ∧ 0x80 ≤ c ∧
        message = ascii "unexpected character '" ++ [c] ++ ascii "'" := by
    rintro c hc rfl
    by_cases hascii : c ≤ 0x7F
    · left
      exact valid_quoted (by decide) (Utf8.valid_of_ascii (by simpa using hascii)) (by decide)
    · right
      refine ⟨c, hc, ?_, rfl⟩
      have hlt := UInt8.lt_iff_toNat_lt.mp (UInt8.not_le.mp hascii)
      exact UInt8.le_iff_toNat_le.mpr hlt
  cases h with
  | noOperand hc hblank hplace hoperand => exact hquotes _ hc rfl
  | noOperator hc hblank t b hread hwhole hoperator => exact hquotes _ hc rfl
  | malformedNumber hplace htoken hreads =>
    exact Or.inl (valid_quoted (by decide) (valid_number htoken.number) (by decide))
  | unknownIdentifier hplace name b hread hwhole hunknown hopen =>
    exact Or.inl (valid_quoted (by decide) (valid_name name) (by decide))
  | call hplace name b arg b' hread hx hnone => exact Or.inl (valid_callError name)
  | _ => exact Or.inl (valid_ascii (by decide))

/-- A byte from outside ASCII is no character by itself. -/
theorem valid_singleton {c : UInt8} (hc : 0x80 ≤ c) : Utf8.valid [c] = false := by
  have hnot : ¬ c ≤ 0x7F := by
    rw [UInt8.le_iff_toNat_le] at hc ⊢
    exact fun h => absurd (hc.trans h) (by decide)
  have hfirst : Utf8.first c ≠ some .start := by
    unfold Utf8.first
    split_ifs <;> simp
  have hrun : Utf8.run .start [c] = Utf8.first c := by
    change (Utf8.first c).bind some = _
    cases Utf8.first c <;> rfl
  unfold Utf8.valid
  rw [hrun]
  exact decide_eq_false hfirst

/-- The message of an error is printable unless it quotes a byte that is no character. -/
theorem valid_message_iff (h : evaluateExpression A text = .ok (.error e)) :
    Utf8.valid e.message = true ↔ ¬ QuotesByte text e := by
  have hposition : ∀ pos, Utf8.valid (ascii " at position " ++ toDecimal pos) = true := fun pos =>
    Utf8.valid_append_of_valid (valid_ascii (by decide)) (valid_toDecimal pos)
  constructor
  · intro hvalid hquotes
    obtain ⟨pos, c, -, hc, rfl⟩ := hquotes
    have hmessage : (failure (ascii "unexpected character '" ++ [c] ++ ascii "'") pos).message =
        ascii "unexpected character '" ++ [c] ++
          (ascii "'" ++ (ascii " at position " ++ toDecimal pos)) := by
      change _ ++ ascii " at position " ++ toDecimal pos = _
      simp
    rw [hmessage, Utf8.valid_append_append (by decide) (by decide),
      Utf8.valid_append (valid_ascii (by decide)), valid_singleton hc] at hvalid
    cases hvalid.1
  · intro hquotes
    rcases fault_of_error h with ⟨-, rfl⟩ | ⟨pos, message, -, rfl, hcomplaint, -⟩
    · exact valid_ascii (by decide)
    · rcases hcomplaint.valid_or with hvalid | ⟨c, hc, hbyte, rfl⟩
      · change Utf8.valid (message ++ ascii " at position " ++ toDecimal pos) = true
        rw [List.append_assoc]
        exact Utf8.valid_append_of_valid hvalid (hposition pos)
      · exact absurd ⟨pos, c, hc, hbyte, rfl⟩ hquotes

end GeminiCpp.ExpressionParser
