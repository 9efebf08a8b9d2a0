import GeminiCpp.Calculator.Evaluate

/-! The calculator on any text: it ends, it reads nothing outside the text, and it refuses exactly
what is nested more than `maxDepth` deep. -/
namespace GeminiCpp.ExpressionParser
open Traced Traced.Prog

variable {ν : Type} {A : Arith ν} {text : Bytes} {n : ℕ} {t : Tree A .expr} {v : ν}

/-- By induction on the actions so far: only an `enter` adds an active call, and it is checked. -/
theorem Safe.active_le {size : ℕ} {es : List Action} (hes : Safe size 0 es)
    {es₁ es₂ : List Action} (hsplit : es = es₁ ++ es₂) : active es₁ ≤ maxDepth := by
  induction es₁ using List.reverseRecOn generalizing es₂ with
  | nil => exact Int.natCast_nonneg _
  | append_singleton es₁ e ih =>
    have hbefore : active es₁ ≤ maxDepth := ih (hsplit.trans (List.append_assoc ..))
    rw [active_append]
    cases e with
    | enter =>
      have henter := hes.enters es₁ es₂ (by rw [hsplit, List.append_assoc]; rfl)
      have hone : active [.enter] = 1 := rfl
      omega
    | leave =>
      have hone : active [.leave] = -1 := rfl
      omega
    | read i =>
      have hzero : active [.read i] = 0 := rfl
      omega
    | move pos =>
      have hzero : active [.move pos] = 0 := rfl
      omega

/-- The two errors of a text that has a value begin with different letters. -/
theorem notFinite_ne_tooDeep (pos : ℕ) : ¬ TooDeep (.error
    (failure (ascii "result is not a finite number") pos) : Result ν) := by
  rintro ⟨pos', h⟩
  have hmessage := congrArg Error.message (Except.error.inj h)
  have hhead := congrArg List.head? hmessage
  exact absurd (Option.some.inj hhead) (by decide)

theorem Evaluates.tooDeep_iff {nesting : ℕ} {result : Result ν}
    (h : Evaluates A v nesting result) : TooDeep result ↔ maxDepth < nesting := by
  rcases h with ⟨hd, -, rfl⟩ | ⟨hd, -, pos, rfl⟩ | ⟨hd, hdeep⟩
  · constructor
    · rintro ⟨pos, hpos⟩
      cases hpos
    · intro hlt
      omega
  · constructor
    · intro hdeep
      exact absurd hdeep (notFinite_ne_tooDeep pos)
    · intro hlt
      omega
  · exact ⟨fun _ => hd, fun _ => hdeep⟩

theorem evaluateExpression_returns (A : Arith ν) (text : Bytes) :
    ∃ result, evaluateExpression A text = .ok result := by
  unfold evaluateExpression
  by_cases hlong : 4096 < text.length
  · rw [if_pos hlong]
    exact ⟨_, rfl⟩
  · rw [if_neg hlong]
    exact exists_result A le_rfl

/-- Evaluation ends on every text. No run of the parser leaves the text or has more than `maxDepth`
calls active. Where the text has a value, the depth check fails exactly if it is nested deeper. -/
theorem runParser_depth (A : Arith ν) (text : Bytes) (n : ℕ) (hn : boundFor text.length ≤ n) :
    (∃ result, evaluateExpression A text = .ok result) ∧
    (∃ result, (runParser A text n).result = .ok result ∧
      ∀ t, Derives A text t → t.value ≠ none → (TooDeep result ↔ maxDepth < t.nesting)) ∧
    (∀ i, .read i ∈ (runParser A text n).events → i < text.length) ∧
    (∀ pos, .move pos ∈ (runParser A text n).events → pos ≤ text.length) ∧
    ∀ es₁ es₂, (runParser A text n).events = es₁ ++ es₂ → active es₁ ≤ maxDepth := by
  obtain ⟨hsafe, result, hresult, -⟩ := @returns_parse _ A text n hn
  refine ⟨evaluateExpression_returns A text, ⟨result, hresult, ?_⟩, hsafe.reads, hsafe.moves, ?_⟩
  · intro t ht hvalue
    obtain ⟨v, hv⟩ := Option.ne_none_iff_exists'.mp hvalue
    exact (evaluates_of_derives ht hv hn hresult).tooDeep_iff
  · intro es₁ es₂ hsplit
    exact hsafe.active_le hsplit

theorem runParser_depth_product :
    ∃ result, (runParser integers (ascii "(1+2)*3") 16).result = .ok result ∧ ¬ TooDeep result := by
  obtain ⟨-, ⟨result, hresult, hdeep⟩, -⟩ :=
    runParser_depth integers (ascii "(1+2)*3") 16 (by decide)
  refine ⟨result, hresult, ?_⟩
  rw [hdeep product.tree.toExpr product.derives_print (by decide)]
  decide

end GeminiCpp.ExpressionParser
