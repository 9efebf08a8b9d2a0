import GeminiCpp.Client.Basic

/-! The retry loop returns what its last attempt returned, and every attempt before it
failed in a way that allowed another one. -/
namespace GeminiCpp.Client
open Traced Traced.Prog

variable {ω τ α : Type} (c : Client ω)

theorem wp_delayFor (h : Host ω) (policy : RetryPolicy) (i : ℕ) (e : Error) (w : ω) :
    wp (h.delayFor policy i e) w fun es _ r => es = [] ∧ ∃ d, r = .ok d := by
  unfold Host.delayFor
  cases e.retryAfter <;> simp

/-- A last attempt, run from local variables that satisfy `I`, after events that satisfy `P`. -/
def LastAttempt (attempt : Program (τ × ω) (Result α)) (I : τ → Prop) (P : Event → Prop)
    (es : List Event) (s' : τ × ω) (r : MayThrow (Result α)) : Prop :=
  ∃ before s, I s.1 ∧ (∀ e ∈ before, P e) ∧
    es = before ++ .metric .attempts 1 :: (attempt s).events ∧
    s' = (attempt s).state ∧ r = (attempt s).result

variable {attempt : Program (τ × ω) (Result α)} {canRetry : τ → Bool} {I : τ → Prop}
  {P : Event → Prop}

theorem LastAttempt.of_run {s : τ × ω} (hs : I s.1) :
    LastAttempt attempt I P (.metric .attempts 1 :: (attempt s).events) (attempt s).state
      (attempt s).result :=
  ⟨[], s, hs, by simp, rfl, rfl, rfl⟩

theorem LastAttempt.cons {es₀ es : List Event} {s' : τ × ω} {r : MayThrow (Result α)}
    (h : LastAttempt attempt I P es s' r) (h₀ : ∀ e ∈ es₀, P e) :
    LastAttempt attempt I P (es₀ ++ es) s' r := by
  obtain ⟨before, s, hI, hP, rfl, hs, hr⟩ := h
  refine ⟨es₀ ++ before, s, hI, fun e he => ?_, (List.append_assoc ..).symm, hs, hr⟩
  exact (List.mem_append.mp he).elim (h₀ e) (hP e)

/-- `I` and `P` are kept by every attempt that the loop follows with another one. -/
theorem wp_retryFrom (hmetric : ∀ f n, P (.metric f n)) (hsleep : ∀ d, P (.sleep d))
    (hstep : ∀ s e, I s.1 → (attempt s).result = .ok (.error e) →
      canRetry (attempt s).state.1 = true →
      I (attempt s).state.1 ∧ ∀ ev ∈ (attempt s).events, P ev)
    (left i : ℕ) (s : τ × ω) (hs : I s.1) :
    wp (retryFrom c attempt canRetry left i) s (LastAttempt attempt I P) := by
  induction left generalizing i s with
  | zero =>
    simp only [retryFrom, countedAttempt, wp_bind, wp_emit, then_ok]
    exact LastAttempt.of_run hs
  | succ left ih =>
    simp only [retryFrom, countedAttempt, wp_bind, wp_emit, then_ok]
    rw [wp_iff]
    have last : LastAttempt attempt I P _ _ _ := .of_run hs
    rcases hr : (attempt s).result with x | (e | a)
    · simpa [hr] using last
    · simp only [then_ok, wp_bind, wp_get]
      by_cases hretry : e.retryable && canRetry (attempt s).state.1
      · obtain ⟨hI, hP⟩ := hstep s e hs hr (Bool.and_eq_true_iff.mp hretry).2
        simp only [hretry, if_true, wp_bind, wp_lift]
        refine wp_mono (wp_delayFor c.host _ i e _) ?_
        rintro _ w' _ ⟨rfl, d, rfl⟩
        simp only [then_ok, wp_bind, wp_emit, wp_lift, wp_modify]
        refine wp_mono (ih (i + 1) _ hI) fun es s' r h => ?_
        have hbefore : ∀ ev ∈ Event.metric .attempts 1 :: (attempt s).events ++
            [.metric .retries 1, .sleep d], P ev := by
          simp only [List.cons_append, List.mem_cons, List.mem_append, List.not_mem_nil, or_false]
          rintro ev (rfl | hev | rfl | rfl)
          exacts [hmetric _ _, hP ev hev, hmetric _ _, hsleep d]
        simpa using h.cons hbefore
      · simpa [hretry, hr] using last
    · simpa [hr] using last

end GeminiCpp.Client
