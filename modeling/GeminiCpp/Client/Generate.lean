import GeminiCpp.Client.Retry

/-! A call of the client is its last attempt: what comes before and after it shows the
caller nothing. -/
namespace GeminiCpp
open Traced Traced.Prog

def Event.isHttp : Event → Prop
  | .http _ => True
  | _ => False

/-- Events of a client that show its caller nothing. -/
def Event.silent : Event → Prop
  | .metric .. | .http _ | .bytes _ | .response _ | .sleep _ => True
  | _ => False

def Event.isMetric : Event → Prop
  | .metric .. => True
  | _ => False

theorem Event.isMetric.silent {e : Event} (h : e.isMetric) : e.silent := by
  cases e <;> trivial

theorem Event.isMetric.not_isHttp {e : Event} (h : e.isMetric) : ¬ e.isHttp := by
  cases e <;> first | exact id | exact h.elim

namespace Client
variable {ω τ : Type} (c : Client ω)

theorem wp_record (start : Millis) (result : Result GenerateResponse) (w : ω) :
    wp (c.record start result) w fun es _ r =>
      (∀ e ∈ es, e.isMetric) ∧ r = .ok () := by
  unfold record
  cases result <;> simp [wp_bind, Event.isMetric]

/-- A call is one attempt, the last one, with other events around it. -/
def IsLastAttempt (attempt : Program (τ × ω) (Result GenerateResponse)) (I : τ → Prop)
    (es : List Event) (r : MayThrow (Result GenerateResponse)) : Prop :=
  ∃ s before after, I s.1 ∧ es = before ++ (attempt s).events ++ after ∧
    r = (attempt s).result.map checkBlocked ∧ (∀ e ∈ before, e.silent) ∧
    ∀ e ∈ after, e.isMetric

theorem IsLastAttempt.cons {attempt : Program (τ × ω) (Result GenerateResponse)} {I : τ → Prop}
    {es es₀ : List Event} {r : MayThrow (Result GenerateResponse)}
    (h : IsLastAttempt attempt I es r) (h₀ : ∀ e ∈ es₀, e.silent) :
    IsLastAttempt attempt I (es₀ ++ es) r := by
  obtain ⟨s, before, after, hs, rfl, hr, hbefore, hafter⟩ := h
  refine ⟨s, es₀ ++ before, after, hs, by simp, hr, ?_, hafter⟩
  intro e he
  exact (List.mem_append.mp he).elim (h₀ e) (hbefore e)

/-- The attempts of a call, and the metrics after them. -/
theorem wp_attempts (attempt : Program (τ × ω) (Result GenerateResponse)) (canRetry : τ → Bool)
    {I : τ → Prop} {v : τ} (hv : I v)
    (hstep : ∀ s e, I s.1 → (attempt s).result = .ok (.error e) →
      canRetry (attempt s).state.1 = true →
      I (attempt s).state.1 ∧ ∀ ev ∈ (attempt s).events, ev.silent)
    (start : Millis) (w : ω) :
    wp (do
      let result ← Prog.withLocals v (c.withRetry attempt canRetry)
      c.record start (checkBlocked result)
      return checkBlocked result) w fun es _ r => IsLastAttempt attempt I es r := by
  simp only [wp_bind, wp_withLocals, withRetry]
  refine wp_mono (wp_retryFrom c (fun _ _ => trivial) (fun _ => trivial) hstep _ _ _ hv) ?_
  intro es s' r h
  obtain ⟨before, s, hs, hbefore, hes, hs', hr⟩ := h
  subst hes hs' hr
  have hstart : ∀ e ∈ before ++ [.metric .attempts 1], e.silent := by
    intro e he
    rcases List.mem_append.mp he with he | he
    · exact hbefore e he
    · rw [List.mem_singleton.mp he]
      trivial
  cases hr : (attempt s).result with
  | error x => exact ⟨s, _, [], hs, by simp, by rw [hr]; rfl, hstart, by simp⟩
  | ok result =>
    simp only [then_ok, wp_bind]
    refine wp_mono (wp_record c _ _ _) fun after _ r h => ?_
    obtain ⟨hafter, rfl⟩ := h
    simp only [then_ok, wp_pure, List.append_nil]
    exact ⟨s, _, after, hs, by simp, by rw [hr]; rfl, hstart, hafter⟩

/-- What one attempt of `generate` returns is the decoded body of its response. -/
theorem wp_generateAttempt (body : Bytes) (s : Unit × ω) :
    wp (c.generateAttempt body) s fun es _ r =>
      ∃ request response, es = [.http request, .response response] ∧
        ∀ reply, r = .ok (.ok reply) → ∃ answer, response = .ok answer ∧
          Wire.parseResponseText c.text answer.body = .ok (.ok reply) := by
  simp only [generateAttempt, Transport.run, wp_bind, wp_lift, wp_emit, wp_ask, wp_pure, then_ok,
    List.append_nil, wp_ofExcept]
  generalize c.makeRequest (c.endpoint (ascii "generateContent") false) body = request
  generalize (c.transport.send request s.2).1 = response
  cases c.checkHttp response with
  | error x => exact ⟨request, response, rfl, fun reply h => by cases h⟩
  | ok checked =>
    cases checked with
    | error e => exact ⟨request, response, rfl, fun reply h => by cases h⟩
    | ok _ =>
      cases response with
      | error e => exact ⟨request, .error e, rfl, fun reply h => by cases h⟩
      | ok answer => exact ⟨request, .ok answer, rfl, fun reply h => ⟨answer, rfl, h⟩⟩

theorem silent_generateAttempt (body : Bytes) (s : Unit × ω) :
    ∀ e ∈ (c.generateAttempt body s).events, e.silent := by
  obtain ⟨request, response, hes, -⟩ := wp_iff.mp (c.wp_generateAttempt body s)
  rw [hes]
  simp [Event.silent]

theorem wp_generate (request : GenerateRequest) (w : ω) (hvalid : c.validate request = .ok ()) :
    wp (c.generate request) w fun es _ r =>
      (∃ x, c.text.dump (Wire.requestToJson request) = .error x ∧ r = .error x ∧
        ∀ e ∈ es, e.isMetric) ∨
      ∃ body, c.text.dump (Wire.requestToJson request) = .ok body ∧
        IsLastAttempt (c.generateAttempt body) (fun _ => True) es r := by
  unfold generate generateValid
  rw [wp_bind, wp_emit, then_ok, hvalid, wp_bind, wp_ask, then_ok, wp_bind, wp_ofExcept]
  cases c.text.dump (Wire.requestToJson request) with
  | error x => exact Or.inl ⟨x, rfl, rfl, by simp [Event.isMetric]⟩
  | ok body =>
    rw [then_ok]
    refine wp_mono (c.wp_attempts (c.generateAttempt body) (fun _ => true) (I := fun _ => True)
      trivial ?_ _ _) fun es s' r h => ?_
    · exact fun s _ _ _ _ => ⟨trivial, c.silent_generateAttempt body s⟩
    · have hcall : IsLastAttempt _ _ ([.metric .requests 1] ++ es) r :=
        h.cons (by simp [Event.silent])
      exact Or.inr ⟨body, rfl, hcall⟩

end Client
end GeminiCpp
