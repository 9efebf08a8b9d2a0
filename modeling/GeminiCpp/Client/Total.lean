import GeminiCpp.Chat.Cancel
import GeminiCpp.Client.Agreement
import GeminiCpp.Client.Calls
import GeminiCpp.Lib.Returns
import GeminiCpp.Wire.Encodable

/-! Calls that return. A call of the client throws only if its request cannot be printed, if a
document that arrives cannot be decoded, or if the callback throws; where none of these happens it
returns, with a reply that can be printed. -/
namespace GeminiCpp
open Traced Traced.Prog

variable {ω τ α : Type}

/-- The decoder of responses takes the text without an exception. -/
def Wire.Readable (text : JsonText) (body : Bytes) : Prop :=
  ∃ r, Wire.parseResponseText text body = .ok r

namespace Client

/-- A server that sends nothing but documents that decode, as long as the world keeps to `W`, as it
always does. What is parsed is valid UTF-8. -/
structure Decent (c : Client ω) (W : ω → Prop) : Prop where
  parses : ∀ b j, c.text.parse b = some j → j.wellEncoded = true
  unary : ∀ request w answer, W w → (c.transport.send request w).1 = .ok answer →
    Succeeds answer → Wire.Readable c.text answer.body
  streamed : ∀ request w, W w →
    ∀ data ∈ SseParser.sseEvents (c.transport.sendStreaming request w).1.bytes,
      data ≠ ascii "[DONE]" → Wire.Readable c.text data
  send : ∀ request w, W w → W (c.transport.send request w).2
  sendStreaming : ∀ request w, W w → W (c.transport.sendStreaming request w).2
  sleeper : ∀ delay w, W w → W (c.host.sleeper delay w)
  clock : ∀ w, W w → W (c.host.clock w).2
  rng : ∀ w, W w → W (c.host.rng w).2

variable {c : Client ω} {W : ω → Prop} (h : c.Decent W)
include h

theorem Decent.encodable {body : Bytes} {reply : GenerateResponse}
    (hreply : Wire.parseResponseText c.text body = .ok (.ok reply)) : reply.Encodable := by
  unfold Wire.parseResponseText at hreply
  cases hparse : c.text.parse body with
  | none =>
    rw [hparse] at hreply
    cases hreply
  | some j =>
    rw [hparse] at hreply
    exact Wire.encodable_of_parseGenerateResponse (h.parses body j hparse) hreply

theorem Decent.backoff (policy : RetryPolicy) (i : ℕ) {w : ω} (hw : W w) :
    W (c.host.backoff policy i w).2 := by
  unfold Host.backoff
  split_ifs
  · exact h.rng w hw
  · exact hw

/-- The retry loop returns if its attempt does. -/
theorem returns_withRetry {attempt : Program (τ × ω) (Result α)} (canRetry : τ → Bool)
    {R : Result α → Prop}
    (hattempt : ∀ v w, W w → Returns (fun _ => True) attempt (v, w) fun s' r => W s'.2 ∧ R r)
    (v : τ) {w : ω} (hw : W w) :
    Returns (fun _ => True) (c.withRetry attempt canRetry) (v, w) fun s' r => W s'.2 ∧ R r := by
  have hcounted : ∀ v w, W w →
      Returns (fun _ => True) (countedAttempt attempt) (v, w) fun s' r => W s'.2 ∧ R r := by
    intro v w hw
    exact returns_bind composes_true (returns_emit trivial (hattempt v w hw))
  have hloop : ∀ left i v w, W w → Returns (fun _ => True)
      (c.retryFrom attempt canRetry left i) (v, w) fun s' r => W s'.2 ∧ R r := by
    intro left
    induction left with
    | zero => exact fun i v w hw => hcounted v w hw
    | succ left ih =>
      intro i v w hw
      rw [retryFrom]
      apply returns_bind composes_true
      refine (hcounted v w hw).mono fun s' r hr => ?_
      obtain ⟨v', w'⟩ := s'
      cases r with
      | ok a => exact returns_pure composes_true hr
      | error e =>
        apply returns_bind composes_true
        apply returns_get composes_true
        split_ifs
        · apply returns_bind composes_true
          apply returns_lift
          have hdelay : Returns (fun _ => True) (c.host.delayFor c.options.retry i e) w'
              fun w' _ => W w' := by
            unfold Host.delayFor
            cases e.retryAfter with
            | some hint => exact returns_pure composes_true hr.1
            | none => exact returns_ask composes_true (h.backoff _ _ hr.1)
          refine hdelay.mono fun w'' delay hw'' => ?_
          apply returns_bind composes_true
          apply returns_emit trivial
          apply returns_bind composes_true
          apply returns_emit trivial
          apply returns_bind composes_true
          apply returns_lift
          apply returns_modify composes_true
          exact ih (i + 1) v' _ (h.sleeper delay w'' hw'')
        · exact returns_pure composes_true hr
  exact hloop _ 0 v w hw

theorem returns_record (start : Millis) (result : Result GenerateResponse) {w : ω} (hw : W w) :
    Returns (fun _ => True) (c.record start result) w fun w' _ => W w' := by
  have hend := h.clock w hw
  unfold record
  apply returns_bind composes_true
  apply returns_ask composes_true
  apply returns_bind composes_true
  apply returns_emit trivial
  cases result with
  | error e => exact returns_emit trivial hend
  | ok r => exact returns_bind composes_true (returns_emit trivial (returns_emit trivial hend))

omit h in
theorem exists_checkHttp (response : Result HttpResponse) :
    ∃ checked, c.checkHttp response = .ok checked := by
  unfold checkHttp
  cases response with
  | error e => exact ⟨_, rfl⟩
  | ok r =>
    dsimp only
    split_ifs
    · obtain ⟨e, he⟩ := Wire.parseApiError_ok c.text r.status r.body r.headers
      rw [he]
      exact ⟨_, rfl⟩
    · exact ⟨_, rfl⟩

omit h in
theorem succeeds_of_checkHttp {answer : HttpResponse} {u : Unit}
    (hchecked : c.checkHttp (.ok answer) = .ok (.ok u)) : Succeeds answer := by
  obtain ⟨answer', hanswer, hstatus⟩ := (checkHttp_ok_iff c (.ok answer)).mp hchecked
  obtain rfl := Except.ok.inj hanswer
  exact hstatus

theorem returns_run (request : HttpRequest) {w : ω} (hw : W w) :
    Returns (fun _ => True) (c.transport.run request) w fun w' response =>
      W w' ∧ (c.transport.send request w).1 = response := by
  unfold Transport.run
  apply returns_bind composes_true
  apply returns_emit trivial
  apply returns_bind composes_true
  apply returns_ask composes_true
  apply returns_bind composes_true
  apply returns_emit trivial
  exact returns_pure composes_true ⟨h.send request w hw, rfl⟩

/-- What a reply has to be to be sent back. -/
def Repeatable (r : Result GenerateResponse) : Prop := ∀ reply, r = .ok reply → reply.Encodable

omit h in
theorem repeatable_error (e : Error) : Repeatable (.error e) := fun _ he => by cases he

omit h in
theorem Repeatable.checkBlocked {r : Result GenerateResponse} (hr : Repeatable r) :
    Repeatable (checkBlocked r) := by
  intro reply hreply
  cases r with
  | error e => cases hreply
  | ok reply' =>
    rw [eq_of_checkBlocked hreply.symm]
    exact hr reply' rfl

theorem returns_generateAttempt (body : Bytes) (v : Unit) {w : ω} (hw : W w) :
    Returns (fun _ => True) (c.generateAttempt body) (v, w) fun s' r => W s'.2 ∧ Repeatable r := by
  unfold generateAttempt
  apply returns_bind composes_true
  apply returns_lift
  refine (returns_run h _ hw).mono fun w' response hrun => ?_
  obtain ⟨hw', hresponse⟩ := hrun
  obtain ⟨checked, hchecked⟩ := exists_checkHttp (c := c) response
  apply returns_bind composes_true
  apply returns_ofExcept composes_true hchecked
  cases checked with
  | error e => exact returns_pure composes_true ⟨hw', repeatable_error e⟩
  | ok _ =>
    cases response with
    | error e => exact returns_pure composes_true ⟨hw', repeatable_error e⟩
    | ok answer =>
      obtain ⟨r, hr⟩ := h.unary _ w answer hw hresponse (succeeds_of_checkHttp hchecked)
      apply returns_ofExcept composes_true hr
      exact ⟨hw', fun reply hreply => h.encodable (by rw [hr, hreply])⟩

theorem returns_generate {request : GenerateRequest}
    (hrequest : (Wire.requestToJson request).wellEncoded = true) {w : ω} (hw : W w) :
    Returns (fun _ => True) (c.generate request) w fun w' r => W w' ∧ Repeatable r := by
  unfold generate generateValid
  apply returns_bind composes_true
  apply returns_emit trivial
  cases c.validate request with
  | error e => exact returns_pure composes_true ⟨hw, repeatable_error e⟩
  | ok _ =>
    apply returns_bind composes_true
    apply returns_ask composes_true
    apply returns_bind composes_true
    apply returns_ofExcept composes_true (c.text.dump_of_wellEncoded hrequest)
    apply returns_bind composes_true
    apply returns_withLocals
    refine (returns_withRetry h _ (R := Repeatable)
      (fun v w hw => returns_generateAttempt h _ v hw) () (h.clock w hw)).mono fun s' r hr => ?_
    apply returns_bind composes_true
    refine (returns_record h _ _ hr.1).mono fun w' _ hw' => ?_
    exact returns_pure composes_true ⟨hw', hr.2.checkBlocked⟩

omit h in
theorem exists_parseTotalTokens (body : Bytes) : ∃ r, c.parseTotalTokens body = .ok r := by
  unfold parseTotalTokens
  cases c.text.parse body with
  | none => exact ⟨_, rfl⟩
  | some j =>
    dsimp only
    cases j.find (ascii "totalTokens") with
    | none => exact ⟨_, rfl⟩
    | some v => cases v <;> exact ⟨_, rfl⟩

/-- A callback that returns, and keeps to `W`. -/
def Returning (W : ω → Prop) (onChunk : Option (StreamCallback ω)) : Prop :=
  ∀ callback ∈ onChunk, ∀ chunk w, W w →
    (∃ go, (callback chunk w).1 = .ok go) ∧ W (callback chunk w).2

/-- The handler was told to stop, or met an event that did not decode. -/
def Stopped (v : StreamVars) : Prop := v.parseError ≠ none ∨ v.callerStopped = true

/-- The state of a stream while its events are handed over. -/
def Streaming (W : ω → Prop) (s : StreamVars × ω) (go : Bool) : Prop :=
  W s.2 ∧ s.1.aggregate.Encodable ∧ (go = false → Stopped s.1)

variable {onChunk : Option (StreamCallback ω)} (hreturning : Returning W onChunk)
include hreturning

omit h in
theorem returns_notify (chunk : GenerateResponse) {s : StreamVars × ω} (hs : Streaming W s true) :
    Returns (fun _ => True) (notify onChunk chunk) s (Streaming W) := by
  obtain ⟨v, w⟩ := s
  unfold notify
  cases onChunk with
  | none => exact returns_pure composes_true hs
  | some callback =>
    obtain ⟨⟨go, hgo⟩, hw'⟩ := hreturning callback rfl chunk w hs.1
    apply returns_bind composes_true
    apply returns_lift
    apply returns_call composes_true hgo
    cases go with
    | true => exact returns_pure composes_true ⟨hw', hs.2.1, fun h => by cases h⟩
    | false =>
      apply returns_bind composes_true
      apply returns_emit trivial
      apply returns_bind composes_true
      apply returns_modify composes_true
      exact returns_pure composes_true ⟨hw', hs.2.1, fun _ => Or.inr rfl⟩

theorem returns_onEvent {data : Bytes}
    (hdata : data ≠ ascii "[DONE]" → Wire.Readable c.text data) {s : StreamVars × ω}
    (hs : Streaming W s true) :
    Returns (fun _ => True) (c.onEvent onChunk data) s (Streaming W) := by
  unfold onEvent
  by_cases hdone : data = ascii "[DONE]"
  · rw [if_pos hdone]
    exact returns_pure composes_true hs
  · obtain ⟨r, hr⟩ := hdata hdone
    rw [if_neg hdone]
    apply returns_bind composes_true
    apply returns_ofExcept composes_true hr
    cases r with
    | error e =>
      apply returns_bind composes_true
      apply returns_modify composes_true
      exact returns_pure composes_true ⟨hs.1, hs.2.1, fun _ => Or.inl (by simp)⟩
    | ok chunk =>
      have hmerged := hs.2.1.merge (h.encodable hr)
      apply returns_bind composes_true
      apply returns_modify composes_true
      apply returns_bind composes_true
      apply returns_emit trivial
      exact returns_notify hreturning chunk ⟨hs.1, hmerged, fun h => by cases h⟩

/-- A body is delivered to its end, unless the handler stops. -/
theorem returns_deliver (script : StreamScript)
    (hscript : ∀ data ∈ SseParser.sseEvents script.bytes, data ≠ ascii "[DONE]" →
      Wire.Readable c.text data) {s : StreamVars × ω} (hs : Streaming W s true) :
    Returns (fun _ => True) (deliver (SseParser.feed (c.onEvent onChunk)) .init script) s
      fun s' r => ∃ go, Streaming W s' go ∧ (go = true →
        r = (script.last, (SseParser.tokenize .init script.bytes).1)) := by
  rw [SseParser.sseEvents_eq] at hscript
  have hall : Returns (fun _ => True)
      ((SseParser.tokenize .init script.bytes).2.allM (c.onEvent onChunk)) s (Streaming W) :=
    returns_allM composes_true (fun data hdata s hs =>
      returns_onEvent h hreturning (hscript data (List.mem_append_left _ hdata)) hs) hs
  have hdelivered := wp_deliver_tokenize (c.onEvent onChunk) script (p := .init) List.not_mem_nil s
  obtain ⟨-, go, hgo, hstreaming⟩ := hall
  unfold Returns
  refine wp_mono hdelivered fun es s' r hr => ?_
  rw [wp_iff, hgo] at hr
  obtain ⟨rfl, hr⟩ := hr
  cases go with
  | true => exact ⟨trivial, _, hr, true, hstreaming, fun _ => rfl⟩
  | false =>
    obtain ⟨answer, hanswer⟩ := hr
    exact ⟨trivial, answer, hanswer, false, hstreaming, fun h => by cases h⟩

theorem returns_finishStream {parser : SseParser}
    (hparser : ∀ data ∈ parser.trailing, data ≠ ascii "[DONE]" → Wire.Readable c.text data)
    {s : StreamVars × ω} (hs : Streaming W s true) :
    Returns (fun _ => True) (c.finishStream onChunk parser) s
      fun s' r => W s'.2 ∧ Repeatable r := by
  unfold finishStream
  have hall : Returns (fun _ => True) (parser.trailing.allM (c.onEvent onChunk)) s
      (Streaming W) :=
    returns_allM composes_true (fun data hdata s hs =>
      returns_onEvent h hreturning (hparser data hdata) hs) hs
  rw [← SseParser.fst_finish] at hall
  apply returns_bind composes_true
  refine hall.of_map.mono fun s' _ hs' => ?_
  apply returns_bind composes_true
  apply returns_get composes_true
  cases s'.1.parseError with
  | some e => exact returns_pure composes_true ⟨hs'.1, repeatable_error e⟩
  | none => exact returns_pure composes_true ⟨hs'.1, fun reply hreply => by cases hreply; exact hs'.2.1⟩

theorem returns_streamAttempt (body : Bytes) (v : StreamVars) {w : ω} (hw : W w) :
    Returns (fun _ => True) (c.streamAttempt body onChunk) (v, w)
      fun s' r => W s'.2 ∧ Repeatable r := by
  unfold streamAttempt Transport.runStreaming
  apply returns_bind composes_true
  apply returns_modify composes_true
  dsimp only
  generalize c.makeRequest (c.endpoint (ascii "streamGenerateContent") true) body = request
  have hscript := h.streamed request w hw
  generalize hgiven : c.transport.sendStreaming request w = given at hscript
  have hstart : Streaming W
      ({ StreamVars.init with deliveredAny := v.deliveredAny }, given.2) true :=
    ⟨hgiven ▸ h.sendStreaming request w hw, encodable_empty, fun h => by cases h⟩
  apply returns_bind composes_true
  apply returns_bind composes_true
  apply returns_emit trivial
  apply returns_bind composes_true
  apply returns_lift
  apply returns_ask composes_true
  rw [hgiven]
  apply returns_bind composes_true
  refine (returns_deliver h hreturning given.1 hscript hstart).mono fun s' r hr => ?_
  obtain ⟨go, hs', hgo⟩ := hr
  obtain ⟨response, parser⟩ := r
  apply returns_bind composes_true
  apply returns_emit trivial
  apply returns_pure composes_true
  apply returns_bind composes_true
  apply returns_get composes_true
  have hreply : Repeatable (.ok s'.1.aggregate) := fun reply hreply => by
    cases hreply
    exact hs'.2.1
  cases hparse : s'.1.parseError with
  | some e => exact returns_pure composes_true ⟨hs'.1, repeatable_error e⟩
  | none =>
    by_cases hstopped : s'.1.callerStopped = true
    · simp only [hstopped, if_true]
      exact returns_pure composes_true ⟨hs'.1, hreply⟩
    · have hstill : ¬ Stopped s'.1 := by
        intro h
        rcases h with h | h
        · exact h hparse
        · exact hstopped h
      obtain rfl : go = true := by
        cases go with
        | true => rfl
        | false => exact absurd (hs'.2.2 rfl) hstill
      obtain ⟨rfl, rfl⟩ := Prod.mk.inj (hgo rfl)
      simp only [hstopped]
      obtain ⟨checked, hchecked⟩ := exists_checkHttp (c := c) given.1.last
      apply returns_bind composes_true
      apply returns_ofExcept composes_true hchecked
      cases checked with
      | error e => exact returns_pure composes_true ⟨hs'.1, repeatable_error e⟩
      | ok _ =>
        rw [SseParser.sseEvents_eq] at hscript
        exact returns_finishStream h hreturning
          (fun data hdata => hscript data (List.mem_append_right _ hdata)) hs'

theorem returns_stream {request : GenerateRequest}
    (hrequest : (Wire.requestToJson request).wellEncoded = true) {w : ω} (hw : W w) :
    Returns (fun _ => True) (c.stream request onChunk) w fun w' r => W w' ∧ Repeatable r := by
  unfold stream streamValid
  apply returns_bind composes_true
  apply returns_emit trivial
  cases c.validate request with
  | error e => exact returns_pure composes_true ⟨hw, repeatable_error e⟩
  | ok _ =>
    apply returns_bind composes_true
    apply returns_ask composes_true
    apply returns_bind composes_true
    apply returns_ofExcept composes_true (c.text.dump_of_wellEncoded hrequest)
    apply returns_bind composes_true
    apply returns_withLocals
    refine (returns_withRetry h _ (R := Repeatable)
      (fun v w hw => returns_streamAttempt h hreturning _ v hw) _ (h.clock w hw)).mono
      fun s' r hr => ?_
    apply returns_bind composes_true
    refine (returns_record h _ _ hr.1).mono fun w' _ hw' => ?_
    exact returns_pure composes_true ⟨hw', hr.2.checkBlocked⟩

omit hreturning

theorem returns_countTokens {request : GenerateRequest}
    (hrequest : (c.countTokensBody request).wellEncoded = true) {w : ω} (hw : W w) :
    Returns (fun _ => True) (c.countTokens request) w fun w' _ => W w' := by
  have hattempt : ∀ (body : Bytes) (v : Unit) w, W w → Returns (fun _ => True)
      (c.countTokensAttempt body) (v, w) fun s' _ => W s'.2 ∧ True := by
    intro body v w hw
    unfold countTokensAttempt
    apply returns_bind composes_true
    apply returns_lift
    refine (returns_run h _ hw).mono fun w' response hresponse => ?_
    have hend := And.intro hresponse.1 trivial
    obtain ⟨checked, hchecked⟩ := exists_checkHttp (c := c) response
    apply returns_bind composes_true
    apply returns_ofExcept composes_true hchecked
    cases checked with
    | error e => exact returns_pure composes_true hend
    | ok _ =>
      cases response with
      | error e => exact returns_pure composes_true hend
      | ok answer =>
        obtain ⟨r, hr⟩ := exists_parseTotalTokens (c := c) answer.body
        exact returns_ofExcept composes_true hr hend
  unfold countTokens
  apply returns_bind composes_true
  apply returns_emit trivial
  cases c.validate request with
  | error e => exact returns_pure composes_true hw
  | ok _ =>
    apply returns_bind composes_true
    apply returns_ofExcept composes_true (c.text.dump_of_wellEncoded hrequest)
    apply returns_bind composes_true
    apply returns_withLocals
    refine (returns_withRetry h _ (R := fun _ => True) (hattempt _) () hw).mono fun s' r hr => ?_
    apply returns_bind composes_true
    cases r with
    | ok _ => exact returns_pure composes_true (returns_pure composes_true hr.1)
    | error e => exact returns_emit trivial (returns_pure composes_true hr.1)

theorem returns_listModels (fuel : ℕ) {w : ω} (hw : W w) :
    Returns (fun _ => True) (c.listModels fuel) w fun w' _ => W w' := by
  have hattempt : ∀ (url : Bytes) (v : Bytes) w, W w → Returns (fun _ => True)
      (c.pageAttempt url) (v, w) fun s' _ => W s'.2 ∧ True := by
    intro url v w hw
    unfold pageAttempt
    apply returns_bind composes_true
    apply returns_lift
    refine (returns_run h _ hw).mono fun w' response hresponse => ?_
    have hend := And.intro hresponse.1 trivial
    obtain ⟨checked, hchecked⟩ := exists_checkHttp (c := c) response
    apply returns_bind composes_true
    apply returns_ofExcept composes_true hchecked
    cases checked with
    | error e => exact returns_pure composes_true hend
    | ok _ =>
      cases response with
      | error e => exact returns_pure composes_true hend
      | ok answer =>
        obtain ⟨r, hr, -⟩ := Wire.parseModelList_returns c.text answer.body
        apply returns_bind composes_true
        apply returns_ofExcept composes_true hr
        cases r with
        | error e => exact returns_pure composes_true hend
        | ok page =>
          apply returns_bind composes_true
          apply returns_modify composes_true
          exact returns_pure composes_true hend
  have hpages : ∀ fuel all v w, W w → Returns (fun _ => True) (c.pages all fuel) (v, w)
      fun s' _ => W s'.2 := by
    intro fuel
    induction fuel with
    | zero => exact fun all v w hw => returns_pure composes_true hw
    | succ fuel ih =>
      intro all v w hw
      unfold pages page
      apply returns_bind composes_true
      apply returns_bind composes_true
      apply returns_get composes_true
      refine (returns_withRetry h _ (R := fun _ => True) (hattempt _) v hw).mono fun s' r hr => ?_
      obtain ⟨v', w'⟩ := s'
      cases r with
      | error e =>
        apply returns_bind composes_true
        apply returns_lift
        apply returns_emit trivial
        exact returns_pure composes_true hr.1
      | ok models =>
        apply returns_bind composes_true
        apply returns_get composes_true
        split_ifs
        · exact returns_pure composes_true hr.1
        · exact ih _ v' w' hr.1
  unfold listModels
  apply returns_bind composes_true
  apply returns_emit trivial
  split_ifs
  · exact returns_pure composes_true hw
  · exact returns_withLocals (hpages fuel [] [] w hw)

end Client
end GeminiCpp
