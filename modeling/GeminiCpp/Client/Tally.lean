import GeminiCpp.Client.Metrics

/-! What each call of a client adds to the metrics, and what they show once any interleaving
of calls is over. -/
namespace GeminiCpp
open Traced Traced.Prog

variable {ω τ α β : Type}

/-- A call on a client, with everything its caller chooses. A call of `list_models` is
followed for at most `fuel` pages. -/
inductive ClientCall (ω : Type)
  | generate (request : GenerateRequest)
  | stream (request : GenerateRequest) (onChunk : Option (StreamCallback ω))
  | countTokens (request : GenerateRequest)
  | listModels (fuel : ℕ)

/-- What some events add: `requests`, the excess of attempts over retries, and `failures`. -/
structure Tally (es : List Event) (requests invocations failures : ℕ) : Prop where
  requests : added .requests es = .ofNat requests
  attempts : added .attempts es = added .retries es + .ofNat invocations
  failures : added .failures es = .ofNat failures

namespace Tally
variable {es es' : List Event} {requests requests' invocations invocations' failures
  failures' : ℕ}

theorem nil : Tally [] 0 0 0 := ⟨rfl, rfl, rfl⟩

theorem append (h : Tally es requests invocations failures)
    (h' : Tally es' requests' invocations' failures') :
    Tally (es ++ es') (requests + requests') (invocations + invocations')
      (failures + failures') := by
  constructor
  case requests => rw [added_append, h.requests, h'.requests, UInt64.ofNat_add]
  case attempts =>
    rw [added_append, added_append, h.attempts, h'.attempts, UInt64.ofNat_add]
    exact add_add_add_comm ..
  case failures => rw [added_append, h.failures, h'.failures, UInt64.ofNat_add]

theorem request (h : Tally es 0 invocations failures) :
    Tally (.metric .requests 1 :: es) 1 invocations failures := by
  constructor
  case requests => simp [h.requests, Event.added]
  case attempts => simp [h.attempts, Event.added]
  case failures => simp [h.failures, Event.added]

theorem of_attempts {n : ℕ} (h : ∀ field, added field es =
    added field [.metric .attempts (.ofNat (n + 1)), .metric .retries (.ofNat n)]) :
    Tally es 0 1 0 := by
  constructor
  case requests => simp [h, Event.added]
  case attempts => simp [h, Event.added, UInt64.ofNat_add]
  case failures => simp [h, Event.added]

theorem perm (h : Tally es requests invocations failures) (hperm : es'.Perm es) :
    Tally es' requests invocations failures := by
  have hadded : ∀ field, added field es' = added field es := fun field =>
    (hperm.map (Event.added field)).sum_eq
  constructor
  case requests => rw [hadded, h.requests]
  case attempts => rw [hadded, hadded, h.attempts]
  case failures => rw [hadded, h.failures]

end Tally

namespace Client
variable (c : Client ω)

/-- The return value of a call is an error, a success, or still to come. -/
def perform : ClientCall ω → Program ω (Option (Result Unit))
  | .generate request => (fun r => some (r.map fun _ => ())) <$> c.generate request
  | .stream request onChunk => (fun r => some (r.map fun _ => ())) <$> c.stream request onChunk
  | .countTokens request => (fun r => some (r.map fun _ => ())) <$> c.countTokens request
  | .listModels fuel => (fun r => r.map fun r => r.map fun _ => ()) <$> c.listModels fuel

/-- The call is refused before anything is sent. -/
def rejects : ClientCall ω → Bool
  | .generate request | .stream request _ | .countTokens request =>
    match c.validate request with
    | .ok () => false
    | .error _ => true
  | .listModels _ => c.options.apiKey = []

/-- The number of pages that `list_models` asks for, each with one `with_retry`. -/
def pagesAsked : (fuel : ℕ) → Bytes × ω → ℕ
  | 0, _ => 0
  | fuel + 1, s =>
    match (c.page s).result with
    | .ok (.ok _) =>
      if (c.page s).state.1 = [] then 1 else pagesAsked fuel (c.page s).state + 1
    | _ => 1

/-- Whether a request is sent with a body. -/
def sends (body : Json) : ℕ :=
  match c.text.dump body with
  | .ok _ => 1
  | .error _ => 0

/-- The number of times a call runs `with_retry`. -/
def invocations (call : ClientCall ω) (w : ω) : ℕ :=
  if c.rejects call then 0
  else
    match call with
    | .generate request | .stream request _ => c.sends (Wire.requestToJson request)
    | .countTokens request => c.sends (c.countTokensBody request)
    | .listModels fuel => c.pagesAsked fuel ([], w)

/-- The number of failures that the return value of a call stands for. -/
def failed : MayThrow (Option (Result Unit)) → ℕ
  | .ok (some (.error _)) => 1
  | _ => 0

theorem quiet_generateAttempt (body : Bytes) : Quiet (c.generateAttempt body) := by
  intro s e he
  obtain ⟨request, response, hes, -⟩ := wp_iff.mp (c.wp_generateAttempt body s)
  rw [hes] at he
  rcases List.mem_cons.mp he with rfl | he
  · exact id
  · rw [List.mem_singleton.mp he]
    exact id

theorem quiet_streamAttempt (body : Bytes) (onChunk : Option (StreamCallback ω)) :
    Quiet (c.streamAttempt body onChunk) := by
  intro s e he
  obtain ⟨rest, hes, hrest⟩ := (wp_iff.mp (c.wp_streamAttempt body onChunk s)).http
  rw [hes] at he
  rcases List.mem_cons.mp he with rfl | he
  · exact id
  · exact (hrest e he).not_ofLoop

/-- An attempt that sends a request and then only looks at the response. -/
theorem quiet_of_send {attempt : Program (τ × ω) (Result α)} (request : HttpRequest)
    (read : Result HttpResponse → Program (τ × ω) (Result α))
    (hattempt : attempt = Prog.lift (c.transport.run request) >>= read)
    (hread : ∀ response s, wp (read response) s fun es _ _ => es = []) : Quiet attempt := by
  intro s e he
  have hes : wp attempt s fun es _ _ =>
      es = [.http request, .response (c.transport.send request s.2).1] := by
    rw [hattempt]
    simp only [Transport.run, wp_bind, wp_lift, wp_emit, wp_ask, wp_pure, then_ok,
      List.append_nil]
    refine wp_mono (hread _ _) fun es _ _ h => ?_
    rw [h, List.append_nil]
    rfl
  rw [wp_iff.mp hes] at he
  rcases List.mem_cons.mp he with rfl | he
  · exact id
  · rw [List.mem_singleton.mp he]
    exact id

theorem quiet_countTokensAttempt (body : Bytes) : Quiet (c.countTokensAttempt body) := by
  apply c.quiet_of_send _ _ rfl
  intro response s
  rw [wp_bind, wp_ofExcept]
  rcases c.checkHttp response with x | (e | ⟨⟩)
  · rfl
  · rfl
  · cases response <;> rfl

theorem quiet_pageAttempt (url : Bytes) : Quiet (c.pageAttempt url) := by
  apply c.quiet_of_send _ _ rfl
  intro response s
  rw [wp_bind, wp_ofExcept]
  rcases c.checkHttp response with x | (e | ⟨⟩)
  · rfl
  · rfl
  · cases response with
    | error e => rfl
    | ok r =>
      simp only [then_ok, wp_bind, wp_ofExcept]
      rcases Wire.parseModelList c.text r.body with x | (e | page) <;> rfl

theorem wp_withRetry_tally {attempt : Program (τ × ω) (Result α)} (hquiet : Quiet attempt)
    (canRetry : τ → Bool) (s : τ × ω) :
    wp (c.withRetry attempt canRetry) s fun es _ _ => Tally es 0 1 0 := by
  obtain ⟨n, h⟩ := c.withRetry_makesExactly attempt canRetry s
  obtain ⟨m, rfl⟩ : ∃ m, n = m + 1 := ⟨n - 1, by have := h.least.1.1; omega⟩
  rw [wp_iff, h.events]
  exact .of_attempts fun field => added_attemptEvents c hquiet field m 0 s

theorem wp_record_tally (start : Millis) (result : Result GenerateResponse) (w : ω) :
    wp (c.record start result) w fun es _ _ =>
      Tally es 0 0 (failed (.ok (some (result.map fun _ => ())))) := by
  unfold record
  cases result <;> simp only [wp_bind, wp_ask, wp_emit, then_ok] <;> constructor <;> rfl

theorem wp_countFailure_tally (result : Result α) (w : ω) :
    wp (countFailure result) w fun es _ r => r = .ok () ∧
      Tally es 0 0 (failed (.ok (some (result.map fun _ => ())))) := by
  cases result with
  | ok a => exact ⟨rfl, .nil⟩
  | error e => exact ⟨rfl, rfl, rfl, rfl⟩

/-- Forgets the value of a success. -/
def discard (r : MayThrow (Result α)) : MayThrow (Option (Result Unit)) :=
  r.map fun r => some (r.map fun _ => ())

/-- What a call adds, by whether it is refused and by what it returns. -/
def CallTally (call : ClientCall ω) (w : ω) (es : List Event)
    (r : MayThrow (Option (Result Unit))) : Prop :=
  Tally es 1 (c.invocations call w) (if c.rejects call then 0 else failed r)

variable {c} in
theorem CallTally.of_rejects {call : ClientCall ω} {w : ω} {r : MayThrow (Option (Result Unit))}
    (h : c.rejects call = true) : c.CallTally call w [.metric .requests 1] r := by
  unfold CallTally invocations
  rw [if_pos h, if_pos h]
  exact Tally.nil.request

variable {c} in
theorem CallTally.of_sent {call : ClientCall ω} {w : ω} {es : List Event}
    {r : MayThrow (Option (Result Unit))} {n : ℕ} (h : c.rejects call = false)
    (hn : c.invocations call w = n) (htally : Tally es 0 n (failed r)) :
    c.CallTally call w (.metric .requests 1 :: es) r := by
  unfold CallTally
  rw [hn, h]
  exact htally.request

/-- A body that is printed and sent, and what is done with the result. -/
theorem wp_send_tally {attempt : Bytes → Program (τ × ω) (Result α)}
    {after : Result α → Program ω (Result β)} (hquiet : ∀ body, Quiet (attempt body))
    (hafter : ∀ result w, wp (after result) w fun es _ r => Tally es 0 0 (failed (discard r)))
    (canRetry : τ → Bool) (v : τ) (body : Json) (w : ω) :
    wp (do
      let body ← Prog.ofExcept (c.text.dump body)
      let result ← Prog.withLocals v (c.withRetry (attempt body) canRetry)
      after result) w fun es _ r => Tally es 0 (c.sends body) (failed (discard r)) := by
  rw [wp_bind, wp_ofExcept]
  unfold sends
  cases c.text.dump body with
  | error x => exact Tally.nil
  | ok body =>
    rw [then_ok, wp_bind, wp_withLocals]
    refine wp_mono (c.wp_withRetry_tally (hquiet body) canRetry (v, w)) fun es s' r h => ?_
    cases r with
    | error x => exact h
    | ok result =>
      rw [then_ok]
      refine wp_mono (hafter result s'.2) fun es' _ r h' => ?_
      have hboth := h.append h'
      rwa [zero_add, zero_add] at hboth

theorem wp_recorded_tally (start : Millis) (result : Result GenerateResponse) (w : ω) :
    wp (do
      c.record start (checkBlocked result)
      return checkBlocked result) w fun es _ r => Tally es 0 0 (failed (discard r)) := by
  rw [wp_bind]
  have hreturns : wp (c.record start (checkBlocked result)) w fun _ _ r => r = .ok () :=
    wp_mono (c.wp_record start (checkBlocked result) w) fun _ _ _ h => h.2
  refine wp_mono (wp_and.mpr ⟨hreturns, c.wp_record_tally start (checkBlocked result) w⟩) ?_
  rintro es s' r ⟨rfl, h⟩
  rw [then_ok, wp_pure, List.append_nil]
  exact h

theorem wp_generate_tally (request : GenerateRequest) (w : ω) :
    wp (c.perform (.generate request)) w fun es _ r => c.CallTally (.generate request) w es r := by
  unfold perform generate
  rw [wp_map, wp_bind, wp_emit, then_ok]
  cases hvalid : c.validate request with
  | error e => exact .of_rejects (by simp [rejects, hvalid])
  | ok _ =>
    have hrejects : c.rejects (.generate request) = false := by simp [rejects, hvalid]
    have hinvocations : c.invocations (.generate request) w =
        c.sends (Wire.requestToJson request) := by simp [invocations, hrejects]
    unfold generateValid
    rw [wp_bind, wp_ask, then_ok]
    refine wp_mono (c.wp_send_tally c.quiet_generateAttempt (c.wp_recorded_tally _) _ ()
      (Wire.requestToJson request) _) fun es _ r h => ?_
    exact .of_sent hrejects hinvocations h

theorem wp_stream_tally (request : GenerateRequest) (onChunk : Option (StreamCallback ω)) (w : ω) :
    wp (c.perform (.stream request onChunk)) w fun es _ r =>
      c.CallTally (.stream request onChunk) w es r := by
  unfold perform stream
  rw [wp_map, wp_bind, wp_emit, then_ok]
  cases hvalid : c.validate request with
  | error e => exact .of_rejects (by simp [rejects, hvalid])
  | ok _ =>
    have hrejects : c.rejects (.stream request onChunk) = false := by simp [rejects, hvalid]
    have hinvocations : c.invocations (.stream request onChunk) w =
        c.sends (Wire.requestToJson request) := by simp [invocations, hrejects]
    unfold streamValid
    rw [wp_bind, wp_ask, then_ok]
    refine wp_mono (c.wp_send_tally (fun body => c.quiet_streamAttempt body onChunk)
      (c.wp_recorded_tally _) _ .init (Wire.requestToJson request) _) fun es _ r h => ?_
    exact .of_sent hrejects hinvocations h

theorem wp_countTokens_tally (request : GenerateRequest) (w : ω) :
    wp (c.perform (.countTokens request)) w fun es _ r =>
      c.CallTally (.countTokens request) w es r := by
  unfold perform countTokens
  rw [wp_map, wp_bind, wp_emit, then_ok]
  cases hvalid : c.validate request with
  | error e => exact .of_rejects (by simp [rejects, hvalid])
  | ok _ =>
    have hrejects : c.rejects (.countTokens request) = false := by simp [rejects, hvalid]
    have hinvocations : c.invocations (.countTokens request) w =
        c.sends (c.countTokensBody request) := by simp [invocations, hrejects]
    refine wp_mono (c.wp_send_tally c.quiet_countTokensAttempt ?_ _ ()
      (c.countTokensBody request) _) fun es _ r h => ?_
    · intro result w'
      rw [wp_bind]
      refine wp_mono (wp_countFailure_tally result w') ?_
      rintro es s' r ⟨rfl, h⟩
      rw [then_ok, wp_pure, List.append_nil]
      exact h
    · exact .of_sent hrejects hinvocations h

theorem wp_page_tally (s : Bytes × ω) :
    wp c.page s fun es _ _ => Tally es 0 1 0 := by
  unfold page
  rw [wp_bind, wp_get, then_ok]
  exact c.wp_withRetry_tally (c.quiet_pageAttempt _) _ s

theorem wp_pages_tally (all : List ModelInfo) (fuel : ℕ) (s : Bytes × ω) :
    wp (c.pages all fuel) s fun es _ r =>
      Tally es 0 (c.pagesAsked fuel s) (failed (r.map fun r => r.map fun r => r.map fun _ => ())) := by
  induction fuel generalizing all s with
  | zero => exact Tally.nil
  | succ fuel ih =>
    rw [pages, pagesAsked, wp_bind, wp_iff]
    have hpage := wp_iff.mp (c.wp_page_tally s)
    rcases hr : (c.page s).result with x | (e | models)
    · exact hpage
    · rw [then_ok, wp_bind, wp_lift]
      refine wp_mono (wp_countFailure_tally (.error e : Result Unit) _) ?_
      rintro es s' r ⟨rfl, h⟩
      rw [then_ok, wp_pure, List.append_nil]
      exact hpage.append h
    · rw [then_ok, wp_bind, wp_get, then_ok]
      by_cases htoken : (c.page s).state.1 = []
      · simp only [htoken, if_true, wp_pure, List.append_nil]
        exact hpage
      · simp only [htoken, if_false, List.nil_append]
        refine wp_mono (ih (all ++ models) (c.page s).state) fun es _ r h => ?_
        rw [add_comm (c.pagesAsked fuel (c.page s).state)]
        have hboth := hpage.append h
        rwa [zero_add, zero_add] at hboth

theorem wp_listModels_tally (fuel : ℕ) (w : ω) :
    wp (c.perform (.listModels fuel)) w fun es _ r => c.CallTally (.listModels fuel) w es r := by
  unfold perform listModels
  rw [wp_map, wp_bind, wp_emit, then_ok]
  by_cases hkey : c.options.apiKey = []
  · rw [if_pos hkey]
    exact .of_rejects (by simp [rejects, hkey])
  · have hrejects : c.rejects (.listModels fuel) = false := by simp [rejects, hkey]
    have hinvocations : c.invocations (.listModels fuel) w = c.pagesAsked fuel ([], w) := by
      simp [invocations, hrejects]
    rw [if_neg hkey, wp_withLocals]
    refine wp_mono (c.wp_pages_tally [] fuel ([], w)) fun es _ r h => ?_
    exact .of_sent hrejects hinvocations h

theorem wp_perform_tally (call : ClientCall ω) (w : ω) :
    wp (c.perform call) w fun es _ r => c.CallTally call w es r := by
  cases call with
  | generate request => exact c.wp_generate_tally request w
  | stream request onChunk => exact c.wp_stream_tally request onChunk w
  | countTokens request => exact c.wp_countTokens_tally request w
  | listModels fuel => exact c.wp_listModels_tally fuel w

/-- What the events of some calls add, in the order in which the calls were made. -/
theorem tally_flatten (calls : List (ClientCall ω × ω)) :
    Tally (calls.map fun call => (c.perform call.1 call.2).events).flatten calls.length
      (calls.map fun call => c.invocations call.1 call.2).sum
      (calls.map fun call => if c.rejects call.1 then 0
        else failed (c.perform call.1 call.2).result).sum := by
  induction calls with
  | nil => exact .nil
  | cons call calls ih =>
    have hcall := wp_iff.mp (c.wp_perform_tally call.1 call.2)
    have hboth := hcall.append ih
    rw [Nat.add_comm 1] at hboth
    exact hboth

/-- What the metrics of a new client show after calls in any interleaving. -/
theorem metrics_of_interleaving {calls : List (ClientCall ω × ω)} {es : List Event}
    (h : Interleaving (calls.map fun call => (c.perform call.1 call.2).events) es) :
    Tally es calls.length (calls.map fun call => c.invocations call.1 call.2).sum
      (calls.map fun call => if c.rejects call.1 then 0
        else failed (c.perform call.1 call.2).result).sum :=
  (c.tally_flatten calls).perm h.perm

/-- `with_retry` makes exactly the attempts it should, and the metrics of a client show how
often it was run, once any calls have returned or thrown in any interleaving. Each call sees the
outside world in its own state, so what the others do to it in between is arbitrary. -/
theorem withRetry_exact :
    (∀ (τ α : Type) (attempt : Program (τ × ω) (Result α)) (canRetry : τ → Bool) (s : τ × ω),
      ∃ n, c.MakesExactly attempt canRetry s (c.withRetry attempt canRetry s) n) ∧
    ∀ (calls : List (ClientCall ω × ω)) (es : List Event),
      Interleaving (calls.map fun call => (c.perform call.1 call.2).events) es →
      (metricsAfter es).attempts - (metricsAfter es).retries =
        .ofNat (calls.map fun call => c.invocations call.1 call.2).sum := by
  constructor
  · intro τ α attempt canRetry s
    exact c.withRetry_makesExactly attempt canRetry s
  · intro calls es h
    have hattempts := (c.metrics_of_interleaving h).attempts
    change (metricsAfter es).get .attempts - (metricsAfter es).get .retries = _
    rw [get_metricsAfter, get_metricsAfter, hattempts, add_sub_cancel_left]

/-- The number of calls that returned an error. -/
def errors (calls : List (ClientCall ω × ω)) : ℕ :=
  (calls.map fun call => failed (c.perform call.1 call.2).result).sum

/-- The number of calls that were refused. -/
def refusals (calls : List (ClientCall ω × ω)) : ℕ := calls.countP fun call => c.rejects call.1

theorem failed_of_rejects {call : ClientCall ω} (h : c.rejects call = true) (w : ω) :
    failed (c.perform call w).result = 1 := by
  have hvalid : ∀ request, (match c.validate request with
      | .ok () => false
      | .error _ => true) = true → ∃ e, c.validate request = .error e := by
    intro request h
    cases hr : c.validate request with
    | error e => exact ⟨e, rfl⟩
    | ok _ => simp [hr] at h
  change wp (c.perform call) w fun _ _ r => failed r = 1
  cases call with
  | generate request =>
    obtain ⟨e, he⟩ := hvalid request h
    unfold perform generate
    rw [wp_map, wp_bind, wp_emit, then_ok, he]
    rfl
  | stream request onChunk =>
    obtain ⟨e, he⟩ := hvalid request h
    unfold perform stream
    rw [wp_map, wp_bind, wp_emit, then_ok, he]
    rfl
  | countTokens request =>
    obtain ⟨e, he⟩ := hvalid request h
    unfold perform countTokens
    rw [wp_map, wp_bind, wp_emit, then_ok, he]
    rfl
  | listModels fuel =>
    have hkey : c.options.apiKey = [] := of_decide_eq_true h
    unfold perform listModels
    rw [wp_map, wp_bind, wp_emit, then_ok, if_pos hkey]
    rfl

/-- A refused call returns an error that `failures` does not count. -/
theorem errors_eq (calls : List (ClientCall ω × ω)) :
    c.errors calls = (calls.map fun call => if c.rejects call.1 then 0
      else failed (c.perform call.1 call.2).result).sum + c.refusals calls := by
  induction calls with
  | nil => rfl
  | cons call calls ih =>
    unfold errors refusals at *
    rw [List.map_cons, List.sum_cons, ih, List.map_cons, List.sum_cons, List.countP_cons]
    by_cases h : c.rejects call.1 = true
    · have hfailed := c.failed_of_rejects h call.2
      simp only [h, if_true, hfailed]
      omega
    · simp only [h, Bool.false_eq_true, if_false]
      omega

/-- `requests` counts the calls of any interleaving; `failures` counts those that returned an
error exactly if none of them is refused (up to the width of the counter). -/
theorem failures_eq_iff (calls : List (ClientCall ω × ω)) (es : List Event)
    (h : Interleaving (calls.map fun call => (c.perform call.1 call.2).events) es) :
    (metricsAfter es).requests = .ofNat calls.length ∧
      ((metricsAfter es).failures = .ofNat (c.errors calls) ↔
        UInt64.ofNat (c.refusals calls) = 0) := by
  have htally := c.metrics_of_interleaving h
  constructor
  · exact (get_metricsAfter es .requests).trans htally.requests
  · have hfailures := (get_metricsAfter es .failures).trans htally.failures
    change (metricsAfter es).get .failures = _ ↔ _
    rw [hfailures, errors_eq, UInt64.ofNat_add]
    constructor
    · exact fun h => left_eq_add.mp h
    · exact fun h => by rw [h, add_zero]

end Client

/-- The body of the reply that the fake transport gives when nothing is scripted. -/
def noReplyDocument : Json :=
  Json.object [(ascii "error",
    Json.object [(ascii "message", .str (ascii "no scripted reply"))])]

/-- The client of the tests, before anything is scripted. -/
def idleClient : Client (List FakeTransport.Reply) :=
  makeClient (.known [(FakeTransport.noReply.body, noReplyDocument)] [])

/-- A call without contents returns an error, and `failures` stays at 0. -/
theorem failures_of_noContents :
    let request := { GenerateRequest.ofText [] with contents := [] }
    let calls := [(ClientCall.generate request, [])]
    ∃ es, Interleaving (calls.map fun call => (idleClient.perform call.1 call.2).events) es ∧
      (metricsAfter es).failures ≠ .ofNat (idleClient.errors calls) :=
  ⟨_, Interleaving.flatten _, by decide⟩

/-- A refused call next to a failing `list_models`. -/
theorem failures_eq_iff_idle :
    let request := { GenerateRequest.ofText [] with contents := [] }
    let calls := [(ClientCall.generate request, []), (ClientCall.listModels 1, [])]
    let es := (calls.map fun call => (idleClient.perform call.1 call.2).events).flatten
    (metricsAfter es).requests = .ofNat calls.length ∧
      ((metricsAfter es).failures = .ofNat (idleClient.errors calls) ↔
        UInt64.ofNat (idleClient.refusals calls) = 0) := by
  intro request calls es
  exact idleClient.failures_eq_iff calls es (Interleaving.flatten _)

end GeminiCpp
