import GeminiCpp.Client.Generate
import GeminiCpp.Client.Handing

/-! What `stream` hands to its caller: the chunks of one attempt, in the order of that
attempt's events. -/
namespace GeminiCpp
open Traced Traced.Prog

/-- Events after the request of an attempt. -/
def Event.ofAnswer : Event → Prop
  | .bytes _ | .chunk _ | .cancel | .response _ => True
  | _ => False

theorem Event.ofBody.ofAnswer {e : Event} (h : e.ofBody) : e.ofAnswer := by
  cases e <;> trivial

theorem Event.ofAnswer.not_isHttp {e : Event} (h : e.ofAnswer) : ¬ e.isHttp := by
  cases e <;> first | exact id | exact h.elim

@[simp] theorem chunksOf_http (request : HttpRequest) (es : List Event) :
    chunksOf (.http request :: es) = chunksOf es := rfl

@[simp] theorem chunksOf_response (r : Result HttpResponse) (es : List Event) :
    chunksOf (.response r :: es) = chunksOf es := rfl

@[simp] theorem bytesOf_http (request : HttpRequest) (es : List Event) :
    bytesOf (.http request :: es) = bytesOf es := rfl

@[simp] theorem bytesOf_response (r : Result HttpResponse) (es : List Event) :
    bytesOf (.response r :: es) = bytesOf es := rfl

namespace Client
variable {ω : Type} (c : Client ω)

/-- The caller cancelled once, when it had been given a chunk, and was given none after. -/
def CancelledOnce (es : List Event) : Prop :=
  ∃ shown rest, es = shown ++ .cancel :: rest ∧ .cancel ∉ shown ∧ .cancel ∉ rest ∧
    chunksOf shown ≠ [] ∧ chunksOf rest = []

/-- A cancel while the last event is flushed, after the transport's answer. -/
theorem Cancelled.with_response {es es' : List Event} {r : Result HttpResponse}
    (h : Cancelled (es ++ es')) (hes : .cancel ∉ es) :
    CancelledOnce (es ++ .response r :: es') := by
  obtain ⟨shown, happend, hcancel, hchunks⟩ := h
  rcases List.eq_nil_or_concat es' with rfl | ⟨init, last, rfl⟩
  · rw [List.append_nil] at happend
    rw [happend] at hes
    exact absurd (List.mem_append_right _ (List.mem_singleton.mpr rfl)) hes
  · rw [List.concat_eq_append, ← List.append_assoc] at happend
    obtain ⟨rfl, hlast⟩ := List.append_inj' happend rfl
    obtain rfl : last = .cancel := List.singleton_inj.mp hlast
    refine ⟨es ++ .response r :: init, [], by simp, ?_, by simp, ?_, rfl⟩
    · simpa using hcancel
    · simpa using hchunks

theorem checkHttp_ok_iff (response : Result HttpResponse) :
    c.checkHttp response = .ok (.ok ()) ↔
      ∃ r, response = .ok r ∧ 200 ≤ r.status ∧ r.status < 300 := by
  rcases response with e | r
  · simp [checkHttp, pure, Except.pure]
  · simp only [checkHttp]
    split_ifs with h
    · have : ¬ (200 ≤ r.status ∧ r.status < 300) := by omega
      simp only [Except.ok.injEq, exists_eq_left', this, iff_false]
      cases Wire.parseApiError c.text r.status r.body r.headers <;>
        simp [bind, Except.bind, pure, Except.pure]
    · simp only [Except.ok.injEq, exists_eq_left', pure, Except.pure, true_iff]
      omega

/-- What one attempt of `stream` shows: `es` are its events, `r` is what it returns. -/
structure AttemptSpec (request : HttpRequest) (delivered : Bool) (es : List Event)
    (v' : StreamVars) (r : MayThrow (Result GenerateResponse)) : Prop where
  http : ∃ rest, es = .http request :: rest ∧ ∀ e ∈ rest, e.ofAnswer
  chunks : returned (chunksOf es) <+: c.decoded (SseParser.sseEvents (bytesOf es))
  delivered : v'.deliveredAny = (delivered || !(chunksOf es).isEmpty)
  aggregate : ∀ agg, r = .ok (.ok agg) → agg = mergeAll (chunksOf es)
  whole : ∀ agg, r = .ok (.ok agg) → .cancel ∉ es →
    returned (chunksOf es) = c.decoded (SseParser.sseEvents (bytesOf es))
  complete : ∀ response, .response (.ok response) ∈ es →
    200 ≤ response.status ∧ response.status < 300 → .cancel ∉ es → (∃ a, r = .ok a) →
    (∀ e, .ok (.error e) ∉ c.decoded (SseParser.sseEvents (bytesOf es))) →
    returned (chunksOf es) = c.decoded (SseParser.sseEvents (bytesOf es))
  cancelled : .cancel ∈ es → CancelledOnce es ∧ ∃ agg, r = .ok (.ok agg)

variable {c} {request : HttpRequest} {delivered : Bool} {sse : List Bytes} {v' : StreamVars}
  {body mid : List Event} {r : MayThrow (Result GenerateResponse)}

/-- An attempt from what its handler did: `mid` is `body` with the transport's answer in it. -/
theorem AttemptSpec.of_handed
    (hh : Handed c sse { StreamVars.init with deliveredAny := delivered } body v')
    (hsse : sse <+: SseParser.sseEvents (bytesOf mid)) (hc : chunksOf mid = chunksOf body)
    (hmid : ∀ e ∈ mid, e.ofAnswer)
    (hcancelled : .cancel ∈ mid → CancelledOnce mid ∧ ∃ agg, r = .ok (.ok agg))
    (hagg : ∀ agg, r = .ok (.ok agg) → agg = v'.aggregate)
    (hwhole : ∀ agg, r = .ok (.ok agg) → .cancel ∉ mid →
      returned (chunksOf body) = c.decoded (SseParser.sseEvents (bytesOf mid)))
    (hcomplete : ∀ response, .response (.ok response) ∈ mid →
      200 ≤ response.status ∧ response.status < 300 → .cancel ∉ mid → ∀ e, r = .ok (.error e) →
      ∃ e, .ok (.error e) ∈ c.decoded (SseParser.sseEvents (bytesOf mid))) :
    AttemptSpec c request delivered (.http request :: mid) v' r where
  http := ⟨mid, rfl, hmid⟩
  chunks := by
    obtain ⟨rest, hrest⟩ := hsse
    rw [bytesOf_http, chunksOf_http, hc, ← hrest, decoded_append]
    exact hh.chunks.trans (List.prefix_append ..)
  delivered := by rw [chunksOf_http, hc]; exact hh.delivered
  aggregate agg h := by rw [chunksOf_http, hc, hagg agg h, hh.aggregate]; rfl
  whole agg h hcancel := by
    rw [bytesOf_http, chunksOf_http, hc]
    exact hwhole agg h (by simpa using hcancel)
  complete response hr hstatus hcancel := by
    rintro ⟨e | agg, ha⟩ hparse
    · obtain ⟨e', he'⟩ := hcomplete response (by simpa using hr) hstatus (by simpa using hcancel)
        e ha
      exact absurd he' (hparse e')
    · rw [bytesOf_http, chunksOf_http, hc]
      exact hwhole agg ha (by simpa using hcancel)
  cancelled h := by
    obtain ⟨⟨shown, rest, rfl, hshown⟩, hr⟩ := hcancelled (by simpa using h)
    exact ⟨⟨.http request :: shown, rest, rfl, by simpa using hshown⟩, hr⟩

/-- What an attempt returns once its response needs no further look. -/
def verdict (v : StreamVars) : Result GenerateResponse :=
  match v.parseError with
  | some e => .error e
  | none => .ok v.aggregate

/-- An attempt that the handler stopped. -/
theorem AttemptSpec.of_stop
    (hh : HandedStop c sse { StreamVars.init with deliveredAny := delivered } body v')
    (hsse : sse <+: SseParser.sseEvents (bytesOf mid)) (hc : chunksOf mid = chunksOf body)
    (hmid : ∀ e ∈ mid, e.ofAnswer) (hcancel : .cancel ∈ mid ↔ .cancel ∈ body)
    (hcancelled : Cancelled body → CancelledOnce mid) :
    AttemptSpec c request delivered (.http request :: mid) v' (.ok (verdict v')) := by
  rcases hh.reason with ⟨-, hp, hcancels⟩ | ⟨-, hnone, e, he, hmem⟩
  · have hp' : v'.parseError = none := hp
    have hmem : .cancel ∈ mid := by
      obtain ⟨shown, rfl, -⟩ := hcancels
      exact hcancel.mpr (by simp)
    simp only [verdict, hp']
    refine .of_handed hh.toHanded hsse hc hmid (fun _ => ⟨hcancelled hcancels, _, rfl⟩)
      (fun agg h => by cases h; rfl) ?_ ?_
    · exact fun agg _ hn => absurd hmem hn
    · exact fun response _ _ hn => absurd hmem hn
  · simp only [verdict, he]
    refine .of_handed hh.toHanded hsse hc hmid (fun h => absurd (hcancel.mp h) hnone)
      (fun agg h => by cases h) (fun agg h => by cases h) ?_
    intro _ _ _ _ _ _
    obtain ⟨rest, hrest⟩ := hsse
    refine ⟨e, ?_⟩
    rw [← hrest, decoded_append]
    exact List.mem_append_left _ hmem

variable (c)

theorem wp_finishStream (onChunk : Option (StreamCallback ω)) (p : SseParser)
    (s : StreamVars × ω) :
    wp (c.finishStream onChunk p) s fun es s' r =>
      bytesOf es = [] ∧ ∃ r', HandedPost c p.trailing s.1 es s'.1 r' ∧
        r = r'.map fun _ => verdict s'.1 := by
  simp only [finishStream, wp_bind]
  refine wp_mono (wp_finish c onChunk p s) ?_
  rintro es s' (x | ⟨go, q⟩) ⟨hb, h⟩
  · exact ⟨hb, .error x, h, rfl⟩
  · simp only [then_ok, wp_bind, wp_get]
    cases hp : s'.1.parseError <;> simp only [wp_pure, List.append_nil] <;>
      exact ⟨hb, .ok go, h, by simp [verdict, hp, Except.map]⟩

variable {c}

/-! The events of an attempt are those of the delivery, the transport's answer, and those of
`finish`. -/
section answered
variable {es tail : List Event} {response : Result HttpResponse}

theorem bytesOf_answered (h : bytesOf tail = []) :
    bytesOf (es ++ .response response :: tail) = bytesOf es := by
  rw [bytesOf_append, bytesOf_response, h, List.append_nil]

theorem chunksOf_answered :
    chunksOf (es ++ .response response :: tail) = chunksOf (es ++ tail) := by
  rw [chunksOf_append, chunksOf_response, chunksOf_append]

theorem cancel_mem_answered :
    .cancel ∈ es ++ .response response :: tail ↔ .cancel ∈ es ++ tail := by
  simp

theorem ofAnswer_answered (hes : ∀ e ∈ es, e.ofBody) (htail : ∀ e ∈ tail, e.ofBody) :
    ∀ e ∈ es ++ .response response :: tail, e.ofAnswer := by
  intro e he
  rcases List.mem_append.mp he with he | he
  · exact (hes e he).ofAnswer
  · rcases List.mem_cons.mp he with rfl | he
    · trivial
    · exact (htail e he).ofAnswer

end answered

/-- The events that are complete when a body ends are the first of its events. -/
theorem complete_tokens (bytes : Bytes) :
    (SseParser.tokenize .init bytes).2 <+: SseParser.sseEvents bytes :=
  ⟨_, (SseParser.sseEvents_eq bytes).symm⟩

variable {es es' : List Event} {v : StreamVars} {response : Result HttpResponse}

/-- An attempt whose answer is not a success. -/
theorem AttemptSpec.of_failed
    (h : HandedAll c (SseParser.tokenize .init (bytesOf es)).2
      { StreamVars.init with deliveredAny := delivered } es v)
    (hcheck : c.checkHttp response ≠ .ok (.ok ())) (hr : ∀ agg, r ≠ .ok (.ok agg)) :
    AttemptSpec c request delivered (.http request :: (es ++ [.response response])) v r := by
  have hchunks : chunksOf (es ++ [.response response]) = chunksOf es := by
    rw [chunksOf_answered, List.append_nil]
  have hnone : .cancel ∉ es ++ [.response response] := by
    rw [cancel_mem_answered, List.append_nil]
    exact h.no_cancel
  refine .of_handed h.toHanded ?_ hchunks (ofAnswer_answered h.body (by simp))
    (fun hm => absurd hm hnone) (fun agg ha => absurd ha (hr agg))
    (fun agg ha => absurd ha (hr agg)) ?_
  · rw [bytesOf_answered rfl]
    exact complete_tokens _
  · intro resp hmem hstatus _ _ _
    refine absurd ((checkHttp_ok_iff c response).mpr ⟨resp, ?_, hstatus⟩) hcheck
    rcases List.mem_append.mp hmem with hmem | hmem
    · exact (h.body _ hmem).elim
    · exact (Event.response.inj (List.mem_singleton.mp hmem)).symm

/-- An attempt whose handler stopped during the delivery. -/
theorem AttemptSpec.of_stopped
    (h : HandedStop c (SseParser.tokenize .init (bytesOf es)).2
      { StreamVars.init with deliveredAny := delivered } es v) :
    AttemptSpec c request delivered (.http request :: (es ++ [.response response])) v
      (.ok (verdict v)) := by
  have hchunks : chunksOf (es ++ [.response response]) = chunksOf es := by
    rw [chunksOf_answered, List.append_nil]
  have hcancel : .cancel ∈ es ++ [.response response] ↔ .cancel ∈ es := by
    rw [cancel_mem_answered, List.append_nil]
  refine .of_stop h ?_ hchunks (ofAnswer_answered h.body (by simp)) hcancel fun hcancels => ?_
  · rw [bytesOf_answered rfl]
    exact complete_tokens _
  · obtain ⟨shown, rfl, hshown⟩ := hcancels
    refine ⟨shown, [.response response], ?_, hshown.1, by simp, hshown.2, rfl⟩
    rw [List.append_assoc]
    rfl

/-- An attempt that flushes its parser after a success. -/
theorem AttemptSpec.of_finish {go : MayThrow Bool}
    (h : HandedAll c (SseParser.tokenize .init (bytesOf es)).2
      { StreamVars.init with deliveredAny := delivered } es v)
    (h' : HandedPost c (SseParser.tokenize .init (bytesOf es)).1.trailing v es' v' go)
    (hb : bytesOf es' = []) :
    AttemptSpec c request delivered (.http request :: (es ++ .response response :: es')) v'
      (go.map fun _ => verdict v') := by
  have hsse : (SseParser.tokenize .init (bytesOf es)).2 ++
      (SseParser.tokenize .init (bytesOf es)).1.trailing =
        SseParser.sseEvents (bytesOf (es ++ .response response :: es')) := by
    rw [bytesOf_answered hb]
    exact (SseParser.sseEvents_eq _).symm
  have hprefix : (SseParser.tokenize .init (bytesOf es)).2 ++
      (SseParser.tokenize .init (bytesOf es)).1.trailing <+:
        SseParser.sseEvents (bytesOf (es ++ .response response :: es')) :=
    ⟨[], (List.append_nil _).trans hsse⟩
  have hmid : ∀ e ∈ es ++ .response response :: es', e.ofAnswer :=
    ofAnswer_answered h.body h'.handed.body
  rcases go with x | (_ | _)
  · have hsome := HandedSome.trans h h'
    exact .of_handed hsome.toHanded hprefix chunksOf_answered hmid
      (fun hm => absurd (cancel_mem_answered.mp hm) hsome.no_cancel)
      (fun agg h => by cases h) (fun agg h => by cases h) (fun _ _ _ _ e h => by cases h)
  · exact .of_stop (HandedStop.trans h h') hprefix chunksOf_answered hmid cancel_mem_answered
      fun hcancels => hcancels.with_response h.no_cancel
  · have hall := HandedAll.trans h h'
    have hnone : v'.parseError = none := hall.parseError
    have hv : verdict v' = .ok v'.aggregate := by simp only [verdict, hnone]
    rw [Except.map, hv]
    refine .of_handed hall.toHanded hprefix chunksOf_answered hmid
      (fun hm => absurd (cancel_mem_answered.mp hm) hall.no_cancel)
      (fun agg h => by cases h; rfl) (fun agg _ _ => ?_) (fun _ _ _ _ e h => by cases h)
    rw [hall.all, hsse]

variable (c)

theorem wp_streamAttempt (body : Bytes) (onChunk : Option (StreamCallback ω))
    (s : StreamVars × ω) :
    wp (c.streamAttempt body onChunk) s fun es s' r =>
      AttemptSpec c (c.makeRequest (c.endpoint (ascii "streamGenerateContent") true) body)
        s.1.deliveredAny es s'.1 r := by
  simp only [streamAttempt, setVars, Transport.runStreaming, wp_bind, wp_modify, then_ok, wp_emit,
    wp_lift, wp_ask, List.nil_append]
  generalize c.makeRequest (c.endpoint (ascii "streamGenerateContent") true) body = request
  refine wp_mono (wp_deliver c onChunk _ (by simp [SseParser.init]) _) ?_
  rintro es s₁ (x | ⟨response, q⟩) h
  · have h : HandedSome c _ _ es s₁.1 := h
    exact .of_handed h.toHanded (complete_tokens _) rfl (fun e he => (h.body e he).ofAnswer)
      (fun hm => absurd hm h.no_cancel) (fun agg h => by cases h) (fun agg h => by cases h)
      (fun _ _ _ _ e h => by cases h)
  simp only [then_ok, wp_bind, wp_emit, wp_pure, wp_get, List.append_nil]
  rcases h with ⟨h, rfl⟩ | h
  · have hp : s₁.1.parseError = none := h.parseError
    have hs : s₁.1.callerStopped = false := h.callerStopped
    simp only [hp, hs, Bool.false_eq_true, if_false, wp_bind, wp_ofExcept]
    rcases hcheck : c.checkHttp response with x | (e | ⟨⟩)
    · simpa using AttemptSpec.of_failed h (by simp [hcheck]) (by simp)
    · simpa using AttemptSpec.of_failed h (by simp [hcheck]) (by simp)
    · simp only [then_ok]
      refine wp_mono (wp_finishStream c onChunk _ s₁) fun es' s₂ r hfinish => ?_
      obtain ⟨hb, go, h', rfl⟩ := hfinish
      simp only [List.nil_append, List.cons_append, List.append_assoc]
      exact .of_finish h h' hb
  · have spec : AttemptSpec c request s.1.deliveredAny
        (.http request :: (es ++ [.response response])) s₁.1 (.ok (verdict s₁.1)) := .of_stopped h
    cases hp : s₁.1.parseError with
    | some e => simpa [verdict, hp] using spec
    | none =>
      have hs : s₁.1.callerStopped = true := by
        rcases h.reason with ⟨hs, -⟩ | ⟨-, -, e, he, -⟩
        · exact hs
        · rw [hp] at he
          cases he
      simpa [verdict, hp, hs] using spec

/-- Every event of an attempt that delivered nothing shows nothing. -/
theorem AttemptSpec.silent {c : Client ω} {request : HttpRequest} {delivered : Bool}
    {es : List Event} {v' : StreamVars} {r : MayThrow (Result GenerateResponse)}
    (spec : AttemptSpec c request delivered es v' r) (h : v'.deliveredAny = false) :
    ∀ e ∈ es, e.silent := by
  have hchunks : chunksOf es = [] := by
    have hdelivered := spec.delivered
    rw [h] at hdelivered
    simpa using (Bool.or_eq_false_iff.mp hdelivered.symm).2
  have hcancel : .cancel ∉ es := by
    intro hmem
    obtain ⟨⟨shown, rest, rfl, -, -, hshown, -⟩, -⟩ := spec.cancelled hmem
    rw [chunksOf_append] at hchunks
    exact hshown (List.append_eq_nil_iff.mp hchunks).1
  obtain ⟨rest, hes, hanswer⟩ := spec.http
  intro e he
  have hnone := List.filterMap_eq_nil_iff.mp hchunks e he
  rw [hes] at he
  rcases List.mem_cons.mp he with rfl | hrest
  · trivial
  · have he := hanswer e hrest
    cases e with
    | chunk chunk => cases hnone
    | cancel => exact absurd (hes ▸ List.mem_cons_of_mem _ hrest) hcancel
    | _ => trivial

/-- `stream` is its last attempt, which is made when nothing has been delivered before. -/
theorem wp_stream (request : GenerateRequest) (onChunk : Option (StreamCallback ω)) (w : ω)
    (hvalid : c.validate request = .ok ()) :
    wp (c.stream request onChunk) w fun es _ r =>
      (∃ x, c.text.dump (Wire.requestToJson request) = .error x ∧ r = .error x ∧
        ∀ e ∈ es, e.isMetric) ∨
      ∃ body, c.text.dump (Wire.requestToJson request) = .ok body ∧
        IsLastAttempt (c.streamAttempt body onChunk) (fun v => v.deliveredAny = false) es r := by
  unfold stream streamValid
  rw [wp_bind, wp_emit, then_ok, hvalid, wp_bind, wp_ask, then_ok, wp_bind, wp_ofExcept]
  cases c.text.dump (Wire.requestToJson request) with
  | error x => exact Or.inl ⟨x, rfl, rfl, by simp [Event.isMetric]⟩
  | ok body =>
    rw [then_ok]
    refine wp_mono (c.wp_attempts (c.streamAttempt body onChunk) (fun v => !v.deliveredAny)
      (I := fun v => v.deliveredAny = false) (v := StreamVars.init) rfl ?_ _ _) fun es s' r h => ?_
    · intro s e _ _ hretry
      -- another attempt is allowed only if this one delivered nothing
      have hnone : (c.streamAttempt body onChunk s).state.1.deliveredAny = false := by
        simpa using hretry
      exact ⟨hnone, (wp_iff.mp (wp_streamAttempt c body onChunk s)).silent hnone⟩
    · have hcall : IsLastAttempt _ _ ([.metric .requests 1] ++ es) r :=
        h.cons (by simp [Event.silent])
      exact Or.inr ⟨body, rfl, hcall⟩

/-- The result and the events of a run. -/
def shown {σ α : Type} (o : Outcome Event Exn σ α) : MayThrow α × List Event :=
  (o.result, o.events)

end Client

/-- One user turn and nothing else. -/
def GenerateRequest.ofText (t : Bytes) : GenerateRequest :=
  { contents := [.user t], systemInstruction := none, tools := [], config := .unset
    safetySettings := [] }

/-- A streamed reply that says hello. -/
def helloText : Bytes :=
  ascii "\x7b\"candidates\":[\x7b\"content\":\x7b\"parts\":[\x7b\"text\":\"hello\"\x7d]\x7d\x7d]\x7d"

def helloDocument : Json :=
  Json.object [(ascii "candidates", .arr [Json.object [(ascii "content",
    Json.object [(ascii "parts", .arr [Json.object [(ascii "text", .str (ascii "hello"))]])])]])]

end GeminiCpp
