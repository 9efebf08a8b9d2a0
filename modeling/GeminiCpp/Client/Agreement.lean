import GeminiCpp.Client.Metrics
import GeminiCpp.Merge.Pieces
import GeminiCpp.Sse.Event
import GeminiCpp.Wire.Returns

/-! Streaming a body and asking for it at once give the same reply, up to the gluing of text. -/
namespace GeminiCpp
open Traced Traced.Prog

/-- What JSON says of white space, and of the end mark of a stream: a CR is white space, and it
does not separate what an LF or the end of the text does not. -/
structure JsonText.IgnoresLineCr (text : JsonText) : Prop where
  before_lf : ∀ u v, text.parse (u ++ cr :: lf :: v) = text.parse (u ++ lf :: v)
  at_end : ∀ u, text.parse (u ++ [cr]) = text.parse u
  not_done : text.parse (ascii "[DONE]") = none

/-- A body is the same document before and after the parser. -/
theorem JsonText.IgnoresLineCr.parse_payload {text : JsonText} (h : text.IgnoresLineCr)
    {body payload : Bytes} (hpayload : SseParser.IsPayloadOf body payload) :
    text.parse payload = text.parse body := by
  have hlines : ∀ (lines : List (Bytes × LineEnd)) (pre : Bytes),
      text.parse (pre ++ [lf].intercalate (lines.map SseParser.dataValue)) =
        text.parse (pre ++ [lf].intercalate (lines.map Prod.fst)) := by
    intro lines
    induction lines with
    | nil => exact fun _ => rfl
    | cons l lines ih =>
      intro pre
      cases lines with
      | nil =>
        simp only [List.map_cons, List.map_nil, List.intercalate_singleton]
        rcases SseParser.dataValue_eq l with hvalue | hline
        · rw [hvalue]
        · rw [hline, ← List.append_assoc, h.at_end]
      | cons next lines =>
        have hrest := ih (pre ++ SseParser.dataValue l ++ [lf])
        simp only [List.map_cons, List.intercalate_cons_cons, List.append_assoc,
          List.singleton_append] at hrest ⊢
        rw [hrest]
        rcases SseParser.dataValue_eq l with hvalue | hline
        · rw [hvalue]
        · have hcr := h.before_lf (pre ++ SseParser.dataValue l)
            ([lf].intercalate (next.1 :: lines.map Prod.fst))
          rw [hline]
          simpa using hcr.symm
  obtain ⟨lines, hsplit, rfl⟩ := hpayload
  have hbody : body = [lf].intercalate (lines.map Prod.fst) := by
    rw [hsplit, List.intercalate_splitOn]
  rw [hbody]
  exact hlines lines []

/-- What a caller reads of two replies is the same. -/
structure SameReply (r r' : GenerateResponse) : Prop where
  text : r.text = r'.text
  functionCalls : r.functionCalls = r'.functionCalls
  finishReason : r.finishReason = r'.finishReason
  modelVersion : r.modelVersion = r'.modelVersion
  responseId : r.responseId = r'.responseId

/-- Two results are both the same error code or both the same reply. -/
inductive Agree : Result GenerateResponse → Result GenerateResponse → Prop
  | failed {e e' : Error} (hcode : e.code = .parse ∨ e.code = .blocked) (h : e.code = e'.code) :
    Agree (.error e) (.error e')
  | replied {r r' : GenerateResponse} (h : SameReply r r') : Agree (.ok r) (.ok r')

theorem ignoresGluing_asCall : IgnoresGluing fun p => p.asCall.toList := by
  intro t u kind s s' s''
  rfl

theorem callsOf_eq (parts : List Part) : callsOf parts = parts.flatMap fun p => p.asCall.toList := by
  induction parts with
  | nil => rfl
  | cons p parts ih =>
    rw [List.flatMap_cons, ← ih]
    unfold callsOf
    cases h : p.asCall <;> simp [h]

theorem callsOf_foldl_appendPart (incoming : List Part) :
    callsOf (incoming.foldl appendPart []) = callsOf incoming := by
  rw [callsOf_eq, callsOf_eq]
  exact flatMap_foldl_appendPart ignoresGluing_asCall [] incoming

/-- Candidates of other indices leave the first one as it is. -/
theorem foldl_mergeCandidate_ne {c : Candidate} {incoming : List Candidate}
    (h : ∀ i ∈ incoming, i.index ≠ c.index) (others : List Candidate) :
    ∃ others', incoming.foldl mergeCandidate (c :: others) = c :: others' := by
  induction incoming generalizing others with
  | nil => exact ⟨others, rfl⟩
  | cons i incoming ih =>
    have hne : c.index ≠ i.index := (h i (List.mem_cons_self ..)).symm
    rw [List.foldl_cons, mergeCandidate, if_neg hne]
    exact ih (fun i hi => h i (List.mem_cons_of_mem _ hi)) _

theorem merge_empty_nil {reply : GenerateResponse} (h : reply.candidates = []) :
    (GenerateResponse.empty.merge reply).candidates = [] := by
  have hmerged : (GenerateResponse.empty.merge reply).candidates =
      reply.candidates.foldl mergeCandidate [] := rfl
  rw [hmerged, h]
  rfl

/-- What an aggregate that is still empty takes over of a string. -/
theorem ite_nil_self (s : Bytes) : (if s = [] then [] else s) = s := by
  by_cases hs : s = []
  · rw [if_pos hs, hs]
  · rw [if_neg hs]

/-- The first candidate of a merged reply is the first of the reply, with its text glued. -/
theorem merge_empty_cons {reply : GenerateResponse} {first : Candidate} {rest : List Candidate}
    (h : reply.candidates = first :: rest) (hindices : (reply.candidates.map (·.index)).Nodup) :
    ∃ c others, (GenerateResponse.empty.merge reply).candidates = c :: others ∧
      c.content.parts = first.content.parts.foldl appendPart [] ∧
      c.finishReason = first.finishReason := by
  let new : Candidate :=
    { content := { role := .model, parts := [] }, finishReason := [], index := first.index }
  have hmerged : (GenerateResponse.empty.merge reply).candidates =
      rest.foldl mergeCandidate [new.absorb first] := by
    change reply.candidates.foldl mergeCandidate [] = _
    rw [h]
    rfl
  rw [h, List.map_cons] at hindices
  have hne : ∀ i ∈ rest, i.index ≠ (new.absorb first).index := by
    intro i hi heq
    have hnot := (List.nodup_cons.mp hindices).1
    apply hnot
    exact List.mem_map.mpr ⟨i, hi, heq⟩
  obtain ⟨others, hothers⟩ := foldl_mergeCandidate_ne hne []
  have hreason : (new.absorb first).finishReason = first.finishReason :=
    ite_nil_self first.finishReason
  exact ⟨new.absorb first, others, hmerged.trans hothers, rfl, hreason⟩

theorem merge_empty_same {reply : GenerateResponse}
    (hindices : (reply.candidates.map (·.index)).Nodup) :
    SameReply (GenerateResponse.empty.merge reply) reply := by
  cases hcandidates : reply.candidates with
  | nil =>
    have hmerged := merge_empty_nil hcandidates
    constructor
    case text => simp only [GenerateResponse.text, hmerged, hcandidates]
    case functionCalls => simp only [GenerateResponse.functionCalls, hmerged, hcandidates]
    case finishReason => simp only [GenerateResponse.finishReason, hmerged, hcandidates]
    case modelVersion => exact ite_nil_self reply.modelVersion
    case responseId => exact ite_nil_self reply.responseId
  | cons first rest =>
    obtain ⟨c, others, hmerged, hparts, hreason⟩ := merge_empty_cons hcandidates hindices
    constructor
    case text =>
      simp only [GenerateResponse.text, hmerged, hcandidates]
      rw [(keeps_of_foldl hparts).text, Content.text_eq]
    case functionCalls =>
      simp only [GenerateResponse.functionCalls, hmerged, hcandidates]
      rw [hparts, callsOf_foldl_appendPart]
    case finishReason =>
      simpa only [GenerateResponse.finishReason, hmerged, hcandidates] using hreason
    case modelVersion => exact ite_nil_self reply.modelVersion
    case responseId => exact ite_nil_self reply.responseId

/-- Merging does not change whether a reply was blocked. -/
theorem checkBlocked_agree {result : Result GenerateResponse}
    (hcode : ∀ e, result = .error e → e.code = .parse)
    (hindices : ∀ reply, result = .ok reply → (reply.candidates.map (·.index)).Nodup) :
    Agree (checkBlocked (result.map (GenerateResponse.merge .empty))) (checkBlocked result) := by
  cases result with
  | error e => exact .failed (Or.inl (hcode e rfl)) rfl
  | ok reply =>
    have hsame := merge_empty_same (hindices reply rfl)
    have hreason : (GenerateResponse.empty.merge reply).promptBlockReason =
        reply.promptBlockReason := by
      change (if reply.promptBlockReason.isSome then reply.promptBlockReason else none) = _
      cases reply.promptBlockReason <;> rfl
    change Agree (checkBlocked (.ok (GenerateResponse.empty.merge reply))) _
    unfold checkBlocked
    simp only [hreason]
    cases hcandidates : reply.candidates with
    | nil =>
      rw [merge_empty_nil hcandidates]
      cases reply.promptBlockReason with
      | none => exact .replied hsame
      | some reason => exact .failed (Or.inr rfl) rfl
    | cons first rest =>
      obtain ⟨c, others, hmerged, -⟩ := merge_empty_cons hcandidates (hindices reply rfl)
      rw [hmerged]
      exact .replied hsame

/-- The body that a script delivers if it is never refused. -/
def StreamScript.bytes : StreamScript → Bytes
  | .done _ => []
  | .piece bytes _ rest => bytes ++ rest.bytes

/-- What a script returns if it is never refused. -/
def StreamScript.last : StreamScript → Result HttpResponse
  | .done response => response
  | .piece _ _ rest => rest.last

variable {ω τ α : Type}

/-- How a delivery ends, by what the handler said to the events of the whole body. -/
def Delivered (script : StreamScript) (p : SseParser)
    (r : MayThrow (Result HttpResponse × SseParser)) : MayThrow Bool → Prop
  | .ok true => r = .ok (script.last, (SseParser.tokenize p script.bytes).1)
  | .ok false => ∃ answer, r = .ok answer
  | .error x => r = .error x

/-- A piece of a body, as its events offered to the handler. -/
theorem wp_feed_tokenize (handler : Bytes → Program (τ × ω) Bool) {p : SseParser}
    (hp : lf ∉ p.buffer) (bytes : Bytes) (s : τ × ω) :
    wp (SseParser.feed handler p bytes) s fun _ s' r =>
      wp ((SseParser.tokenize p bytes).2.allM handler) s fun _ s₁ go =>
        s' = s₁ ∧ r.map SseParser.going =
          go.map fun go => if go then some (SseParser.tokenize p bytes).1 else none := by
  have hgoing : wp (SseParser.going <$> SseParser.feed handler p bytes) s fun _ s' r =>
      wp ((SseParser.tokenize p bytes).2.allM handler) s fun _ s₁ go =>
        s' = s₁ ∧ r =
          go.map fun go => if go then some (SseParser.tokenize p bytes).1 else none := by
    rw [SseParser.going_feed handler hp, SseParser.offer, wp_map]
    exact ⟨rfl, rfl⟩
  rwa [wp_map] at hgoing

/-- However a body is cut into pieces, its delivery offers the events of the whole to the
handler. -/
theorem wp_deliver_tokenize (handler : Bytes → Program (τ × ω) Bool) (script : StreamScript)
    {p : SseParser} (hp : lf ∉ p.buffer) (s : τ × ω) :
    wp (deliver (SseParser.feed handler) p script) s fun _ s' r =>
      wp ((SseParser.tokenize p script.bytes).2.allM handler) s fun _ s₁ go =>
        s' = s₁ ∧ Delivered script p r go := by
  induction script generalizing p s with
  | done response => exact ⟨rfl, rfl⟩
  | piece b aborted rest ih =>
    simp only [deliver, wp_bind, wp_emit, then_ok]
    refine wp_mono (wp_feed_tokenize handler hp b s) fun es s₁ r h => ?_
    simp only [StreamScript.bytes, SseParser.tokenize_append, SseParser.allM_append, wp_bind]
    rw [wp_iff] at h
    obtain ⟨rfl, hr⟩ := h
    rcases hgo : ((SseParser.tokenize p b).2.allM handler s).result with x | (_ | _)
    · rw [hgo] at hr
      rcases r with x' | ⟨go, q⟩
      · obtain rfl : x' = x := Except.error.inj hr
        rw [then_error, wp_iff, hgo]
        exact ⟨rfl, rfl⟩
      · cases hr
    · rw [hgo] at hr
      rcases r with x' | ⟨_ | _, q⟩
      · cases hr
      · simp only [then_ok, Bool.false_eq_true, if_false, wp_pure]
        rw [wp_iff, hgo]
        exact ⟨rfl, _, rfl⟩
      · cases hr
    · rw [hgo] at hr
      rcases r with x' | ⟨_ | _, q⟩
      · cases hr
      · cases hr
      · obtain rfl : q = (SseParser.tokenize p b).1 := Option.some.inj (Except.ok.inj hr)
        have hnext := SseParser.lf_not_mem_tokenize hp b
        simp only [then_ok, if_true]
        refine wp_mono (ih hnext _) fun es' s₂ r' h' => ?_
        rw [wp_iff, hgo, then_ok, if_pos rfl]
        refine wp_mono h' fun _ s₃ go h'' => ?_
        obtain ⟨hs, hdelivered⟩ := h''
        refine ⟨hs, ?_⟩
        unfold Delivered at hdelivered ⊢
        simpa only [StreamScript.bytes, StreamScript.last, SseParser.tokenize_append]
          using hdelivered

/-- The callback always asks to go on. -/
def NeverCancels (onChunk : Option (StreamCallback ω)) : Prop :=
  ∀ callback ∈ onChunk, ∀ chunk w, (callback chunk w).1 = .ok true

namespace Client
variable (c : Client ω)

theorem wp_notify_go {onChunk : Option (StreamCallback ω)} (h : NeverCancels onChunk)
    (chunk : GenerateResponse) (s : StreamVars × ω) :
    wp (notify onChunk chunk) s fun _ s' r => s'.1 = s.1 ∧ r = .ok true := by
  unfold notify
  cases onChunk with
  | none => exact ⟨rfl, rfl⟩
  | some callback =>
    have hgo : (callback chunk s.2).1 = .ok true := h callback rfl chunk s.2
    simp only [wp_bind, wp_lift, wp_call, hgo, then_ok, if_true, wp_pure]
    exact ⟨trivial, trivial⟩

/-- What the handler does with an event that decodes to `result`. -/
def Handles (s s' : StreamVars) (r : MayThrow Bool) : Result GenerateResponse → Prop
  | .error e => r = .ok false ∧ s'.parseError = some e
  | .ok chunk => r = .ok true ∧
    s' = { s with aggregate := s.aggregate.merge chunk, deliveredAny := true }

theorem wp_onEvent_decoded {onChunk : Option (StreamCallback ω)} (h : NeverCancels onChunk)
    {data : Bytes} (hdone : data ≠ ascii "[DONE]") {result : Result GenerateResponse}
    (hdecode : Wire.parseResponseText c.text data = .ok result) (s : StreamVars × ω) :
    wp (c.onEvent onChunk data) s fun _ s' r => Handles s.1 s'.1 r result := by
  unfold onEvent
  rw [if_neg hdone, wp_bind, wp_ofExcept, hdecode, then_ok]
  cases result with
  | error e => exact ⟨rfl, rfl⟩
  | ok chunk =>
    simp only [wp_bind, setVars, wp_modify, wp_emit, then_ok]
    refine wp_mono (wp_notify_go h chunk _) fun _ s' r hgo => ?_
    exact ⟨hgo.2, hgo.1⟩

/-- How the delivery of one event ends, when it decodes to `result`. -/
def DeliversEvent (script : StreamScript) (s s' : StreamVars)
    (r : MayThrow (Result HttpResponse × SseParser)) : Result GenerateResponse → Prop
  | .error e => (∃ answer, r = .ok answer) ∧ s'.parseError = some e
  | .ok chunk => r = .ok (script.last, .init) ∧
    s' = { s with aggregate := s.aggregate.merge chunk, deliveredAny := true }

theorem wp_deliver_event {onChunk : Option (StreamCallback ω)} (h : NeverCancels onChunk)
    {payload : Bytes} (hdone : payload ≠ ascii "[DONE]") {result : Result GenerateResponse}
    (hdecode : Wire.parseResponseText c.text payload = .ok result) {script : StreamScript}
    (htokens : SseParser.tokenize .init script.bytes = (.init, [payload]))
    (s : StreamVars × ω) :
    wp (deliver (SseParser.feed (c.onEvent onChunk)) .init script) s fun _ s' r =>
      DeliversEvent script s.1 s'.1 r result := by
  have hone : [payload].allM (c.onEvent onChunk) = c.onEvent onChunk payload := by
    conv_rhs => rw [← bind_pure (c.onEvent onChunk payload)]
    unfold List.allM
    congr 1
    funext go
    cases go <;> rfl
  refine wp_mono (wp_deliver_tokenize (c.onEvent onChunk) script List.not_mem_nil s)
    fun es s' r hdelivered => ?_
  rw [htokens, hone, wp_iff] at hdelivered
  obtain ⟨rfl, hr⟩ := hdelivered
  have hevent := wp_iff.mp (wp_onEvent_decoded c h hdone hdecode s)
  cases result with
  | error e =>
    obtain ⟨hgo, herror⟩ := hevent
    rw [hgo] at hr
    exact ⟨hr, herror⟩
  | ok chunk =>
    obtain ⟨hgo, hvars⟩ := hevent
    rw [hgo] at hr
    unfold Delivered at hr
    rw [htokens] at hr
    exact ⟨hr, hvars⟩

/-- The answer is a success of HTTP. -/
def Succeeds (answer : HttpResponse) : Prop := 200 ≤ answer.status ∧ answer.status < 300

theorem checkHttp_of_succeeds {answer : HttpResponse} (h : Succeeds answer) :
    c.checkHttp (.ok answer) = .ok (.ok ()) :=
  (checkHttp_ok_iff c (.ok answer)).mpr ⟨answer, rfl, h⟩

/-- An attempt of `stream` that is answered with one event. -/
theorem wp_streamAttempt_event {onChunk : Option (StreamCallback ω)} (h : NeverCancels onChunk)
    {payload : Bytes} (hdone : payload ≠ ascii "[DONE]") {result : Result GenerateResponse}
    (hdecode : Wire.parseResponseText c.text payload = .ok result) {answer : HttpResponse}
    (hanswer : Succeeds answer) (body : Bytes) (s : StreamVars × ω) {script : StreamScript}
    (hscript : (c.transport.sendStreaming
      (c.makeRequest (c.endpoint (ascii "streamGenerateContent") true) body) s.2).1 = script)
    (hlast : script.last = .ok answer)
    (htokens : SseParser.tokenize .init script.bytes = (.init, [payload])) :
    wp (c.streamAttempt body onChunk) s fun _ _ r =>
      r = .ok (result.map (GenerateResponse.merge .empty)) := by
  simp only [streamAttempt, setVars, Transport.runStreaming, wp_bind, wp_modify, then_ok, wp_emit,
    wp_lift, wp_ask, hscript]
  refine wp_mono (wp_deliver_event c h hdone hdecode htokens _) fun es s₁ r hdelivered => ?_
  cases result with
  | error e =>
    obtain ⟨⟨answer, rfl⟩, herror⟩ := hdelivered
    simp only [then_ok, wp_bind, wp_emit, wp_pure, wp_get, herror]
    rfl
  | ok chunk =>
    obtain ⟨rfl, hvars⟩ := hdelivered
    have herror : s₁.1.parseError = none := by rw [hvars]; rfl
    have hstopped : s₁.1.callerStopped = false := by rw [hvars]; rfl
    simp only [then_ok, wp_bind, wp_emit, wp_pure, wp_get, wp_ofExcept, hlast, herror, hstopped,
      checkHttp_of_succeeds c hanswer, Bool.false_eq_true, if_false, finishStream]
    -- nothing is left to flush
    have hfinish : SseParser.finish (c.onEvent onChunk) .init = pure (true, .init) := rfl
    simp only [hfinish, wp_pure, then_ok, wp_bind, wp_get, hvars]
    rfl

theorem wp_generateAttempt_answer (body : Bytes) (s : Unit × ω) {answer : HttpResponse}
    (hsend : (c.transport.send
      (c.makeRequest (c.endpoint (ascii "generateContent") false) body) s.2).1 = .ok answer)
    (hanswer : Succeeds answer) :
    wp (c.generateAttempt body) s fun _ _ r =>
      r = Wire.parseResponseText c.text answer.body := by
  simp only [generateAttempt, Transport.run, wp_bind, wp_lift, wp_emit, wp_ask, wp_pure, then_ok,
    wp_ofExcept, hsend, checkHttp_of_succeeds c hanswer]

/-- A first attempt that does not fail in a way worth another attempt is the only one. -/
theorem wp_withRetry_final {attempt : Program (τ × ω) (Result α)} {canRetry : τ → Bool}
    {s : τ × ω} {result : Result α} (h : (attempt s).result = .ok result)
    (hfinal : ∀ e, result = .error e → e.retryable = false) :
    wp (c.withRetry attempt canRetry) s fun _ _ r => r = .ok result := by
  obtain ⟨n, hn⟩ := c.withRetry_makesExactly attempt canRetry s
  have hfirst : (c.outcome attempt s 1).result = .ok result := h
  have hstops : c.StopsAt attempt canRetry s 1 := by
    cases result with
    | error e => exact .notRetryable hfirst (hfinal e rfl)
    | ok a => exact .success hfirst
  have hle : n ≤ 1 := hn.least.2 ⟨le_refl 1, hstops⟩
  have hpos : 1 ≤ n := hn.least.1.1
  obtain rfl : n = 1 := by omega
  rw [wp_iff, hn.result]
  exact hfirst

/-- The end of a call whose first attempt is final. -/
theorem wp_recorded_final {attempt : Program (τ × ω) (Result GenerateResponse)}
    {canRetry : τ → Bool} {v : τ} {w : ω} {result : Result GenerateResponse}
    (h : (attempt (v, w)).result = .ok result)
    (hfinal : ∀ e, result = .error e → e.retryable = false) (start : Millis) :
    wp (do
      let result ← Prog.withLocals v (c.withRetry attempt canRetry)
      c.record start (checkBlocked result)
      return checkBlocked result) w fun _ _ r => r = .ok (checkBlocked result) := by
  rw [wp_bind, wp_withLocals]
  refine wp_mono (c.wp_withRetry_final h hfinal) fun es s' r hr => ?_
  obtain rfl := hr
  rw [then_ok, wp_bind]
  refine wp_mono (c.wp_record start (checkBlocked result) s'.2) fun es' w' r hr => ?_
  obtain ⟨-, rfl⟩ := hr
  rw [then_ok, wp_pure]

/-- What the transport answers to the first request of `generate`. -/
def unaryAnswer (body : Bytes) (w : ω) : Result HttpResponse :=
  (c.transport.send (c.makeRequest (c.endpoint (ascii "generateContent") false) body)
    (c.host.clock w).2).1

/-- What the transport answers to the first request of `stream`. -/
def streamAnswer (body : Bytes) (w : ω) : StreamScript :=
  (c.transport.sendStreaming
    (c.makeRequest (c.endpoint (ascii "streamGenerateContent") true) body) (c.host.clock w).2).1

theorem generate_of_answer {request : GenerateRequest} {body : Bytes} {w : ω}
    {answer : HttpResponse} {result : Result GenerateResponse}
    (hvalid : c.validate request = .ok ())
    (hdump : c.text.dump (Wire.requestToJson request) = .ok body)
    (hsend : c.unaryAnswer body w = .ok answer) (hanswer : Succeeds answer)
    (hdecode : Wire.parseResponseText c.text answer.body = .ok result)
    (hfinal : ∀ e, result = .error e → e.retryable = false) :
    wp (c.generate request) w fun _ _ r => r = .ok (checkBlocked result) := by
  have hattempt : (c.generateAttempt body ((), (c.host.clock w).2)).result = .ok result :=
    (wp_iff.mp (c.wp_generateAttempt_answer body ((), _) hsend hanswer)).trans hdecode
  unfold generate generateValid
  rw [wp_bind, wp_emit, then_ok, hvalid, wp_bind, wp_ask, then_ok, wp_bind, wp_ofExcept, hdump,
    then_ok]
  exact c.wp_recorded_final hattempt hfinal _

theorem stream_of_event {request : GenerateRequest} {onChunk : Option (StreamCallback ω)}
    {body payload : Bytes} {w : ω} {answer : HttpResponse} {result : Result GenerateResponse}
    (hvalid : c.validate request = .ok ())
    (hdump : c.text.dump (Wire.requestToJson request) = .ok body)
    (hcallback : NeverCancels onChunk) (hlast : (c.streamAnswer body w).last = .ok answer)
    (hanswer : Succeeds answer)
    (htokens : SseParser.tokenize .init (c.streamAnswer body w).bytes = (.init, [payload]))
    (hdone : payload ≠ ascii "[DONE]")
    (hdecode : Wire.parseResponseText c.text payload = .ok result)
    (hfinal : ∀ e, result = .error e → e.retryable = false) :
    wp (c.stream request onChunk) w fun _ _ r =>
      r = .ok (checkBlocked (result.map (GenerateResponse.merge .empty))) := by
  have hattempt : (c.streamAttempt body onChunk (.init, (c.host.clock w).2)).result =
      .ok (result.map (GenerateResponse.merge .empty)) :=
    wp_iff.mp (c.wp_streamAttempt_event hcallback hdone hdecode hanswer body (.init, _) rfl hlast
      htokens)
  have hfinal' : ∀ e, result.map (GenerateResponse.merge .empty) = .error e →
      e.retryable = false := by
    intro e he
    cases result with
    | error e' =>
      obtain rfl := Except.error.inj he
      exact hfinal e' rfl
    | ok chunk => cases he
  unfold stream streamValid
  rw [wp_bind, wp_emit, then_ok, hvalid, wp_bind, wp_ask, then_ok, wp_bind, wp_ofExcept, hdump,
    then_ok]
  exact c.wp_recorded_final hattempt hfinal' _

/-- The event of a body decodes to what the body decodes to. -/
theorem decode_payload_agree {text : JsonText} (htext : text.IgnoresLineCr) {b payload : Bytes}
    (hpayload : SseParser.IsPayloadOf b payload) {result : Result GenerateResponse}
    (hdecode : Wire.parseResponseText text b = .ok result)
    (hindices : ∀ reply, result = .ok reply → (reply.candidates.map (·.index)).Nodup) :
    ∃ result', Wire.parseResponseText text payload = .ok result' ∧
      Agree (checkBlocked (result'.map (GenerateResponse.merge .empty))) (checkBlocked result) := by
  have hparse := htext.parse_payload hpayload
  cases hb : text.parse b with
  | none =>
    rw [hb] at hparse
    obtain ⟨e, rfl⟩ : ∃ e, result = .error e := by
      simp only [Wire.parseResponseText, hb] at hdecode
      exact ⟨_, (Except.ok.inj hdecode).symm⟩
    have hcode := Wire.code_of_parseResponseText hdecode
    simp only [Wire.parseResponseText, hparse]
    exact ⟨_, rfl, .failed (Or.inl rfl) hcode.symm⟩
  | some j =>
    have hsame : Wire.parseResponseText text payload = Wire.parseResponseText text b := by
      rw [hb] at hparse
      simp only [Wire.parseResponseText, hparse, hb]
    refine ⟨result, hsame.trans hdecode, checkBlocked_agree ?_ hindices⟩
    intro e he
    rw [he] at hdecode
    exact Wire.code_of_parseResponseText hdecode

/-- `stream` and `generate` agree on every body that both are answered with, by a transport that
delivers it to `stream` as one event, in any pieces. The end mark of a stream is no JSON, and
neither is the end mark with a CR, which the parser takes for the end mark. -/
theorem stream_agrees_generate (htext : c.text.IgnoresLineCr) (request : GenerateRequest)
    (onChunk : Option (StreamCallback ω)) (w w' : ω) (hvalid : c.validate request = .ok ())
    (hcallback : NeverCancels onChunk) {body : Bytes}
    (hdump : c.text.dump (Wire.requestToJson request) = .ok body) {answer answer' : HttpResponse}
    (hunary : c.unaryAnswer body w = .ok answer) (hanswer : Succeeds answer)
    (hevent : IsEventOf answer.body (c.streamAnswer body w').bytes)
    (hlast : (c.streamAnswer body w').last = .ok answer') (hanswer' : Succeeds answer')
    (hdone : answer.body ≠ ascii "[DONE]")
    (hjson : c.text.parse answer.body ≠ none ∨ answer.body ≠ ascii "[DONE]" ++ [cr])
    {result : Result GenerateResponse}
    (hdecode : Wire.parseResponseText c.text answer.body = .ok result)
    (hindices : ∀ reply, result = .ok reply → (reply.candidates.map (·.index)).Nodup) :
    ∃ r r', (c.stream request onChunk w').result = .ok r ∧
      (c.generate request w).result = .ok r' ∧ Agree r r' := by
  obtain ⟨payload, hpayload, htokens⟩ := SseParser.tokenize_of_isEventOf hevent
  have hnotDone : payload ≠ ascii "[DONE]" := by
    rintro rfl
    have hparse := htext.parse_payload hpayload
    rw [htext.not_done] at hparse
    rcases hpayload.eq_done with hbody | hbody
    · exact hdone hbody
    · rcases hjson with hjson | hjson
      · exact hjson hparse.symm
      · exact hjson hbody
  obtain ⟨result', hdecode', hagree⟩ := decode_payload_agree htext hpayload hdecode hindices
  have hfinal : ∀ (b : Bytes) (result : Result GenerateResponse),
      Wire.parseResponseText c.text b = .ok result →
      ∀ e, result = .error e → e.retryable = false := by
    intro b result hdecode e he
    rw [he] at hdecode
    unfold Error.retryable
    rw [Wire.code_of_parseResponseText hdecode]
  refine ⟨_, _, ?_, ?_, hagree⟩
  · exact c.stream_of_event hvalid hdump hcallback hlast hanswer' htokens hnotDone hdecode'
      (hfinal payload result' hdecode')
  · exact c.generate_of_answer hvalid hdump hunary hanswer hdecode (hfinal _ result hdecode)

end Client

def firstLine : Bytes := ascii "\x7b\"candidates\":"

def secondLine : Bytes :=
  ascii "[\x7b\"content\":\x7b\"parts\":[\x7b\"text\":\"a\"\x7d,\x7b\"text\":\"b\"\x7d]\x7d\x7d]\x7d"

/-- A document of two lines, with a CRLF between them. -/
def twoLines : Bytes := firstLine ++ [cr, lf] ++ secondLine

def twoLinesDocument : Json :=
  Json.object [(ascii "candidates", .arr [Json.object [(ascii "content", Json.object
    [(ascii "parts", .arr [Json.object [(ascii "text", .str (ascii "a"))],
      Json.object [(ascii "text", .str (ascii "b"))]])])]])]

/-- Reads that document, and takes a CR for white space. -/
def twoLinesText : JsonText :=
  { parse := fun t => if t.filter (· ≠ cr) = twoLines.filter (· ≠ cr) then some twoLinesDocument
      else none
    render := fun _ => ascii
      "\x7b\"contents\":[\x7b\"parts\":[\x7b\"text\":\"hi\"\x7d],\"role\":\"user\"\x7d]\x7d" }

theorem filter_append_cr (u v : Bytes) :
    (u ++ cr :: v).filter (· ≠ cr) = (u ++ v).filter (· ≠ cr) := by
  simp only [List.filter_append, List.filter_cons, ne_eq, not_true_eq_false, decide_false,
    Bool.false_eq_true, if_false]

theorem twoLinesText_ignoresLineCr : twoLinesText.IgnoresLineCr where
  before_lf u v := by
    unfold twoLinesText
    simp only [filter_append_cr]
  at_end u := by
    unfold twoLinesText
    simp only [filter_append_cr, List.append_nil]
  not_done := by decide +kernel

/-- The document as one event, with the first CR read as the end of its line. -/
theorem stream_agrees_generate_twoLines :
    let c := makeClient twoLinesText
    let request := GenerateRequest.ofText (ascii "hi")
    let event := ascii "data: " ++ firstLine ++ [cr, lf] ++ ascii "data: " ++ secondLine ++ [lf, lf]
    ∃ r r', (c.stream request none [FakeTransport.ofStream [event.take 9, event.drop 9]]).result =
        .ok r ∧
      (c.generate request [FakeTransport.ofJson 200 twoLines]).result = .ok r' ∧ Agree r r' := by
  intro c request event
  have hevent : IsEventOf twoLines event := by
    refine ⟨[(firstLine ++ [cr], .lf), (secondLine, .lf)], .lf, ?_, ?_⟩
    · decide +kernel
    · decide +kernel
  have hsucceeds : ∀ body, Client.Succeeds { status := 200, headers := [], body } := by
    intro body
    change (200 : ℤ) ≤ 200 ∧ (200 : ℤ) < 300
    omega
  have hbytes : (c.streamAnswer (twoLinesText.render .null)
      [FakeTransport.ofStream [event.take 9, event.drop 9]]).bytes = event := by
    change event.take 9 ++ (event.drop 9 ++ []) = event
    rw [List.append_nil, List.take_append_drop]
  rw [← hbytes] at hevent
  exact c.stream_agrees_generate twoLinesText_ignoresLineCr request none _ _ rfl
    (fun callback h => by cases h) rfl rfl (hsucceeds twoLines) hevent rfl (hsucceeds [])
    (by decide +kernel) (Or.inr (by decide +kernel)) rfl (fun reply h => by cases h; decide)

end GeminiCpp
