import GeminiCpp.Client.Calls
import GeminiCpp.Client.Handing
import GeminiCpp.Lib.Effects

/-! What a call of the client may do. The basic steps of a call are few: events that show its
caller nothing, questions to the transport and to the machine, and chunks. An effect that
allows these allows every call, with all its attempts. -/
namespace GeminiCpp
open Traced Traced.Prog

variable {ω τ α : Type}

namespace Client

theorem chunksOf_of_silent {es : List Event} (h : ∀ e ∈ es, e.silent) : chunksOf es = [] :=
  List.filterMap_eq_nil_iff.mpr fun e he => by
    have hsilent := h e he
    cases e <;> first | rfl | exact hsilent.elim

/-- The requests that a client makes. -/
inductive Makes (c : Client ω) : HttpRequest → Prop
  | generate (body : Bytes) :
    Makes c (c.makeRequest (c.endpoint (ascii "generateContent") false) body)
  | stream (body : Bytes) :
    Makes c (c.makeRequest (c.endpoint (ascii "streamGenerateContent") true) body)
  | countTokens (body : Bytes) :
    Makes c (c.makeRequest (c.endpoint (ascii "countTokens") false) body)
  | page (pageToken : Bytes) :
    Makes c { c.makeRequest (c.pageUrl pageToken) [] with method := ascii "GET" }

/-- The effect allows the basic steps of a client. -/
structure Allows (c : Client ω) (E : Effect Event ω) : Prop where
  metric : ∀ w field amount, E.rel w [.metric field amount] w
  http : ∀ w request, c.Makes request → E.rel w [.http request] w
  bytes : ∀ w piece, E.rel w [.bytes piece] w
  response : ∀ w value, E.rel w [.response value] w
  sleep : ∀ w delay, E.rel w [.sleep delay] w
  send : ∀ w request, E.rel w [] (c.transport.send request w).2
  sendStreaming : ∀ w request, E.rel w [] (c.transport.sendStreaming request w).2
  sleeper : ∀ w delay, E.rel w [] (c.host.sleeper delay w)
  clock : ∀ w, E.rel w [] (c.host.clock w).2
  rng : ∀ w, E.rel w [] (c.host.rng w).2

/-- The effect allows a chunk and what the callback does with it. -/
def AllowsChunks (E : Effect Event ω) (onChunk : Option (StreamCallback ω)) : Prop :=
  ∀ chunk, Within (E.beside StreamVars)
    (do Prog.emit (.chunk chunk); notify onChunk chunk)

variable {c : Client ω} {E : Effect Event ω}

/-! The event handler of `stream`, and the parser that runs it. -/
section Handler
variable {onChunk : Option (StreamCallback ω)} (hchunks : AllowsChunks E onChunk)

theorem within_setVars (f : StreamVars → StreamVars) :
    Within (E.beside StreamVars) (setVars f : Program (StreamVars × ω) Unit) :=
  within_modify fun s => E.nil s.2

include hchunks

theorem within_onEvent (data : Bytes) :
    Within (E.beside StreamVars) (c.onEvent onChunk data) := by
  unfold onEvent
  refine within_ite (fun _ => within_pure _) fun _ => ?_
  refine within_bind (within_ofExcept _) fun parsed => ?_
  cases parsed with
  | error e => exact within_bind (within_setVars _) fun _ => within_pure _
  | ok chunk => exact within_bind (within_setVars _) fun _ => hchunks chunk

theorem within_dispatch (p : SseParser) :
    Within (E.beside StreamVars) (SseParser.dispatch (c.onEvent onChunk) p) := by
  unfold SseParser.dispatch
  refine within_ite (fun _ => ?_) fun _ => within_pure _
  exact within_bind (within_onEvent hchunks _) fun go => within_pure _

theorem within_processLine (p : SseParser) (line : Bytes) :
    Within (E.beside StreamVars) (SseParser.processLine (c.onEvent onChunk) p line) :=
  within_ite (fun _ => within_dispatch hchunks p) fun _ => within_pure _

theorem within_scan (p : SseParser) (bytes : Bytes) :
    Within (E.beside StreamVars) (SseParser.scan (c.onEvent onChunk) p bytes) := by
  induction bytes generalizing p with
  | nil => exact within_pure _
  | cons b rest ih =>
    rw [SseParser.scan]
    refine within_ite (fun _ => ?_) fun _ => ih _
    refine within_bind (within_processLine hchunks _ _) fun processed => ?_
    exact within_ite (fun _ => ih _) fun _ => within_pure _

theorem within_finish (p : SseParser) :
    Within (E.beside StreamVars) (SseParser.finish (c.onEvent onChunk) p) := by
  unfold SseParser.finish
  refine within_ite (fun _ => within_dispatch hchunks p) fun _ => ?_
  refine within_bind (within_processLine hchunks _ _) fun processed => ?_
  exact within_ite (fun _ => within_dispatch hchunks _) fun _ => within_pure _

end Handler

variable (h : c.Allows E)
include h

theorem Allows.backoff (w : ω) (policy : RetryPolicy) (i : ℕ) :
    E.rel w [] (c.host.backoff policy i w).2 := by
  unfold Host.backoff
  split_ifs
  · exact h.rng w
  · exact E.nil w

theorem within_delayFor (policy : RetryPolicy) (i : ℕ) (e : Error) :
    Within E (c.host.delayFor policy i e) := by
  unfold Host.delayFor
  cases e.retryAfter with
  | some hint => exact within_pure _
  | none => exact within_ask fun w => h.backoff w policy i

theorem within_countedAttempt {attempt : Program (τ × ω) (Result α)}
    (hattempt : Within (E.beside τ) attempt) : Within (E.beside τ) (countedAttempt attempt) :=
  within_bind (within_emit fun s => h.metric s.2 _ _) fun _ => hattempt

theorem within_retryFrom {attempt : Program (τ × ω) (Result α)} (canRetry : τ → Bool)
    (hattempt : Within (E.beside τ) attempt) (left i : ℕ) :
    Within (E.beside τ) (c.retryFrom attempt canRetry left i) := by
  have hcounted := within_countedAttempt h hattempt
  induction left generalizing i with
  | zero => exact hcounted
  | succ left ih =>
    rw [retryFrom]
    refine within_bind hcounted fun result => ?_
    cases result with
    | ok a => exact within_pure _
    | error e =>
      refine within_bind within_get fun s => within_ite (fun _ => ?_) fun _ => within_pure _
      refine within_bind (within_lift (within_delayFor h _ i e)) fun delay => ?_
      refine within_bind (within_emit fun s => h.metric s.2 _ _) fun _ => ?_
      refine within_bind (within_emit fun s => h.sleep s.2 delay) fun _ => ?_
      refine within_bind (within_lift (within_modify fun w => h.sleeper w delay)) fun _ => ?_
      exact ih (i + 1)

theorem within_withRetry {attempt : Program (τ × ω) (Result α)} (canRetry : τ → Bool)
    (hattempt : Within (E.beside τ) attempt) :
    Within (E.beside τ) (c.withRetry attempt canRetry) :=
  within_retryFrom h canRetry hattempt _ 0

theorem within_record (start : Millis) (result : Result GenerateResponse) :
    Within E (c.record start result) := by
  have hmetric : ∀ field amount, Within E (Prog.emit (.metric field amount) : Program ω Unit) :=
    fun field amount => within_emit fun w => h.metric w field amount
  unfold record
  refine within_bind (within_ask h.clock) fun now => within_bind (hmetric _ _) fun _ => ?_
  cases result with
  | ok r => exact within_bind (hmetric _ _) fun _ => hmetric _ _
  | error e => exact hmetric _ _

theorem within_run {request : HttpRequest} (hrequest : c.Makes request) :
    Within E (c.transport.run request) := by
  refine within_bind (within_emit fun w => h.http w request hrequest) fun _ => ?_
  refine within_bind (within_ask fun w => h.send w request) fun response => ?_
  exact within_bind (within_emit fun w => h.response w response) fun _ => within_pure _

theorem within_generateAttempt (body : Bytes) :
    Within (E.beside Unit) (c.generateAttempt body) := by
  unfold generateAttempt
  refine within_bind (within_lift (within_run h (.generate _))) fun response => ?_
  refine within_bind (within_ofExcept _) fun checked => ?_
  cases checked with
  | error e => exact within_pure _
  | ok _ => cases response <;> first | exact within_pure _ | exact within_ofExcept _

theorem within_generate (request : GenerateRequest) : Within E (c.generate request) := by
  unfold generate generateValid
  refine within_bind (within_emit fun w => h.metric w _ _) fun _ => ?_
  cases c.validate request with
  | error e => exact within_pure _
  | ok _ =>
    refine within_bind (within_ask h.clock) fun start => ?_
    refine within_bind (within_ofExcept _) fun body => ?_
    have hattempt := within_generateAttempt h body
    refine within_bind (within_withLocals () (within_withRetry h _ hattempt)) fun result => ?_
    exact within_bind (within_record h _ _) fun _ => within_pure _

section Stream
variable {onChunk : Option (StreamCallback ω)} (hchunks : AllowsChunks E onChunk)
include hchunks

theorem within_deliver (p : SseParser) (script : StreamScript) :
    Within (E.beside StreamVars) (deliver (SseParser.feed (c.onEvent onChunk)) p script) := by
  induction script generalizing p with
  | done response => exact within_pure _
  | piece bytes aborted rest ih =>
    rw [deliver]
    refine within_bind (within_emit fun s => h.bytes s.2 bytes) fun _ => ?_
    refine within_bind (within_scan hchunks _ _) fun fed => ?_
    exact within_ite (fun _ => ih _) fun _ => within_pure _

theorem within_streamAttempt (body : Bytes) :
    Within (E.beside StreamVars) (c.streamAttempt body onChunk) := by
  have hfinish : ∀ p, Within (E.beside StreamVars) (c.finishStream onChunk p) := by
    intro p
    refine within_bind (within_finish hchunks p) fun _ => within_bind within_get fun s => ?_
    cases s.1.parseError <;> exact within_pure _
  have hrun : ∀ request, c.Makes request → Within (E.beside StreamVars)
      (c.transport.runStreaming request (SseParser.feed (c.onEvent onChunk)) .init) := by
    intro request hrequest
    refine within_bind (within_emit fun s => h.http s.2 request hrequest) fun _ => ?_
    refine within_bind (within_lift (within_ask fun w => h.sendStreaming w request)) fun script => ?_
    refine within_bind (within_deliver h hchunks _ script) fun delivered => ?_
    exact within_bind (within_emit fun s => h.response s.2 _) fun _ => within_pure _
  unfold streamAttempt
  refine within_bind (within_setVars _) fun _ => ?_
  refine within_bind (hrun _ (.stream _)) fun ran => within_bind within_get fun s => ?_
  cases s.1.parseError with
  | some e => exact within_pure _
  | none =>
    refine within_ite (fun _ => within_pure _) fun _ => ?_
    refine within_bind (within_ofExcept _) fun checked => ?_
    cases checked with
    | error e => exact within_pure _
    | ok _ => exact hfinish _

theorem within_stream (request : GenerateRequest) : Within E (c.stream request onChunk) := by
  unfold stream streamValid
  refine within_bind (within_emit fun w => h.metric w _ _) fun _ => ?_
  cases c.validate request with
  | error e => exact within_pure _
  | ok _ =>
    refine within_bind (within_ask h.clock) fun start => ?_
    refine within_bind (within_ofExcept _) fun body => ?_
    have hattempt := within_streamAttempt h hchunks body
    refine within_bind (within_withLocals .init (within_withRetry h _ hattempt)) fun result => ?_
    exact within_bind (within_record h _ _) fun _ => within_pure _

end Stream

theorem within_countFailure (result : Result α) : Within E (countFailure result) := by
  cases result with
  | ok a => exact within_pure _
  | error e => exact within_emit fun w => h.metric w _ _

theorem within_countTokens (request : GenerateRequest) : Within E (c.countTokens request) := by
  have hattempt : ∀ body, Within (E.beside Unit) (c.countTokensAttempt body) := by
    intro body
    refine within_bind (within_lift (within_run h (.countTokens _))) fun response => ?_
    refine within_bind (within_ofExcept _) fun checked => ?_
    cases checked with
    | error e => exact within_pure _
    | ok _ => cases response <;> first | exact within_pure _ | exact within_ofExcept _
  unfold countTokens
  refine within_bind (within_emit fun w => h.metric w _ _) fun _ => ?_
  cases c.validate request with
  | error e => exact within_pure _
  | ok _ =>
    refine within_bind (within_ofExcept _) fun body => ?_
    have hretry := within_withRetry h (fun _ => true) (hattempt body)
    refine within_bind (within_withLocals () hretry) fun result => ?_
    exact within_bind (within_countFailure h result) fun _ => within_pure _

theorem within_page : Within (E.beside Bytes) c.page := by
  refine within_bind within_get fun s => within_withRetry h _ ?_
  refine within_bind (within_lift (within_run h (.page s.1))) fun response => ?_
  refine within_bind (within_ofExcept _) fun checked => ?_
  cases checked with
  | error e => exact within_pure _
  | ok _ =>
    cases response with
    | error e => exact within_pure _
    | ok r =>
      refine within_bind (within_ofExcept _) fun parsed => ?_
      cases parsed with
      | error e => exact within_pure _
      | ok models => exact within_bind (within_modify fun s => E.nil s.2) fun _ => within_pure _

theorem within_listModels (fuel : ℕ) : Within E (c.listModels fuel) := by
  have hpages : ∀ all, Within (E.beside Bytes) (c.pages all fuel) := by
    induction fuel with
    | zero => exact fun all => within_pure _
    | succ fuel ih =>
      intro all
      rw [pages]
      refine within_bind (within_page h) fun result => ?_
      cases result with
      | error e =>
        exact within_bind (within_lift (within_countFailure h _)) fun _ => within_pure _
      | ok models =>
        refine within_bind within_get fun s => ?_
        exact within_ite (fun _ => within_pure _) fun _ => ih _
  unfold listModels
  refine within_bind (within_emit fun w => h.metric w _ _) fun _ => ?_
  exact within_ite (fun _ => within_pure _) fun _ => within_withLocals [] (hpages [])

end Client

end GeminiCpp
