import Mathlib.Algebra.BigOperators.Group.List.Basic
import Mathlib.Data.UInt
import GeminiCpp.Client.Generate

/-! The other two calls of the client (`client.cpp`), and its metrics. A metric is changed by
atomic additions only, so what it shows is a sum over the events of a run. -/
namespace GeminiCpp
open Traced

variable {ω : Type}

namespace Client
variable (c : Client ω)

/-- The body of `countTokens`. -/
def countTokensBody (request : GenerateRequest) : Json :=
  let inner := (Wire.requestToJson request).set (ascii "model")
    (.str (ascii "models/" ++ c.options.model))
  Json.object [(ascii "generateContentRequest", inner)]

def missingTotalTokens : Error :=
  makeError .parse (ascii "countTokens response missing totalTokens")

def parseTotalTokens (body : Bytes) : MayThrow (Result Int64) :=
  match c.text.parse body with
  | none => return .error missingTotalTokens
  | some j =>
    match j.find (ascii "totalTokens") with
    | none => return .error missingTotalTokens
    | some v =>
      if v.isNumberInteger then do
        let total ← v.getInt64
        return .ok total
      else return .error missingTotalTokens

def countTokensAttempt (body : Bytes) : Program (Unit × ω) (Result Int64) := do
  let response ← Prog.lift
    (c.transport.run (c.makeRequest (c.endpoint (ascii "countTokens") false) body))
  match ← Prog.ofExcept (c.checkHttp response), response with
  | .ok (), .ok r => Prog.ofExcept (c.parseTotalTokens r.body)
  | .ok (), .error e => return .error e
  | .error e, _ => return .error e

/-- The increment of `failures` that `count_tokens` and `list_models` make themselves. -/
def countFailure {α : Type} (result : Result α) : Program ω Unit :=
  match result with
  | .ok _ => return ()
  | .error _ => Prog.emit (.metric .failures 1)

def countTokens (request : GenerateRequest) : Program ω (Result Int64) := do
  Prog.emit (.metric .requests 1)
  match c.validate request with
  | .error e => return .error e
  | .ok () =>
    let body ← Prog.ofExcept (c.text.dump (c.countTokensBody request))
    let result ← Prog.withLocals () (c.withRetry (c.countTokensAttempt body) fun _ => true)
    countFailure result
    return result

/-- The URL of a page of models. -/
def pageUrl (pageToken : Bytes) : Bytes :=
  let url := c.options.baseUrl ++ ascii "/models?pageSize=100"
  if pageToken = [] then url else url ++ ascii "&pageToken=" ++ pageToken

/-- One attempt at a page; the local variable is `page_token`, which a page that was read sets. -/
def pageAttempt (url : Bytes) : Program (Bytes × ω) (Result (List ModelInfo)) := do
  let request := { c.makeRequest url [] with method := ascii "GET" }
  let response ← Prog.lift (c.transport.run request)
  match ← Prog.ofExcept (c.checkHttp response), response with
  | .ok (), .ok r =>
    match ← Prog.ofExcept (Wire.parseModelList c.text r.body) with
    | .ok (models, token) =>
      Prog.modify fun s => (token, s.2)
      return .ok models
    | .error e => return .error e
  | .ok (), .error e => return .error e
  | .error e, _ => return .error e

def page : Program (Bytes × ω) (Result (List ModelInfo)) := do
  let s ← Prog.get
  c.withRetry (c.pageAttempt (c.pageUrl s.1)) fun _ => true

/-- The loop of `list_models`, for at most `fuel` pages; none if there are more. -/
def pages (all : List ModelInfo) :
    (fuel : ℕ) → Program (Bytes × ω) (Option (Result (List ModelInfo)))
  | 0 => return none
  | fuel + 1 => do
    match ← c.page with
    | .error e =>
      Prog.lift (countFailure (.error e : Result Unit))
      return some (.error e)
    | .ok models =>
      let s ← Prog.get
      if s.1 = [] then return some (.ok (all ++ models)) else pages (all ++ models) fuel

def listModels (fuel : ℕ) : Program ω (Option (Result (List ModelInfo))) := do
  Prog.emit (.metric .requests 1)
  if c.options.apiKey = [] then
    return some (.error (makeError .config (ascii "API key is empty")))
  else Prog.withLocals [] (c.pages [] fuel)

end Client

structure MetricsSnapshot where
  /-- Logical calls. -/
  requests : UInt64
  /-- HTTP attempts, with the retries. -/
  attempts : UInt64
  retries : UInt64
  /-- Logical calls that ultimately failed. -/
  failures : UInt64
  promptTokens : UInt64
  outputTokens : UInt64
  totalLatencyMs : UInt64
deriving DecidableEq

namespace MetricsSnapshot

def zero : MetricsSnapshot :=
  { requests := 0, attempts := 0, retries := 0, failures := 0, promptTokens := 0
    outputTokens := 0, totalLatencyMs := 0 }

/-- `fetch_add` on one of the counters. -/
def fetchAdd (s : MetricsSnapshot) (amount : UInt64) : Metric → MetricsSnapshot
  | .requests => { s with requests := s.requests + amount }
  | .attempts => { s with attempts := s.attempts + amount }
  | .retries => { s with retries := s.retries + amount }
  | .failures => { s with failures := s.failures + amount }
  | .promptTokens => { s with promptTokens := s.promptTokens + amount }
  | .outputTokens => { s with outputTokens := s.outputTokens + amount }
  | .totalLatencyMs => { s with totalLatencyMs := s.totalLatencyMs + amount }

def get (s : MetricsSnapshot) : Metric → UInt64
  | .requests => s.requests
  | .attempts => s.attempts
  | .retries => s.retries
  | .failures => s.failures
  | .promptTokens => s.promptTokens
  | .outputTokens => s.outputTokens
  | .totalLatencyMs => s.totalLatencyMs

def step (s : MetricsSnapshot) : Event → MetricsSnapshot
  | .metric field amount => s.fetchAdd amount field
  | _ => s

end MetricsSnapshot

/-- `metrics()` after some events on a new client. -/
def metricsAfter (es : List Event) : MetricsSnapshot := es.foldl MetricsSnapshot.step .zero

/-- What an event adds to a metric. -/
def Event.added (field : Metric) : Event → UInt64
  | .metric f amount => if f = field then amount else 0
  | _ => 0

def added (field : Metric) (es : List Event) : UInt64 := (es.map (Event.added field)).sum

@[simp] theorem added_nil (field : Metric) : added field [] = 0 := rfl

@[simp] theorem added_cons (field : Metric) (e : Event) (es : List Event) :
    added field (e :: es) = e.added field + added field es := List.sum_cons

@[simp] theorem added_append (field : Metric) (es es' : List Event) :
    added field (es ++ es') = added field es + added field es' := by
  unfold added
  rw [List.map_append, List.sum_append]

theorem MetricsSnapshot.get_step (s : MetricsSnapshot) (e : Event) (field : Metric) :
    (s.step e).get field = s.get field + e.added field := by
  cases e with
  | metric f amount => cases f <;> cases field <;> simp [step, fetchAdd, get, Event.added]
  | _ => exact (add_zero _).symm

theorem get_metricsAfter (es : List Event) (field : Metric) :
    (metricsAfter es).get field = added field es := by
  have hfold : ∀ s : MetricsSnapshot,
      (es.foldl MetricsSnapshot.step s).get field = s.get field + added field es := by
    induction es with
    | nil => exact fun s => (add_zero _).symm
    | cons e es ih =>
      intro s
      rw [List.foldl_cons, ih, MetricsSnapshot.get_step, added_cons, add_assoc]
  have hzero : MetricsSnapshot.zero.get field = 0 := by cases field <;> rfl
  unfold metricsAfter
  rw [hfold, hzero, zero_add]

end GeminiCpp
