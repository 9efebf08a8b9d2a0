import GeminiCpp.Sse.Parser
import GeminiCpp.Transport

/-! The client (`client.cpp`, `retry.hpp`): options, the retry loop, and the calls. -/
namespace GeminiCpp
open Traced

structure RetryPolicy where
  maxAttempts : ℤ
  initialBackoff : Millis
  maxBackoff : Millis
  /-- Doubles are kept as their bits. -/
  multiplier : UInt64
  jitter : UInt64

structure ClientOptions where
  apiKey : Bytes
  model : Bytes
  baseUrl : Bytes
  timeout : Millis
  retry : RetryPolicy

/-- What the client uses of the machine it runs on. -/
structure Host (ω : Type) where
  sleeper : Millis → ω → ω
  /-- `steady_clock::now()`, in milliseconds. -/
  clock : ω → Millis × ω
  /-- The generator of the jitter, of 64 bits. -/
  rng : ω → UInt64 × ω

structure Client (ω : Type) where
  options : ClientOptions
  transport : Transport ω
  host : Host ω
  text : JsonText

/-- A callback on streamed chunks; false cancels the stream. -/
abbrev StreamCallback (ω : Type) := GenerateResponse → ω → MayThrow Bool × ω

variable {ω τ α : Type}

def checkBlocked (result : Result GenerateResponse) : Result GenerateResponse :=
  match result with
  | .ok r =>
    match r.candidates, r.promptBlockReason with
    | [], some reason => .error (makeError .blocked (ascii "prompt blocked: " ++ reason))
    | _, _ => .ok r
  | .error e => .error e

/-- `std::uniform_real_distribution` at one output of the generator. -/
def uniform (low high r : UInt64) : UInt64 :=
  let canonical := Binary64.ofMagnitude false (r.toNat / 2 ^ 64)
  -- the largest outputs are rounded up to one, which is out of the range
  let canonical := if Binary64.less canonical Binary64.one then canonical else 0x3FEFFFFFFFFFFFFF
  Binary64.add (Binary64.mul canonical (Binary64.add high (Binary64.neg low))) low

namespace RetryPolicy

/-- The exponential backoff in milliseconds, capped. -/
def capped (p : RetryPolicy) (i : ℕ) : UInt64 :=
  let base := Binary64.mul (Binary64.ofInt p.initialBackoff) (Binary64.pow p.multiplier i)
  let maximum := Binary64.ofInt p.maxBackoff
  if Binary64.less maximum base then maximum else base

def hasJitter (p : RetryPolicy) : Bool := Binary64.less Binary64.zero p.jitter

/-- The backoff scaled by a random factor around one. -/
def jittered (p : RetryPolicy) (i : ℕ) (r : UInt64) : UInt64 :=
  if p.hasJitter then
    Binary64.mul (p.capped i) (uniform (Binary64.add Binary64.one (Binary64.neg p.jitter))
      (Binary64.add Binary64.one p.jitter) r)
  else p.capped i

/-- The delay of `delay_for` without a hint. -/
def backoff (p : RetryPolicy) (i : ℕ) (r : UInt64) : Millis :=
  let delay := p.jittered i r
  Wire.castInt64 (if Binary64.less delay Binary64.zero then Binary64.zero else delay)

end RetryPolicy

/-- The exponential backoff with jitter. -/
def Host.backoff (h : Host ω) (policy : RetryPolicy) (i : ℕ) (w : ω) : Millis × ω :=
  if policy.hasJitter then (policy.backoff i (h.rng w).1, (h.rng w).2)
  else (policy.backoff i 0, w)

/-- Delay before retry number `i` after `e`; a hint of the server wins over the backoff. -/
def Host.delayFor (h : Host ω) (policy : RetryPolicy) (i : ℕ) (e : Error) : Program ω Millis :=
  match e.retryAfter with
  | some hint => return min hint policy.maxBackoff
  | none => Prog.ask (h.backoff policy i)

namespace Client

/-- The constructor normalises the model name and the base URL. -/
def create (options : ClientOptions) (transport : Transport ω) (host : Host ω) (text : JsonText) :
    Client ω :=
  let modelPrefix := ascii "models/"
  let model := if modelPrefix.isPrefixOf options.model then options.model.drop 7
    else options.model
  let baseUrl := (options.baseUrl.reverse.dropWhile (· = 0x2F)).reverse
  { options := { options with model, baseUrl }, transport, host, text }

variable (c : Client ω)

def endpoint (method : Bytes) (sse : Bool) : Bytes :=
  let url := c.options.baseUrl ++ ascii "/models/" ++ c.options.model ++ ascii ":" ++ method
  if sse then url ++ ascii "?alt=sse" else url

def makeRequest (url body : Bytes) : HttpRequest :=
  { method := ascii "POST", url, body, timeout := c.options.timeout
    headers := [(ascii "Content-Type", ascii "application/json"),
      (ascii "x-goog-api-key", c.options.apiKey)] }

def validate (request : GenerateRequest) : Result Unit :=
  if c.options.apiKey = [] then .error (makeError .config (ascii "API key is empty"))
  else if c.options.model = [] then .error (makeError .config (ascii "model name is empty"))
  else if request.contents.isEmpty then
    .error (makeError .invalidArgument (ascii "request has no contents"))
  else .ok ()

def checkHttp (response : Result HttpResponse) : MayThrow (Result Unit) :=
  match response with
  | .error e => return .error e
  | .ok r =>
    if r.status < 200 ∨ 300 ≤ r.status then do
      let e ← Wire.parseApiError c.text r.status r.body r.headers
      return .error e
    else return .ok ()

/-- One attempt of `with_retry`. -/
def countedAttempt (attempt : Program (τ × ω) (Result α)) : Program (τ × ω) (Result α) := do
  Prog.emit (.metric .attempts 1)
  attempt

/-- The loop of `with_retry` at attempt `i`, with `left` attempts after it. -/
def retryFrom (attempt : Program (τ × ω) (Result α)) (canRetry : τ → Bool) :
    (left i : ℕ) → Program (τ × ω) (Result α)
  | 0, _ => countedAttempt attempt
  | left + 1, i => do
    match ← countedAttempt attempt with
    | .ok a => return .ok a
    | .error e =>
      let s ← Prog.get
      if e.retryable && canRetry s.1 then
        let delay ← Prog.lift (c.host.delayFor c.options.retry i e)
        Prog.emit (.metric .retries 1)
        Prog.emit (.sleep delay)
        Prog.lift (Prog.modify (c.host.sleeper delay))
        retryFrom attempt canRetry left (i + 1)
      else return .error e

/-- `with_retry`; the closures share the local variables `τ`. -/
def withRetry (attempt : Program (τ × ω) (Result α)) (canRetry : τ → Bool) :
    Program (τ × ω) (Result α) :=
  retryFrom c attempt canRetry (max 1 c.options.retry.maxAttempts - 1).toNat 0

/-- Metrics of a finished `generate` or `stream`. -/
def record (start : Millis) (result : Result GenerateResponse) : Program ω Unit := do
  let now ← Prog.ask c.host.clock
  Prog.emit (.metric .totalLatencyMs (Int64.ofInt (now - start)).toUInt64)
  match result with
  | .ok r =>
    Prog.emit (.metric .promptTokens r.usage.promptTokens.toUInt64)
    Prog.emit (.metric .outputTokens
      (r.usage.candidatesTokens + r.usage.thoughtsTokens).toUInt64)
  | .error _ => Prog.emit (.metric .failures 1)

def generateAttempt (body : Bytes) : Program (Unit × ω) (Result GenerateResponse) := do
  let response ← Prog.lift
    (c.transport.run (c.makeRequest (c.endpoint (ascii "generateContent") false) body))
  match ← Prog.ofExcept (c.checkHttp response), response with
  | .ok (), .ok r => Prog.ofExcept (Wire.parseResponseText c.text r.body)
  | .ok (), .error e => return .error e
  | .error e, _ => return .error e

/-- `generate` after validation. -/
def generateValid (request : GenerateRequest) : Program ω (Result GenerateResponse) := do
  let start ← Prog.ask c.host.clock
  let body ← Prog.ofExcept (c.text.dump (Wire.requestToJson request))
  let result ← Prog.withLocals () (c.withRetry (c.generateAttempt body) fun _ => true)
  c.record start (checkBlocked result)
  return checkBlocked result

def generate (request : GenerateRequest) : Program ω (Result GenerateResponse) := do
  Prog.emit (.metric .requests 1)
  match c.validate request with
  | .error e => return .error e
  | .ok () => c.generateValid request

/-- The local variables of `stream`; only `deliveredAny` outlives an attempt. -/
structure StreamVars where
  deliveredAny : Bool
  aggregate : GenerateResponse
  parseError : Option Error
  callerStopped : Bool

def StreamVars.init : StreamVars :=
  { deliveredAny := false, aggregate := .empty, parseError := none, callerStopped := false }

/-- Assigns the local variables. -/
def setVars (f : StreamVars → StreamVars) : Program (StreamVars × ω) Unit :=
  Prog.modify fun s => (f s.1, s.2)

/-- Runs the callback, if there is one, on a chunk. -/
def notify (onChunk : Option (StreamCallback ω)) (chunk : GenerateResponse) :
    Program (StreamVars × ω) Bool :=
  match onChunk with
  | none => return true
  | some callback => do
    let go ← Prog.lift (Prog.call (callback chunk))
    if go then return true
    else
      Prog.emit .cancel
      setVars fun v => { v with callerStopped := true }
      return false

/-- The event handler `stream` gives to its parser. -/
def onEvent (onChunk : Option (StreamCallback ω)) (data : Bytes) :
    Program (StreamVars × ω) Bool := do
  if data = ascii "[DONE]" then return true
  else
    match ← Prog.ofExcept (Wire.parseResponseText c.text data) with
    | .error e =>
      setVars fun v => { v with parseError := some e }
      return false
    | .ok chunk =>
      setVars fun v => { v with aggregate := v.aggregate.merge chunk, deliveredAny := true }
      Prog.emit (.chunk chunk)
      notify onChunk chunk

/-- The end of an attempt whose body was read without a parse error or a cancel. -/
def finishStream (onChunk : Option (StreamCallback ω)) (parser : SseParser) :
    Program (StreamVars × ω) (Result GenerateResponse) := do
  let _ ← SseParser.finish (c.onEvent onChunk) parser
  let s ← Prog.get
  match s.1.parseError with
  | some e => return .error e
  | none => return .ok s.1.aggregate

def streamAttempt (body : Bytes) (onChunk : Option (StreamCallback ω)) :
    Program (StreamVars × ω) (Result GenerateResponse) := do
  setVars fun v => { StreamVars.init with deliveredAny := v.deliveredAny }
  let request := c.makeRequest (c.endpoint (ascii "streamGenerateContent") true) body
  let (response, parser) ←
    c.transport.runStreaming request (SseParser.feed (c.onEvent onChunk)) .init
  let s ← Prog.get
  match s.1.parseError with
  | some e => return .error e
  | none =>
    if s.1.callerStopped then return .ok s.1.aggregate
    else
      match ← Prog.ofExcept (c.checkHttp response) with
      | .error e => return .error e
      | .ok () => c.finishStream onChunk parser

/-- `stream` after validation. -/
def streamValid (request : GenerateRequest) (onChunk : Option (StreamCallback ω)) :
    Program ω (Result GenerateResponse) := do
  let start ← Prog.ask c.host.clock
  let body ← Prog.ofExcept (c.text.dump (Wire.requestToJson request))
  let result ← Prog.withLocals StreamVars.init
    (c.withRetry (c.streamAttempt body onChunk) fun v => !v.deliveredAny)
  c.record start (checkBlocked result)
  return checkBlocked result

def stream (request : GenerateRequest) (onChunk : Option (StreamCallback ω)) :
    Program ω (Result GenerateResponse) := do
  Prog.emit (.metric .requests 1)
  match c.validate request with
  | .error e => return .error e
  | .ok () => c.streamValid request onChunk

end Client

/-- A machine on which no time passes. -/
def Host.still : Host ω :=
  { sleeper := fun _ w => w, clock := fun w => (0, w), rng := fun w => (0, w) }

/-- The client of the tests: scripted replies and no retries. -/
def makeClient (text : JsonText) : Client (List FakeTransport.Reply) :=
  Client.create
    { apiKey := ascii "k", model := ascii "gemini-2.5-flash"
      baseUrl := ascii "https://generativelanguage.googleapis.com/v1beta", timeout := 120000
      retry := { maxAttempts := 1, initialBackoff := 500, maxBackoff := 30000
                 multiplier := 0x4000000000000000, jitter := 0x3FC999999999999A } }
    FakeTransport.transport .still text

end GeminiCpp
