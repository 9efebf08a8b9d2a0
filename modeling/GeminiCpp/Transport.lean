import GeminiCpp.Lib.Traced
import GeminiCpp.Wire.Decode
import GeminiCpp.Wire.Encode

/-! The boundary of the library: what it asks of the outside world (`transport.hpp`,
the sleeper, the clock) and the events of a run that can be seen there. The outside world
has a state `ω` of any kind, so it may behave in any way. -/
namespace GeminiCpp
open Traced

export Wire (HttpHeaders)

structure HttpRequest where
  method : Bytes
  url : Bytes
  headers : List (Bytes × Bytes)
  body : Bytes
  timeout : Millis

structure HttpResponse where
  status : ℤ
  headers : HttpHeaders
  body : Bytes

/-- What the transport does in one `send_streaming`: pieces of the body in order, each with
the value returned if the callback refuses it, and then a value. -/
inductive StreamScript
  | done (response : Result HttpResponse)
  | piece (bytes : Bytes) (aborted : Result HttpResponse) (rest : StreamScript)

structure Transport (ω : Type) where
  send : HttpRequest → ω → Result HttpResponse × ω
  sendStreaming : HttpRequest → ω → StreamScript × ω

inductive Metric
  | requests
  | attempts
  | retries
  | failures
  | promptTokens
  | outputTokens
  | totalLatencyMs
deriving DecidableEq, Repr

/-- What can be seen of a run from outside. -/
inductive Event
  /-- A metric is increased. -/
  | metric (field : Metric) (amount : UInt64)
  /-- A request is handed to the transport. -/
  | http (request : HttpRequest)
  /-- The transport delivers a piece of a streamed body. -/
  | bytes (piece : Bytes)
  /-- The transport returns. -/
  | response (value : Result HttpResponse)
  /-- A chunk is handed to the caller's callback. -/
  | chunk (value : GenerateResponse)
  /-- The callback has returned false. -/
  | cancel
  | sleep (delay : Millis)
  /-- A session hands a request to its client. -/
  | ask (request : GenerateRequest)
  /-- A session starts to execute the calls of a reply. -/
  | toolRound (calls : List FunctionCall)
  /-- A registered tool handler is run. -/
  | handler (name : Bytes) (args : Json)
  /-- A call has been answered by the registry. -/
  | toolResult (call : FunctionCall) (value : FunctionResponse)

abbrev Program (σ : Type) := Prog Event Exn σ

variable {ω τ π : Type}

/-- Delivers a script to a callback that keeps a state `π`, up to the first refusal. -/
def deliver (onBytes : π → Bytes → Program (τ × ω) (Bool × π)) (p : π) :
    StreamScript → Program (τ × ω) (Result HttpResponse × π)
  | .done response => return (response, p)
  | .piece bytes aborted rest => do
    Prog.emit (.bytes bytes)
    let (go, p) ← onBytes p bytes
    if go then deliver onBytes p rest else return (aborted, p)

namespace Transport

def run (t : Transport ω) (request : HttpRequest) : Program ω (Result HttpResponse) := do
  Prog.emit (.http request)
  let response ← Prog.ask (t.send request)
  Prog.emit (.response response)
  return response

def runStreaming (t : Transport ω) (request : HttpRequest)
    (onBytes : π → Bytes → Program (τ × ω) (Bool × π)) (p : π) :
    Program (τ × ω) (Result HttpResponse × π) := do
  Prog.emit (.http request)
  let script ← Prog.lift (Prog.ask (t.sendStreaming request))
  let (response, p) ← deliver onBytes p script
  Prog.emit (.response response)
  return (response, p)

end Transport

/-- The scripted transport of the tests: each call takes the next reply. -/
structure FakeTransport.Reply where
  status : ℤ
  /-- The body of a unary response, or of a streaming error. -/
  body : Bytes
  /-- A streamed body, piece by piece. -/
  chunks : List Bytes
  error : Option Error
  headers : HttpHeaders

namespace FakeTransport

def noReply : Reply :=
  { status := 500, body := ascii "\x7b\"error\":\x7b\"message\":\"no scripted reply\"\x7d\x7d"
    chunks := [], error := none, headers := [] }

def next : List Reply → Reply × List Reply
  | [] => (noReply, [])
  | reply :: replies => (reply, replies)

def Reply.response (reply : Reply) : Result HttpResponse :=
  match reply.error with
  | some e => .error e
  | none => .ok { status := reply.status, headers := reply.headers, body := reply.body }

def Reply.script (reply : Reply) : StreamScript :=
  let chunks := if 200 ≤ reply.status ∧ reply.status < 300 then reply.chunks else []
  chunks.foldr (fun chunk rest =>
    .piece chunk (.error (makeError .cancelled (ascii "cancelled"))) rest) (.done reply.response)

def transport : Transport (List Reply) :=
  { send := fun _ replies => ((next replies).1.response, (next replies).2)
    sendStreaming := fun _ replies => ((next replies).1.script, (next replies).2) }

/-- `push_json`. -/
def ofJson (status : ℤ) (body : Bytes) : Reply :=
  { status, body, chunks := [], error := none, headers := [] }

/-- `push_stream`. -/
def ofStream (chunks : List Bytes) : Reply :=
  { status := 200, body := [], chunks, error := none, headers := [] }

end FakeTransport

end GeminiCpp
