import GeminiCpp.Bytes

/-! The incremental parser of `sse.cpp`. The handler is a computation in any monad, so the
same parser runs on a recorded handler and inside a streaming call. -/
namespace GeminiCpp

structure SseParser where
  buffer : Bytes
  data : Bytes
  hasData : Bool
deriving DecidableEq, Repr

namespace SseParser

/-- A new parser. -/
def init : SseParser := { buffer := [], data := [], hasData := false }

/-- A line without the CR of a CRLF. -/
def stripCr (line : Bytes) : Bytes := if line.getLast? = some cr then line.dropLast else line

/-- The field name and the value of a line, without one space after the colon. -/
def splitField (line : Bytes) : Bytes × Bytes :=
  let field := line.takeWhile (· ≠ colon)
  match line.dropWhile (· ≠ colon) with
  | [] => (field, [])
  | _ :: value => (field, if value.head? = some space then value.tail else value)

/-- What a line that is not blank does to the event being assembled. -/
def addLine (p : SseParser) (line : Bytes) : SseParser :=
  if line.head? = some colon then p
  else if (splitField line).1 = ascii "data" then
    { p with
      data := (if p.hasData then p.data ++ [lf] else p.data) ++ (splitField line).2
      hasData := true }
  else p

section
variable {m : Type → Type} [Monad m] (handler : Bytes → m Bool)

def dispatch (p : SseParser) : m (Bool × SseParser) :=
  if p.hasData then do
    let go ← handler p.data
    return (go, { p with data := [], hasData := false })
  else pure (true, p)

def processLine (p : SseParser) (line : Bytes) : m (Bool × SseParser) :=
  if line = [] then dispatch handler p else pure (true, p.addLine line)

/-- The loop of `feed` over the bytes not read yet; `buffer` holds what was read of the
current line. A stop leaves the unread bytes in the buffer. -/
def scan (p : SseParser) : Bytes → m (Bool × SseParser)
  | [] => pure (true, p)
  | b :: rest =>
    if b = lf then do
      let (go, p) ← processLine handler { p with buffer := [] } (stripCr p.buffer)
      if go then scan p rest else return (false, { p with buffer := rest })
    else scan { p with buffer := p.buffer ++ [b] } rest

/-- Feeds more bytes; false if the handler asked to stop. -/
def feed (p : SseParser) (bytes : Bytes) : m (Bool × SseParser) :=
  scan handler { p with buffer := [] } (p.buffer ++ bytes)

/-- Flushes a trailing event that was not terminated by a blank line. -/
def finish (p : SseParser) : m (Bool × SseParser) :=
  if p.buffer = [] then dispatch handler p
  else do
    let (go, p) ← processLine handler { p with buffer := [] } (stripCr p.buffer)
    if go then dispatch handler p else return (false, p)

/-- Feeds pieces in order up to the first that is refused, and otherwise finishes. -/
def feedAll (p : SseParser) : List Bytes → m Bool
  | [] => Prod.fst <$> finish handler p
  | bytes :: pieces => do
    let (go, p) ← feed handler p bytes
    if go then feedAll p pieces else return false

end

/-- A handler that records its events and answers from all of them. -/
def recorded (answer : List Bytes → Bool) (data : Bytes) : StateM (List Bytes) Bool := do
  modify (· ++ [data])
  return answer (← get)

/-- The events of a byte string: what a handler that always continues is given. -/
def sseEvents (bytes : Bytes) : List Bytes :=
  ((feedAll (recorded fun _ => true) .init [bytes]).run []).2

example : sseEvents (ascii "data: a\r\ndata: b\n\n:x\ndata:c") = [ascii "a\nb", ascii "c"] := by
  decide +kernel

end SseParser

end GeminiCpp
