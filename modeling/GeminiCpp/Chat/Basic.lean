import GeminiCpp.Client.Basic
import GeminiCpp.Tools

/-! Conversations (`chat.hpp`, `chat.cpp`): a session sends a message, executes the function
calls of the replies, and sends their results back until a reply has none. -/
namespace GeminiCpp
open Traced

/-- What a session uses of its client. -/
structure ChatClient (ω : Type) where
  generate : GenerateRequest → Program ω (Result GenerateResponse)
  stream : GenerateRequest → StreamCallback ω → Program ω (Result GenerateResponse)

variable {ω : Type}

def Client.forChat (c : Client ω) : ChatClient ω :=
  { generate := c.generate, stream := fun request onChunk => c.stream request (some onChunk) }

structure ChatOptions where
  systemInstruction : Option Bytes
  config : GenerationConfig
  /-- Upper bound on model → tool → model round trips within one `send`. -/
  maxToolRounds : ℤ

abbrev ToolObserver (ω : Type) := FunctionCall → FunctionResponse → ω → MayThrow Unit × ω

/-- The members of a session that stay as they are in a `send`. -/
structure ChatSession (ω : Type) where
  client : ChatClient ω
  options : ChatOptions
  tools : Option (ToolRegistry ω)
  toolObserver : Option (ToolObserver ω)
  text : JsonText

/-- The members that change. -/
structure ChatState where
  history : List Content
  usage : UsageMetadata

namespace ChatState

def init : ChatState := { history := [], usage := .zero }

def pushBack (x : ChatState) (c : Content) : ChatState := { x with history := x.history ++ [c] }

def addUsage (x : ChatState) (usage : UsageMetadata) : ChatState :=
  { x with usage := x.usage.add usage }

/-- `history_.resize(n)`. -/
def resize (x : ChatState) (n : ℕ) : ChatState :=
  { x with
    history := x.history.take n ++
      List.replicate (n - x.history.length) { role := .user, parts := [] } }

end ChatState

namespace ChatSession

/-- Assigns the members that change. -/
def setState (f : ChatState → ChatState) : Program (ChatState × ω) Unit :=
  Prog.modify fun s => (f s.1, s.2)

def reset : Program (ChatState × ω) Unit := setState fun _ => .init

variable (s : ChatSession ω)

def buildRequest (history : List Content) : GenerateRequest :=
  { contents := history
    systemInstruction := s.options.systemInstruction.map Content.user
    tools := match s.tools with
      | some tools => tools.declarations
      | none => []
    config := s.options.config
    safetySettings := [] }

/-- Streamed when there is a callback. -/
def ask (onChunk : Option (StreamCallback ω)) (request : GenerateRequest) :
    Program ω (Result GenerateResponse) := do
  Prog.emit (.ask request)
  match onChunk with
  | some onChunk => s.client.stream request onChunk
  | none => s.client.generate request

def rollback (checkpoint : ℕ) (e : Error) : Program (ChatState × ω) (Result GenerateResponse) := do
  setState fun x => x.resize checkpoint
  return .error e

def observe (call : FunctionCall) (result : FunctionResponse) : Program ω Unit :=
  match s.toolObserver with
  | some observer => Prog.call (observer call result)
  | none => return ()

/-- One call of a reply; the log line prints its arguments first. -/
def runTool (tools : ToolRegistry ω) (call : FunctionCall) : Program ω Part := do
  let _ ← Prog.ofExcept (s.text.dump call.args)
  let result ← tools.invoke call
  Prog.emit (.toolResult call result)
  s.observe call result
  return .response result

/-- The calls of a reply, in order. -/
def runTools (tools : ToolRegistry ω) (calls : List FunctionCall) : Program ω (List Part) := do
  Prog.emit (.toolRound calls)
  calls.mapM (s.runTool tools)

/-- The turn of the model that a reply becomes. -/
def replyTurn (candidate : Candidate) : Content := { candidate.content with role := .model }

def noCandidates : Error := makeError .parse (ascii "response has no candidates")

def tooManyRounds (maxToolRounds : ℤ) : Error :=
  makeError .invalidArgument (ascii "model exceeded max_tool_rounds (" ++
    toDecimal maxToolRounds ++ ascii ") without answering")

/-- The loop of `send`, with `left` rounds to go. -/
def rounds (checkpoint : ℕ) (onChunk : Option (StreamCallback ω)) :
    (left : ℕ) → Program (ChatState × ω) (Result GenerateResponse)
  | 0 => rollback checkpoint (tooManyRounds s.options.maxToolRounds)
  | left + 1 => do
    let (x, _) ← Prog.get
    match ← Prog.lift (s.ask onChunk (s.buildRequest x.history)) with
    | .error e => rollback checkpoint e
    | .ok response =>
      setState fun x => x.addUsage response.usage
      match response.candidates, response.functionCalls, s.tools with
      | [], _, _ => rollback checkpoint noCandidates
      | candidate :: _, call :: calls, some tools =>
        setState fun x => x.pushBack (replyTurn candidate)
        let parts ← Prog.lift (s.runTools tools (call :: calls))
        setState fun x => x.pushBack { role := .user, parts }
        rounds checkpoint onChunk left
      | candidate :: _, _, _ =>
        setState fun x => x.pushBack (replyTurn candidate)
        return .ok response

/-- The loop makes a round for each of `0, …, max_tool_rounds`. -/
def send (message : Bytes) (onChunk : Option (StreamCallback ω)) :
    Program (ChatState × ω) (Result GenerateResponse) := do
  let (x, _) ← Prog.get
  setState fun x => x.pushBack (.user message)
  s.rounds x.history.length onChunk (s.options.maxToolRounds + 1).toNat

end ChatSession

/-- A world in which the replies of the model are fixed in advance. -/
abbrev Script (ω : Type) := (ℕ → Result GenerateResponse) × ω

/-- A client that answers each request with the next reply. -/
def ChatClient.scripted : ChatClient (Script ω) :=
  let next : Program (Script ω) (Result GenerateResponse) :=
    Prog.ask fun w => (w.1 0, fun n => w.1 (n + 1), w.2)
  { generate := fun _ => next, stream := fun _ _ => next }

/-- A tool that leaves the script alone. -/
def ToolHandler.besideScript (handler : ToolHandler ω) : ToolHandler (Script ω) :=
  handler.map fun handler args w => ((handler args w.2).1, w.1, (handler args w.2).2)

def ToolRegistry.besideScript (tools : ToolRegistry ω) : ToolRegistry (Script ω) :=
  tools.map fun tool => (tool.1, tool.2.besideScript)

def ToolObserver.besideScript (observer : ToolObserver ω) : ToolObserver (Script ω) :=
  fun call result w => ((observer call result w.2).1, w.1, (observer call result w.2).2)

/-- The session of a script. -/
def ChatSession.scripted (options : ChatOptions) (tools : Option (ToolRegistry ω))
    (toolObserver : Option (ToolObserver ω)) (text : JsonText) : ChatSession (Script ω) :=
  { client := .scripted
    options
    tools := tools.map ToolRegistry.besideScript
    toolObserver := toolObserver.map ToolObserver.besideScript
    text }

/-- A tool that returns its arguments. -/
def echoTool (name : Bytes) : FunctionDeclaration × ToolHandler ω :=
  ({ name, description := [], parameters := .null }, some fun args w => (.ok (.ok args), w))

/-- A reply with one call, without arguments. -/
def callReply (name : Bytes) : Result GenerateResponse :=
  .ok (.ofPart (.call { name, args := .obj [], id := [] }))

def textReply (t : Bytes) : Result GenerateResponse := .ok (.ofPart (.text t))

/-- Default options with a bound on the rounds. -/
def ChatOptions.bounded (maxToolRounds : ℤ) : ChatOptions :=
  { systemInstruction := none, config := .unset, maxToolRounds }

end GeminiCpp
