import GeminiCpp.Json

/-! Requests and responses (`types.hpp`, `types.cpp`). -/
namespace GeminiCpp

inductive Role
  | user
  | model
deriving DecidableEq, Repr

def Role.toString : Role → Bytes
  | .model => ascii "model"
  | .user => ascii "user"

structure FunctionCall where
  name : Bytes
  args : Json
  /-- Optional correlation id, echoed back in the `FunctionResponse`. -/
  id : Bytes

structure FunctionResponse where
  name : Bytes
  response : Json
  id : Bytes

inductive PartValue
  | text (t : Bytes)
  | call (c : FunctionCall)
  | response (r : FunctionResponse)

/-- One element of a `Content`. -/
structure Part where
  value : PartValue
  /-- True for the summaries of thinking models. -/
  thought : Bool
  /-- Opaque token that must be sent back verbatim. -/
  thoughtSignature : Bytes

namespace Part

def text (t : Bytes) : Part := { value := .text t, thought := false, thoughtSignature := [] }

def call (c : FunctionCall) : Part := { value := .call c, thought := false, thoughtSignature := [] }

def response (r : FunctionResponse) : Part :=
  { value := .response r, thought := false, thoughtSignature := [] }

def asText (p : Part) : Option Bytes :=
  match p.value with
  | .text t => some t
  | _ => none

def asCall (p : Part) : Option FunctionCall :=
  match p.value with
  | .call c => some c
  | _ => none

end Part

structure Content where
  role : Role
  parts : List Part

/-- A user turn with one text part. -/
def Content.user (t : Bytes) : Content := { role := .user, parts := [.text t] }

/-- The function calls among some parts, in order. -/
def callsOf (parts : List Part) : List FunctionCall := parts.filterMap Part.asCall

/-- Concatenation of all non-thought text parts. -/
def Content.text (c : Content) : Bytes :=
  (c.parts.filterMap fun p => if p.thought then none else p.asText).flatten

structure FunctionDeclaration where
  name : Bytes
  description : Bytes
  parameters : Json

structure GenerationConfig where
  /-- Doubles are kept as their bits. -/
  temperature : Option UInt64
  topP : Option UInt64
  topK : Option Int32
  maxOutputTokens : Option Int32
  candidateCount : Option Int32
  seed : Option Int32
  thinkingBudget : Option Int32
  responseMimeType : Option Bytes
  responseSchema : Json
  stopSequences : List Bytes

def GenerationConfig.unset : GenerationConfig :=
  { temperature := none, topP := none, topK := none, maxOutputTokens := none
    candidateCount := none, seed := none, thinkingBudget := none, responseMimeType := none
    responseSchema := .null, stopSequences := [] }

structure SafetySetting where
  category : Bytes
  threshold : Bytes

structure GenerateRequest where
  contents : List Content
  systemInstruction : Option Content
  tools : List FunctionDeclaration
  config : GenerationConfig
  safetySettings : List SafetySetting

structure UsageMetadata where
  promptTokens : Int64
  candidatesTokens : Int64
  thoughtsTokens : Int64
  totalTokens : Int64
deriving DecidableEq

def UsageMetadata.zero : UsageMetadata :=
  { promptTokens := 0, candidatesTokens := 0, thoughtsTokens := 0, totalTokens := 0 }

/-- `operator+=`. -/
def UsageMetadata.add (a b : UsageMetadata) : UsageMetadata :=
  { promptTokens := a.promptTokens + b.promptTokens
    candidatesTokens := a.candidatesTokens + b.candidatesTokens
    thoughtsTokens := a.thoughtsTokens + b.thoughtsTokens
    totalTokens := a.totalTokens + b.totalTokens }

structure Candidate where
  content : Content
  finishReason : Bytes
  index : Int32

structure GenerateResponse where
  candidates : List Candidate
  usage : UsageMetadata
  modelVersion : Bytes
  responseId : Bytes
  promptBlockReason : Option Bytes

namespace GenerateResponse

/-- A default-constructed response. -/
def empty : GenerateResponse :=
  { candidates := [], usage := .zero, modelVersion := [], responseId := []
    promptBlockReason := none }

/-- A response with one candidate, of one part. -/
def ofPart (p : Part) : GenerateResponse :=
  { empty with candidates :=
      [{ content := { role := .model, parts := [p] }, finishReason := [], index := 0 }] }

/-- Text of the first candidate. -/
def text (r : GenerateResponse) : Bytes :=
  match r.candidates with
  | [] => []
  | c :: _ => c.content.text

/-- Function calls requested by the first candidate. -/
def functionCalls (r : GenerateResponse) : List FunctionCall :=
  match r.candidates with
  | [] => []
  | c :: _ => callsOf c.content.parts

def finishReason (r : GenerateResponse) : Bytes :=
  match r.candidates with
  | [] => []
  | c :: _ => c.finishReason

end GenerateResponse

/-- Streamed text arrives in fragments: an incoming text part is glued to a last part of the
same kind unless both carry a signature. -/
def appendPart (parts : List Part) (incoming : Part) : List Part :=
  match incoming.value, parts.getLast? with
  | .text t, some last =>
    match last.value with
    | .text lastText =>
      if last.thought = incoming.thought ∧
          (last.thoughtSignature = [] ∨ incoming.thoughtSignature = []) then
        parts.dropLast ++
          [{ value := .text (lastText ++ t)
             thought := last.thought
             thoughtSignature :=
               if last.thoughtSignature = [] then incoming.thoughtSignature
               else last.thoughtSignature }]
      else parts ++ [incoming]
    | _ => parts ++ [incoming]
  | _, _ => parts ++ [incoming]

/-- Folds a candidate of a chunk into the aggregate candidate of the same index. -/
def Candidate.absorb (c incoming : Candidate) : Candidate :=
  { content := { c.content with parts := incoming.content.parts.foldl appendPart c.content.parts }
    finishReason := if incoming.finishReason = [] then c.finishReason else incoming.finishReason
    index := c.index }

/-- The first candidate with the incoming index absorbs it; without one a new candidate is
added at the end. -/
def mergeCandidate (candidates : List Candidate) (incoming : Candidate) : List Candidate :=
  match candidates with
  | [] =>
    [Candidate.absorb { content := { role := .model, parts := [] }, finishReason := []
                        index := incoming.index } incoming]
  | c :: cs =>
    if c.index = incoming.index then c.absorb incoming :: cs else c :: mergeCandidate cs incoming

/-- Folds a streamed chunk into an aggregate response. -/
def GenerateResponse.merge (r chunk : GenerateResponse) : GenerateResponse :=
  { candidates := chunk.candidates.foldl mergeCandidate r.candidates
    usage :=
      if chunk.usage.totalTokens ≠ 0 ∨ chunk.usage.promptTokens ≠ 0 then chunk.usage else r.usage
    modelVersion := if chunk.modelVersion = [] then r.modelVersion else chunk.modelVersion
    responseId := if chunk.responseId = [] then r.responseId else chunk.responseId
    promptBlockReason :=
      if chunk.promptBlockReason.isSome then chunk.promptBlockReason else r.promptBlockReason }

/-- The aggregate of a list of chunks. -/
def mergeAll (chunks : List GenerateResponse) : GenerateResponse :=
  chunks.foldl GenerateResponse.merge .empty

structure ModelInfo where
  name : Bytes
  displayName : Bytes
  description : Bytes
  inputTokenLimit : Int64
  outputTokenLimit : Int64
  supportedMethods : List Bytes

end GeminiCpp
