import Mathlib.Algebra.Group.Int.Defs
import Mathlib.Algebra.Group.Nat.Defs
import GeminiCpp.Lib.Strtod
import GeminiCpp.Types

/-! The decoders of `serialization.cpp`. Every access to a JSON value that throws on the
wrong type is kept as one, so that a decoder can be seen not to throw. -/
namespace GeminiCpp.Wire

def stringOr (j : Json) (key fallback : Bytes) : MayThrow Bytes :=
  match j.find key with
  | some v => if v.isString then v.getString else .ok fallback
  | none => .ok fallback

def intOr (j : Json) (key : Bytes) (fallback : Int64) : MayThrow Int64 :=
  match j.find key with
  | some v => if v.isNumberInteger then v.getInt64 else .ok fallback
  | none => .ok fallback

def codeForStatus (status : ℤ) (apiStatus : Bytes) : ErrorCode :=
  if apiStatus = ascii "RESOURCE_EXHAUSTED" then .rateLimited
  else if apiStatus = ascii "DEADLINE_EXCEEDED" then .timeout
  else if status = 400 then .invalidArgument
  else if status = 401 ∨ status = 403 then .unauthenticated
  else if status = 404 then .notFound
  else if status = 408 then .timeout
  else if status = 429 then .rateLimited
  else if 500 ≤ status ∧ status ≤ 599 then .server
  else .http

def unsupportedPartKind : Bytes := ascii "unsupported part kind"

def functionCallWithoutName : Bytes := ascii "functionCall without name"

def parseFunctionCall (j : Json) : MayThrow FunctionCall := do
  let name ← stringOr j (ascii "name") []
  let id ← stringOr j (ascii "id") []
  let args := (j.find (ascii "args")).getD (.obj [])
  return { name, args, id }

def parseFunctionResponse (j : Json) : MayThrow FunctionResponse := do
  let name ← stringOr j (ascii "name") []
  let id ← stringOr j (ascii "id") []
  let response := (j.find (ascii "response")).getD (.obj [])
  return { name, response, id }

/-- The value under `key` when it has the type `test` asks for. -/
def findIf (j : Json) (key : Bytes) (test : Json → Bool) : Option Json :=
  (j.find key).filter test

def parsePart (j : Json) : MayThrow (Result Part) := do
  if !j.isObject then
    return .error (makeError .parse (ascii "part is not an object"))
  let thoughtSignature ← stringOr j (ascii "thoughtSignature") []
  match findIf j (ascii "text") Json.isString with
  | some text =>
    let t ← text.getString
    let thought ← j.valueBool (ascii "thought") false
    return .ok { value := .text t, thought, thoughtSignature }
  | none =>
  match findIf j (ascii "functionCall") Json.isObject with
  | some callJson =>
    let call ← parseFunctionCall callJson
    if call.name = [] then return .error (makeError .parse functionCallWithoutName)
    return .ok { value := .call call, thought := false, thoughtSignature }
  | none =>
  match findIf j (ascii "functionResponse") Json.isObject with
  | some respJson =>
    let resp ← parseFunctionResponse respJson
    return .ok { value := .response resp, thought := false, thoughtSignature }
  | none => return .error (makeError .parse unsupportedPartKind)

/-- The loop of `parse_content`: unknown kinds are skipped, any other error ends it. -/
def parseParts : List Json → MayThrow (Result (List Part))
  | [] => return .ok []
  | pj :: rest => do
    match ← parsePart pj with
    | .ok part =>
      let parts ← parseParts rest
      return parts.map (part :: ·)
    | .error e =>
      if e.message = unsupportedPartKind then parseParts rest else return .error e

def parseContent (j : Json) : MayThrow (Result Content) := do
  if !j.isObject then return .ok { role := .model, parts := [] }
  let roleName ← stringOr j (ascii "role") (ascii "model")
  let role := if roleName = ascii "user" then Role.user else Role.model
  match j.find (ascii "parts") with
  | some (.arr elems) =>
    let parts ← parseParts elems
    return parts.map fun parts => { role, parts }
  | _ => return .ok { role, parts := [] }

def parseCandidate (cj : Json) (position : Int64) : MayThrow (Result Candidate) := do
  let index ← intOr cj (ascii "index") position
  let finishReason ← stringOr cj (ascii "finishReason") []
  match cj.find (ascii "content") with
  | some contentJson =>
    let parsed ← parseContent contentJson
    return parsed.map fun content => { content, finishReason, index := index.toInt32 }
  | none =>
    return .ok { content := { role := .model, parts := [] }, finishReason
                 index := index.toInt32 }

def parseCandidates (position : Int64) : List Json → MayThrow (Result (List Candidate))
  | [] => return .ok []
  | cj :: rest => do
    match ← parseCandidate cj position with
    | .ok cand =>
      let cands ← parseCandidates (position + 1) rest
      return cands.map (cand :: ·)
    | .error e => return .error e

def parseUsage (usage : Json) : MayThrow UsageMetadata := do
  let promptTokens ← intOr usage (ascii "promptTokenCount") 0
  let candidatesTokens ← intOr usage (ascii "candidatesTokenCount") 0
  let thoughtsTokens ← intOr usage (ascii "thoughtsTokenCount") 0
  let totalTokens ← intOr usage (ascii "totalTokenCount") 0
  return { promptTokens, candidatesTokens, thoughtsTokens, totalTokens }

/-- The elements of an array under `key`. -/
def elemsUnder (j : Json) (key : Bytes) : List Json :=
  match j.find key with
  | some (.arr elems) => elems
  | _ => []

/-- What `parse_generate_response` reads after the candidates. -/
def parseResponseRest (j : Json) (candidates : List Candidate) :
    MayThrow (Result GenerateResponse) := do
  let usage ← match findIf j (ascii "usageMetadata") Json.isObject with
    | some u => parseUsage u
    | none => pure .zero
  let modelVersion ← stringOr j (ascii "modelVersion") []
  let responseId ← stringOr j (ascii "responseId") []
  let reason ← match findIf j (ascii "promptFeedback") Json.isObject with
    | some fb => stringOr fb (ascii "blockReason") []
    | none => pure []
  let promptBlockReason := if reason = [] then none else some reason
  return .ok { candidates, usage, modelVersion, responseId, promptBlockReason }

def parseGenerateResponse (j : Json) : MayThrow (Result GenerateResponse) := do
  if !j.isObject then
    return .error (makeError .parse (ascii "response is not a JSON object"))
  match ← parseCandidates 0 (elemsUnder j (ascii "candidates")) with
  | .ok candidates => parseResponseRest j candidates
  | .error e => return .error e

/-- The overload of `parse_generate_response` that takes the text of a response. -/
def parseResponseText (text : JsonText) (body : Bytes) : MayThrow (Result GenerateResponse) :=
  match text.parse body with
  | some j => parseGenerateResponse j
  | none =>
    return .error (makeError .parse (ascii "invalid JSON in response: " ++ body.take 200))

def parseModelInfo (m : Json) : MayThrow ModelInfo := do
  let name ← stringOr m (ascii "name") []
  let displayName ← stringOr m (ascii "displayName") []
  let description ← stringOr m (ascii "description") []
  let inputTokenLimit ← intOr m (ascii "inputTokenLimit") 0
  let outputTokenLimit ← intOr m (ascii "outputTokenLimit") 0
  let methods := (elemsUnder m (ascii "supportedGenerationMethods")).filter Json.isString
  let supportedMethods ← methods.mapM Json.getString
  return { name, displayName, description, inputTokenLimit, outputTokenLimit, supportedMethods }

/-- The models of one page and the token of the next. -/
def parseModelList (text : JsonText) (body : Bytes) :
    MayThrow (Result (List ModelInfo × Bytes)) := do
  match text.parse body with
  | none => return .error (makeError .parse (ascii "invalid JSON in model list"))
  | some j =>
    if !j.isObject then return .error (makeError .parse (ascii "invalid JSON in model list"))
    let models ← (elemsUnder j (ascii "models")).mapM parseModelInfo
    let nextPageToken ← stringOr j (ascii "nextPageToken") []
    return .ok (models, nextPageToken)

/-- `static_cast<std::int64_t>` of a double. Out of range it is undefined; the processor gives the
least integer. -/
def castInt64 (x : UInt64) : ℤ := (Binary64.toInt64 x).getD (-2 ^ 63)

/-- `1000.0`. -/
def thousand : UInt64 := 0x408F400000000000

/-- Protobuf durations such as `30s` or `1.5s`. -/
def parseProtoDuration (text : Bytes) : Option Millis :=
  if text.length < 2 ∨ text.getLast? ≠ some 's'.toUInt8 then none
  else
    let number := text.dropLast
    let (seconds, read) := Strtod.strtod number
    if read ≠ number.length ∨ !Binary64.isFinite seconds ∨ Binary64.less seconds Binary64.zero then
      none
    else some (castInt64 (Binary64.ceil (Binary64.mul seconds thousand)))

/-- The leading decimal digits of a string, as a number. -/
def leadingDigits : Bytes → Option ℕ
  | [] => none
  | b :: s => if 0x30 ≤ b ∧ b ≤ 0x39 then some (go (b.toNat - 0x30) s) else none
where
  go (acc : ℕ) : Bytes → ℕ
    | [] => acc
    | b :: s => if 0x30 ≤ b ∧ b ≤ 0x39 then go (10 * acc + (b.toNat - 0x30)) s else acc

/-- `std::from_chars` into a 64-bit integer; text after the number is not an error. -/
def fromChars (s : Bytes) : Option ℤ :=
  let value := match s with
    | 0x2D :: t => (leadingDigits t).map fun n => -(n : ℤ)
    | _ => (leadingDigits s).map fun n => (n : ℤ)
  value.filter fun v => -2 ^ 63 ≤ v ∧ v < 2 ^ 63

/-- `std::chrono::seconds` converted to 64-bit milliseconds. -/
def secondsToMillis (seconds : ℤ) : Millis := (seconds * 1000).bmod (2 ^ 64)

abbrev HttpHeaders := List (Bytes × Bytes)

/-- One element of `error.details`: a `RetryInfo` sets the hint. -/
def applyDetail (hint : Option Millis) (d : Json) : MayThrow (Option Millis) := do
  let kind ← stringOr d (ascii "@type") []
  if (ascii "google.rpc.RetryInfo").isSuffixOf kind then
    let delay ← stringOr d (ascii "retryDelay") []
    return parseProtoDuration delay
  return hint

/-- Message, status and retry hint of the `error` object. -/
def parseErrorObject (e : Json) (fallback : Bytes) :
    MayThrow (Bytes × Bytes × Option Millis) := do
  let msg ← stringOr e (ascii "message") []
  let apiStatus ← stringOr e (ascii "status") []
  let hint ← (elemsUnder e (ascii "details")).foldlM applyDetail none
  return (if msg = [] then fallback else msg, apiStatus, hint)

/-- `retry-after`, the hint of last resort. -/
def headerHint (headers : HttpHeaders) : Option Millis :=
  match headers.lookup (ascii "retry-after") with
  | none => none
  | some v =>
    match fromChars v with
    | some seconds => if 0 ≤ seconds then some (secondsToMillis seconds) else none
    | none => none

/-- The document an error body holds; a streaming error is an array around it. -/
def errorDocument (text : JsonText) (body : Bytes) : Option Json :=
  match text.parse body with
  | some (.arr (j :: _)) => some j
  | j => j

/-- Builds an `Error` from a response that is not 2xx. -/
def parseApiError (text : JsonText) (httpStatus : ℤ) (body : Bytes)
    (headers : HttpHeaders) : MayThrow Error := do
  let message := ascii "HTTP " ++ toDecimal httpStatus
  let (message, apiStatus, hint) ← match errorDocument text body with
    | some (.obj fields) =>
      match findIf (.obj fields) (ascii "error") Json.isObject with
      | some e => parseErrorObject e message
      | none => pure (message, [], none)
    | _ =>
      if body = [] then pure (message, [], none)
      else pure (message ++ ascii ": " ++ body.take 300, [], none)
  let retryAfter := hint.or (headerHint headers)
  return { code := codeForStatus httpStatus apiStatus, message, httpStatus, apiStatus, retryAfter }

end GeminiCpp.Wire
