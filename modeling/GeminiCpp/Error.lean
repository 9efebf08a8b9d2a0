import GeminiCpp.Bytes

/-! Error values and the two ways a call can end badly: with an `Error` as its value, or
with a C++ exception. -/
namespace GeminiCpp

/-- Coarse classification of everything that can go wrong talking to the API. -/
inductive ErrorCode
  | transport
  | timeout
  | cancelled
  | invalidArgument
  | unauthenticated
  | notFound
  | rateLimited
  | server
  | http
  | parse
  | blocked
  | config
  | io
deriving DecidableEq, Repr

def ErrorCode.toString : ErrorCode → Bytes
  | .transport => ascii "transport"
  | .timeout => ascii "timeout"
  | .cancelled => ascii "cancelled"
  | .invalidArgument => ascii "invalid_argument"
  | .unauthenticated => ascii "unauthenticated"
  | .notFound => ascii "not_found"
  | .rateLimited => ascii "rate_limited"
  | .server => ascii "server"
  | .http => ascii "http"
  | .parse => ascii "parse"
  | .blocked => ascii "blocked"
  | .config => ascii "config"
  | .io => ascii "io"

structure Error where
  code : ErrorCode
  message : Bytes
  httpStatus : ℤ
  /-- Google RPC status, e.g. `RESOURCE_EXHAUSTED`. -/
  apiStatus : Bytes
  /-- The delay the server asks for. -/
  retryAfter : Option Millis
deriving DecidableEq, Repr

/-- True for failures that are plausibly transient. -/
def Error.retryable (e : Error) : Bool :=
  match e.code with
  | .transport | .timeout | .rateLimited | .server => true
  | _ => false

def Error.describe (e : Error) : Bytes :=
  let out := ascii "[" ++ e.code.toString ++ ascii "] " ++ e.message
  if e.httpStatus ≠ 0 ∨ e.apiStatus ≠ [] then
    out ++ ascii " (" ++
      (if e.httpStatus ≠ 0 then ascii "HTTP " ++ toDecimal e.httpStatus else []) ++
      (if e.apiStatus ≠ [] then
        (if e.httpStatus ≠ 0 then ascii " " else []) ++ e.apiStatus else []) ++
      ascii ")"
  else out

/-- `std::expected<T, Error>`. -/
abbrev Result (α : Type) := Except Error α

def makeError (code : ErrorCode) (message : Bytes) : Error :=
  { code, message, httpStatus := 0, apiStatus := [], retryAfter := none }

/-- A C++ exception: an object derived from `std::exception`, with its `what()`, or an
object of any other type. -/
inductive Exn
  | std (what : Bytes)
  | other
deriving DecidableEq, Repr

/-- The value of a function that may throw. -/
abbrev MayThrow (α : Type) := Except Exn α

namespace MayThrow
variable {α β : Type}

@[simp] theorem ok_bind (a : α) (f : α → MayThrow β) : ((.ok a : MayThrow α) >>= f) = f a := rfl

@[simp] theorem error_bind (x : Exn) (f : α → MayThrow β) :
    ((.error x : MayThrow α) >>= f) = .error x := rfl

@[simp] theorem pure_eq (a : α) : (pure a : MayThrow α) = .ok a := rfl

/-- A value that was mapped before it was returned. -/
theorem bind_map_eq_ok {m : MayThrow (Result α)} {f : α → β} {b : β}
    (h : (m >>= fun r => .ok (r.map f)) = (.ok (.ok b) : MayThrow (Result β))) :
    ∃ a, m = .ok (.ok a) ∧ f a = b := by
  rcases m with x | (e | a)
  · cases h
  · cases h
  · exact ⟨a, rfl, Except.ok.inj (Except.ok.inj h)⟩

end MayThrow

end GeminiCpp
