import GeminiCpp.Calculator.Depth
import GeminiCpp.Tools

/-! The built-in tools (`tools.cpp`): the clock, and the calculator. -/
namespace GeminiCpp.BuiltinTools

/-- The time since 1970 in seconds, and what `gmtime_r` and `strftime` make of it. -/
structure UtcClock (ω : Type) where
  now : ω → Int64 × ω
  print : Int64 → Bytes

/-- The value of `evaluate_expression`, which always returns. -/
def evaluate {ν : Type} (A : Arith ν) (expression : Bytes) : Result ν :=
  match h : evaluateExpression A expression with
  | .ok result => result
  | .error _ => absurd (ExpressionParser.evaluateExpression_returns A expression) (by simp [h])

theorem evaluateExpression_eq {ν : Type} (A : Arith ν) (expression : Bytes) :
    evaluateExpression A expression = .ok (evaluate A expression) := by
  obtain ⟨result, hresult⟩ := ExpressionParser.evaluateExpression_returns A expression
  unfold evaluate
  split
  · next result' h => exact h
  · next x h =>
    rw [hresult] at h
    cases h

variable {ω : Type}

def currentTimeDeclaration : FunctionDeclaration :=
  { name := ascii "get_current_time"
    description := ascii
      "Returns the current UTC date and time in ISO-8601 format and as a Unix timestamp."
    parameters := .obj [] }

def currentTime (clock : UtcClock ω) : ToolHandler ω :=
  some fun _ w =>
    let (t, w) := clock.now w
    (.ok (.ok (Json.object [(ascii "utc", .str (clock.print t)), (ascii "unix", .int t)])), w)

def evaluateDeclaration : FunctionDeclaration :=
  { name := ascii "evaluate_expression"
    description :=
      ascii "Evaluates an arithmetic expression exactly as a calculator would. Supports + - * " ++
        ascii "/ % ^, parentheses, pi, e, sqrt, abs, sin, cos, tan, log, log10, exp, floor, " ++
        ascii "ceil. Use this instead of doing arithmetic in your head."
    parameters := Json.object
      [(ascii "type", .str (ascii "object")),
        (ascii "properties", Json.object [(ascii "expression", Json.object
          [(ascii "type", .str (ascii "string")),
            (ascii "description", .str (ascii "e.g. '(2^10 - 24) / 3'"))])]),
        (ascii "required", .arr [.str (ascii "expression")])] }

def missingExpression : Error :=
  makeError .invalidArgument (ascii "missing string argument 'expression'")

/-- What the calculator says to the arguments of a call. -/
def evaluateArgs (A : Arith UInt64) (args : Json) : Result Json :=
  match args.find (ascii "expression") with
  | some (.str expression) =>
    (evaluate A expression).map fun value => Json.object [(ascii "value", .float value)]
  | _ => .error missingExpression

def evaluateTool (A : Arith UInt64) : ToolHandler ω :=
  some fun args w => (.ok (evaluateArgs A args), w)

/-- Registers `get_current_time` and `evaluate_expression`. -/
def registerDefaults (clock : UtcClock ω) (A : Arith UInt64) (registry : ToolRegistry ω) :
    ToolRegistry ω :=
  (registry.add currentTimeDeclaration (currentTime clock)).add evaluateDeclaration
    (evaluateTool A)

end GeminiCpp.BuiltinTools
