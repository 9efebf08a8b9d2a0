import GeminiCpp.Transport

/-! The registry of tools (`tools.hpp`, `tools.cpp`). Handlers are code of the caller: they
may change the outside world and may throw. -/
namespace GeminiCpp
open Traced Traced.Prog

/-- A handler for the arguments of a call; `none` is an empty `std::function`. -/
abbrev ToolHandler (ω : Type) := Option (Json → ω → MayThrow (Result Json) × ω)

abbrev ToolRegistry (ω : Type) := List (FunctionDeclaration × ToolHandler ω)

variable {ω : Type}

def errorJson (message : Bytes) : Json := Json.object [(ascii "error", .str message)]

/-- What a handler's outcome becomes in a response. The only exceptions that pass through are
objects that are not derived from `std::exception`. -/
def handlerAnswer (outcome : MayThrow (Result Json)) : MayThrow Json :=
  match outcome with
  | .ok (.error e) => .ok (errorJson e.message)
  | .ok (.ok result) =>
    .ok (if result.isObject then result else Json.object [(ascii "result", result)])
  | .error (.std what) => .ok (errorJson (ascii "tool threw: " ++ what))
  | .error .other => .error .other

def callHandler (handler : ToolHandler ω) (call : FunctionCall) :
    Program ω (MayThrow (Result Json)) :=
  match handler with
  | none => return .error (.std (ascii "bad_function_call"))
  | some handler => do
    Prog.emit (.handler call.name call.args)
    Prog.ask (handler call.args)

namespace ToolRegistry

def add (tools : ToolRegistry ω) (declaration : FunctionDeclaration) (handler : ToolHandler ω) :
    ToolRegistry ω :=
  tools ++ [(declaration, handler)]

def declarations (tools : ToolRegistry ω) : List FunctionDeclaration := tools.map Prod.fst

/-- The first handler registered under a name. -/
def handlerOf (tools : ToolRegistry ω) (name : Bytes) : Option (ToolHandler ω) :=
  (tools.find? fun tool => tool.1.name = name).map Prod.snd

def invoke (tools : ToolRegistry ω) (call : FunctionCall) : Program ω FunctionResponse := do
  let response ← match tools.handlerOf call.name with
    | none => pure (errorJson (ascii "unknown function: " ++ call.name))
    | some handler => do
      let outcome ← callHandler handler call
      Prog.ofExcept (handlerAnswer outcome)
  return { name := call.name, response, id := call.id }

variable {tools : ToolRegistry ω} {call : FunctionCall}

theorem invoke_of_unknown (h : tools.handlerOf call.name = none) (w : ω) :
    tools.invoke call w = ⟨[], w, .ok
      { name := call.name
        response := errorJson (ascii "unknown function: " ++ call.name)
        id := call.id }⟩ := by
  unfold invoke
  rw [h]
  rfl

theorem invoke_of_empty (h : tools.handlerOf call.name = some none) (w : ω) :
    tools.invoke call w = ⟨[], w, .ok
      { name := call.name
        response := errorJson (ascii "tool threw: " ++ ascii "bad_function_call")
        id := call.id }⟩ := by
  unfold invoke
  rw [h]
  rfl

theorem invoke_of_handler {handler : Json → ω → MayThrow (Result Json) × ω}
    (h : tools.handlerOf call.name = some (some handler)) (w : ω) :
    tools.invoke call w = ⟨[.handler call.name call.args], (handler call.args w).2,
      (handlerAnswer (handler call.args w).1).map fun response =>
        { name := call.name, response, id := call.id }⟩ := by
  unfold invoke
  rw [h, run_eq_iff]
  simp only [callHandler, wp_bind, wp_emit, then_ok, wp_ask, wp_ofExcept]
  cases handlerAnswer (handler call.args w).1 <;> rfl

end ToolRegistry

end GeminiCpp
