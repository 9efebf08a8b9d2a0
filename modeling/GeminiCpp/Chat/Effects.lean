import GeminiCpp.Chat.Basic
import GeminiCpp.Client.Effects

/-! What a `send` may do beyond its client: it asks, it runs the handlers of the tools, and it
tells the observer. -/
namespace GeminiCpp
open Traced Traced.Prog

variable {ω : Type}

namespace ChatSession

/-- The effect allows the basic steps of a session with a callback. -/
structure Allows (s : ChatSession ω) (onChunk : Option (StreamCallback ω)) (E : Effect Event ω) :
    Prop where
  request : ∀ w request, E.rel w [.ask request] w
  toolRound : ∀ w calls, E.rel w [.toolRound calls] w
  handler : ∀ w name args, E.rel w [.handler name args] w
  toolResult : ∀ w call value, E.rel w [.toolResult call value] w
  stream : ∀ callback, onChunk = some callback → ∀ request,
    Within E (s.client.stream request callback)
  generate : onChunk = none → ∀ request, Within E (s.client.generate request)
  handlers : ∀ tools, s.tools = some tools → ∀ name run, tools.handlerOf name = some (some run) →
    ∀ w args, E.rel w [] (run args w).2
  observer : ∀ observer, s.toolObserver = some observer →
    ∀ w call result, E.rel w [] (observer call result w).2

variable {s : ChatSession ω} {onChunk : Option (StreamCallback ω)} {E : Effect Event ω}
  (h : s.Allows onChunk E)
include h

theorem within_request (request : GenerateRequest) : Within E (s.ask onChunk request) := by
  refine within_bind (within_emit fun w => h.request w request) fun _ => ?_
  cases honChunk : onChunk with
  | none => exact h.generate honChunk request
  | some callback => exact h.stream callback honChunk request

theorem within_invoke {tools : ToolRegistry ω} (htools : s.tools = some tools)
    (call : FunctionCall) : Within E (tools.invoke call) := by
  intro w
  rw [wp_iff]
  rcases hfirst : tools.handlerOf call.name with _ | (_ | run)
  · rw [ToolRegistry.invoke_of_unknown hfirst]
    exact E.nil w
  · rw [ToolRegistry.invoke_of_empty hfirst]
    exact E.nil w
  · rw [ToolRegistry.invoke_of_handler hfirst]
    have hrun := h.handlers tools htools call.name run hfirst w call.args
    exact E.append (h.handler w call.name call.args) hrun

theorem within_runTools {tools : ToolRegistry ω} (htools : s.tools = some tools)
    (calls : List FunctionCall) : Within E (s.runTools tools calls) := by
  have hobserve : ∀ call result, Within E (s.observe call result) := by
    intro call result
    unfold observe
    cases hobserver : s.toolObserver with
    | none => exact within_pure _
    | some observer => exact within_call fun w => h.observer observer hobserver w call result
  refine within_bind (within_emit fun w => h.toolRound w calls) fun _ => within_mapM ?_ calls
  intro call
  refine within_bind (within_ofExcept _) fun _ => ?_
  refine within_bind (within_invoke h htools call) fun result => ?_
  refine within_bind (within_emit fun w => h.toolResult w call result) fun _ => ?_
  exact within_bind (hobserve call result) fun _ => within_pure _

omit h in
theorem within_setState (f : ChatState → ChatState) :
    Within (E.beside ChatState) (setState f : Program (ChatState × ω) Unit) :=
  within_modify fun s => E.nil s.2

theorem within_rounds (checkpoint left : ℕ) :
    Within (E.beside ChatState) (s.rounds checkpoint onChunk left) := by
  have hrollback : ∀ e, Within (E.beside ChatState)
      (rollback checkpoint e : Program (ChatState × ω) _) :=
    fun e => within_bind (within_setState _) fun _ => within_pure _
  induction left with
  | zero => exact hrollback _
  | succ left ih =>
    rw [rounds]
    refine within_bind within_get fun state => ?_
    refine within_bind (within_lift (within_request h _)) fun result => ?_
    cases result with
    | error e => exact hrollback e
    | ok response =>
      have hlast : ∀ f, Within (E.beside ChatState)
          (do setState f; return .ok response : Program (ChatState × ω) (Result _)) :=
        fun f => within_bind (within_setState f) fun _ => within_pure _
      refine within_bind (within_setState _) fun _ => ?_
      cases response.candidates with
      | nil => exact hrollback _
      | cons candidate others =>
        cases response.functionCalls with
        | nil => exact hlast _
        | cons call calls =>
          cases htools : s.tools with
          | none => exact hlast _
          | some tools =>
            refine within_bind (within_setState _) fun _ => ?_
            refine within_bind (within_lift (within_runTools h htools _)) fun parts => ?_
            exact within_bind (within_setState _) fun _ => ih

theorem within_send (message : Bytes) :
    Within (E.beside ChatState) (s.send message onChunk) := by
  refine within_bind within_get fun state => ?_
  exact within_bind (within_setState _) fun _ => within_rounds h _ _

end ChatSession

end GeminiCpp
