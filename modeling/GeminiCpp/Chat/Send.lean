import GeminiCpp.Chat.Basic

/-! What one `send` does to the history: it appends whole turns, or it rolls back. -/
namespace GeminiCpp
open Traced Traced.Prog

variable {ω : Type}

/-- A part that carries the response to a call. -/
def Answers (call : FunctionCall) (part : Part) : Prop :=
  ∃ response, part = .response { name := call.name, response, id := call.id }

/-- Events of the execution of one call. -/
def Event.ofTool : Event → Prop
  | .handler .. | .toolResult .. => True
  | _ => False

def Event.isToolRound : Event → Bool
  | .toolRound _ => true
  | _ => false

def Event.resultPart? : Event → Option Part
  | .toolResult _ value => some (.response value)
  | _ => none

/-- The parts that carry the results of the registry. -/
def resultParts (es : List Event) : List Part := es.filterMap Event.resultPart?

theorem ToolRegistry.wp_invoke (tools : ToolRegistry ω) (call : FunctionCall) (w : ω) :
    wp (tools.invoke call) w fun es _ r =>
      (∀ e ∈ es, ∃ args, e = .handler call.name args) ∧
      ∀ result, r = .ok result → result.name = call.name ∧ result.id = call.id := by
  rw [wp_iff]
  rcases hfirst : tools.handlerOf call.name with _ | (_ | handler)
  · rw [invoke_of_unknown hfirst]
    exact ⟨by simp, fun result h => by cases h; exact ⟨rfl, rfl⟩⟩
  · rw [invoke_of_empty hfirst]
    exact ⟨by simp, fun result h => by cases h; exact ⟨rfl, rfl⟩⟩
  · rw [invoke_of_handler hfirst]
    refine ⟨by simp, fun result h => ?_⟩
    cases hanswer : handlerAnswer (handler call.args w).1 with
    | error x =>
      rw [hanswer] at h
      cases h
    | ok response =>
      rw [hanswer] at h
      cases h
      exact ⟨rfl, rfl⟩

/-- The requests handed to the client, in order. -/
def asksOf (es : List Event) : List GenerateRequest :=
  es.filterMap fun
    | .ask request => some request
    | _ => none

namespace ChatSession
variable (s : ChatSession ω)

theorem wp_runTool (tools : ToolRegistry ω) (call : FunctionCall) (w : ω) :
    wp (s.runTool tools call) w fun es _ r =>
      ((∀ e ∈ es, e.ofTool) ∧ ∀ part, r = .ok part → Answers call part) ∧
        ∀ part, r = .ok part → resultParts es = [part] := by
  unfold runTool
  simp only [wp_bind, wp_ofExcept]
  cases s.text.dump call.args with
  | error x => exact ⟨⟨by simp, fun part h => by cases h⟩, fun part h => by cases h⟩
  | ok printed =>
    simp only [then_ok, wp_bind]
    refine wp_mono (tools.wp_invoke call w) fun es w₁ r h => ?_
    obtain ⟨hes, hr⟩ := h
    have htool : ∀ e ∈ es, e.ofTool := by
      intro e he
      obtain ⟨args, rfl⟩ := hes e he
      trivial
    cases r with
    | error x => exact ⟨⟨htool, fun part h => by cases h⟩, fun part h => by cases h⟩
    | ok result =>
      have hresult : ∀ e ∈ es ++ [Event.toolResult call result], e.ofTool := by
        intro e he
        rcases List.mem_append.mp he with he | he
        · exact htool e he
        · rw [List.mem_singleton.mp he]
          trivial
      have hanswers : Answers call (.response result) := by
        obtain ⟨hname, hid⟩ := hr result rfl
        exact ⟨result.response, by rw [← hname, ← hid]⟩
      have hparts : resultParts (es ++ [.toolResult call result]) = [.response result] := by
        have hnone : es.filterMap Event.resultPart? = [] :=
          List.filterMap_eq_nil_iff.mpr fun e he => by
            obtain ⟨args, rfl⟩ := hes e he
            rfl
        rw [resultParts, List.filterMap_append, hnone]
        rfl
      simp only [then_ok, wp_bind, wp_emit, observe]
      cases s.toolObserver with
      | none =>
        simp only [wp_pure, then_ok, List.append_nil]
        exact ⟨⟨hresult, fun part h => by cases h; exact hanswers⟩,
          fun part h => by cases h; exact hparts⟩
      | some observer =>
        rw [wp_call]
        cases (observer call result w₁).1 with
        | error x =>
          rw [then_error, List.append_nil]
          exact ⟨⟨hresult, fun part h => by cases h⟩, fun part h => by cases h⟩
        | ok _ =>
          simp only [then_ok, wp_pure, List.append_nil]
          exact ⟨⟨hresult, fun part h => by cases h; exact hanswers⟩,
            fun part h => by cases h; exact hparts⟩

theorem wp_runTools (tools : ToolRegistry ω) (calls : List FunctionCall) (w : ω) :
    wp (s.runTools tools calls) w fun es _ r =>
      (∃ rest, es = .toolRound calls :: rest ∧ ∀ e ∈ rest, e.ofTool) ∧
      ∀ parts, r = .ok parts → List.Forall₂ Answers calls parts ∧ resultParts es = parts := by
  unfold runTools
  simp only [wp_bind, wp_emit, then_ok]
  have hanswers := wp_mapM (fun call w => (wp_and.mp (s.wp_runTool tools call w)).1) calls w
  have hparts := wp_mapM_filterMap (g := Event.resultPart?)
    (fun call w => (wp_and.mp (s.wp_runTool tools call w)).2) calls w
  refine wp_mono (wp_and.mpr ⟨hanswers, hparts⟩) fun es _ r h => ?_
  obtain ⟨⟨hes, hr⟩, hp⟩ := h
  exact ⟨⟨es, rfl, hes⟩, fun parts h => ⟨hr parts h, hp parts h⟩⟩

end ChatSession

/-- Completed tool rounds: each is a turn of the model with calls, and their responses. -/
inductive ToolTurns : List Content → Prop
  | nil : ToolTurns []
  | cons {reply results : Content} {turns : List Content} (hmodel : reply.role = .model)
      (hcalls : callsOf reply.parts ≠ []) (huser : results.role = .user)
      (hanswers : List.Forall₂ Answers (callsOf reply.parts) results.parts)
      (hturns : ToolTurns turns) : ToolTurns (reply :: results :: turns)

theorem ChatState.history_resize {x : ChatState} {n : ℕ} (h : n ≤ x.history.length) :
    (x.resize n).history = x.history.take n := by
  simp only [resize]
  rw [Nat.sub_eq_zero_of_le h, List.replicate_zero, List.append_nil]

/-- How the rounds of a `send` leave the history: rolled back after an error, and with a last
turn of the model after an answer. -/
def RoundsPost (tools : Bool) (checkpoint : ℕ) (h h' : List Content) :
    MayThrow (Result GenerateResponse) → Prop
  | .ok (.error _) => h' = h.take checkpoint
  | .ok (.ok _) => ∃ turns last, ToolTurns turns ∧ h' = h ++ turns ++ [last] ∧
      last.role = .model ∧ (tools = true → callsOf last.parts = [])
  | .error _ => True

/-- One more round before the others. -/
theorem RoundsPost.cons {tools : Bool} {checkpoint : ℕ} {h h' : List Content}
    {reply results : Content} {r : MayThrow (Result GenerateResponse)}
    (hle : checkpoint ≤ h.length) (hmodel : reply.role = .model)
    (hcalls : callsOf reply.parts ≠ []) (huser : results.role = .user)
    (hanswers : List.Forall₂ Answers (callsOf reply.parts) results.parts)
    (hpost : RoundsPost tools checkpoint (h ++ [reply] ++ [results]) h' r) :
    RoundsPost tools checkpoint h h' r := by
  rcases r with x | (e | response)
  · trivial
  · have hh : h' = (h ++ [reply] ++ [results]).take checkpoint := hpost
    rw [List.append_assoc, List.take_append_of_le_length hle] at hh
    exact hh
  · obtain ⟨turns, last, hturns, hh, hlast⟩ := hpost
    refine ⟨reply :: results :: turns, last, .cons hmodel hcalls huser hanswers hturns, ?_, hlast⟩
    rw [hh]
    simp

namespace ChatSession
variable (s : ChatSession ω)

theorem wp_rollback (checkpoint : ℕ) (e : Error) (x : ChatState) (w : ω)
    (h : checkpoint ≤ x.history.length) :
    wp (rollback checkpoint e) (x, w) fun es s' r =>
      es = [] ∧ s'.1.history = x.history.take checkpoint ∧ r = .ok (.error e) := by
  simp only [rollback, setState, wp_bind, wp_modify, then_ok, wp_pure]
  exact ⟨rfl, ChatState.history_resize h, trivial⟩

/-- What has to be shown of one round, for each way it can go, so that `Q` holds of the
rounds from it on. -/
structure RoundRule (checkpoint : ℕ) (onChunk : Option (StreamCallback ω)) (left : ℕ)
    (x : ChatState) (w : ω)
    (Q : List Event → ChatState × ω → MayThrow (Result GenerateResponse) → Prop)
    (asked : Outcome Event Exn ω (Result GenerateResponse)) : Prop where
  thrown : ∀ {es w₁ t}, asked = ⟨es, w₁, .error t⟩ → Q es (x, w₁) (.error t)
  failed : ∀ {es w₁ e}, asked = ⟨es, w₁, .ok (.error e)⟩ →
    Q es (x.resize checkpoint, w₁) (.ok (.error e))
  empty : ∀ {es w₁ response}, asked = ⟨es, w₁, .ok (.ok response)⟩ → response.candidates = [] →
    Q es ((x.addUsage response.usage).resize checkpoint, w₁) (.ok (.error noCandidates))
  answered : ∀ {es w₁ response candidate others}, asked = ⟨es, w₁, .ok (.ok response)⟩ →
    response.candidates = candidate :: others →
    callsOf candidate.content.parts = [] ∨ s.tools = none →
    Q es ((x.addUsage response.usage).pushBack (replyTurn candidate), w₁) (.ok (.ok response))
  tools : ∀ {es w₁ response candidate others tools}, asked = ⟨es, w₁, .ok (.ok response)⟩ →
    response.candidates = candidate :: others → s.tools = some tools →
    callsOf candidate.content.parts ≠ [] →
    wp (s.runTools tools (callsOf candidate.content.parts)) w₁ fun es' w₂ r =>
      match r with
      | .error t =>
        Q (es ++ es') ((x.addUsage response.usage).pushBack (replyTurn candidate), w₂) (.error t)
      | .ok parts =>
        wp (s.rounds checkpoint onChunk left)
          (((x.addUsage response.usage).pushBack (replyTurn candidate)).pushBack
            { role := .user, parts }, w₂) fun es'' s' r => Q (es ++ (es' ++ es'')) s' r

theorem wp_rounds_succ {checkpoint : ℕ} {onChunk : Option (StreamCallback ω)} {left : ℕ}
    {x : ChatState} {w : ω}
    {Q : List Event → ChatState × ω → MayThrow (Result GenerateResponse) → Prop}
    (h : s.RoundRule checkpoint onChunk left x w Q (s.ask onChunk (s.buildRequest x.history) w)) :
    wp (s.rounds checkpoint onChunk (left + 1)) (x, w) Q := by
  simp only [rounds, wp_bind, wp_get, then_ok, wp_lift, List.nil_append]
  rw [wp_iff]
  rcases hasked : s.ask onChunk (s.buildRequest x.history) w with ⟨es, w₁, t | (e | response)⟩
  · exact h.thrown hasked
  · simp only [then_ok, rollback, setState, wp_bind, wp_modify, wp_pure, List.append_nil]
    exact h.failed hasked
  simp only [then_ok, setState, wp_bind, wp_modify]
  cases hcandidates : response.candidates with
  | nil =>
    simp only [rollback, setState, wp_bind, wp_modify, then_ok, wp_pure, List.append_nil]
    exact h.empty hasked hcandidates
  | cons candidate others =>
    have hcalls : response.functionCalls = callsOf candidate.content.parts := by
      simp only [GenerateResponse.functionCalls, hcandidates]
    have hanswered := h.answered hasked hcandidates
    have htools := fun tools => @h.tools _ _ _ _ _ tools hasked hcandidates
    rw [hcalls]
    generalize callsOf candidate.content.parts = calls at hanswered htools
    cases calls with
    | nil =>
      simp only [wp_bind, wp_modify, then_ok, wp_pure, List.append_nil]
      exact hanswered (Or.inl rfl)
    | cons call calls =>
      cases hs : s.tools with
      | none =>
        simp only [wp_bind, wp_modify, then_ok, wp_pure, List.append_nil]
        exact hanswered (Or.inr hs)
      | some tools =>
        simp only [wp_bind, wp_modify, then_ok, wp_lift]
        refine wp_mono (htools tools hs (by simp)) fun es' w₂ r hr => ?_
        cases r with
        | error t => simpa using hr
        | ok parts => simpa using hr

theorem wp_rounds (checkpoint : ℕ) (onChunk : Option (StreamCallback ω)) (left : ℕ)
    (x : ChatState) (w : ω) (hle : checkpoint ≤ x.history.length) :
    wp (s.rounds checkpoint onChunk left) (x, w) fun _ s' r =>
      RoundsPost s.tools.isSome checkpoint x.history s'.1.history r := by
  induction left generalizing x w with
  | zero =>
    refine wp_mono (wp_rollback checkpoint _ x w hle) fun es s' r h => ?_
    obtain ⟨-, hh, hr⟩ := h
    rw [hr]
    exact hh
  | succ left ih =>
    apply wp_rounds_succ
    constructor
    case thrown => exact fun _ => trivial
    case failed => exact fun _ => ChatState.history_resize hle
    case empty => exact fun _ _ => ChatState.history_resize hle
    case answered =>
      intro es w₁ response candidate others _ _ hlast
      refine ⟨[], replyTurn candidate, .nil, by simp [ChatState.pushBack, ChatState.addUsage], rfl,
        fun htools => hlast.resolve_right fun hnone => ?_⟩
      rw [hnone] at htools
      cases htools
    case tools =>
      intro es w₁ response candidate others tools _ _ htools hcalls
      refine wp_mono (s.wp_runTools tools _ w₁) fun es' w₂ r h => ?_
      obtain ⟨-, hparts⟩ := h
      cases r with
      | error t => trivial
      | ok parts =>
        refine wp_mono (ih _ w₂ ?_) fun es'' s' r hpost => ?_
        · simp only [ChatState.pushBack, ChatState.addUsage, List.length_append]
          omega
        · have hmodel : (replyTurn candidate).role = .model := rfl
          have huser : (Content.mk .user parts).role = .user := rfl
          exact RoundsPost.cons hle hmodel hcalls huser (hparts parts rfl).1 hpost

theorem wp_send (message : Bytes) (onChunk : Option (StreamCallback ω)) (x : ChatState) (w : ω) :
    wp (s.send message onChunk) (x, w) fun _ s' r =>
      RoundsPost s.tools.isSome x.history.length (x.history ++ [.user message]) s'.1.history r := by
  simp only [send, setState, wp_bind, wp_get, wp_modify, then_ok]
  exact s.wp_rounds _ onChunk _ _ w (by simp [ChatState.pushBack])

theorem events_ask (onChunk : Option (StreamCallback ω)) (request : GenerateRequest) (w : ω) :
    ∃ rest, (s.ask onChunk request w).events = .ask request :: rest :=
  events_bind (Prog.emit (Event.ask request)) _ w

theorem events_send (message : Bytes) (onChunk : Option (StreamCallback ω)) (x : ChatState)
    (w : ω) :
    (s.send message onChunk (x, w)).events =
      (s.rounds x.history.length onChunk (s.options.maxToolRounds + 1).toNat
        (x.pushBack (.user message), w)).events := by
  change [] ++ ([] ++ _) = _
  rfl

/-- The first request of a `send` carries the history and the message. -/
theorem send_asks (message : Bytes) (onChunk : Option (StreamCallback ω)) (x : ChatState)
    (w : ω) (request : GenerateRequest)
    (h : (asksOf (s.send message onChunk (x, w)).events).head? = some request) :
    request = s.buildRequest (x.history ++ [.user message]) := by
  rw [s.events_send] at h
  generalize (s.options.maxToolRounds + 1).toNat = left at h
  cases left with
  | zero => cases h
  | succ left =>
    have hround : ∃ rest, (s.rounds x.history.length onChunk (left + 1)
        (x.pushBack (.user message), w)).events =
          (s.ask onChunk (s.buildRequest (x.history ++ [.user message])) w).events ++ rest :=
      events_bind (Prog.lift (s.ask onChunk (s.buildRequest (x.history ++ [.user message])))) _
        (x.pushBack (.user message), w)
    obtain ⟨rest, hrest⟩ := hround
    obtain ⟨tail, htail⟩ := s.events_ask onChunk (s.buildRequest (x.history ++ [.user message])) w
    rw [hrest, htail] at h
    cases h
    rfl

/-- A `send` that returns an error leaves the history as it was, so the next one starts
from it. -/
theorem send_error_history (message : Bytes) (onChunk : Option (StreamCallback ω))
    (x : ChatState) (w : ω) (e : Error)
    (herror : (s.send message onChunk (x, w)).result = .ok (.error e)) :
    let x' := (s.send message onChunk (x, w)).state.1
    x'.history = x.history ∧
      ∀ (message' : Bytes) (onChunk' : Option (StreamCallback ω)) (w' : ω)
        (request : GenerateRequest),
        (asksOf (s.send message' onChunk' (x', w')).events).head? = some request →
        request.contents = x.history ++ [Content.user message'] := by
  have hpost := wp_iff.mp (s.wp_send message onChunk x w)
  rw [herror] at hpost
  have hhistory : (s.send message onChunk (x, w)).state.1.history = x.history := by
    have h : _ = (x.history ++ [Content.user message]).take x.history.length := hpost
    rw [h, List.take_left]
  refine ⟨hhistory, fun message' onChunk' w' request hrequest => ?_⟩
  rw [s.send_asks message' onChunk' _ w' request hrequest, hhistory]
  rfl

end ChatSession
/-- The second request fails, after a tool round. -/
theorem send_error_history_second_request :
    let s : ChatSession (Script Unit) :=
      .scripted (.bounded 8) (some [echoTool (ascii "f")]) none (.known [] (ascii "\x7b\x7d"))
    let x : ChatState := .pushBack (.pushBack .init (.user (ascii "hi")))
      { role := .model, parts := [.text (ascii "hello")] }
    let replies : ℕ → Result GenerateResponse := fun n =>
      if n = 0 then callReply (ascii "f") else .error (makeError .server (ascii "HTTP 500"))
    let x' := (s.send (ascii "again") none (x, replies, ())).state.1
    x'.history = x.history ∧
      ∀ (message' : Bytes) (onChunk' : Option (StreamCallback (Script Unit))) (w' : Script Unit)
        (request : GenerateRequest),
        (asksOf (s.send message' onChunk' (x', w')).events).head? = some request →
        request.contents = x.history ++ [Content.user message'] := by
  intro s x replies
  exact s.send_error_history (ascii "again") none x (replies, ())
    (makeError .server (ascii "HTTP 500")) rfl

end GeminiCpp
