import GeminiCpp.Chat.Send

/-! What happens when a handler throws: `invoke` contains exceptions that are derived from
`std::exception`, and lets other objects pass. Such an object leaves `send` in the middle of a tool
round, with a turn of the model that has calls at the end of the history. -/
namespace GeminiCpp
open Traced Traced.Prog

variable {ω : Type}

/-- An object with a string under `error`. -/
def CarriesError (response : Json) : Prop :=
  response.isObject ∧ ∃ message, response.find (ascii "error") = some (.str message)

/-- The response tells the model what the handler did. -/
def Reports (response : Json) : MayThrow (Result Json) → Prop
  | .ok (.ok value) =>
    if value.isObject then response = value else response = .obj [(ascii "result", value)]
  | .ok (.error _) => CarriesError response
  | .error _ => CarriesError response

theorem carriesError_errorJson (message : Bytes) : CarriesError (errorJson message) :=
  ⟨rfl, message, rfl⟩

theorem Reports.isObject {response : Json} {outcome : MayThrow (Result Json)}
    (h : Reports response outcome) : response.isObject := by
  rcases outcome with x | (e | value)
  · exact h.1
  · exact h.1
  · simp only [Reports] at h
    split_ifs at h with hvalue
    · rw [h]
      exact hvalue
    · rw [h]
      rfl

/-- Every outcome but an object that is not a `std::exception` becomes a response. -/
theorem exists_reports {outcome : MayThrow (Result Json)} (h : outcome ≠ .error .other) :
    ∃ response, handlerAnswer outcome = .ok response ∧ Reports response outcome := by
  rcases outcome with (what | _) | (e | value)
  · exact ⟨_, rfl, carriesError_errorJson _⟩
  · exact absurd rfl h
  · exact ⟨_, rfl, carriesError_errorJson _⟩
  · refine ⟨_, rfl, ?_⟩
    simp only [Reports]
    split_ifs <;> rfl

namespace ToolRegistry
variable (tools : ToolRegistry ω) (call : FunctionCall)

/-- The handler is the first one registered under the name. -/
def FirstUnder (name : Bytes) (handler : ToolHandler ω) : Prop :=
  ∃ before declaration after, tools = before ++ (declaration, handler) :: after ∧
    declaration.name = name ∧ ∀ tool ∈ before, tool.1.name ≠ name

variable {tools call} in
theorem handlerOf_eq_some_iff {name : Bytes} {handler : ToolHandler ω} :
    tools.handlerOf name = some handler ↔ tools.FirstUnder name handler := by
  simp only [handlerOf, Option.map_eq_some_iff, List.find?_eq_some_iff_append]
  constructor
  · intro h
    obtain ⟨tool, ⟨hname, before, after, htools, hbefore⟩, hhandler⟩ := h
    refine ⟨before, tool.1, after, ?_, by simpa using hname, by simpa using hbefore⟩
    rw [htools, ← hhandler]
  · intro h
    obtain ⟨before, declaration, after, htools, hname, hbefore⟩ := h
    exact ⟨(declaration, handler), ⟨by simpa using hname, before, after, htools,
      by simpa using hbefore⟩, rfl⟩

/-- The first handler under the name of the call runs once on its arguments, and nothing else
runs. -/
inductive Answered (w : ω) : List Event → ω → Json → Prop
  | unknown {response} (h : ∀ tool ∈ tools, tool.1.name ≠ call.name)
      (herror : CarriesError response) : Answered w [] w response
  | empty {response} (h : tools.FirstUnder call.name none) (herror : CarriesError response) :
      Answered w [] w response
  | ran {response handler} (h : tools.FirstUnder call.name (some handler))
      (hreports : Reports response (handler call.args w).1) :
      Answered w [.handler call.name call.args] (handler call.args w).2 response

/-- The call comes back with a response to it. -/
def Contained (w : ω) : Prop :=
  wp (tools.invoke call) w fun es w' r =>
    ∃ response, r = .ok { name := call.name, response, id := call.id } ∧ response.isObject ∧
      tools.Answered call w es w' response

/-- The handler of the call throws an object that is not derived from `std::exception`. -/
def ThrowsOther (w : ω) : Prop :=
  ∃ handler, tools.FirstUnder call.name (some handler) ∧ (handler call.args w).1 = .error .other

variable {tools call}

theorem contained_iff {w : ω} : tools.Contained call w ↔ ¬ tools.ThrowsOther call w := by
  rw [Contained, wp_iff]
  rcases hfirst : tools.handlerOf call.name with _ | (_ | handler)
  · have hnone : ∀ tool ∈ tools, tool.1.name ≠ call.name := by
      simpa [handlerOf] using hfirst
    rw [invoke_of_unknown hfirst]
    apply iff_of_true
    · exact ⟨_, rfl, rfl, .unknown hnone (carriesError_errorJson _)⟩
    · intro h
      obtain ⟨handler, hhandler, -⟩ := h
      rw [handlerOf_eq_some_iff.mpr hhandler] at hfirst
      cases hfirst
  · rw [invoke_of_empty hfirst]
    apply iff_of_true
    · exact ⟨_, rfl, rfl, .empty (handlerOf_eq_some_iff.mp hfirst) (carriesError_errorJson _)⟩
    · intro h
      obtain ⟨handler, hhandler, -⟩ := h
      rw [handlerOf_eq_some_iff.mpr hhandler] at hfirst
      cases hfirst
  · have hiff : tools.ThrowsOther call w ↔ (handler call.args w).1 = .error .other := by
      constructor
      · intro h
        obtain ⟨handler', hhandler, hthrows⟩ := h
        rw [handlerOf_eq_some_iff.mpr hhandler] at hfirst
        cases hfirst
        exact hthrows
      · exact fun h => ⟨handler, handlerOf_eq_some_iff.mp hfirst, h⟩
    rw [invoke_of_handler hfirst, hiff]
    constructor
    · intro h hother
      obtain ⟨response, hr, -⟩ := h
      rw [hother] at hr
      cases hr
    · intro h
      obtain ⟨response, hanswer, hreports⟩ := exists_reports h
      refine ⟨response, ?_, hreports.isObject, .ran (handlerOf_eq_some_iff.mp hfirst) hreports⟩
      rw [hanswer]
      rfl

end ToolRegistry

/-- A tool round leaves two turns. -/
theorem ToolTurns.even_length {turns : List Content} (h : ToolTurns turns) :
    turns.length % 2 = 0 := by
  induction h with
  | nil => rfl
  | cons _ _ _ _ _ ih =>
    simp only [List.length_cons]
    omega

/-- The history ends in a reply whose calls have not been answered. -/
def HalfWay (h h' : List Content) : Prop :=
  ∃ turns reply, ToolTurns turns ∧ reply.role = .model ∧ callsOf reply.parts ≠ [] ∧
    h' = h ++ turns ++ [reply]

theorem not_halfWay {h turns : List Content} (hturns : ToolTurns turns) :
    ¬ HalfWay h (h ++ turns) := by
  intro hhalf
  obtain ⟨turns', reply, hturns', -, -, heq⟩ := hhalf
  rw [List.append_assoc, List.append_cancel_left_eq] at heq
  have hlength := congrArg List.length heq
  have heven := hturns.even_length
  have heven' := hturns'.even_length
  simp only [List.length_append, List.length_singleton] at hlength
  omega

namespace ChatSession
variable (s : ChatSession ω)

/-- Nothing throws while a call is executed: its arguments can be printed, its handler contains
its exceptions, and the observer returns. -/
structure CallReturns (tools : ToolRegistry ω) (call : FunctionCall) (w : ω) : Prop where
  printed : call.args.wellEncoded
  contained : ¬ tools.ThrowsOther call w
  observed : ∀ {es w' result}, tools.invoke call w = ⟨es, w', .ok result⟩ →
    Completes (s.observe call result) w'

variable {s}

theorem runTool_completes_iff {tools : ToolRegistry ω} {call : FunctionCall} {w : ω} :
    Completes (s.runTool tools call) w ↔ s.CallReturns tools call w := by
  unfold runTool
  by_cases hprinted : call.args.wellEncoded
  · have hdump : (Prog.ofExcept (s.text.dump call.args) : Program ω Bytes) w =
        ⟨[], w, .ok (s.text.render call.args)⟩ := by
      simp only [Prog.ofExcept, JsonText.dump, if_pos hprinted]
    rw [completes_bind_of_ok hdump]
    rcases hinvoke : tools.invoke call w with ⟨es, w', x | result⟩
    · apply iff_of_false (not_completes_bind_of_error hinvoke)
      intro h
      obtain ⟨response, hr, -⟩ := wp_iff.mp (ToolRegistry.contained_iff.mpr h.contained)
      rw [hinvoke] at hr
      cases hr
    · have hemit : (Prog.emit (Event.toolResult call result) : Program ω Unit) w' =
          ⟨[.toolResult call result], w', .ok ()⟩ := rfl
      rw [completes_bind_of_ok hinvoke, completes_bind_of_ok hemit, bind_pure_comp, completes_map]
      constructor
      · intro hobserved
        refine ⟨hprinted, ?_, ?_⟩
        · intro hthrows
          obtain ⟨handler, hhandler, hother⟩ := hthrows
          rw [ToolRegistry.invoke_of_handler (ToolRegistry.handlerOf_eq_some_iff.mpr hhandler),
            hother] at hinvoke
          cases hinvoke
        · intro es' w'' result' h
          rw [hinvoke] at h
          cases h
          exact hobserved
      · exact fun h => h.observed hinvoke
  · have hdump : (Prog.ofExcept (s.text.dump call.args) : Program ω Bytes) w =
        ⟨[], w, .error Json.typeError316⟩ := by
      simp only [Prog.ofExcept, JsonText.dump, if_neg hprinted]
    apply iff_of_false (not_completes_bind_of_error hdump)
    exact fun h => hprinted h.printed

theorem runTools_completes_iff {tools : ToolRegistry ω} {calls : List FunctionCall} {w : ω} :
    Completes (s.runTools tools calls) w ↔
      ∀ call w', Visits (s.runTool tools) calls w call w' → s.CallReturns tools call w' := by
  have hemit : (Prog.emit (Event.toolRound calls) : Program ω Unit) w =
      ⟨[.toolRound calls], w, .ok ()⟩ := rfl
  unfold runTools
  rw [completes_bind_of_ok hemit, mapM_completes_iff]
  simp only [runTool_completes_iff]

variable (s)

/-- The calls that the rounds of a `send` execute, each with the world it is executed in. -/
inductive Executes (onChunk : Option (StreamCallback ω)) :
    ℕ → ChatState → ω → ToolRegistry ω → FunctionCall → ω → Prop
  | here {left x w es w₁ response candidate others tools call w'}
      (hasked : s.ask onChunk (s.buildRequest x.history) w = ⟨es, w₁, .ok (.ok response)⟩)
      (hcandidates : response.candidates = candidate :: others) (htools : s.tools = some tools)
      (hvisits : Visits (s.runTool tools) (callsOf candidate.content.parts) w₁ call w') :
      Executes onChunk (left + 1) x w tools call w'
  | later {left x w es w₁ response candidate others tools es' w₂ parts tools' call w'}
      (hasked : s.ask onChunk (s.buildRequest x.history) w = ⟨es, w₁, .ok (.ok response)⟩)
      (hcandidates : response.candidates = candidate :: others) (htools : s.tools = some tools)
      (hcalls : callsOf candidate.content.parts ≠ [])
      (hrun : s.runTools tools (callsOf candidate.content.parts) w₁ = ⟨es', w₂, .ok parts⟩)
      (h : Executes onChunk left
        (((x.addUsage response.usage).pushBack (replyTurn candidate)).pushBack
          { role := .user, parts }) w₂ tools' call w') :
      Executes onChunk (left + 1) x w tools' call w'

/-- Every call that is executed returns. -/
def AllReturn (onChunk : Option (StreamCallback ω)) (left : ℕ) (x : ChatState) (w : ω) : Prop :=
  ∀ tools call w', s.Executes onChunk left x w tools call w' → s.CallReturns tools call w'

/-- Where the rounds stop: between two of them, or in the middle of the one with a call that does
not return. -/
def StopsAt (allReturn : Prop) (h h' : List Content) : MayThrow (Result GenerateResponse) → Prop
  | .ok _ => allReturn
  | .error _ => (allReturn ∧ ∃ turns, ToolTurns turns ∧ h' = h ++ turns) ∨
      (¬ allReturn ∧ HalfWay h h')

variable {s}

theorem allReturn_of_failed {onChunk : Option (StreamCallback ω)} {left : ℕ} {x : ChatState}
    {w : ω} (h : ∀ es w₁ response candidate others,
      s.ask onChunk (s.buildRequest x.history) w = ⟨es, w₁, .ok (.ok response)⟩ →
      response.candidates = candidate :: others →
      callsOf candidate.content.parts = [] ∨ s.tools = none) :
    s.AllReturn onChunk (left + 1) x w := by
  intro tools call w' hexecutes
  cases hexecutes with
  | here hasked hcandidates htools hvisits =>
    rcases h _ _ _ _ _ hasked hcandidates with hcalls | hnone
    · rw [hcalls] at hvisits
      cases hvisits
    · rw [hnone] at htools
      cases htools
  | later hasked hcandidates htools hcalls hrun hrest =>
    rcases h _ _ _ _ _ hasked hcandidates with hnocalls | hnone
    · exact absurd hnocalls hcalls
    · rw [hnone] at htools
      cases htools

/-- What is executed in a round that asks for tools, or after it. -/
theorem Executes.cases_of_asked {onChunk : Option (StreamCallback ω)} {left : ℕ} {x : ChatState}
    {w w₁ w' : ω} {es : List Event} {response : GenerateResponse} {candidate : Candidate}
    {others : List Candidate} {tools tools' : ToolRegistry ω} {call : FunctionCall}
    (hasked : s.ask onChunk (s.buildRequest x.history) w = ⟨es, w₁, .ok (.ok response)⟩)
    (hcandidates : response.candidates = candidate :: others) (htools : s.tools = some tools)
    (h : s.Executes onChunk (left + 1) x w tools' call w') :
    (tools' = tools ∧ Visits (s.runTool tools) (callsOf candidate.content.parts) w₁ call w') ∨
      ∃ es' w₂ parts,
        s.runTools tools (callsOf candidate.content.parts) w₁ = ⟨es', w₂, .ok parts⟩ ∧
        s.Executes onChunk left
          (((x.addUsage response.usage).pushBack (replyTurn candidate)).pushBack
            { role := .user, parts }) w₂ tools' call w' := by
  cases h with
  | here hasked' hcandidates' htools' hvisits =>
    rw [hasked] at hasked'
    cases hasked'
    rw [hcandidates] at hcandidates'
    cases hcandidates'
    rw [htools] at htools'
    cases htools'
    exact .inl ⟨rfl, hvisits⟩
  | later hasked' hcandidates' htools' _ hrun hrest =>
    rw [hasked] at hasked'
    cases hasked'
    rw [hcandidates] at hcandidates'
    cases hcandidates'
    rw [htools] at htools'
    cases htools'
    exact .inr ⟨_, _, _, hrun, hrest⟩

/-- After a round whose calls return, the rounds that are left decide. -/
theorem allReturn_succ {onChunk : Option (StreamCallback ω)} {left : ℕ} {x : ChatState} {w : ω}
    {es es' : List Event} {w₁ w₂ : ω} {response : GenerateResponse} {candidate : Candidate}
    {others : List Candidate} {tools : ToolRegistry ω} {parts : List Part}
    (hasked : s.ask onChunk (s.buildRequest x.history) w = ⟨es, w₁, .ok (.ok response)⟩)
    (hcandidates : response.candidates = candidate :: others) (htools : s.tools = some tools)
    (hcalls : callsOf candidate.content.parts ≠ [])
    (hrun : s.runTools tools (callsOf candidate.content.parts) w₁ = ⟨es', w₂, .ok parts⟩) :
    s.AllReturn onChunk (left + 1) x w ↔
      s.AllReturn onChunk left
        (((x.addUsage response.usage).pushBack (replyTurn candidate)).pushBack
          { role := .user, parts }) w₂ := by
  constructor
  · intro h tools' call w' hexecutes
    exact h tools' call w' (.later hasked hcandidates htools hcalls hrun hexecutes)
  · intro h tools' call w' hexecutes
    rcases hexecutes.cases_of_asked hasked hcandidates htools with
      ⟨rfl, hvisits⟩ | ⟨es'', w₂', parts', hrun', hrest⟩
    · exact runTools_completes_iff.mp (completes_of_ok hrun) call w' hvisits
    · rw [hrun] at hrun'
      cases hrun'
      exact h tools' call w' hrest

/-- One more round before the others. -/
theorem StopsAt.cons {allReturn : Prop} {h h' : List Content} {reply results : Content}
    {r : MayThrow (Result GenerateResponse)} (hmodel : reply.role = .model)
    (hcalls : callsOf reply.parts ≠ []) (huser : results.role = .user)
    (hanswers : List.Forall₂ Answers (callsOf reply.parts) results.parts)
    (hstops : StopsAt allReturn (h ++ [reply] ++ [results]) h' r) : StopsAt allReturn h h' r := by
  cases r with
  | ok _ => exact hstops
  | error x =>
    rcases hstops with ⟨hall, turns, hturns, hh⟩ | ⟨hnot, turns, last, hturns, hrole, hlast, hh⟩
    · refine Or.inl ⟨hall, reply :: results :: turns, .cons hmodel hcalls huser hanswers hturns, ?_⟩
      rw [hh]
      simp
    · refine Or.inr ⟨hnot, reply :: results :: turns, last,
        .cons hmodel hcalls huser hanswers hturns, hrole, hlast, ?_⟩
      rw [hh]
      simp

theorem wp_rounds_stopsAt (checkpoint : ℕ) (onChunk : Option (StreamCallback ω)) (left : ℕ)
    (x : ChatState) (w : ω) :
    wp (s.rounds checkpoint onChunk left) (x, w) fun _ s' r =>
      StopsAt (s.AllReturn onChunk left x w) x.history s'.1.history r := by
  induction left generalizing x w with
  | zero =>
    simp only [rounds, rollback, setState, wp_bind, wp_modify, then_ok, wp_pure]
    intro tools call w' hexecutes
    cases hexecutes
  | succ left ih =>
    apply wp_rounds_succ
    constructor
    case thrown =>
      intro es w₁ t hasked
      have hall : s.AllReturn onChunk (left + 1) x w := by
        refine allReturn_of_failed fun es' w₁' response candidate others hasked' _ => ?_
        rw [hasked] at hasked'
        cases hasked'
      exact Or.inl ⟨hall, [], .nil, (List.append_nil _).symm⟩
    case failed =>
      intro es w₁ e hasked
      refine allReturn_of_failed fun es' w₁' response candidate others hasked' _ => ?_
      rw [hasked] at hasked'
      cases hasked'
    case empty =>
      intro es w₁ response hasked hempty
      refine allReturn_of_failed fun es' w₁' response' candidate others hasked' hcandidates => ?_
      rw [hasked] at hasked'
      cases hasked'
      rw [hempty] at hcandidates
      cases hcandidates
    case answered =>
      intro es w₁ response candidate others hasked hcandidates hlast
      refine allReturn_of_failed fun es' w₁' response' candidate' others' hasked' hcandidates' => ?_
      rw [hasked] at hasked'
      cases hasked'
      rw [hcandidates] at hcandidates'
      cases hcandidates'
      exact hlast
    case tools =>
      intro es w₁ response candidate others tools hasked hcandidates htools hcalls
      have hmodel : (replyTurn candidate).role = .model := rfl
      have hanswers := wp_iff.mp (s.wp_runTools tools (callsOf candidate.content.parts) w₁)
      rw [wp_iff]
      rcases hrun : s.runTools tools (callsOf candidate.content.parts) w₁ with ⟨es', w₂, t | parts⟩
      · have hnot : ¬ s.AllReturn onChunk (left + 1) x w := by
          intro hall
          apply not_completes_of_error hrun
          apply runTools_completes_iff.mpr
          intro call w' hvisits
          exact hall tools call w' (.here hasked hcandidates htools hvisits)
        refine Or.inr ⟨hnot, [], replyTurn candidate, .nil, hmodel, hcalls, ?_⟩
        rw [List.append_nil]
        rfl
      · rw [hrun] at hanswers
        have huser : (Content.mk .user parts).role = .user := rfl
        refine wp_mono (ih _ w₂) fun es'' s' r hstops => ?_
        rw [allReturn_succ hasked hcandidates htools hcalls hrun]
        exact hstops.cons hmodel hcalls huser (hanswers.2 parts rfl).1

variable (s)

/-- A `send` that ends with an exception inside a tool round, with the message and the turns so
far still in the history. -/
def LeftHalfWay (message : Bytes) (onChunk : Option (StreamCallback ω)) (x : ChatState) (w : ω) :
    Prop :=
  wp (s.send message onChunk) (x, w) fun _ s' r =>
    (∃ t, r = .error t) ∧ HalfWay (x.history ++ [.user message]) s'.1.history

theorem not_leftHalfWay_iff (message : Bytes) (onChunk : Option (StreamCallback ω)) (x : ChatState)
    (w : ω) :
    ¬ s.LeftHalfWay message onChunk x w ↔
      s.AllReturn onChunk (s.options.maxToolRounds + 1).toNat (x.pushBack (.user message)) w := by
  have hstops := s.wp_rounds_stopsAt x.history.length onChunk (s.options.maxToolRounds + 1).toNat
    (x.pushBack (.user message)) w
  unfold LeftHalfWay
  simp only [send, setState, wp_bind, wp_get, wp_modify, then_ok]
  rw [wp_iff] at hstops ⊢
  generalize s.rounds x.history.length onChunk (s.options.maxToolRounds + 1).toNat
    (x.pushBack (.user message), w) = run at hstops ⊢
  obtain ⟨es, s', t | r⟩ := run
  · rcases hstops with ⟨hall, turns, hturns, hh⟩ | ⟨hnot, hhalf⟩
    · apply iff_of_true _ hall
      intro h
      apply not_halfWay hturns
      rw [← hh]
      exact h.2
    · exact iff_of_false (fun h => h ⟨⟨t, rfl⟩, hhalf⟩) hnot
  · apply iff_of_true _ hstops
    intro h
    obtain ⟨⟨t, ht⟩, -⟩ := h
    cases ht

/-- A call is answered, and no `send` is left in a tool round, exactly when no handler throws an
object that is not a `std::exception`; in a tool round, the text of the arguments and the observer
may throw too. -/
theorem handlers_contained_iff (tools : ToolRegistry ω) (call : FunctionCall) (message : Bytes)
    (onChunk : Option (StreamCallback ω)) (x : ChatState) (w : ω) :
    (tools.Contained call w ↔ ¬ tools.ThrowsOther call w) ∧
      (¬ s.LeftHalfWay message onChunk x w ↔
        s.AllReturn onChunk (s.options.maxToolRounds + 1).toNat (x.pushBack (.user message)) w) :=
  ⟨ToolRegistry.contained_iff, s.not_leftHalfWay_iff message onChunk x w⟩

/-- A tool that does `throw 1`. -/
theorem handlers_contained_other :
    let tool : FunctionDeclaration × ToolHandler Unit :=
      ({ name := ascii "f", description := [], parameters := .null },
        some fun _ w => (.error .other, w))
    let s : ChatSession (Script Unit) :=
      .scripted (.bounded 8) (some [tool]) none (.known [] (ascii "\x7b\x7d"))
    ¬ ToolRegistry.Contained [tool] { name := ascii "f", args := .obj [], id := [] } () ∧
      s.LeftHalfWay (ascii "hi") none .init (fun _ => callReply (ascii "f"), ()) := by
  intro tool s
  constructor
  · intro h
    obtain ⟨response, hr, -⟩ := h
    cases hr
  · exact ⟨⟨.other, rfl⟩, [], _, .nil, rfl, by decide, rfl⟩

end ChatSession
end GeminiCpp
