import GeminiCpp.Chat.Send

/-! When the tool rounds of a `send` stay within their bound. The replies of the model are a
script, so what the model does is an input. -/
namespace GeminiCpp
open Traced Traced.Prog

variable {ω : Type}

def toolRounds (es : List Event) : ℕ := es.countP Event.isToolRound

/-- After a tool round the results of its calls are sent in the next request. -/
def Followed (calls : List FunctionCall) (es : List Event) : Prop :=
  ∃ during request rest, es = during ++ .ask request :: rest ∧ (∀ e ∈ during, e.ofTool) ∧
    List.Forall₂ Answers calls (resultParts during) ∧
    request.contents.getLast? = some { role := .user, parts := resultParts during }

/-- Every tool round is followed by a request with its results. -/
def ResultsSent : List Event → Prop
  | [] => True
  | .toolRound calls :: es => Followed calls es ∧ ResultsSent es
  | _ :: es => ResultsSent es

/-- The bound on tool rounds holds, and costs no results. -/
structure ToolRoundsBounded (maxToolRounds : ℤ) (es : List Event) : Prop where
  bounded : (toolRounds es : ℤ) ≤ maxToolRounds
  sent : ResultsSent es

theorem Event.ofTool.not_isToolRound {e : Event} (h : e.ofTool) : e.isToolRound = false := by
  cases e <;> first | rfl | exact h.elim

theorem toolRounds_append (es es' : List Event) :
    toolRounds (es ++ es') = toolRounds es + toolRounds es' := List.countP_append ..

theorem toolRounds_of_ofTool {es : List Event} (h : ∀ e ∈ es, e.ofTool) : toolRounds es = 0 :=
  List.countP_eq_zero.mpr fun e he => by rw [(h e he).not_isToolRound]; exact Bool.false_ne_true

theorem resultsSent_append {es es' : List Event} (h : ∀ e ∈ es, e.ofTool) :
    ResultsSent (es ++ es') ↔ ResultsSent es' := by
  induction es with
  | nil => rfl
  | cons e es ih =>
    have he : e.ofTool := h e (List.mem_cons_self ..)
    have hes := ih fun e he => h e (List.mem_cons_of_mem _ he)
    cases e <;> first | exact hes | exact he.elim

/-- Without a request there is nothing that follows a tool round. -/
theorem not_followed {calls : List FunctionCall} {es : List Event} (h : ∀ e ∈ es, e.ofTool) :
    ¬ Followed calls es := by
  intro h
  obtain ⟨during, request, rest, hes, -⟩ := h
  have hask : Event.ask request ∈ es := by
    rw [hes]
    exact List.mem_append_right _ (List.mem_cons_self ..)
  exact h _ hask

/-- The calls of a reply. -/
def requestedCalls : Result GenerateResponse → List FunctionCall
  | .ok response => response.functionCalls
  | .error _ => []

namespace ChatSession
variable (s : ChatSession (Script ω))

/-- The world after the calls of the next reply, if they all return. -/
def afterRound (tools : ToolRegistry (Script ω)) (w : Script ω) : Option (Script ω) :=
  match s.runTools tools (requestedCalls (w.1 0)) (fun n => w.1 (n + 1), w.2) with
  | ⟨_, w', .ok _⟩ => some w'
  | ⟨_, _, .error _⟩ => none

/-- The world after the calls of `k` replies, if they all return. -/
def worldAt (tools : ToolRegistry (Script ω)) : ℕ → Script ω → Option (Script ω)
  | 0, w => some w
  | k + 1, w => (s.afterRound tools w).bind (worldAt tools k)

/-- One of the next `left` replies has no calls, and the calls before it return. -/
def Settles (tools : ToolRegistry (Script ω)) (left : ℕ) (w : Script ω) : Prop :=
  ∃ k < left, ∃ w', s.worldAt tools k w = some w' ∧ requestedCalls (w'.1 0) = []

variable {s} {tools : ToolRegistry (Script ω)}

theorem settles_of_no_calls {left : ℕ} {w : Script ω} (h : requestedCalls (w.1 0) = []) :
    s.Settles tools (left + 1) w := ⟨0, by omega, w, rfl, h⟩

theorem settles_succ {left : ℕ} {w : Script ω} (h : requestedCalls (w.1 0) ≠ []) :
    s.Settles tools (left + 1) w ↔
      ∃ w', s.afterRound tools w = some w' ∧ s.Settles tools left w' := by
  constructor
  · intro ⟨k, hk, w', hw', hcalls⟩
    cases k with
    | zero =>
      cases hw'
      exact absurd hcalls h
    | succ k =>
      obtain ⟨w₁, hw₁, hw'⟩ := Option.bind_eq_some_iff.mp hw'
      exact ⟨w₁, hw₁, k, by omega, w', hw', hcalls⟩
  · intro ⟨w₁, hw₁, k, hk, w', hw', hcalls⟩
    exact ⟨k + 1, by omega, w', Option.bind_eq_some_iff.mpr ⟨w₁, hw₁, hw'⟩, hcalls⟩

variable (s)

theorem ask_scripted (hs : s.client = .scripted) (onChunk : Option (StreamCallback (Script ω)))
    (request : GenerateRequest) (w : Script ω) :
    s.ask onChunk request w = ⟨[.ask request], (fun n => w.1 (n + 1), w.2), .ok (w.1 0)⟩ := by
  unfold ask
  rw [hs]
  cases onChunk <;> rfl

theorem followed_of_ofTool {during rest : List Event} {calls : List FunctionCall}
    {request : GenerateRequest} (h : ∀ e ∈ during, e.ofTool)
    (hanswers : List.Forall₂ Answers calls (resultParts during))
    (hlast : request.contents.getLast? = some { role := .user, parts := resultParts during }) :
    Followed calls (during ++ .ask request :: rest) :=
  ⟨during, request, rest, rfl, h, hanswers, hlast⟩

/-- What the rounds show when `left + 1` of them are to go. -/
structure RoundsShown (tools : ToolRegistry (Script ω)) (left : ℕ) (x : ChatState)
    (w : Script ω) (es : List Event) : Prop where
  first : ∃ rest, es = .ask (s.buildRequest x.history) :: rest
  rounds : toolRounds es ≤ left + 1
  settled : s.Settles tools (left + 1) w → toolRounds es ≤ left ∧ ResultsSent es
  unsettled : ¬ s.Settles tools (left + 1) w → ¬ ResultsSent es

variable {s}

/-- A round whose reply has no calls is the last one. -/
theorem RoundsShown.of_no_calls {left : ℕ} {x : ChatState} {w : Script ω}
    (h : requestedCalls (w.1 0) = []) :
    s.RoundsShown tools left x w [.ask (s.buildRequest x.history)] where
  first := ⟨[], rfl⟩
  rounds := by simp [toolRounds, Event.isToolRound]
  settled _ := ⟨by simp [toolRounds, Event.isToolRound], trivial⟩
  unsettled hn := absurd (settles_of_no_calls h) hn

/-- A round with calls, and then the events `after` of what follows it. -/
theorem RoundsShown.of_calls {left : ℕ} {x : ChatState} {w : Script ω} {during after : List Event}
    (hcalls : requestedCalls (w.1 0) ≠ []) (hduring : ∀ e ∈ during, e.ofTool)
    (hrounds : toolRounds after ≤ left)
    (hsettled : ∀ w', s.afterRound tools w = some w' → s.Settles tools left w' →
      toolRounds after < left ∧ ResultsSent after ∧
        Followed (requestedCalls (w.1 0)) (during ++ after))
    (hunsettled : (∀ w', s.afterRound tools w = some w' → ¬ s.Settles tools left w') →
      ¬ (Followed (requestedCalls (w.1 0)) (during ++ after) ∧ ResultsSent after)) :
    s.RoundsShown tools left x w (.ask (s.buildRequest x.history) ::
      .toolRound (requestedCalls (w.1 0)) :: (during ++ after)) := by
  have hcount : ∀ (request : GenerateRequest) (calls : List FunctionCall) (es : List Event),
      toolRounds (.ask request :: .toolRound calls :: es) = toolRounds es + 1 := by
    intro request calls es
    simp only [toolRounds, List.countP_cons]
    rfl
  have hrounds' := toolRounds_append during after
  rw [toolRounds_of_ofTool hduring, Nat.zero_add] at hrounds'
  have hsent : ResultsSent (.ask (s.buildRequest x.history) ::
      .toolRound (requestedCalls (w.1 0)) :: (during ++ after)) ↔
        Followed (requestedCalls (w.1 0)) (during ++ after) ∧ ResultsSent after :=
    and_congr Iff.rfl (resultsSent_append hduring)
  constructor
  case first => exact ⟨_, rfl⟩
  case rounds =>
    rw [hcount]
    omega
  case settled =>
    intro h
    obtain ⟨w', hw', hs⟩ := (settles_succ hcalls).mp h
    obtain ⟨hlt, hafter, hfollowed⟩ := hsettled w' hw' hs
    refine ⟨?_, hsent.mpr ⟨hfollowed, hafter⟩⟩
    rw [hcount]
    omega
  case unsettled =>
    intro h
    rw [hsent]
    exact hunsettled fun w' hw' hs => h ((settles_succ hcalls).mpr ⟨w', hw', hs⟩)

variable (s)

/-- What the remaining rounds show, if there are any. -/
def RestShown (tools : ToolRegistry (Script ω)) (x : ChatState) (w : Script ω) (es : List Event) :
    ℕ → Prop
  | 0 => es = []
  | left + 1 => s.RoundsShown tools left x w es

variable {s}

/-- A round in which a call throws is the last one. -/
theorem RoundsShown.of_exception {left : ℕ} {x : ChatState} {w : Script ω} {during : List Event}
    (hcalls : requestedCalls (w.1 0) ≠ []) (hduring : ∀ e ∈ during, e.ofTool)
    (hafter : s.afterRound tools w = none) :
    s.RoundsShown tools left x w (.ask (s.buildRequest x.history) ::
      .toolRound (requestedCalls (w.1 0)) :: during) := by
  rw [← List.append_nil during]
  apply RoundsShown.of_calls hcalls hduring (Nat.zero_le left)
  · intro w' hw'
    rw [hafter] at hw'
    cases hw'
  · intro _ h
    rw [List.append_nil] at h
    exact not_followed hduring h.1

/-- A round whose calls all return sends their results with the request of the next one. -/
theorem RoundsShown.of_rest {left : ℕ} {x x' : ChatState} {w w' : Script ω}
    {during after : List Event} (hcalls : requestedCalls (w.1 0) ≠ [])
    (hduring : ∀ e ∈ during, e.ofTool) (hafter : s.afterRound tools w = some w')
    (hanswers : List.Forall₂ Answers (requestedCalls (w.1 0)) (resultParts during))
    (hlast : (s.buildRequest x'.history).contents.getLast? =
      some { role := .user, parts := resultParts during })
    (hrest : s.RestShown tools x' w' after left) :
    s.RoundsShown tools left x w (.ask (s.buildRequest x.history) ::
      .toolRound (requestedCalls (w.1 0)) :: (during ++ after)) := by
  cases left with
  | zero =>
    obtain rfl : after = [] := hrest
    apply RoundsShown.of_calls hcalls hduring (Nat.le_refl 0)
    · intro w'' hw'' hsettles
      obtain ⟨k, hk, -⟩ := hsettles
      omega
    · intro _ h
      rw [List.append_nil] at h
      exact not_followed hduring h.1
  | succ left =>
    have hshown : s.RoundsShown tools left x' w' after := hrest
    apply RoundsShown.of_calls hcalls hduring hshown.rounds
    · intro w'' hw'' hsettles
      obtain rfl : w' = w'' := Option.some.inj (hafter.symm.trans hw'')
      obtain ⟨hlt, hsent⟩ := hshown.settled hsettles
      refine ⟨by omega, hsent, ?_⟩
      obtain ⟨rest, rfl⟩ := hshown.first
      exact followed_of_ofTool hduring hanswers hlast
    · exact fun hn h => hshown.unsettled (hn w' hafter) h.2

/-- One round, before rounds that show what they should. -/
theorem wp_round_scripted (hs : s.client = .scripted) (htools : s.tools = some tools)
    {checkpoint : ℕ} {onChunk : Option (StreamCallback (Script ω))} {left : ℕ}
    (hrest : ∀ x w, wp (s.rounds checkpoint onChunk left) (x, w) fun es _ _ =>
      s.RestShown tools x w es left)
    (x : ChatState) (w : Script ω) :
    wp (s.rounds checkpoint onChunk (left + 1)) (x, w) fun es _ _ =>
      s.RoundsShown tools left x w es := by
  have next : ∀ {es w₁ r}, s.ask onChunk (s.buildRequest x.history) w = ⟨es, w₁, .ok r⟩ →
      es = [.ask (s.buildRequest x.history)] ∧ w₁ = (fun n => w.1 (n + 1), w.2) ∧ w.1 0 = r := by
    intro es w₁ r h
    rw [s.ask_scripted hs] at h
    injection h with hes hw hr
    injection hr with hr
    exact ⟨hes.symm, hw.symm, hr⟩
  apply wp_rounds_succ
  constructor
  case thrown =>
    intro es w₁ t h
    rw [s.ask_scripted hs] at h
    cases h
  case failed =>
    intro es w₁ e h
    obtain ⟨rfl, rfl, hr⟩ := next h
    exact .of_no_calls (by rw [hr]; rfl)
  case empty =>
    intro es w₁ response h hcandidates
    obtain ⟨rfl, rfl, hr⟩ := next h
    refine .of_no_calls ?_
    rw [hr]
    simp only [requestedCalls, GenerateResponse.functionCalls, hcandidates]
  case answered =>
    intro es w₁ response candidate others h hcandidates hlast
    obtain ⟨rfl, rfl, hr⟩ := next h
    refine .of_no_calls ?_
    rw [hr]
    simp only [requestedCalls, GenerateResponse.functionCalls, hcandidates]
    exact hlast.resolve_right (by rw [htools]; exact Option.some_ne_none tools)
  case tools =>
    intro es w₁ response candidate others tools' h hcandidates htools' hcalls
    obtain ⟨rfl, rfl, hr⟩ := next h
    obtain rfl : tools = tools' := Option.some.inj (htools.symm.trans htools')
    have hrequested : requestedCalls (w.1 0) = callsOf candidate.content.parts := by
      rw [hr]
      simp only [requestedCalls, GenerateResponse.functionCalls, hcandidates]
    rw [← hrequested] at hcalls ⊢
    have hrun := wp_iff.mp (s.wp_runTools tools (requestedCalls (w.1 0))
      (fun n => w.1 (n + 1), w.2))
    have hafter : s.afterRound tools w =
        match s.runTools tools (requestedCalls (w.1 0)) (fun n => w.1 (n + 1), w.2) with
        | ⟨_, w', .ok _⟩ => some w'
        | ⟨_, _, .error _⟩ => none := rfl
    rw [wp_iff]
    generalize s.runTools tools (requestedCalls (w.1 0)) (fun n => w.1 (n + 1), w.2) = run at *
    obtain ⟨es', w₂, r⟩ := run
    obtain ⟨⟨during, rfl, hduring⟩, hparts⟩ := hrun
    cases r with
    | error t => exact .of_exception hcalls hduring hafter
    | ok parts =>
      refine wp_mono (hrest _ w₂) fun es'' s' r hshown => ?_
      obtain ⟨hanswers, hresults⟩ := hparts parts rfl
      have hduringParts : resultParts during = parts := hresults
      rw [← hduringParts] at hanswers
      refine RoundsShown.of_rest hcalls hduring hafter hanswers ?_ hshown
      rw [hduringParts]
      exact List.getLast?_concat

theorem wp_rounds_scripted (hs : s.client = .scripted) (htools : s.tools = some tools)
    (checkpoint : ℕ) (onChunk : Option (StreamCallback (Script ω))) (left : ℕ) (x : ChatState)
    (w : Script ω) :
    wp (s.rounds checkpoint onChunk left) (x, w) fun es _ _ => s.RestShown tools x w es left := by
  induction left generalizing x w with
  | zero =>
    simp only [rounds, rollback, setState, wp_bind, wp_modify, then_ok, wp_pure]
    rfl
  | succ left ih => exact wp_round_scripted hs htools ih x w

/-- Without a registry there are no tool rounds. -/
theorem wp_rounds_no_tools (hs : s.client = .scripted) (htools : s.tools = none) (checkpoint : ℕ)
    (onChunk : Option (StreamCallback (Script ω))) (left : ℕ) (x : ChatState) (w : Script ω) :
    wp (s.rounds checkpoint onChunk left) (x, w) fun es _ _ =>
      toolRounds es = 0 ∧ ResultsSent es := by
  cases left with
  | zero =>
    simp only [rounds, rollback, setState, wp_bind, wp_modify, then_ok, wp_pure]
    exact ⟨rfl, trivial⟩
  | succ left =>
    have asked : ∀ {es w₁ r}, s.ask onChunk (s.buildRequest x.history) w = ⟨es, w₁, r⟩ →
        toolRounds es = 0 ∧ ResultsSent es := by
      intro es w₁ r h
      rw [s.ask_scripted hs] at h
      injection h with hes
      rw [← hes]
      exact ⟨rfl, trivial⟩
    apply wp_rounds_succ
    constructor
    case thrown => exact fun h => asked h
    case failed => exact fun h => asked h
    case empty => exact fun h _ => asked h
    case answered => exact fun h _ _ => asked h
    case tools =>
      intro es w₁ response candidate others tools _ _ h
      rw [htools] at h
      cases h

end ChatSession

theorem ToolRegistry.handlerOf_besideScript (tools : ToolRegistry ω) (name : Bytes) :
    tools.besideScript.handlerOf name =
      (tools.handlerOf name).map ToolHandler.besideScript := by
  unfold besideScript handlerOf
  rw [List.find?_map, Option.map_map, Option.map_map]
  rfl

theorem ToolRegistry.wp_invoke_besideScript (tools : ToolRegistry ω) (call : FunctionCall)
    (w : Script ω) :
    wp (tools.besideScript.invoke call) w fun _ w' _ => w'.1 = w.1 := by
  have hmap := handlerOf_besideScript tools call.name
  rw [wp_iff]
  rcases hfirst : tools.handlerOf call.name with _ | (_ | handler)
  · rw [hfirst] at hmap
    rw [invoke_of_unknown hmap]
  · rw [hfirst] at hmap
    rw [invoke_of_empty hmap]
  · rw [hfirst] at hmap
    rw [invoke_of_handler hmap]

namespace ChatSession
variable (options : ChatOptions) (tools : ToolRegistry ω) (toolObserver : Option (ToolObserver ω))
  (text : JsonText)

theorem wp_runTool_script (call : FunctionCall) (w : Script ω) :
    wp ((scripted options (some tools) toolObserver text).runTool tools.besideScript call) w
      fun _ w' _ => w'.1 = w.1 := by
  unfold runTool
  simp only [wp_bind, wp_ofExcept]
  cases (scripted options (some tools) toolObserver text).text.dump call.args with
  | error x => rfl
  | ok printed =>
    simp only [then_ok, wp_bind]
    refine wp_mono (tools.wp_invoke_besideScript call w) fun es w₁ r h => ?_
    cases r with
    | error x => exact h
    | ok result =>
      simp only [then_ok, wp_bind, wp_emit, observe, scripted]
      cases toolObserver with
      | none => exact h
      | some observer =>
        simp only [Option.map_some, wp_call, ToolObserver.besideScript]
        cases (observer call result w₁.2).1 <;> exact h

theorem afterRound_script {w w' : Script ω}
    (h : (scripted options (some tools) toolObserver text).afterRound tools.besideScript w =
      some w') : w'.1 = fun n => w.1 (n + 1) := by
  have hrun : wp ((scripted options (some tools) toolObserver text).runTools tools.besideScript
      (requestedCalls (w.1 0))) (fun n => w.1 (n + 1), w.2)
      fun _ w' _ => w'.1 = fun n => w.1 (n + 1) := by
    unfold runTools
    simp only [wp_bind, wp_emit, then_ok]
    refine wp_mapM_state (I := fun w' : Script ω => w'.1 = fun n => w.1 (n + 1))
      (fun call w₁ h₁ => ?_) _ _ rfl
    refine wp_mono (wp_runTool_script options tools toolObserver text call w₁) fun _ _ _ h => ?_
    exact h.trans h₁
  unfold afterRound at h
  rw [wp_iff] at hrun
  generalize (scripted options (some tools) toolObserver text).runTools tools.besideScript
    (requestedCalls (w.1 0)) (fun n => w.1 (n + 1), w.2) = run at h hrun
  obtain ⟨es, w₁, r⟩ := run
  cases r with
  | error t => cases h
  | ok parts =>
    cases h
    exact hrun

theorem worldAt_script {k : ℕ} {w w' : Script ω}
    (h : (scripted options (some tools) toolObserver text).worldAt tools.besideScript k w =
      some w') : w'.1 0 = w.1 k := by
  induction k generalizing w with
  | zero =>
    cases h
    rfl
  | succ k ih =>
    obtain ⟨w₁, h₁, hk⟩ := Option.bind_eq_some_iff.mp h
    rw [ih hk, afterRound_script options tools toolObserver text h₁]

/-- The calls of the first `k` replies return: no handler throws an object that is not a
`std::exception`, no observer throws, and the arguments can be printed. -/
def CallsReturn (s : ChatSession (Script ω)) (k : ℕ) (w : Script ω) : Prop :=
  ∀ tools, s.tools = some tools → (s.worldAt tools k w).isSome

/-- The bound holds exactly when one of the replies `0, …, max_tool_rounds` has no calls: a
reply with calls is executed in the last round too. -/
theorem tool_rounds_bounded_iff (tools : Option (ToolRegistry ω)) (hmax : 0 ≤ options.maxToolRounds)
    (message : Bytes) (onChunk : Option (StreamCallback (Script ω))) (x : ChatState)
    (replies : ℕ → Result GenerateResponse) (w : ω) :
    let s := scripted options tools toolObserver text
    ToolRoundsBounded options.maxToolRounds (s.send message onChunk (x, replies, w)).events ↔
      tools = none ∨ ∃ k : ℕ, (k : ℤ) ≤ options.maxToolRounds ∧
        requestedCalls (replies k) = [] ∧ s.CallsReturn k (replies, w) := by
  intro s
  rw [s.events_send]
  have hleft : (s.options.maxToolRounds + 1).toNat = options.maxToolRounds.toNat + 1 := by
    change (options.maxToolRounds + 1).toNat = _
    omega
  cases tools with
  | none =>
    obtain ⟨hrounds, hsent⟩ := wp_iff.mp (wp_rounds_no_tools (s := s) rfl rfl x.history.length
      onChunk (s.options.maxToolRounds + 1).toNat (x.pushBack (.user message)) (replies, w))
    refine ⟨fun _ => Or.inl rfl, fun _ => ⟨?_, hsent⟩⟩
    rw [hrounds]
    exact hmax
  | some tools =>
    have hs : s.tools = some tools.besideScript := rfl
    have hshown := wp_iff.mp (wp_rounds_scripted (s := s) rfl hs
      x.history.length onChunk (options.maxToolRounds.toNat + 1) (x.pushBack (.user message))
      (replies, w))
    rw [hleft]
    constructor
    · intro hbounded
      by_cases hsettles : s.Settles tools.besideScript (options.maxToolRounds.toNat + 1) (replies, w)
      · obtain ⟨k, hk, w', hw', hcalls⟩ := hsettles
        rw [worldAt_script options tools toolObserver text hw'] at hcalls
        refine Or.inr ⟨k, by omega, hcalls, fun tools' htools => ?_⟩
        obtain rfl : tools.besideScript = tools' := Option.some.inj htools
        rw [hw']
        rfl
      · exact absurd hbounded.sent (hshown.unsettled hsettles)
    · rintro (h | ⟨k, hk, hcalls, hreturn⟩)
      · cases h
      · obtain ⟨w', hw'⟩ := Option.isSome_iff_exists.mp (hreturn _ rfl)
        have hsettles : s.Settles tools.besideScript (options.maxToolRounds.toNat + 1)
            (replies, w) := by
          refine ⟨k, by omega, w', hw', ?_⟩
          rw [worldAt_script options tools toolObserver text hw']
          exact hcalls
        obtain ⟨hrounds, hsent⟩ := hshown.settled hsettles
        exact ⟨by omega, hsent⟩

/-- No round is allowed, and one is made: its result goes nowhere. -/
theorem tool_rounds_exceed_zero :
    let s : ChatSession (Script Unit) :=
      .scripted (.bounded 0) (some [echoTool (ascii "f")]) none (.known [] (ascii "\x7b\x7d"))
    ¬ ToolRoundsBounded 0
      (s.send (ascii "hi") none (.init, fun _ => callReply (ascii "f"), ())).events := by
  intro s h
  have hrounds : toolRounds
      (s.send (ascii "hi") none (.init, fun _ => callReply (ascii "f"), ())).events = 1 := rfl
  have hbounded := h.bounded
  rw [hrounds] at hbounded
  omega

/-- One round is allowed, and the model answers after it. -/
theorem tool_rounds_bounded_one :
    let s : ChatSession (Script Unit) :=
      .scripted (.bounded 1) (some [echoTool (ascii "f")]) none (.known [] (ascii "\x7b\x7d"))
    let replies : ℕ → Result GenerateResponse := fun n =>
      if n = 0 then callReply (ascii "f") else textReply (ascii "done")
    ToolRoundsBounded 1 (s.send (ascii "hi") none (.init, replies, ())).events := by
  intro s replies
  apply (tool_rounds_bounded_iff (.bounded 1) none (.known [] (ascii "\x7b\x7d"))
    (some [echoTool (ascii "f")]) (by decide) (ascii "hi") none .init replies ()).mpr
  refine Or.inr ⟨1, by decide, rfl, fun tools htools => ?_⟩
  cases htools
  rfl

end ChatSession
end GeminiCpp
