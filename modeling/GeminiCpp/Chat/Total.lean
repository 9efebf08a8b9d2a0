import GeminiCpp.Chat.Basic
import GeminiCpp.Client.Effects
import GeminiCpp.Client.Total
import GeminiCpp.Lib.Blame

/-! Sessions that throw only for a tool result that cannot be printed. As long as all other text is
valid, what a session sends can be printed, whatever the model replies and calls. -/
namespace GeminiCpp
open Traced Traced.Prog

variable {ω : Type}

/-! The calls of a client, where only the results of tools are bad. -/
namespace Client

variable {c : Client ω} {W : ω → Prop} (h : c.Decent W) {bad : Event → Prop}
  (hbad : ∀ e, bad e → ∃ call value, e = .toolResult call value)
include hbad

theorem rel_not_bad {e : Event} (he : ∀ call value, e ≠ .toolResult call value) (w : ω) :
    (Effect.ofEvents fun e => ¬ bad e).rel w [e] w := by
  refine List.forall_mem_singleton.mpr fun hevent => ?_
  obtain ⟨call, value, rfl⟩ := hbad e hevent
  exact he call value rfl

theorem allows_not_bad : c.Allows (Effect.ofEvents fun e => ¬ bad e) where
  metric w _ _ := rel_not_bad hbad (by simp) w
  http w _ _ := rel_not_bad hbad (by simp) w
  bytes w _ := rel_not_bad hbad (by simp) w
  response w _ := rel_not_bad hbad (by simp) w
  sleep w _ := rel_not_bad hbad (by simp) w
  send _ _ := List.forall_mem_nil _
  sendStreaming _ _ := List.forall_mem_nil _
  sleeper _ _ := List.forall_mem_nil _
  clock _ := List.forall_mem_nil _
  rng _ := List.forall_mem_nil _

theorem allowsChunks_not_bad (onChunk : Option (StreamCallback ω)) :
    AllowsChunks (Effect.ofEvents fun e => ¬ bad e) onChunk := by
  intro chunk
  refine within_bind (within_emit fun s => rel_not_bad hbad (by simp) s.2) fun _ => ?_
  cases onChunk with
  | none => exact within_pure _
  | some callback =>
    refine within_bind (within_lift (within_call fun w => List.forall_mem_nil _)) fun go => ?_
    refine within_ite (fun _ => within_pure _) fun _ => ?_
    refine within_bind (within_emit fun s => rel_not_bad hbad (by simp) s.2) fun _ => ?_
    exact within_bind (within_setVars _) fun _ => within_pure _

include h

theorem blames_generate {request : GenerateRequest}
    (hrequest : (Wire.requestToJson request).wellEncoded = true) {w : ω} (hw : W w) :
    Blames bad (c.generate request) w fun w' r => W w' ∧ Repeatable r :=
  blames_of_within (returns_generate h hrequest hw) (within_generate (allows_not_bad hbad) request)

theorem blames_stream {request : GenerateRequest} {onChunk : Option (StreamCallback ω)}
    (hreturning : Returning W onChunk)
    (hrequest : (Wire.requestToJson request).wellEncoded = true) {w : ω} (hw : W w) :
    Blames bad (c.stream request onChunk) w fun w' r => W w' ∧ Repeatable r :=
  blames_of_within (returns_stream h hreturning hrequest hw)
    (within_stream (allows_not_bad hbad) (allowsChunks_not_bad hbad onChunk) request)

theorem blames_countTokens {request : GenerateRequest}
    (hrequest : (c.countTokensBody request).wellEncoded = true) {w : ω} (hw : W w) :
    Blames bad (c.countTokens request) w fun w' _ => W w' :=
  blames_of_within (returns_countTokens h hrequest hw)
    (within_countTokens (allows_not_bad hbad) request)

theorem blames_listModels (fuel : ℕ) {w : ω} (hw : W w) :
    Blames bad (c.listModels fuel) w fun w' _ => W w' :=
  blames_of_within (returns_listModels h fuel hw) (within_listModels (allows_not_bad hbad) fuel)

end Client

namespace ChatSession

/-- A session of which it is known what the bad events are. Its client throws on nothing that can be
printed, and the result of a call is bad if it cannot be printed. The observer prints the results,
and all keep the world to `W`. -/
structure Decent (s : ChatSession ω) (W : ω → Prop) (bad : Event → Prop)
    (observer : ToolObserver ω) : Prop where
  results : ∀ e, bad e → ∃ call value, e = .toolResult call value
  generate : ∀ request w, W w → (Wire.requestToJson request).wellEncoded = true →
    Blames bad (s.client.generate request) w fun w' r => W w' ∧ Client.Repeatable r
  stream : ∀ request callback w, Client.Returning W (some callback) → W w →
    (Wire.requestToJson request).wellEncoded = true →
    Blames bad (s.client.stream request callback) w fun w' r => W w' ∧ Client.Repeatable r
  invoke : ∀ tools ∈ s.tools, ∀ (call : FunctionCall) w, call.Encodable → W w →
    Blames bad (tools.invoke call) w fun w' result =>
      W w' ∧ result.name = call.name ∧ result.id = call.id ∧
        (bad (.toolResult call result) ↔ result.response.wellEncoded = false)
  observed : s.toolObserver = some observer
  observer : ∀ (call : FunctionCall) result w, W w → call.args.wellEncoded = true →
    W (observer call result w).2 ∧
      (result.response.wellEncoded = true → (observer call result w).1 = .ok ()) ∧
      (result.response.wellEncoded = false → ∃ x, (observer call result w).1 = .error x)
  declarations : ∀ tools ∈ s.tools, ∀ d ∈ tools.declarations, d.Encodable
  instruction : ∀ t ∈ s.options.systemInstruction, Utf8.valid t = true
  config : s.options.config.Encodable

variable {s : ChatSession ω} {W : ω → Prop} {bad : Event → Prop} {observer : ToolObserver ω}
  (h : s.Decent W bad observer)
include h

/-- A request with turns that can be printed. -/
theorem Decent.request {history : List Content} (hhistory : ∀ c ∈ history, c.Encodable) :
    (Wire.requestToJson (s.buildRequest history)).wellEncoded = true := by
  apply Wire.wellEncoded_requestToJson
  · exact fun c hc => Wire.wellEncoded_contentToJson (hhistory c hc)
  · intro c hc part hpart
    obtain ⟨t, ht, rfl⟩ := Option.map_eq_some_iff.mp hc
    rw [List.mem_singleton.mp hpart]
    exact Wire.wellEncoded_text (h.instruction t ht)
  · intro d hd
    unfold buildRequest at hd
    cases htools : s.tools with
    | none =>
      rw [htools] at hd
      cases hd
    | some tools =>
      rw [htools] at hd
      exact Wire.wellEncoded_declarationToJson (h.declarations tools htools d hd)
  · exact Wire.wellEncoded_configToJson h.config
  · exact fun setting hsetting => by cases hsetting

theorem Decent.not_bad {e : Event} (he : ∀ call value, e ≠ .toolResult call value) : ¬ bad e := by
  intro hbad
  obtain ⟨call, value, rfl⟩ := h.results e hbad
  exact he call value rfl

theorem blames_ask (onChunk : Option (StreamCallback ω)) (hreturning : Client.Returning W onChunk)
    {history : List Content} (hhistory : ∀ c ∈ history, c.Encodable) {w : ω} (hw : W w) :
    Blames bad (s.ask onChunk (s.buildRequest history)) w fun w' r =>
      W w' ∧ Client.Repeatable r := by
  unfold ask
  apply blames_bind
  apply blames_emit (h.not_bad (by simp))
  cases onChunk with
  | none => exact h.generate _ w hw (h.request hhistory)
  | some callback => exact h.stream _ callback w hreturning hw (h.request hhistory)

/-- A call throws exactly if its result cannot be printed, as the observer prints it. -/
theorem blames_runTool {tools : ToolRegistry ω} (htools : s.tools = some tools)
    {call : FunctionCall} (hcall : call.Encodable) {w : ω} (hw : W w) :
    Blames bad (s.runTool tools call) w fun w' part => W w' ∧ part.Encodable := by
  have hinvoke := h.invoke tools htools call w hcall hw
  obtain ⟨hname, hargs, hid⟩ := hcall
  unfold runTool
  apply blames_bind
  apply blames_ofExcept (s.text.dump_of_wellEncoded hargs)
  apply blames_bind
  refine hinvoke.mono fun w' result hresult => ?_
  obtain ⟨hw', hname', hid', hunprintable⟩ := hresult
  obtain ⟨hend, hprints, hthrows⟩ := h.observer call result w' hw' hargs
  have hobserve : s.observe call result = Prog.call (observer call result) := by
    unfold observe
    rw [h.observed]
  rw [hobserve]
  apply blames_emit_bind
  · intro hbad
    obtain ⟨x, hx⟩ := hthrows (hunprintable.mp hbad)
    rw [wp_bind, wp_call, hx, then_error]
    exact ⟨rfl, x, rfl⟩
  · intro hgood
    have hencoded : result.response.wellEncoded = true := by
      cases hresponse : result.response.wellEncoded with
      | true => rfl
      | false => exact absurd (hunprintable.mpr hresponse) hgood
    apply blames_bind
    apply blames_call (hprints hencoded)
    refine blames_pure ⟨hend, ?_, Utf8.valid_nil⟩
    exact ⟨by rw [hname', hname], hencoded, by rw [hid', hid]⟩

theorem blames_runTools {tools : ToolRegistry ω} (htools : s.tools = some tools)
    {calls : List FunctionCall} (hcalls : ∀ call ∈ calls, call.Encodable) {w : ω} (hw : W w) :
    Blames bad (s.runTools tools calls) w fun w' parts =>
      W w' ∧ ∀ part ∈ parts, part.Encodable := by
  unfold runTools
  apply blames_bind
  apply blames_emit (h.not_bad (by simp))
  exact blames_mapM (fun call hcall w hw => blames_runTool h htools (hcalls call hcall) hw) hw

/-- What is known of a session between two messages. -/
def Printable (W : ω → Prop) (state : ChatState × ω) : Prop :=
  W state.2 ∧ ∀ c ∈ state.1.history, c.Encodable

omit h in
theorem Printable.pushBack {x : ChatState} {w : ω} (hx : Printable W (x, w)) {c : Content}
    (hc : c.Encodable) : Printable W (x.pushBack c, w) := by
  refine ⟨hx.1, fun c' hc' => ?_⟩
  rcases List.mem_append.mp hc' with hc' | hc'
  · exact hx.2 c' hc'
  · rw [List.mem_singleton.mp hc']
    exact hc

omit h in
theorem Printable.resize {x : ChatState} {w : ω} (hx : Printable W (x, w)) (n : ℕ) :
    Printable W (x.resize n, w) := by
  refine ⟨hx.1, fun c hc => ?_⟩
  rcases List.mem_append.mp hc with hc | hc
  · exact hx.2 c (List.mem_of_mem_take hc)
  · rw [List.eq_of_mem_replicate hc]
    exact fun part hpart => by cases hpart

omit h in
theorem blames_rollback {x : ChatState} {w : ω} (hx : Printable W (x, w)) (n : ℕ) (e : Error) :
    Blames bad (rollback n e : Program (ChatState × ω) _) (x, w) fun s' _ =>
      Printable W s' := by
  unfold rollback setState
  apply blames_bind
  apply blames_modify
  exact blames_pure (hx.resize n)

omit h in
theorem encodable_functionCalls {response : GenerateResponse} (hresponse : response.Encodable) :
    ∀ call ∈ response.functionCalls, call.Encodable := by
  intro call hcall
  unfold GenerateResponse.functionCalls at hcall
  cases hcandidates : response.candidates with
  | nil =>
    rw [hcandidates] at hcall
    cases hcall
  | cons first others =>
    rw [hcandidates] at hcall
    obtain ⟨part, hpart, hasCall⟩ := List.mem_filterMap.mp hcall
    have hfirst : first.content.Encodable :=
      hresponse first (by rw [hcandidates]; exact List.mem_cons_self ..)
    have hvalue := (hfirst part hpart).value
    unfold Part.asCall at hasCall
    cases hkind : part.value with
    | call c =>
      rw [hkind] at hasCall hvalue
      obtain rfl := Option.some.inj hasCall
      exact hvalue
    | text t =>
      rw [hkind] at hasCall
      cases hasCall
    | response r =>
      rw [hkind] at hasCall
      cases hasCall

/-- The loop of `send`: by induction on the rounds that are left. -/
theorem blames_rounds (onChunk : Option (StreamCallback ω))
    (hreturning : Client.Returning W onChunk) (checkpoint left : ℕ) {x : ChatState} {w : ω}
    (hx : Printable W (x, w)) :
    Blames bad (s.rounds checkpoint onChunk left) (x, w) fun s' _ =>
      Printable W s' := by
  induction left generalizing x w with
  | zero => exact blames_rollback hx _ _
  | succ left ih =>
    unfold rounds
    apply blames_bind
    apply blames_get
    apply blames_bind
    apply blames_lift
    refine (blames_ask h onChunk hreturning hx.2 hx.1).mono fun w' r hr => ?_
    obtain ⟨hw', hrepeatable⟩ := hr
    cases r with
    | error e => exact blames_rollback ⟨hw', hx.2⟩ _ _
    | ok response =>
      have hresponse : response.Encodable := hrepeatable response rfl
      have hcalls := encodable_functionCalls hresponse
      have hadded : Printable W (x.addUsage response.usage, w') := ⟨hw', hx.2⟩
      apply blames_bind
      apply blames_modify
      cases hcandidates : response.candidates with
      | nil => exact blames_rollback hadded _ _
      | cons candidate others =>
        have hturn : (replyTurn candidate).Encodable :=
          hresponse candidate (by rw [hcandidates]; exact List.mem_cons_self ..)
        have hpushed := hadded.pushBack hturn
        cases hfunctions : response.functionCalls with
        | nil =>
          apply blames_bind
          apply blames_modify
          exact blames_pure hpushed
        | cons call calls =>
          rw [hfunctions] at hcalls
          cases htools : s.tools with
          | none =>
            apply blames_bind
            apply blames_modify
            exact blames_pure hpushed
          | some tools =>
            apply blames_bind
            apply blames_modify
            apply blames_bind
            apply blames_lift
            refine (blames_runTools h htools hcalls hw').mono fun w'' parts hparts => ?_
            have hanswered : Printable W ((x.addUsage response.usage).pushBack
                (replyTurn candidate), w'') := ⟨hparts.1, hpushed.2⟩
            apply blames_bind
            apply blames_modify
            exact ih (hanswered.pushBack (c := { role := .user, parts }) hparts.2)

/-- A message throws exactly if a tool result of it cannot be printed. -/
theorem blames_send {message : Bytes} (hmessage : Utf8.valid message = true)
    (onChunk : Option (StreamCallback ω)) (hreturning : Client.Returning W onChunk)
    {state : ChatState × ω} (hstate : Printable W state) :
    Blames bad (s.send message onChunk) state fun s' _ => Printable W s' := by
  obtain ⟨x, w⟩ := state
  have huser : (Content.user message).Encodable := by
    intro part hpart
    rw [List.mem_singleton.mp hpart]
    exact ⟨hmessage, Utf8.valid_nil⟩
  unfold send
  apply blames_bind
  apply blames_get
  apply blames_bind
  apply blames_modify
  exact blames_rounds h onChunk hreturning _ _ (hstate.pushBack huser)

end ChatSession
end GeminiCpp
