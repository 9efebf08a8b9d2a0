import GeminiCpp.Apps.Requests
import GeminiCpp.Calculator.Messages
import GeminiCpp.Chat.Total
import GeminiCpp.Cli.CommandLine

/-! When the program crashes. An exception leaves `main` only where the calculator's error quotes a
byte that is no character, as the observer of `chat` cannot print it. -/
namespace GeminiCpp
open Traced Traced.Prog

variable {ω κ : Type}

/-! What is read from the outside is valid. -/
section Words

theorem Cli.valid_items {spec : Cli.Spec} {items : List (Cli.Item spec)}
    {rest : Option (List Bytes)}
    (h : ∀ word ∈ Cli.commandLine items rest, Utf8.valid word = true) :
    (∀ option, ∀ value ∈ Cli.optionValues option items, Utf8.valid value = true) ∧
      ∀ word ∈ Cli.positionals items ++ rest.getD [], Utf8.valid word = true := by
  have hwords : ∀ item ∈ items, ∀ word ∈ item.words, Utf8.valid word = true := by
    intro item hitem word hword
    exact h word (List.mem_append_left _ (List.mem_flatMap.mpr ⟨item, hitem, hword⟩))
  constructor
  · intro option value hvalue
    obtain ⟨item, hitem, hof⟩ := List.mem_filterMap.mp hvalue
    have hitemWords := hwords item hitem
    cases item with
    | inlined name value' hname =>
      simp only [Cli.Item.valueOf] at hof
      split_ifs at hof
      obtain rfl := Option.some.inj hof
      have hword := hitemWords _ (List.mem_singleton_self _)
      have hdashes : Utf8.valid Cli.dashes = true := valid_ascii (by decide)
      rw [Utf8.valid_append hdashes] at hword
      exact ((Utf8.valid_append_append (m := [0x3D]) (by decide) (by decide)).mp hword).2
    | spaced name value' hname =>
      simp only [Cli.Item.valueOf] at hof
      split_ifs at hof
      obtain rfl := Option.some.inj hof
      exact hitemWords _ (List.mem_cons_of_mem _ (List.mem_singleton_self _))
    | flag name hname => cases hof
    | word arg hstart => cases hof
  · intro word hword
    rcases List.mem_append.mp hword with hword | hword
    · obtain ⟨item, hitem, hof⟩ := List.mem_filterMap.mp hword
      have hitemWords := hwords item hitem
      cases item with
      | word arg hstart =>
        obtain rfl := Option.some.inj hof
        exact hitemWords _ (List.mem_singleton_self _)
      | inlined name value hname => cases hof
      | spaced name value hname => cases hof
      | flag name hname => cases hof
    · cases rest with
      | none => cases hword
      | some words =>
        exact h word (List.mem_append_right _ (List.mem_cons_of_mem _ hword))

theorem Cli.Args.valid_of_parse {spec : Cli.Spec} {argv : List Bytes} {first : ℕ} {a : Cli.Args}
    (hargv : ∀ word ∈ argv, Utf8.valid word = true)
    (h : Cli.Args.init.parse argv first spec = (none, a)) :
    (∀ name, ∀ value ∈ a.get name, Utf8.valid value = true) ∧
      ∀ word ∈ a.positional, Utf8.valid word = true := by
  obtain ⟨items, rest, hwords, rfl⟩ := Cli.Args.exists_commandLine h
  obtain ⟨hvalues, hpositional, -⟩ := Cli.Item.foldl_apply items Cli.Args.init
  have hvalid := @Cli.valid_items _ items rest fun word hword =>
    hargv word (List.mem_of_mem_drop (hwords ▸ hword))
  constructor
  · intro name value hvalue
    rw [Cli.Args.get_eq_getLast?] at hvalue
    have hmem : value ∈ (items.foldl Cli.Item.apply Cli.Args.init).getAll name :=
      List.mem_of_getLast? hvalue
    rw [hvalues] at hmem
    exact hvalid.1 name value hmem
  · intro word hword
    have hmem : word ∈ (items.foldl Cli.Item.apply Cli.Args.init).positional ++ rest.getD [] := hword
    rw [hpositional] at hmem
    exact hvalid.2 word hmem

namespace Apps

/-- The lines are the parts between the ends, but perhaps the last. -/
theorem getlines_begin (s : Bytes) : getlines s <+: s.splitOn lf ∧ (getlines s = [] → s = []) := by
  induction s with
  | nil => exact ⟨List.nil_prefix, fun _ => rfl⟩
  | cons b s ih =>
    rw [getlines, List.splitOn_cons_eq_if_modifyHead]
    by_cases hb : b = lf
    · rw [if_pos hb, if_pos (beq_iff_eq.mpr hb)]
      exact ⟨(List.prefix_cons_inj _).mpr ih.1, fun h => by cases h⟩
    · rw [if_neg hb, if_neg (by simpa using hb)]
      cases hlines : getlines s with
      | nil =>
        rw [ih.2 hlines, List.splitOn_nil]
        exact ⟨List.prefix_rfl, fun h => by cases h⟩
      | cons line lines =>
        obtain ⟨first, rest, hsplit⟩ := List.exists_cons_of_ne_nil (List.splitOn_ne_nil lf s)
        obtain ⟨rfl, hrest⟩ : line = first ∧ lines <+: rest := by
          have hprefix := ih.1
          rw [hlines, hsplit] at hprefix
          exact List.cons_prefix_cons.mp hprefix
        rw [hsplit, List.modifyHead_cons]
        exact ⟨(List.prefix_cons_inj _).mpr hrest, fun h => by cases h⟩

theorem valid_getlines {s : Bytes} (h : Utf8.valid s = true) :
    ∀ line ∈ getlines s, Utf8.valid line = true :=
  fun line hline => valid_splitOn (by decide) h line ((getlines_begin s).1.subset hline)

theorem valid_joinWords {words : List Bytes} (h : ∀ word ∈ words, Utf8.valid word = true) :
    Utf8.valid (joinWords words) = true := by
  have hfold : ∀ prompt : Bytes, Utf8.valid prompt = true →
      Utf8.valid (words.foldl (fun prompt w =>
        (if prompt = [] then [] else prompt ++ [space]) ++ w) prompt) = true := by
    induction words with
    | nil => exact fun prompt hprompt => hprompt
    | cons word words ih =>
      intro prompt hprompt
      apply ih fun word hword => h word (List.mem_cons_of_mem _ hword)
      apply Utf8.valid_append_of_valid _ (h word (List.mem_cons_self ..))
      split_ifs
      · rfl
      · exact Utf8.valid_append_of_valid hprompt (by decide)
  exact hfold [] rfl

end Apps
end Words

/-! A library in a world with a console is as it was. -/
section Beside
variable {W : ω → Prop}

theorem Client.Decent.beside {c : Client ω} (h : c.Decent W) :
    (c.beside κ).Decent fun s => W s.2 where
  parses := h.parses
  unary request s answer hs hanswer := h.unary request s.2 answer hs hanswer
  streamed request s hs := h.streamed request s.2 hs
  send request s hs := h.send request s.2 hs
  sendStreaming request s hs := h.sendStreaming request s.2 hs
  sleeper delay s hs := h.sleeper delay s.2 hs
  clock s hs := h.clock s.2 hs
  rng s hs := h.rng s.2 hs

end Beside

namespace Apps
open ExpressionParser (QuotesByte)

/-- A call of the calculator whose error quotes a byte that is no character. -/
def Crash (A : Arith UInt64) : Event → Prop
  | .toolResult call _ => call.name = ascii "evaluate_expression" ∧
    ∃ expression e, call.args.find (ascii "expression") = some (.str expression) ∧
      evaluateExpression A expression = .ok (.error e) ∧ QuotesByte expression e
  | _ => False

theorem crash_results {A : Arith UInt64} (e : Event) (h : Crash A e) :
    ∃ call value, e = .toolResult call value := by
  cases e with
  | toolResult call value => exact ⟨call, value, rfl⟩
  | _ => exact h.elim

/-- What the machine says is valid, and its server sends nothing but documents that decode, as long
as the outside world keeps to `W`, as it always does. -/
structure Machine.Decent (m : Machine ω) (W : ω → Prop) : Prop where
  model : ∀ name ∈ m.getenv (ascii "GEMINI_MODEL"), Utf8.valid name = true
  stdin : ∀ s, W s.2 → Utf8.valid (m.stdin s).1 = true ∧ W (m.stdin s).2.2
  now : ∀ s, W s.2 → W (m.clock.now s).2.2
  time : ∀ t, Utf8.valid (m.clock.print t) = true
  server : ∀ options, (Client.create options m.transport m.host m.text).Decent
    fun s => W s.2

variable {m : Machine ω} {W : ω → Prop}

/-! The tools of `chat`. -/
section Tools

theorem wellEncoded_errorJson_iff (message : Bytes) :
    (errorJson message).wellEncoded = true ↔ Utf8.valid message = true := by
  have hkey : Utf8.valid (ascii "error") = true := valid_ascii (by decide)
  change Json.wellEncoded (.obj [(ascii "error", .str message)]) = true ↔ _
  rw [Json.wellEncoded_obj]
  constructor
  · exact fun h => (h _ (List.mem_singleton_self _)).2
  · intro h kv hkv
    rw [List.mem_singleton.mp hkv]
    exact ⟨hkey, h⟩

/-- What the calculator answers can be printed unless the call crashes. -/
theorem crash_iff_evaluate {A : Arith UInt64} {call : FunctionCall} {value : FunctionResponse}
    (hname : call.name = ascii "evaluate_expression") {response : Json}
    (hresponse : handlerAnswer (.ok (BuiltinTools.evaluateArgs A call.args)) = .ok response) :
    Crash A (.toolResult call value) ↔ response.wellEncoded = false := by
  -- without an expression the answer is a text of the program
  have hmissing : (∀ expression, call.args.find (ascii "expression") ≠ some (.str expression)) →
      BuiltinTools.evaluateArgs A call.args = .error BuiltinTools.missingExpression →
      (Crash A (.toolResult call value) ↔ response.wellEncoded = false) := by
    intro hnone hargs
    rw [hargs] at hresponse
    obtain rfl := Except.ok.inj hresponse
    have hvalid : (errorJson BuiltinTools.missingExpression.message).wellEncoded = true :=
      (wellEncoded_errorJson_iff _).mpr (valid_ascii (by decide))
    refine iff_of_false ?_ (by rw [hvalid]; simp)
    intro hcrash
    obtain ⟨-, expression, e, hfind, -⟩ := hcrash
    exact hnone expression hfind
  unfold BuiltinTools.evaluateArgs at hresponse hmissing
  cases hfind : call.args.find (ascii "expression") with
  | none =>
    rw [hfind] at hmissing
    exact hmissing (by simp) rfl
  | some v =>
    rw [hfind] at hresponse hmissing
    cases v with
    | str expression =>
      have hrun := BuiltinTools.evaluateExpression_eq A expression
      cases hresult : BuiltinTools.evaluate A expression with
      | ok x =>
        simp only [hresult, Except.map] at hresponse
        obtain rfl := Except.ok.inj hresponse
        have hvalue : (Json.object [(ascii "value", .float x)]).wellEncoded = true := by
          apply Json.wellEncoded_object
          intro kv hkv
          rw [List.mem_singleton.mp hkv]
          exact ⟨valid_ascii (by decide), rfl⟩
        have hobject : (Json.object [(ascii "value", .float x)]).isObject = true := rfl
        refine iff_of_false ?_ (by rw [if_pos hobject, hvalue]; simp)
        intro hcrash
        obtain ⟨-, expression', e, hfind', herror, -⟩ := hcrash
        rw [hfind] at hfind'
        cases hfind'
        rw [hrun, hresult] at herror
        cases herror
      | error e =>
        rw [hresult] at hrun
        simp only [hresult, Except.map] at hresponse
        obtain rfl := Except.ok.inj hresponse
        have hquotes := ExpressionParser.valid_message_iff hrun
        have hcrash : Crash A (.toolResult call value) ↔ QuotesByte expression e := by
          constructor
          · intro hcrash
            obtain ⟨-, expression', e', hfind', herror, hbyte⟩ := hcrash
            rw [hfind] at hfind'
            cases hfind'
            rw [hrun] at herror
            cases herror
            exact hbyte
          · exact fun hbyte => ⟨hname, expression, e, hfind, hrun, hbyte⟩
        rw [hcrash, ← Bool.not_eq_true, wellEncoded_errorJson_iff, hquotes, not_not]
    | _ => exact hmissing (by simp) rfl

theorem blames_invoke_of_handler {bad : Event → Prop} {tools : ToolRegistry ω}
    {call : FunctionCall} {handler : Json → ω → MayThrow (Result Json) × ω}
    (hfirst : tools.handlerOf call.name = some (some handler)) {w : ω} {response : Json}
    (hanswer : handlerAnswer (handler call.args w).1 = .ok response)
    (hbad : ¬ bad (.handler call.name call.args)) {Q : ω → FunctionResponse → Prop}
    (hQ : Q (handler call.args w).2 { name := call.name, response, id := call.id }) :
    Blames bad (tools.invoke call) w Q := by
  unfold Blames
  rw [wp_iff, ToolRegistry.invoke_of_handler hfirst, hanswer]
  exact ⟨List.forall_mem_singleton.mpr hbad, hQ⟩

theorem handlerOf_cons {d : FunctionDeclaration} {handler : ToolHandler ω} {name : Bytes}
    (tools : ToolRegistry ω) : ToolRegistry.handlerOf ((d, handler) :: tools) name =
      if d.name = name then some handler else tools.handlerOf name := by
  unfold ToolRegistry.handlerOf
  rw [List.find?_cons]
  by_cases hname : d.name = name
  · rw [if_pos hname, decide_eq_true hname]
    rfl
  · rw [if_neg hname, decide_eq_false hname]

theorem handlerOf_defaults (name : Bytes) :
    ((BuiltinTools.registerDefaults m.clock m.arith []).beside Screen).handlerOf name =
      if BuiltinTools.currentTimeDeclaration.name = name then
        some ((BuiltinTools.currentTime m.clock).beside Screen)
      else if BuiltinTools.evaluateDeclaration.name = name then
        some ((BuiltinTools.evaluateTool m.arith).beside Screen)
      else none := by
  have htools : (BuiltinTools.registerDefaults m.clock m.arith []).beside Screen =
      [(BuiltinTools.currentTimeDeclaration, (BuiltinTools.currentTime m.clock).beside Screen),
        (BuiltinTools.evaluateDeclaration, (BuiltinTools.evaluateTool m.arith).beside Screen)] :=
    rfl
  rw [htools, handlerOf_cons, handlerOf_cons]
  rfl

/-- The registry of `chat --tools`. -/
theorem blames_invoke (h : m.Decent W) (call : FunctionCall) (hcall : call.Encodable)
    {con : Console ω} (hcon : W con.2.2) :
    Blames (Crash m.arith) (((BuiltinTools.registerDefaults m.clock m.arith []).beside
      Screen).invoke call) con fun con' result => W con'.2.2 ∧ result.name = call.name ∧
        result.id = call.id ∧
        (Crash m.arith (.toolResult call result) ↔ result.response.wellEncoded = false) := by
  have hfirst := @handlerOf_defaults _ m call.name
  by_cases htime : BuiltinTools.currentTimeDeclaration.name = call.name
  · rw [if_pos htime] at hfirst
    apply blames_invoke_of_handler hfirst rfl id
    have hprinted : (Json.object [(ascii "utc", .str (m.clock.print (m.clock.now con.2).1)),
        (ascii "unix", .int (m.clock.now con.2).1)]).wellEncoded = true := by
      apply Json.wellEncoded_object
      intro kv hkv
      simp only [List.mem_cons, List.not_mem_nil, or_false] at hkv
      rcases hkv with rfl | rfl
      · exact ⟨valid_ascii (by decide), h.time _⟩
      · exact ⟨valid_ascii (by decide), rfl⟩
    refine ⟨h.now con.2 hcon, rfl, rfl, iff_of_false ?_ (by rw [Bool.not_eq_false]; exact hprinted)⟩
    intro hcrash
    have hname : BuiltinTools.currentTimeDeclaration.name = ascii "evaluate_expression" :=
      htime.trans hcrash.1
    exact absurd hname (by decide)
  by_cases hevaluate : BuiltinTools.evaluateDeclaration.name = call.name
  · rw [if_neg htime, if_pos hevaluate] at hfirst
    have hanswer : ∃ response,
        handlerAnswer (.ok (BuiltinTools.evaluateArgs m.arith call.args)) = .ok response := by
      cases BuiltinTools.evaluateArgs m.arith call.args <;> exact ⟨_, rfl⟩
    obtain ⟨response, hresponse⟩ := hanswer
    exact blames_invoke_of_handler hfirst hresponse id
      ⟨hcon, rfl, rfl, crash_iff_evaluate hevaluate.symm hresponse⟩
  · rw [if_neg htime, if_neg hevaluate] at hfirst
    unfold Blames
    rw [wp_iff, ToolRegistry.invoke_of_unknown hfirst]
    refine ⟨List.forall_mem_nil _, hcon, rfl, rfl, iff_of_false ?_ ?_⟩
    · exact fun hcrash => hevaluate hcrash.1.symm
    · rw [Bool.not_eq_false, wellEncoded_errorJson_iff]
      exact Utf8.valid_append_of_valid (valid_ascii (by decide)) hcall.1

end Tools

/-! The chat. -/
section Chat

theorem returning_stdoutPrinter :
    Client.Returning (fun con : Console ω => W con.2.2) (some stdoutPrinter) := by
  intro callback hcallback chunk con hcon
  obtain rfl := Option.some.inj hcallback
  unfold stdoutPrinter
  split_ifs
  · exact ⟨⟨false, rfl⟩, hcon⟩
  · cases chunk.candidates with
    | nil => exact ⟨⟨true, rfl⟩, hcon⟩
    | cons front others => exact ⟨⟨true, rfl⟩, hcon⟩

/-- The observer prints a result, or throws. -/
theorem toolPrinter_prints (text : JsonText) (call : FunctionCall) (result : FunctionResponse)
    (con : Console ω) (hargs : call.args.wellEncoded = true) :
    (toolPrinter text call result con).2.2 = con.2 ∧
      (result.response.wellEncoded = true → (toolPrinter text call result con).1 = .ok ()) ∧
      (result.response.wellEncoded = false →
        ∃ x, (toolPrinter text call result con).1 = .error x) := by
  have hrefused : result.response.wellEncoded = false →
      text.dump result.response = .error Json.typeError316 := by
    intro hresponse
    unfold JsonText.dump
    rw [hresponse]
    rfl
  unfold toolPrinter
  simp only [text.dump_of_wellEncoded hargs]
  refine ⟨?_, fun hresponse => ?_, fun hresponse => ?_⟩
  · cases text.dump result.response <;> rfl
  · rw [text.dump_of_wellEncoded hresponse]
  · rw [hrefused hresponse]
    exact ⟨_, rfl⟩

theorem encodable_defaults :
    ∀ d ∈ (BuiltinTools.registerDefaults m.clock m.arith []).declarations, d.Encodable := by
  have htools : (BuiltinTools.registerDefaults m.clock m.arith []).declarations =
      [BuiltinTools.currentTimeDeclaration, BuiltinTools.evaluateDeclaration] := rfl
  intro d hd
  rw [htools] at hd
  simp only [List.mem_cons, List.not_mem_nil, or_false] at hd
  rcases hd with rfl | rfl
  · exact { name := by decide +kernel, description := by decide +kernel, parameters := rfl }
  · exact { name := by decide +kernel, description := by decide +kernel
            parameters := by decide +kernel }

/-- The words of a command can be printed. -/
def ValidArgs (args : Cli.Args) : Prop :=
  (∀ name, ∀ value ∈ args.get name, Utf8.valid value = true) ∧
    ∀ word ∈ args.positional, Utf8.valid word = true

theorem decent_chatOf (h : m.Decent W) {args : Cli.Args} (hargs : ValidArgs args)
    {config : GenerationConfig} (hconfig : config.Encodable) {c : Client (Bool × ω)}
    (hc : c.Decent fun s => W s.2) :
    (chatOf m args config c).Decent (fun con => W con.2.2) (Crash m.arith)
      (toolPrinter c.text) where
  results := crash_results
  generate request con hcon hrequest :=
    Client.blames_generate (hc.beside (κ := Screen)) crash_results hrequest hcon
  stream request callback con hcallback hcon hrequest :=
    Client.blames_stream (hc.beside (κ := Screen)) crash_results hcallback hrequest hcon
  invoke tools htools call con hcall hcon := by
    have hdefaults : tools = (BuiltinTools.registerDefaults m.clock m.arith []).beside Screen := by
      unfold chatOf chatSession at htools
      split_ifs at htools
      · exact (Option.some.inj htools).symm
      · cases htools
    rw [hdefaults]
    exact blames_invoke h call hcall hcon
  observed := rfl
  observer call result con hcon hcall := by
    obtain ⟨hend, hprints⟩ := toolPrinter_prints c.text call result con hcall
    refine ⟨?_, hprints⟩
    rw [hend]
    exact hcon
  declarations tools htools d hd := by
    have hdefaults : tools.declarations =
        (BuiltinTools.registerDefaults m.clock m.arith []).declarations := by
      unfold chatOf chatSession at htools
      split_ifs at htools
      · rw [← Option.some.inj htools]
        rfl
      · cases htools
    rw [hdefaults] at hd
    exact encodable_defaults d hd
  instruction := hargs.1 (ascii "system")
  config := hconfig

section Loop
variable {s : ChatSession (Console ω)} {bad : Event → Prop} {observer : ToolObserver (Console ω)}
  (h : s.Decent (fun con => W con.2.2) bad observer) (tty : Bool)

/-- What is known between two lines of the user. -/
abbrev Chatting (W : ω → Prop) : ChatState × Console ω → Prop :=
  ChatSession.Printable fun con => W con.2.2

theorem blames_note {R : ChatState × Console ω → Unit → Prop} {state : ChatState × Console ω}
    (t : Bytes) (hR : ∀ screen, R (state.1, screen, state.2.2) ()) :
    Blames bad (Prog.lift (note t)) state R :=
  blames_lift (v := state.1) (blames_modify (hR _))

theorem blames_prompt {state : ChatState × Console ω} (t : Bytes) (hstate : Chatting W state) :
    Blames bad (prompt tty t) state fun state' _ => Chatting W state' := by
  unfold prompt
  split_ifs
  · exact blames_note t fun screen => hstate
  · exact blames_pure hstate

include h

theorem blames_chatMessage {line : Bytes} (hline : Utf8.valid line = true)
    {state : ChatState × Console ω} (hstate : Chatting W state) :
    Blames bad (chatMessage s tty line) state fun state' _ => Chatting W state' := by
  unfold chatMessage
  apply blames_bind
  refine blames_lift (v := state.1) (blames_modify ?_)
  apply blames_bind
  have hquiet : Chatting W (state.1, state.2.1, false, state.2.2.2) := hstate
  refine (blames_prompt tty _ hquiet).mono fun state₁ _ hstate₁ => ?_
  apply blames_bind
  refine (ChatSession.blames_send h hline _ returning_stdoutPrinter hstate₁).mono
    fun state₂ reply hstate₂ => ?_
  apply blames_bind
  refine blames_lift (v := state₂.1) (blames_modify ?_)
  cases reply with
  | ok _ => exact blames_pure hstate₂
  | error e => exact blames_note _ fun screen => hstate₂

theorem blames_chatLine {line : Bytes} (hline : Utf8.valid line = true)
    {state : ChatState × Console ω} (hstate : Chatting W state) :
    Blames bad (chatLine s tty line) state fun state' _ => Chatting W state' := by
  have hnote : ∀ {state : ChatState × Console ω} (t : Bytes), Chatting W state →
      Blames bad (do Prog.lift (note t); return true) state fun state' _ => Chatting W state' :=
    fun t hstate => blames_bind (blames_note t fun screen => blames_pure hstate)
  unfold chatLine
  by_cases hblank : blankLine line = true
  · rw [if_pos hblank]
    exact blames_pure hstate
  rw [if_neg hblank]
  by_cases hexit : line = ascii "/exit" ∨ line = ascii "/quit"
  · rw [if_pos hexit]
    exact blames_pure hstate
  rw [if_neg hexit]
  by_cases hreset : line = ascii "/reset"
  · rw [if_pos hreset]
    apply blames_bind
    apply blames_modify
    exact hnote _ ⟨hstate.1, List.forall_mem_nil _⟩
  rw [if_neg hreset]
  by_cases husage : line = ascii "/usage"
  · rw [if_pos husage]
    apply blames_bind
    apply blames_get
    exact hnote _ hstate
  rw [if_neg husage]
  by_cases hhistory : line = ascii "/history"
  · rw [if_pos hhistory]
    apply blames_bind
    apply blames_get
    exact hnote _ hstate
  rw [if_neg hhistory]
  apply blames_bind
  refine (blames_chatMessage h tty hline hstate).mono fun state' _ hstate' => ?_
  exact blames_pure hstate'

theorem blames_chatLoop {lines : List Bytes} (hlines : ∀ line ∈ lines, Utf8.valid line = true)
    {state : ChatState × Console ω} (hstate : Chatting W state) :
    Blames bad (chatLoop s tty lines) state fun state' _ => Chatting W state' := by
  induction lines generalizing state with
  | nil => exact blames_prompt tty _ hstate
  | cons line lines ih =>
    rw [chatLoop]
    apply blames_bind
    refine (blames_prompt tty _ hstate).mono fun state₁ _ hstate₁ => ?_
    apply blames_bind
    have hline := hlines line (List.mem_cons_self ..)
    refine (blames_chatLine h tty hline hstate₁).mono fun state₂ go hstate₂ => ?_
    cases go with
    | true => exact ih (fun line hline => hlines line (List.mem_cons_of_mem _ hline)) hstate₂
    | false => exact blames_pure hstate₂

end Loop

theorem blames_chatModel (h : m.Decent W) {args : Cli.Args} (hargs : ValidArgs args)
    {config : GenerationConfig} (hconfig : config.Encodable) {c : Client (Bool × ω)}
    (hc : c.Decent fun s => W s.2) {con : Console ω} (hcon : W con.2.2) :
    Blames (Crash m.arith) (chatModel m args config c) con fun _ _ => True := by
  have hsession := decent_chatOf h hargs hconfig hc
  have hread := h.stdin con.2 hcon
  unfold chatModel
  apply blames_bind
  apply blames_modify
  apply blames_bind
  apply blames_lift (v := con.1.note _)
  apply blames_ask
  apply blames_bind
  apply blames_withLocals
  refine (blames_chatLoop hsession m.tty (valid_getlines hread.1)
    ⟨hread.2, List.forall_mem_nil _⟩).mono fun _ _ _ => ?_
  exact blames_pure trivial

end Chat

/-! The commands. -/
section Commands

theorem encodable_unset : GenerationConfig.unset.Encodable where
  responseMimeType := fun t ht => by cases ht
  responseSchema := rfl
  stopSequences := List.forall_mem_nil _

theorem encodable_of_applyCommon {a : Cli.Args} {config config' : GenerationConfig}
    {log : Cli.Args.LogOptions} (h : a.applyCommon config = .ok (log, config'))
    (hconfig : config.Encodable) : config'.Encodable := by
  have hread : ∀ level : Option Log.Level, (do
      let temperature ← a.getDouble (ascii "temperature") config.temperature
      let maxOutputTokens ← a.getInt (ascii "max-tokens") config.maxOutputTokens
      let thinkingBudget ← a.getInt (ascii "thinking-budget") config.thinkingBudget
      return ((⟨level, a.flag (ascii "log-json")⟩ : Cli.Args.LogOptions),
        { config with temperature, maxOutputTokens, thinkingBudget })) = .ok (log, config') →
      config'.Encodable := by
    intro level h
    cases htemperature : a.getDouble (ascii "temperature") config.temperature with
    | error e => rw [htemperature] at h; cases h
    | ok temperature =>
    cases hmax : a.getInt (ascii "max-tokens") config.maxOutputTokens with
    | error e => rw [htemperature, hmax] at h; cases h
    | ok maxOutputTokens =>
    cases hbudget : a.getInt (ascii "thinking-budget") config.thinkingBudget with
    | error e => rw [htemperature, hmax, hbudget] at h; cases h
    | ok thinkingBudget =>
    rw [htemperature, hmax, hbudget] at h
    cases h
    exact { responseMimeType := hconfig.responseMimeType
            responseSchema := hconfig.responseSchema
            stopSequences := hconfig.stopSequences }
  unfold Cli.Args.applyCommon at h
  cases htext : a.get (ascii "log-level") with
  | none => rw [htext] at h; exact hread none h
  | some text =>
    rw [htext] at h
    cases hlevel : Log.parseLevel text with
    | none => simp only [hlevel] at h; cases h
    | some level => simp only [hlevel] at h; exact hread (some level) h

theorem valid_of_parseCommand {argv : List Bytes} (hargv : ∀ word ∈ argv, Utf8.valid word = true)
    {values flags : Finset Bytes} {args : Cli.Args} {config : GenerationConfig}
    (h : parseCommand argv values flags = .ok (args, config)) :
    ValidArgs args ∧ config.Encodable := by
  unfold parseCommand at h
  split at h
  · cases h
  · next args' hparse =>
    split at h
    · cases h
    · next log config' hcommon =>
      cases h
      exact ⟨Cli.Args.valid_of_parse hargv hparse, encodable_of_applyCommon hcommon encodable_unset⟩

theorem blames_promptFrom {bad : Event → Prop} (h : m.Decent W) {args : Cli.Args}
    (hargs : ValidArgs args) {con : Console ω} (hcon : W con.2.2) :
    Blames bad (m.promptFrom args) con fun con' prompt =>
      W con'.2.2 ∧ Utf8.valid prompt = true := by
  unfold Machine.promptFrom
  split_ifs
  · have hread := h.stdin con.2 hcon
    exact blames_lift (v := con.1) (blames_ask ⟨hread.2, hread.1⟩)
  · exact blames_pure ⟨hcon, valid_joinWords hargs.2⟩

theorem wellEncoded_requestOf {args : Cli.Args} (hargs : ValidArgs args)
    {config : GenerationConfig} (hconfig : config.Encodable) {prompt : Bytes}
    (hprompt : Utf8.valid prompt = true) :
    (Wire.requestToJson (requestOf args config prompt)).wellEncoded = true := by
  apply Wire.wellEncoded_requestToJson
  · intro c hc
    rw [List.mem_singleton.mp hc]
    exact (Wire.wellEncoded_user_iff prompt).mpr hprompt
  · intro c hc part hpart
    obtain ⟨t, ht, rfl⟩ := Option.map_eq_some_iff.mp hc
    rw [List.mem_singleton.mp hpart]
    exact Wire.wellEncoded_text (hargs.1 _ t ht)
  · exact List.forall_mem_nil _
  · exact Wire.wellEncoded_configToJson hconfig
  · exact List.forall_mem_nil _

theorem decent_of_makeClient (h : m.Decent W) {args : Cli.Args} {c : Client (Bool × ω)}
    (hclient : m.makeClient args = .ok c) : c.Decent fun s => W s.2 := by
  obtain ⟨options, -, rfl⟩ := options_of_makeClient hclient
  exact h.server _

theorem valid_model (h : m.Decent W) {args : Cli.Args} (hargs : ValidArgs args)
    {c : Client (Bool × ω)} (hclient : m.makeClient args = .ok c) :
    Utf8.valid c.options.model = true := by
  obtain ⟨options, hoptions, rfl⟩ := options_of_makeClient hclient
  obtain ⟨-, rfl⟩ := fromEnv_eq_ok hoptions
  have hdefault : Utf8.valid (envOr m.getenv (ascii "GEMINI_MODEL")
      ClientOptions.defaultModel) = true := by
    unfold envOr
    split
    · next value hvalue =>
      split_ifs
      · exact valid_ascii (by decide)
      · exact h.model value hvalue
    · exact valid_ascii (by decide)
  have hchosen : Utf8.valid (args.getOr (ascii "model") (envOr m.getenv (ascii "GEMINI_MODEL")
      ClientOptions.defaultModel)) = true := by
    unfold Cli.Args.getOr
    cases hmodel : args.get (ascii "model") with
    | none => exact hdefault
    | some model => exact hargs.1 _ model hmodel
  unfold Client.create
  dsimp only
  split_ifs with hprefix
  · obtain ⟨rest, hrest⟩ := List.isPrefixOf_iff_prefix.mp hprefix
    rw [← hrest] at hchosen ⊢
    rw [Utf8.valid_append (valid_ascii (by decide))] at hchosen
    exact hchosen
  · exact hchosen

section Bodies
variable {bad : Event → Prop} (hbad : ∀ e, bad e → ∃ call value, e = .toolResult call value)

theorem blames_apiError (e : Error) (con : Console ω) :
    Blames bad (apiError e) con fun _ _ => True := by
  unfold apiError
  apply blames_bind
  apply blames_modify
  exact blames_pure trivial

theorem blames_usageError (message : Bytes) (con : Console ω) :
    Blames bad (usageError message) con fun _ _ => True := by
  unfold usageError
  apply blames_bind
  apply blames_modify
  exact blames_pure trivial

include hbad

theorem blames_askModel {c : Client (Bool × ω)} (hc : c.Decent fun s => W s.2) (args : Cli.Args)
    {request : GenerateRequest} (hrequest : (Wire.requestToJson request).wellEncoded = true)
    {con : Console ω} (hcon : W con.2.2) :
    Blames bad (askModel (c.beside Screen) args request) con fun _ _ => True := by
  have hreply : Blames bad (askReply (c.beside Screen) args request) con fun _ _ => True := by
    unfold askReply
    split_ifs
    · apply blames_bind
      refine (Client.blames_generate hc.beside hbad hrequest hcon).mono fun con' response _ => ?_
      apply blames_bind
      cases response with
      | ok reply => exact blames_modify (blames_pure trivial)
      | error e => exact blames_pure (blames_pure trivial)
    · exact (Client.blames_stream hc.beside hbad returning_stdoutPrinter hrequest hcon).mono
        fun _ _ _ => trivial
  unfold askModel
  apply blames_bind
  refine hreply.mono fun con' response _ => ?_
  apply blames_bind
  apply blames_modify
  cases response with
  | error e => exact blames_apiError e _
  | ok reply =>
    apply blames_bind
    apply blames_get
    apply blames_bind
    apply blames_modify
    exact blames_pure trivial

theorem blames_tokensModel {c : Client (Bool × ω)} (hc : c.Decent fun s => W s.2)
    (hmodel : Utf8.valid c.options.model = true) {request : GenerateRequest}
    (hrequest : (Wire.requestToJson request).wellEncoded = true) {con : Console ω}
    (hcon : W con.2.2) :
    Blames bad (tokensModel (c.beside Screen) request) con fun _ _ => True := by
  have hbody : ((c.beside Screen).countTokensBody request).wellEncoded = true := by
    apply Json.wellEncoded_object
    intro kv hkv
    rw [List.mem_singleton.mp hkv]
    refine ⟨valid_ascii (by decide), Json.wellEncoded_set hrequest (valid_ascii (by decide)) ?_⟩
    exact Utf8.valid_append_of_valid (valid_ascii (by decide)) hmodel
  unfold tokensModel
  apply blames_bind
  refine (Client.blames_countTokens hc.beside hbad hbody hcon).mono fun con' count _ => ?_
  cases count with
  | error e => exact blames_apiError e _
  | ok count =>
    apply blames_bind
    apply blames_modify
    exact blames_pure trivial

theorem blames_modelsModel {c : Client (Bool × ω)} (hc : c.Decent fun s => W s.2) (fuel : ℕ)
    (args : Cli.Args) {con : Console ω} (hcon : W con.2.2) :
    Blames bad (modelsModel fuel args (c.beside Screen)) con fun _ _ => True := by
  unfold modelsModel
  apply blames_bind
  refine (Client.blames_listModels hc.beside hbad fuel hcon).mono fun con' listed _ => ?_
  rcases listed with _ | (e | models)
  · exact blames_pure trivial
  · exact blames_map ((blames_apiError e _).mono fun _ _ _ => trivial)
  · apply blames_bind
    apply blames_modify
    exact blames_pure trivial

end Bodies

variable (h : m.Decent W) {argv : List Bytes} (hargv : ∀ word ∈ argv, Utf8.valid word = true)
  {con : Console ω} (hcon : W con.2.2)
include h hargv hcon

theorem blames_cmdAsk : Blames (Crash m.arith) (cmdAsk m argv) con fun _ _ => True := by
  unfold cmdAsk
  rcases hparsed : parseCommand argv ∅ askFlags with err | ⟨args, config⟩
  · exact blames_usageError err con
  obtain ⟨hargs, hconfig⟩ := valid_of_parseCommand hargv hparsed
  have hask : (askConfig args config).Encodable := by
    unfold askConfig
    split_ifs
    · refine { hconfig with responseMimeType := fun t ht => ?_ }
      rw [← Option.some.inj ht]
      exact valid_ascii (by decide)
    · exact hconfig
  apply blames_bind
  refine (blames_promptFrom h hargs hcon).mono fun con' prompt hprompt => ?_
  split_ifs
  · exact blames_usageError _ _
  · cases hclient : m.makeClient args with
    | error e => exact blames_apiError e _
    | ok c =>
      exact blames_askModel crash_results (decent_of_makeClient h hclient) args
        (wellEncoded_requestOf hargs hask hprompt.2) hprompt.1

theorem blames_cmdChat : Blames (Crash m.arith) (cmdChat m argv) con fun _ _ => True := by
  unfold cmdChat
  rcases hparsed : parseCommand argv ∅ chatFlags with err | ⟨args, config⟩
  · exact blames_usageError err con
  obtain ⟨hargs, hconfig⟩ := valid_of_parseCommand hargv hparsed
  dsimp only
  cases hclient : m.makeClient args with
  | error e => exact blames_apiError e _
  | ok c => exact blames_chatModel h hargs hconfig (decent_of_makeClient h hclient) hcon

theorem blames_cmdTokens : Blames (Crash m.arith) (cmdTokens m argv) con fun _ _ => True := by
  unfold cmdTokens
  rcases hparsed : parseCommand argv ∅ ∅ with err | ⟨args, config⟩
  · exact blames_usageError err con
  obtain ⟨hargs, -⟩ := valid_of_parseCommand hargv hparsed
  apply blames_bind
  refine (blames_promptFrom h hargs hcon).mono fun con' prompt hprompt => ?_
  cases hclient : m.makeClient args with
  | error e => exact blames_apiError e _
  | ok c =>
    exact blames_tokensModel crash_results (decent_of_makeClient h hclient)
      (valid_model h hargs hclient) (wellEncoded_requestOf hargs encodable_unset hprompt.2)
      hprompt.1

omit hargv in
theorem blames_cmdModels (fuel : ℕ) :
    Blames (Crash m.arith) (cmdModels m fuel argv) con fun _ _ => True := by
  unfold cmdModels
  rcases hparsed : parseCommand argv ∅ modelsFlags with err | ⟨args, config⟩
  · exact blames_map ((blames_usageError err con).mono fun _ _ _ => trivial)
  dsimp only
  cases hclient : m.makeClient args with
  | error e => exact blames_map ((blames_apiError e con).mono fun _ _ _ => trivial)
  | ok c => exact blames_modelsModel crash_results (decent_of_makeClient h hclient) fuel args hcon

theorem blames_main (version : Bytes) (eval : List Bytes → Program (Console ω) ℤ) (fuel : ℕ)
    (heval : argv[1]? ≠ some (ascii "eval")) :
    Blames (Crash m.arith) (main m version eval fuel argv) con fun _ _ => True := by
  have hprint : ∀ t status, Blames (Crash m.arith)
      (do print t; return some status : Program (Console ω) (Option ℤ)) con fun _ _ => True :=
    fun t status => blames_bind (blames_modify (blames_pure trivial))
  have hsome : ∀ {p : Program (Console ω) ℤ}, Blames (Crash m.arith) p con (fun _ _ => True) →
      Blames (Crash m.arith) (some <$> p) con fun _ _ => True :=
    fun hp => blames_map (hp.mono fun _ _ _ => trivial)
  unfold main
  cases hcommand : argv[1]? with
  | none => exact blames_bind (blames_modify (blames_pure trivial))
  | some command =>
    rw [hcommand] at heval
    dsimp only
    by_cases hhelp : command = ascii "--help" ∨ command = ascii "-h" ∨ command = ascii "help"
    · rw [if_pos hhelp]
      exact hprint _ _
    rw [if_neg hhelp]
    by_cases hversion : command = ascii "--version" ∨ command = ascii "version"
    · rw [if_pos hversion]
      exact hprint _ _
    rw [if_neg hversion]
    by_cases hanywhere : ascii "--help" ∈ argv.drop 2
    · rw [if_pos hanywhere]
      exact hprint _ _
    rw [if_neg hanywhere]
    by_cases hask : command = ascii "ask"
    · rw [if_pos hask]
      exact hsome (blames_cmdAsk h hargv hcon)
    rw [if_neg hask]
    by_cases hchat : command = ascii "chat"
    · rw [if_pos hchat]
      exact hsome (blames_cmdChat h hargv hcon)
    rw [if_neg hchat]
    by_cases htokens : command = ascii "tokens"
    · rw [if_pos htokens]
      exact hsome (blames_cmdTokens h hargv hcon)
    rw [if_neg htokens]
    by_cases hmodels : command = ascii "models"
    · rw [if_pos hmodels]
      exact blames_cmdModels h hcon fuel
    have hnot : command ≠ ascii "eval" := fun heq => heval (by rw [heq])
    rw [if_neg hmodels, if_neg hnot]
    exact hsome (blames_usageError _ con)

omit h hargv hcon

end Commands

/-- The program crashes exactly at a call of the calculator whose error quotes a byte that is no
character, if what the user says is valid and the server sends nothing but documents that decode. -/
theorem main_crashes (m : Machine ω) (W : ω → Prop) (h : m.Decent W) (version : Bytes)
    (eval : List Bytes → Program (Console ω) ℤ) (fuel : ℕ) (argv : List Bytes)
    (hargv : ∀ word ∈ argv, Utf8.valid word = true) (heval : argv[1]? ≠ some (ascii "eval"))
    (con : Console ω) (hcon : W con.2.2) :
    wp (main m version eval fuel argv) con fun es _ r =>
      ((∃ x, r = .error x) ↔ ∃ e ∈ es, Crash m.arith e) ∧
        ∀ e es' es'', es = es' ++ e :: es'' → Crash m.arith e → es'' = [] :=
  (blames_main h hargv hcon version eval fuel heval).throws_iff

/-- A multiplication sign that the calculator does not know. -/
def timesThree : Bytes := [0xC3, 0x97, 0x33]

def timesText : Bytes :=
  ascii "\x7b\"candidates\":[\x7b\"content\":\x7b\"parts\":[\x7b\"functionCall\":\x7b\"name\":" ++
    ascii "\"evaluate_expression\",\"args\":\x7b\"expression\":\"" ++ timesThree ++
    ascii "\"\x7d\x7d\x7d]\x7d\x7d]\x7d"

def timesDocument : Json :=
  Json.object [(ascii "candidates", .arr [Json.object [(ascii "content", Json.object [(ascii "parts",
    .arr [Json.object [(ascii "functionCall", Json.object [
      (ascii "name", .str (ascii "evaluate_expression")),
      (ascii "args", Json.object [(ascii "expression", .str timesThree)])])]])])]])]

def timesScript : StreamScript :=
  .piece (ascii "data: " ++ timesText ++ ascii "\n\n") (.error (makeError .cancelled []))
    (.done (.ok { status := 200, headers := [], body := [] }))

/-- A machine with a key, whose server asks for that product, and whose user says hello. -/
def timesMachine : Machine Unit :=
  { getenv := fun name => if name = ascii "GEMINI_API_KEY" then some (ascii "k") else none
    stdin := fun s => (ascii "hi\n", s), tty := false
    transport :=
      { send := fun _ s => (.error (makeError .transport []), s)
        sendStreaming := fun _ s => (timesScript, s) }
    host := .still
    text := .known [(timesText, timesDocument)] (ascii "\x7b\x7d")
    clock := { now := fun w => (0, w), print := fun _ => [] }, arith := default }

theorem decent_timesMachine : timesMachine.Decent fun _ => True where
  model name hname := by cases hname
  stdin s _ := ⟨valid_ascii (by decide), trivial⟩
  now s _ := trivial
  time t := rfl
  server options :=
    { parses := by
        intro b j hparse
        have hlookup : [(timesText, timesDocument)].lookup b = some j := hparse
        rw [List.lookup_cons] at hlookup
        split at hlookup
        · rw [← Option.some.inj hlookup]
          decide +kernel
        · cases hlookup
      unary := fun request s answer _ hanswer => by cases hanswer
      streamed := by
        intro request s _ data hdata hdone
        have hevents : SseParser.sseEvents timesScript.bytes = [timesText] := by decide +kernel
        have hsent : data ∈ SseParser.sseEvents timesScript.bytes := hdata
        rw [hevents, List.mem_singleton] at hsent
        rw [hsent]
        exact ⟨_, rfl⟩
      send := fun request s _ => trivial
      sendStreaming := fun request s _ => trivial
      sleeper := fun delay s _ => trivial
      clock := fun s _ => trivial
      rng := fun s _ => trivial }

theorem main_crashes_times :
    let argv := [ascii "gemini-cpp", ascii "chat", ascii "--tools"]
    let o := main timesMachine [] (fun _ => return exitOk) 1 argv (.blank, false, ())
    o.result = .error Json.typeError316 ∧ ∃ e ∈ o.events, Crash timesMachine.arith e := by
  intro argv o
  have hresult : o.result = .error Json.typeError316 := by decide +kernel
  have hargv : ∀ word ∈ argv, Utf8.valid word = true := by decide
  have hcrashes := main_crashes timesMachine (fun _ => True) decent_timesMachine []
    (fun _ => return exitOk) 1 argv hargv (by decide) (.blank, false, ()) trivial
  exact ⟨hresult, hcrashes.1.mp ⟨_, hresult⟩⟩

end Apps
end GeminiCpp
