import GeminiCpp.Apps.Requests

/-! What a command reports: its exit status, and what it writes to its two streams. -/
namespace GeminiCpp.Apps
open Traced Traced.Prog

variable {ω : Type}

/-- A part of the screen stays as it is. -/
def unchanged {κ : Type} (part : Screen → κ) (ω : Type) : Effect Event (Console ω) where
  rel con _ con' := part con'.1 = part con.1
  nil _ := rfl
  append h h' := h'.trans h

theorem allows_unchanged {κ : Type} (part : Screen → κ) (c : Client (Bool × ω)) :
    (c.beside Screen).Allows (unchanged part ω) where
  metric _ _ _ := rfl
  http _ _ _ := rfl
  bytes _ _ := rfl
  response _ _ := rfl
  sleep _ _ := rfl
  send _ _ := rfl
  sendStreaming _ _ := rfl
  sleeper _ _ := rfl
  clock _ := rfl
  rng _ := rfl

theorem err_stdoutPrinter (chunk : GenerateResponse) (con : Console ω) :
    (stdoutPrinter chunk con).2.1.err = con.1.err := by
  unfold stdoutPrinter
  split_ifs
  · rfl
  · cases chunk.candidates <;> rfl

/-- The printer writes nothing to `std::cerr`. -/
theorem allowsChunks_unchanged :
    Client.AllowsChunks (unchanged Screen.err ω) (some stdoutPrinter) := by
  intro chunk
  refine within_bind (within_emit fun _ => rfl) fun _ => ?_
  refine within_bind (within_lift (within_call fun con => err_stdoutPrinter chunk con)) fun go => ?_
  refine within_ite (fun _ => within_pure _) fun _ => ?_
  refine within_bind (within_emit fun _ => rfl) fun _ => ?_
  exact within_bind (Client.within_setVars _) fun _ => within_pure _

/-- How the server gave a reply. -/
inductive Received (c : Client ω) (es : List Event) (reply : GenerateResponse) : Prop
  /-- It is the document of the last response. -/
  | unary {before after : List Event} {answer : HttpResponse}
    (hes : es = before ++ .response (.ok answer) :: after) (hafter : ∀ e ∈ after, e.isMetric)
    (hchunks : chunksOf es = [])
    (hreply : Wire.parseResponseText c.text answer.body = .ok (.ok reply))
  /-- It was streamed in the last attempt: all of it, if it was not cancelled. -/
  | streamed {before last after : List Event} (hes : es = before ++ last ++ after)
    (hchunks : chunksOf es = chunksOf last) (hreply : reply = mergeAll (chunksOf last))
    (hwhole : .cancel ∉ es →
      Client.returned (chunksOf last) = c.decoded (SseParser.sseEvents (bytesOf last)))

theorem eq_of_map_checkBlocked {r : MayThrow (Result GenerateResponse)} {reply : GenerateResponse}
    (h : .ok (.ok reply) = r.map checkBlocked) : r = .ok (.ok reply) := by
  rcases r with x | (e | reply')
  · cases h
  · cases h
  · have hreply : reply = reply' := eq_of_checkBlocked (Except.ok.inj h)
    rw [hreply]

section Received
variable (c : Client ω) (request : GenerateRequest)

theorem wp_generate_received (w : ω) :
    wp (c.generate request) w fun es _ r =>
      ∀ reply, r = .ok (.ok reply) → Received c es reply := by
  rcases hvalid : c.validate request with e | ⟨⟩
  · simp only [Client.generate, hvalid, wp_bind, wp_emit, then_ok, wp_pure]
    exact fun reply h => by cases h
  refine wp_mono (c.wp_generate request w hvalid) fun es _ r h => ?_
  rcases h with ⟨x, -, rfl, -⟩ | ⟨body, -, s, before, after, -, rfl, rfl, hbefore, hafter⟩
  · exact fun reply h => by cases h
  obtain ⟨http, response, hes, hreply⟩ := wp_iff.mp (c.wp_generateAttempt body s)
  rw [hes]
  intro reply hr
  obtain ⟨answer, rfl, hparse⟩ := hreply reply (eq_of_map_checkBlocked hr.symm)
  have hsplit : before ++ [.http http, .response (.ok answer)] ++ after =
      (before ++ [.http http]) ++ .response (.ok answer) :: after := by simp
  have hsilent : ∀ e ∈ before ++ [.http http, .response (.ok answer)] ++ after, e.silent := by
    intro e he
    simp only [List.mem_append, List.mem_cons, List.not_mem_nil, or_false] at he
    rcases he with (he | rfl | rfl) | he
    · exact hbefore e he
    · trivial
    · trivial
    · exact (hafter e he).silent
  exact .unary hsplit hafter (Client.chunksOf_of_silent hsilent) hparse

theorem wp_stream_received (onChunk : Option (StreamCallback ω)) (w : ω) :
    wp (c.stream request onChunk) w fun es _ r =>
      ∀ reply, r = .ok (.ok reply) → Received c es reply := by
  rcases hvalid : c.validate request with e | ⟨⟩
  · simp only [Client.stream, hvalid, wp_bind, wp_emit, then_ok, wp_pure]
    exact fun reply h => by cases h
  refine wp_mono (Client.wp_stream c request onChunk w hvalid) fun es _ r h => ?_
  rcases h with ⟨x, -, rfl, -⟩ | ⟨body, -, s, before, after, -, rfl, rfl, hbefore, hafter⟩
  · exact fun reply h => by cases h
  have hspec := wp_iff.mp (Client.wp_streamAttempt c body onChunk s)
  intro reply hr
  have hlast := eq_of_map_checkBlocked hr.symm
  have hchunks : chunksOf (before ++ (c.streamAttempt body onChunk s).events ++ after) =
      chunksOf (c.streamAttempt body onChunk s).events := by
    rw [chunksOf_append, chunksOf_append, Client.chunksOf_of_silent hbefore,
      Client.chunksOf_of_silent fun e he => (hafter e he).silent, List.append_nil, List.nil_append]
  refine .streamed rfl hchunks (hspec.aggregate reply hlast) fun hcancel => ?_
  exact hspec.whole reply hlast fun hmem => hcancel (by simp [hmem])

end Received

/-! `ask` shows what it was sent, and says so if that is not the whole answer. -/
section Ask

/-- What `ask` shows of a reply. -/
structure Shown (args : Cli.Args) (es : List Event) (reply : GenerateResponse) (shown : Bytes) :
    Prop where
  unary : args.flag (ascii "no-stream") = true → shown = reply.text
  streamed : args.flag (ascii "no-stream") = false → Shows es shown
  /-- All of it, if nothing was cancelled and the chunks have one candidate, in front. -/
  whole : .cancel ∉ es → ∀ index, (∀ chunk ∈ chunksOf es, chunk.FrontAt index) →
    shown = reply.text

/-- The reply, and what is on the screen with it. -/
structure Asked (c : Client (Bool × ω)) (args : Cli.Args) (con : Console ω) (es : List Event)
    (con' : Console ω) (r : MayThrow (Result GenerateResponse)) : Prop where
  received : ∀ reply, r = .ok (.ok reply) → Received c es reply
  screen : ∀ response, r = .ok response → ∃ shown, con'.1 = con.1.print shown ∧
    (∀ e, response = .error e → Shows es shown) ∧
    ∀ reply, response = .ok reply → Shown args es reply shown

theorem received_beside {κ : Type} {c : Client ω} {es : List Event} {reply : GenerateResponse}
    (h : Received (c.beside κ) es reply) : Received c es reply := by
  cases h with
  | unary hes hafter hchunks hreply => exact .unary hes hafter hchunks hreply
  | streamed hes hchunks hreply hwhole => exact .streamed hes hchunks hreply hwhole

theorem Screen.eq_print {s s' : Screen} {t : Bytes} (hout : s'.out = s.out ++ t)
    (herr : s'.err = s.err) : s' = s.print t := by
  obtain ⟨out, err⟩ := s'
  obtain rfl : out = s.out ++ t := hout
  obtain rfl : err = s.err := herr
  rfl

variable {m : Machine ω} {argv : List Bytes} (c : Client (Bool × ω)) (args : Cli.Args)

theorem wp_askReply (request : GenerateRequest) (con : Console ω) :
    wp (askReply (c.beside Screen) args request) con (Asked c args con) := by
  unfold askReply
  split_ifs with hunary
  · rw [wp_bind]
    have hunchanged := Client.within_generate (allows_unchanged id c) request con
    have hprinted := Client.within_generate (allows_printed c) request con
    have hreceived := wp_generate_received (c.beside Screen) request con
    refine wp_mono (wp_and.mpr ⟨hunchanged, wp_and.mpr ⟨hprinted, hreceived⟩⟩) ?_
    intro es con₁ r hruns
    obtain ⟨hunchanged, hprinted, hreceived⟩ := hruns
    rcases r with x | (e | reply)
    · exact ⟨fun reply h => (by cases h), fun response h => by cases h⟩
    · obtain ⟨shown, hshows, hout⟩ := hprinted
      have hsame : con₁.1 = con.1 := hunchanged
      have hnone : shown = [] := by
        rw [hsame] at hout
        exact List.append_right_eq_self.mp hout.symm
      rw [hnone] at hshows
      simp only [then_ok, printReply, wp_bind, wp_pure, List.append_nil]
      refine ⟨fun reply h => (by cases h), fun response h => ?_⟩
      obtain rfl := Except.ok.inj h
      exact ⟨[], by rw [hsame]; exact (Screen.eq_print (List.append_nil _).symm rfl),
        fun _ _ => hshows, fun reply h => by cases h⟩
    · have hsame : con₁.1 = con.1 := hunchanged
      simp only [then_ok, printReply, print, wp_bind, wp_modify, wp_pure, List.append_nil]
      constructor
      case received =>
        intro reply' h
        obtain rfl := Except.ok.inj (Except.ok.inj h)
        exact received_beside (hreceived reply rfl)
      case screen =>
        intro response h
        obtain rfl := Except.ok.inj h
        refine ⟨reply.text, by rw [hsame], fun e h => (by cases h), fun reply' h => ?_⟩
        obtain rfl := Except.ok.inj h
        exact
          { unary := fun _ => rfl
            streamed := fun h => absurd (hunary.symm.trans h) (by decide)
            whole := fun _ _ _ => rfl }
  · have herr := Client.within_stream (allows_unchanged Screen.err c) allowsChunks_unchanged
      request con
    have hprinted := Client.within_stream (allows_printed c) allowsChunks_printed request con
    have hreceived := wp_stream_received (c.beside Screen) request (some stdoutPrinter) con
    have htext := Client.wp_stream_text (c.beside Screen) request (some stdoutPrinter) con
    refine wp_mono (wp_and.mpr ⟨herr, wp_and.mpr ⟨hprinted, wp_and.mpr ⟨hreceived, htext⟩⟩⟩) ?_
    intro es con₁ r hruns
    obtain ⟨herr, ⟨shown, hshows, hout⟩, hreceived, htext⟩ := hruns
    constructor
    case received => exact fun reply hr => received_beside (hreceived reply hr)
    case screen =>
      intro response hr
      refine ⟨shown, Screen.eq_print hout herr, fun _ _ => hshows, ?_⟩
      intro reply hreply
      constructor
      case unary => exact fun h => absurd h hunary
      case streamed => exact fun _ => hshows
      case whole =>
        intro hcancel index hfronts
        rw [hreply] at hr
        rw [hshows.eq_of_not_cancelled hcancel, htext reply index hr hfronts]

/-- The call of the library that a run of `ask` makes, with the words of the command: its events
are those of the run. -/
inductive AskCall (m : Machine ω) (argv : List Bytes) (con : Console ω) (es : List Event) :
    Cli.Args → Client (Bool × ω) → Result GenerateResponse → Prop
  | intro {args : Cli.Args} {config : GenerationConfig} {prompt : Bytes}
    {c : Client (Bool × ω)} {con₀ con₁ : Console ω} {response : Result GenerateResponse}
    (hargs : parseCommand argv ∅ askFlags = .ok (args, config))
    (hprompt : m.promptFrom args con = ⟨[], con₀, .ok prompt⟩)
    (hclient : m.makeClient args = .ok c)
    (hcall : askReply (c.beside Screen) args (requestOf args (askConfig args config) prompt) con₀ =
      ⟨es, con₁, .ok response⟩) :
    AskCall m argv con es args c response

/-- What is wrong with the words of an `ask`, or with its prompt. -/
inductive AskMisuse (m : Machine ω) (argv : List Bytes) (con : Console ω) : Bytes → Prop
  | words {message : Bytes} (hargs : parseCommand argv ∅ askFlags = .error message) :
    AskMisuse m argv con message
  | prompt {args : Cli.Args} {config : GenerationConfig} {prompt : Bytes} {con₀ : Console ω}
    (hargs : parseCommand argv ∅ askFlags = .ok (args, config))
    (hprompt : m.promptFrom args con = ⟨[], con₀, .ok prompt⟩)
    (hblank : blankPrompt prompt = true) : AskMisuse m argv con (ascii "empty prompt")

/-- The exit status of `ask`, and what it writes to its two streams. -/
inductive AskReport (m : Machine ω) (argv : List Bytes) (con con' : Console ω) (es : List Event) :
    ℤ → Prop
  | misused {message : Bytes} (hes : es = []) (hmisuse : AskMisuse m argv con message)
    (hscreen : con'.1 = con.1.note (ascii "gemini-cpp: " ++ message ++
      ascii "\nRun 'gemini-cpp --help' for usage.\n")) :
    AskReport m argv con con' es exitUsage
  | refused {e : Error} (hes : es = []) (hkey : ClientOptions.fromEnv m.getenv = .error e)
    (hscreen : con'.1 = con.1.note (ascii "gemini-cpp: " ++ e.describe ++ [lf])) :
    AskReport m argv con con' es exitFailure
  | failed {args : Cli.Args} {c : Client (Bool × ω)} {e : Error} {shown : Bytes}
    (hcall : AskCall m argv con es args c (.error e)) (hshown : Shows es shown)
    (hscreen : con'.1 = (con.1.print (shown ++ [lf])).note
      (ascii "gemini-cpp: " ++ e.describe ++ [lf])) :
    AskReport m argv con con' es exitFailure
  | answered {args : Cli.Args} {c : Client (Bool × ω)} {reply : GenerateResponse} {shown : Bytes}
    (hcall : AskCall m argv con es args c (.ok reply)) (hreceived : Received c es reply)
    (hshown : Shown args es reply shown)
    -- the flag is read after the call, and nothing sets it any more
    (hscreen : con'.1 = (con.1.print (shown ++ [lf])).note (askNotes args con'.2.1 reply)) :
    AskReport m argv con con' es exitOk

variable {c args}

theorem wp_askModel {con con₀ : Console ω} {config : GenerationConfig} {prompt : Bytes}
    (hargs : parseCommand argv ∅ askFlags = .ok (args, config))
    (hprompt : m.promptFrom args con = ⟨[], con₀, .ok prompt⟩)
    (hclient : m.makeClient args = .ok c) (hcon : con₀.1 = con.1) :
    wp (askModel (c.beside Screen) args (requestOf args (askConfig args config) prompt)) con₀
      fun es con' r => ∀ code, r = .ok code → AskReport m argv con con' es code := by
  have hasked := wp_iff.mp
    (wp_askReply c args (requestOf args (askConfig args config) prompt) con₀)
  have hcall : ∀ {es con₁ response}, askReply (c.beside Screen) args
      (requestOf args (askConfig args config) prompt) con₀ = ⟨es, con₁, .ok response⟩ →
      AskCall m argv con es args c response := .intro hargs hprompt hclient
  unfold askModel
  rw [wp_bind, wp_iff]
  generalize askReply (c.beside Screen) args (requestOf args (askConfig args config) prompt) con₀ =
    ran at hasked hcall
  obtain ⟨es, con₁, x | response⟩ := ran
  · exact fun code h => by cases h
  obtain ⟨shown, hscreen, hfailed, hshown⟩ := hasked.screen response rfl
  rw [hcon] at hscreen
  cases response with
  | error e =>
    simp only [then_ok, print, apiError, note, wp_bind, wp_modify, wp_pure, List.append_nil]
    intro code hcode
    obtain rfl := Except.ok.inj hcode
    refine .failed (hcall rfl) (hfailed e rfl) ?_
    rw [hscreen]
    simp [Screen.print]
  | ok reply =>
    simp only [then_ok, print, note, wp_bind, wp_modify, wp_get, wp_pure, List.append_nil]
    intro code hcode
    obtain rfl := Except.ok.inj hcode
    refine .answered (hcall rfl) (hasked.received reply rfl) (hshown reply rfl) ?_
    rw [hscreen]
    simp [Screen.print]

end Ask

/-- What `ask` reports. It ends with 0 exactly when the model answered; the answer is then on
`std::cout`, all of it if it was not interrupted. Otherwise one line on `std::cerr` says why. -/
theorem cmdAsk_reports (m : Machine ω) (argv : List Bytes) (con : Console ω) :
    wp (cmdAsk m argv) con fun es con' r =>
      ∀ code, r = .ok code → AskReport m argv con con' es code := by
  unfold cmdAsk
  cases hargs : parseCommand argv ∅ askFlags with
  | error err =>
    simp only [usageError, note, wp_bind, wp_modify, then_ok, wp_pure]
    intro code hcode
    obtain rfl := Except.ok.inj hcode
    exact .misused rfl (.words hargs) rfl
  | ok parsed =>
    obtain ⟨args, config⟩ := parsed
    obtain ⟨prompt, con₀, hcon, hprompt⟩ := exists_prompt m args con
    rw [wp_bind, wp_iff, hprompt, then_ok]
    split_ifs with hblank
    · simp only [usageError, note, wp_bind, wp_modify, then_ok, wp_pure]
      intro code hcode
      obtain rfl := Except.ok.inj hcode
      refine .misused rfl (.prompt hargs hprompt hblank) ?_
      rw [hcon]
    · cases hclient : m.makeClient args with
      | error e =>
        simp only [apiError, note, wp_bind, wp_modify, then_ok, wp_pure]
        intro code hcode
        obtain rfl := Except.ok.inj hcode
        refine .refused rfl (makeClient_error hclient) ?_
        rw [hcon]
      | ok c => exact wp_askModel hargs hprompt hclient hcon

/-- A question that is answered, and one that the server denies. -/
theorem cmdAsk_reports_twice :
    let denied : Console (List FakeTransport.Reply) :=
      (.blank, false, [FakeTransport.ofJson 403 (ascii "denied")])
    let o := cmdAsk helloMachine askArgv helloConsole
    let o' := cmdAsk helloMachine askArgv denied
    AskReport helloMachine askArgv helloConsole o.state o.events exitOk ∧
      o.state.1.out = ascii "hello\n" ∧
    AskReport helloMachine askArgv denied o'.state o'.events exitFailure ∧
      o'.state.1.err = ascii "gemini-cpp: [unauthenticated] HTTP 403: denied (HTTP 403)\n" := by
  intro denied o o'
  have hanswered : o.result = .ok exitOk := by decide +kernel
  have hdenied : o'.result = .ok exitFailure := by decide +kernel
  have hreport := wp_iff.mp (cmdAsk_reports helloMachine askArgv helloConsole) _ hanswered
  have hreport' := wp_iff.mp (cmdAsk_reports helloMachine askArgv denied) _ hdenied
  exact ⟨hreport, by decide +kernel, hreport', by decide +kernel⟩

end GeminiCpp.Apps
