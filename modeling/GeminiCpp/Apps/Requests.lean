import GeminiCpp.Apps.Commands
import GeminiCpp.Apps.Conversation

/-! What the program sends, and where: each command ends before it has a client, or runs with the
client that the environment and the command line choose. -/
namespace GeminiCpp.Apps
open Traced Traced.Prog

variable {ω α : Type}

/-- How a command with some flags of its own goes: it ends with an error before anything is sent, or
it runs a program with its client. -/
inductive Goes (m : Machine ω) (argv : List Bytes) (flags : Finset Bytes) (con : Console ω)
    (status : ℤ → α) (body : Cli.Args → Client (Bool × ω) → Program (Console ω) α → Prop) :
    List Event → Console ω → MayThrow α → Prop
  | misused {con' : Console ω} (message : Bytes)
    (h : con'.1 = con.1.note (ascii "gemini-cpp: " ++ message ++
      ascii "\nRun 'gemini-cpp --help' for usage.\n")) :
    Goes m argv flags con status body [] con' (.ok (status exitUsage))
  | refused {con' : Console ω} (e : Error) (hkey : ClientOptions.fromEnv m.getenv = .error e)
    (h : con'.1 = con.1.note (ascii "gemini-cpp: " ++ e.describe ++ [lf])) :
    Goes m argv flags con status body [] con' (.ok (status exitFailure))
  | runs {args : Cli.Args} {config : GenerationConfig} {c : Client (Bool × ω)}
    {p : Program (Console ω) α} {con₁ : Console ω}
    (hargs : parseCommand argv ∅ flags = .ok (args, config))
    (hclient : m.makeClient args = .ok c) (hbody : body args c p)
    (hout : con₁.1 = con.1) :
    Goes m argv flags con status body (p con₁).events (p con₁).state (p con₁).result

theorem makeClient_error {m : Machine ω} {args : Cli.Args} {e : Error}
    (h : m.makeClient args = .error e) : ClientOptions.fromEnv m.getenv = .error e := by
  unfold Machine.makeClient at h
  cases hoptions : ClientOptions.fromEnv m.getenv with
  | error e' =>
    rw [hoptions] at h
    cases h
    rfl
  | ok options =>
    rw [hoptions] at h
    cases h

/-- The prompt is read without a word on the screen. -/
theorem exists_prompt (m : Machine ω) (args : Cli.Args) (con : Console ω) :
    ∃ prompt con', con'.1 = con.1 ∧ m.promptFrom args con = ⟨[], con', .ok prompt⟩ := by
  unfold Machine.promptFrom
  split_ifs
  · exact ⟨_, (con.1, (m.stdin con.2).2), rfl, rfl⟩
  · exact ⟨_, con, rfl, rfl⟩

theorem wp_promptFrom {m : Machine ω} {args : Cli.Args} {con : Console ω}
    {Q : List Event → Console ω → MayThrow Bytes → Prop}
    (h : ∀ prompt con', con'.1 = con.1 → Q [] con' (.ok prompt)) :
    wp (m.promptFrom args) con Q := by
  obtain ⟨prompt, con', hcon, hprompt⟩ := exists_prompt m args con
  rw [wp_iff, hprompt]
  exact h prompt con' hcon

section Goes
variable {m : Machine ω} {argv : List Bytes} {flags : Finset Bytes} {con con₁ : Console ω}
  (status : ℤ → α)
  {body : Cli.Args → Client (Bool × ω) → Program (Console ω) α → Prop}

theorem goes_usageError (message : Bytes) (hcon : con₁.1 = con.1) :
    wp (status <$> usageError message) con₁ (Goes m argv flags con status body) := by
  simp only [usageError, note, wp_map, wp_bind, wp_modify, then_ok, wp_pure]
  exact .misused message (by rw [hcon])

theorem goes_apiError {args : Cli.Args} {e : Error} (h : m.makeClient args = .error e)
    (hcon : con₁.1 = con.1) :
    wp (status <$> apiError e) con₁ (Goes m argv flags con status body) := by
  simp only [apiError, note, wp_map, wp_bind, wp_modify, then_ok, wp_pure]
  exact .refused e (makeClient_error h) (by rw [hcon])

end Goes

section Commands
variable (m : Machine ω) (argv : List Bytes) (con : Console ω)

/-- What `ask` runs with its client. -/
def AskBody (args : Cli.Args) (c : Client (Bool × ω)) (p : Program (Console ω) ℤ) : Prop :=
  ∃ request, p = askModel (c.beside Screen) args request

theorem wp_cmdAsk : wp (cmdAsk m argv) con (Goes m argv askFlags con id AskBody) := by
  unfold cmdAsk
  cases hargs : parseCommand argv ∅ askFlags with
  | error err => exact goes_usageError id err rfl
  | ok parsed =>
    obtain ⟨args, config⟩ := parsed
    rw [wp_bind]
    refine wp_promptFrom fun prompt con₁ hcon => ?_
    rw [then_ok]
    split_ifs
    · exact goes_usageError id _ hcon
    · cases hclient : m.makeClient args with
      | error e => exact goes_apiError id hclient hcon
      | ok c => exact .runs hargs hclient ⟨_, rfl⟩ hcon

/-- What `chat` runs. -/
def ChatBody (m : Machine ω) (args : Cli.Args) (c : Client (Bool × ω))
    (p : Program (Console ω) ℤ) : Prop :=
  ∃ config, p = chatModel m args config c

theorem wp_cmdChat : wp (cmdChat m argv) con (Goes m argv chatFlags con id (ChatBody m)) := by
  unfold cmdChat
  rcases hargs : parseCommand argv ∅ chatFlags with err | ⟨args, config⟩
  · exact goes_usageError id err rfl
  · dsimp only
    cases hclient : m.makeClient args with
    | error e => exact goes_apiError id hclient rfl
    | ok c => exact .runs hargs hclient ⟨config, rfl⟩ rfl

/-- What `tokens` runs. -/
def TokensBody (_ : Cli.Args) (c : Client (Bool × ω)) (p : Program (Console ω) ℤ) : Prop :=
  ∃ request, p = tokensModel (c.beside Screen) request

theorem wp_cmdTokens : wp (cmdTokens m argv) con (Goes m argv ∅ con id TokensBody) := by
  unfold cmdTokens
  cases hargs : parseCommand argv ∅ ∅ with
  | error err => exact goes_usageError id err rfl
  | ok parsed =>
    obtain ⟨args, config⟩ := parsed
    rw [wp_bind]
    refine wp_promptFrom fun prompt con₁ hcon => ?_
    rw [then_ok]
    cases hclient : m.makeClient args with
    | error e => exact goes_apiError id hclient hcon
    | ok c => exact .runs hargs hclient ⟨_, rfl⟩ hcon

/-- What `models` runs. -/
def ModelsBody (fuel : ℕ) (args : Cli.Args) (c : Client (Bool × ω))
    (p : Program (Console ω) (Option ℤ)) : Prop :=
  p = modelsModel fuel args (c.beside Screen)

theorem wp_cmdModels (fuel : ℕ) :
    wp (cmdModels m fuel argv) con (Goes m argv modelsFlags con some (ModelsBody fuel)) := by
  unfold cmdModels
  rcases hargs : parseCommand argv ∅ modelsFlags with err | ⟨args, config⟩
  · exact goes_usageError some err rfl
  · dsimp only
    cases hclient : m.makeClient args with
    | error e => exact goes_apiError some hclient rfl
    | ok c => exact .runs hargs hclient rfl rfl

end Commands

section Sends
variable {P : Event → Prop} {c : Client (Bool × ω)}

/-- The events of a run that sends nothing but what the client makes. -/
def OnlyMakes (c : Client (Bool × ω)) (e : Event) : Prop :=
  ∀ request, e = .http request → c.Makes request

theorem makes_beside {κ : Type} {request : HttpRequest} (h : (c.beside κ).Makes request) :
    c.Makes request := by
  cases h with
  | generate body => exact .generate body
  | stream body => exact .stream body
  | countTokens body => exact .countTokens body
  | page pageToken => exact .page pageToken

theorem onlyMakes_of_ne {e : Event} (h : ∀ request, e ≠ .http request) : OnlyMakes c e :=
  fun request he => absurd he (h request)

theorem rel_onlyMakes {e : Event} (h : ∀ request, e ≠ .http request) (con : Console ω) :
    (Effect.ofEvents (OnlyMakes c)).rel con [e] con := by
  intro e' he'
  rw [List.mem_singleton.mp he']
  exact onlyMakes_of_ne h

theorem rel_ofEvents_nil (con con' : Console ω) : (Effect.ofEvents P).rel con [] con' :=
  fun _ he => by cases he

theorem allows_onlyMakes : (c.beside Screen).Allows (Effect.ofEvents (OnlyMakes c)) where
  metric con _ _ := rel_onlyMakes (by simp) con
  http con request hrequest := by
    intro e he request' he'
    rw [List.mem_singleton.mp he] at he'
    cases he'
    exact makes_beside hrequest
  bytes con _ := rel_onlyMakes (by simp) con
  response con _ := rel_onlyMakes (by simp) con
  sleep con _ := rel_onlyMakes (by simp) con
  send _ _ := rel_ofEvents_nil _ _
  sendStreaming _ _ := rel_ofEvents_nil _ _
  sleeper _ _ := rel_ofEvents_nil _ _
  clock _ := rel_ofEvents_nil _ _
  rng _ := rel_ofEvents_nil _ _

theorem allowsChunks_onlyMakes (onChunk : Option (StreamCallback (Console ω))) :
    Client.AllowsChunks (Effect.ofEvents (OnlyMakes c)) onChunk := by
  intro chunk
  refine within_bind (within_emit fun s => rel_onlyMakes (by simp) s.2) fun _ => ?_
  cases onChunk with
  | none => exact within_pure _
  | some callback =>
    refine within_bind (within_lift (within_call fun con => rel_ofEvents_nil _ _)) fun go => ?_
    refine within_ite (fun _ => within_pure _) fun _ => ?_
    refine within_bind (within_emit fun s => rel_onlyMakes (by simp) s.2) fun _ => ?_
    exact within_bind (Client.within_setVars _) fun _ => within_pure _

theorem within_print (t : Bytes) : Within (Effect.ofEvents P) (print t : Program (Console ω) Unit) :=
  within_modify fun _ => rel_ofEvents_nil _ _

theorem within_note (t : Bytes) : Within (Effect.ofEvents P) (note t : Program (Console ω) Unit) :=
  within_modify fun _ => rel_ofEvents_nil _ _

theorem within_apiError (e : Error) :
    Within (Effect.ofEvents P) (apiError e : Program (Console ω) ℤ) :=
  within_bind (within_note _) fun _ => within_pure _

theorem within_askModel (args : Cli.Args) (request : GenerateRequest) :
    Within (Effect.ofEvents (OnlyMakes c)) (askModel (c.beside Screen) args request) := by
  have hreply :
      Within (Effect.ofEvents (OnlyMakes c)) (askReply (c.beside Screen) args request) := by
    unfold askReply
    refine within_ite (fun _ => ?_) fun _ => ?_
    · refine within_bind (Client.within_generate allows_onlyMakes request) fun response => ?_
      refine within_bind ?_ fun _ => within_pure _
      cases response with
      | error e => exact within_pure _
      | ok reply => exact within_print _
    · exact Client.within_stream allows_onlyMakes (allowsChunks_onlyMakes _) request
  refine within_bind hreply fun response => within_bind (within_print _) fun _ => ?_
  cases response with
  | error e => exact within_apiError e
  | ok reply =>
    exact within_bind within_get fun con => within_bind (within_note _) fun _ => within_pure _

theorem within_tokensModel (request : GenerateRequest) :
    Within (Effect.ofEvents (OnlyMakes c)) (tokensModel (c.beside Screen) request) := by
  refine within_bind (Client.within_countTokens allows_onlyMakes request) fun count => ?_
  cases count with
  | error e => exact within_apiError e
  | ok count => exact within_bind (within_print _) fun _ => within_pure _

theorem within_modelsModel (fuel : ℕ) (args : Cli.Args) :
    Within (Effect.ofEvents (OnlyMakes c)) (modelsModel fuel args (c.beside Screen)) := by
  refine within_bind (Client.within_listModels allows_onlyMakes fuel) fun listed => ?_
  rcases listed with _ | (e | models)
  · exact within_pure _
  · exact within_map _ (within_apiError e)
  · exact within_bind (within_print _) fun _ => within_pure _

section Chat
variable (options : ChatOptions) (tools : Option (ToolRegistry (Bool × ω)))

theorem chatSession_allows_onlyMakes : (chatSession c options tools).Allows (some stdoutPrinter)
    (Effect.ofEvents (OnlyMakes c)) where
  request con _ := rel_onlyMakes (by simp) con
  toolRound con _ := rel_onlyMakes (by simp) con
  handler con _ _ := rel_onlyMakes (by simp) con
  toolResult con _ _ := rel_onlyMakes (by simp) con
  stream callback _ request :=
    Client.within_stream allows_onlyMakes (allowsChunks_onlyMakes _) request
  generate h := by cases h
  handlers _ _ _ _ _ _ _ := rel_ofEvents_nil _ _
  observer _ _ _ _ _ := rel_ofEvents_nil _ _

variable {s : ChatSession (Console ω)} (h : s.Allows (some stdoutPrinter) (Effect.ofEvents P))
  (tty : Bool)

theorem within_prompt (t : Bytes) :
    Within ((Effect.ofEvents P).beside ChatState) (prompt tty t : Program (_ × Console ω) Unit) :=
  within_ite (fun _ => within_lift (within_note t)) fun _ => within_pure _

include h

theorem within_chatMessage (line : Bytes) :
    Within ((Effect.ofEvents P).beside ChatState) (chatMessage s tty line) := by
  refine within_bind (within_lift (within_modify fun _ => rel_ofEvents_nil _ _)) fun _ => ?_
  refine within_bind (within_prompt tty _) fun _ => ?_
  refine within_bind (ChatSession.within_send h line) fun reply => ?_
  refine within_bind (within_lift (within_print _)) fun _ => ?_
  cases reply with
  | ok _ => exact within_pure _
  | error e => exact within_lift (within_note _)

theorem within_chatLine (line : Bytes) :
    Within ((Effect.ofEvents P).beside ChatState) (chatLine s tty line) := by
  have hnote : ∀ t, Within ((Effect.ofEvents P).beside ChatState)
      (do Prog.lift (note t); return true : Program (ChatState × Console ω) Bool) :=
    fun t => within_bind (within_lift (within_note t)) fun _ => within_pure _
  unfold chatLine
  refine within_ite (fun _ => within_pure _) fun _ => ?_
  refine within_ite (fun _ => within_pure _) fun _ => ?_
  refine within_ite (fun _ => within_bind (ChatSession.within_setState _) fun _ => hnote _) ?_
  refine fun _ => within_ite (fun _ => within_bind within_get fun _ => hnote _) fun _ => ?_
  refine within_ite (fun _ => within_bind within_get fun _ => hnote _) fun _ => ?_
  exact within_bind (within_chatMessage h tty line) fun _ => within_pure _

theorem within_chatLoop (lines : List Bytes) :
    Within ((Effect.ofEvents P).beside ChatState) (chatLoop s tty lines) := by
  induction lines with
  | nil => exact within_prompt tty _
  | cons line lines ih =>
    refine within_bind (within_prompt tty _) fun _ => ?_
    refine within_bind (within_chatLine h tty line) fun go => ?_
    exact within_ite (fun _ => ih) fun _ => within_pure _

end Chat

theorem within_chatModel (m : Machine ω) (args : Cli.Args) (config : GenerationConfig) :
    Within (Effect.ofEvents (OnlyMakes c)) (chatModel m args config c) := by
  refine within_bind (within_note _) fun _ => ?_
  have hread : Within (Effect.ofEvents (OnlyMakes c)) m.readStdin := fun con => rel_ofEvents_nil _ _
  refine within_bind hread fun input => ?_
  refine within_bind (within_withLocals _ ?_) fun _ => within_pure _
  exact within_chatLoop (chatSession_allows_onlyMakes _ _) m.tty _

end Sends

/-! A command that has a client is not misused. -/
section Status

theorem yields_apiError (e : Error) :
    Yields (· ≠ exitUsage) (apiError e : Program (Console ω) ℤ) :=
  yields_bind fun _ => yields_pure (by decide)

theorem yields_askModel (c : Client (Console ω)) (args : Cli.Args) (request : GenerateRequest) :
    Yields (· ≠ exitUsage) (askModel c args request) := by
  refine yields_bind fun response => yields_bind fun _ => ?_
  cases response with
  | error e => exact yields_apiError e
  | ok reply => exact yields_bind fun con => yields_bind fun _ => yields_pure (by decide)

theorem yields_chatModel (m : Machine ω) (args : Cli.Args) (config : GenerationConfig)
    (c : Client (Bool × ω)) : Yields (· ≠ exitUsage) (chatModel m args config c) :=
  yields_bind fun _ => yields_bind fun _ => yields_bind fun _ => yields_pure (by decide)

theorem yields_tokensModel (c : Client (Console ω)) (request : GenerateRequest) :
    Yields (· ≠ exitUsage) (tokensModel c request) := by
  refine yields_bind fun count => ?_
  cases count with
  | error e => exact yields_apiError e
  | ok count => exact yields_bind fun _ => yields_pure (by decide)

theorem yields_modelsModel (fuel : ℕ) (args : Cli.Args) (c : Client (Console ω)) :
    Yields (· ≠ some exitUsage) (modelsModel fuel args c) := by
  refine yields_bind fun listed => ?_
  rcases listed with _ | (e | models)
  · exact yields_pure (by decide)
  · have hfailure : Yields (fun code => some code ≠ some exitUsage)
        (apiError e : Program (Console ω) ℤ) := yields_bind fun _ => yields_pure (by decide)
    exact yields_map hfailure
  · exact yields_bind fun _ => yields_pure (by decide)

end Status

/-- Where requests go, and the key that they carry. -/
structure Destination where
  apiKey : Bytes
  baseUrl : Bytes
  model : Bytes

namespace Destination

/-- The destination that an environment and the option `--model` choose. -/
structure Chosen (getenv : Bytes → Option Bytes) (model : Option Bytes) (d : Destination) :
    Prop where
  key : d.apiKey ≠ []
  /-- A `GEMINI_API_KEY` that is not empty wins. -/
  keySource : getenv (ascii "GEMINI_API_KEY") = some d.apiKey ∨
    ((getenv (ascii "GEMINI_API_KEY")).getD [] = [] ∧
      getenv (ascii "GOOGLE_API_KEY") = some d.apiKey)
  noSlash : d.baseUrl.getLast? ≠ some 0x2F
  baseUrl : ∃ n, envOr getenv (ascii "GEMINI_BASE_URL") ClientOptions.defaultBaseUrl =
    d.baseUrl ++ List.replicate n 0x2F
  /-- One `models/` before the name is dropped. -/
  model : ∀ chosen, chosen = model.getD (envOr getenv (ascii "GEMINI_MODEL")
    ClientOptions.defaultModel) → chosen = ascii "models/" ++ d.model ∨
      (chosen = d.model ∧ startsWith chosen (ascii "models/") = false)

def headers (d : Destination) : List (Bytes × Bytes) :=
  [(ascii "Content-Type", ascii "application/json"), (ascii "x-goog-api-key", d.apiKey)]

/-- The requests that may arrive there. -/
inductive Receives (d : Destination) : HttpRequest → Prop
  | post (method : Bytes) (hmethod : method ∈ [ascii "generateContent",
      ascii "streamGenerateContent?alt=sse", ascii "countTokens"]) (body : Bytes) :
    d.Receives
      { method := ascii "POST", headers := d.headers, body, timeout := 120000
        url := d.baseUrl ++ ascii "/models/" ++ d.model ++ ascii ":" ++ method }
  | page (query : Bytes) (hquery : query = [] ∨
      ∃ token, token ≠ [] ∧ query = ascii "&pageToken=" ++ token) :
    d.Receives
      { method := ascii "GET", headers := d.headers, body := [], timeout := 120000
        url := d.baseUrl ++ ascii "/models?pageSize=100" ++ query }

end Destination

theorem envOr_eq_some {getenv : Bytes → Option Bytes} {name fallback value : Bytes}
    (h : envOr getenv name fallback = value) :
    (getenv name = some value ∧ value ≠ []) ∨ ((getenv name).getD [] = [] ∧ fallback = value) := by
  unfold envOr at h
  cases hname : getenv name with
  | none => exact Or.inr ⟨rfl, by simpa only [hname] using h⟩
  | some v =>
    simp only [hname] at h
    by_cases hv : v = []
    · exact Or.inr ⟨hv, by rwa [if_pos hv] at h⟩
    · rw [if_neg hv] at h
      rw [← h]
      exact Or.inl ⟨rfl, hv⟩

/-- The destination of a client. -/
def destinationOf (c : Client ω) : Destination :=
  { apiKey := c.options.apiKey, baseUrl := c.options.baseUrl, model := c.options.model }

theorem dropWhile_reverse_slashes (s : Bytes) :
    ((s.reverse.dropWhile (· = 0x2F)).reverse.getLast? ≠ some 0x2F) ∧
      ∃ n, s = (s.reverse.dropWhile (· = 0x2F)).reverse ++ List.replicate n 0x2F := by
  have hsplit : s.reverse.takeWhile (· = 0x2F) ++ s.reverse.dropWhile (· = 0x2F) = s.reverse :=
    List.takeWhile_append_dropWhile
  have hslashes : s.reverse.takeWhile (· = 0x2F) =
      List.replicate (s.reverse.takeWhile (· = 0x2F)).length 0x2F := by
    rw [List.eq_replicate_iff]
    exact ⟨rfl, fun b hb => by simpa using List.mem_takeWhile_imp hb⟩
  constructor
  · rw [List.getLast?_reverse]
    intro hhead
    have hne := List.head?_dropWhile_not (p := fun b : UInt8 => decide (b = 0x2F)) s.reverse
    rw [hhead] at hne
    simp at hne
  · refine ⟨(s.reverse.takeWhile (· = 0x2F)).length, ?_⟩
    have hreverse := congrArg List.reverse hsplit
    rw [List.reverse_append, List.reverse_reverse, hslashes, List.reverse_replicate] at hreverse
    exact hreverse.symm

theorem model_normalised {s model : Bytes}
    (h : model = if (ascii "models/").isPrefixOf s then s.drop 7 else s) :
    s = ascii "models/" ++ model ∨ (s = model ∧ startsWith s (ascii "models/") = false) := by
  by_cases hprefix : (ascii "models/").isPrefixOf s = true
  · rw [if_pos hprefix] at h
    obtain ⟨rest, rfl⟩ := List.isPrefixOf_iff_prefix.mp hprefix
    left
    rw [h]
    rfl
  · rw [if_neg hprefix] at h
    exact Or.inr ⟨h.symm, eq_false_of_ne_true hprefix⟩

/-- The options of the client that a command gets. -/
theorem options_of_makeClient {m : Machine ω} {args : Cli.Args} {c : Client (Bool × ω)}
    (h : m.makeClient args = .ok c) :
    ∃ options, ClientOptions.fromEnv m.getenv = .ok options ∧
      c = Client.create { options with model := args.getOr (ascii "model") options.model }
        m.transport m.host m.text := by
  unfold Machine.makeClient at h
  cases hoptions : ClientOptions.fromEnv m.getenv with
  | error e =>
    rw [hoptions] at h
    cases h
  | ok options =>
    rw [hoptions] at h
    exact ⟨options, rfl, (Except.ok.inj h).symm⟩

theorem fromEnv_eq_ok {getenv : Bytes → Option Bytes} {options : ClientOptions}
    (h : ClientOptions.fromEnv getenv = .ok options) :
    options.apiKey ≠ [] ∧ options =
      { apiKey := envOr getenv (ascii "GEMINI_API_KEY") (envOr getenv (ascii "GOOGLE_API_KEY") [])
        timeout := 120000, retry := .default
        model := envOr getenv (ascii "GEMINI_MODEL") ClientOptions.defaultModel
        baseUrl := envOr getenv (ascii "GEMINI_BASE_URL") ClientOptions.defaultBaseUrl } := by
  simp only [ClientOptions.fromEnv] at h
  split_ifs at h with hkey
  obtain rfl := Except.ok.inj h
  exact ⟨hkey, rfl⟩

theorem chosen_of_makeClient {m : Machine ω} {args : Cli.Args} {c : Client (Bool × ω)}
    (h : m.makeClient args = .ok c) :
    (destinationOf c).Chosen m.getenv (args.get (ascii "model")) := by
  obtain ⟨options, hoptions, rfl⟩ := options_of_makeClient h
  obtain ⟨hkey, rfl⟩ := fromEnv_eq_ok hoptions
  have hsource := envOr_eq_some (Eq.refl (envOr m.getenv (ascii "GEMINI_API_KEY")
    (envOr m.getenv (ascii "GOOGLE_API_KEY") [])))
  constructor
  case key => exact hkey
  case keySource =>
    rcases hsource with ⟨hset, -⟩ | ⟨hunset, hgoogle⟩
    · exact Or.inl hset
    · rcases envOr_eq_some hgoogle with ⟨hset, -⟩ | ⟨-, hnone⟩
      · exact Or.inr ⟨hunset, hset⟩
      · exact absurd hnone.symm hkey
  case noSlash => exact (dropWhile_reverse_slashes _).1
  case baseUrl => exact (dropWhile_reverse_slashes _).2
  case model =>
    intro chosen hchosen
    rw [hchosen]
    exact model_normalised rfl

theorem receives_of_makes {m : Machine ω} {args : Cli.Args} {c : Client (Bool × ω)}
    (h : m.makeClient args = .ok c) {request : HttpRequest} (hmakes : c.Makes request) :
    (destinationOf c).Receives request := by
  obtain ⟨options, hoptions, rfl⟩ := options_of_makeClient h
  obtain ⟨-, rfl⟩ := fromEnv_eq_ok hoptions
  generalize hc : Client.create _ m.transport m.host m.text = c at hmakes
  have htimeout : c.options.timeout = 120000 := by
    rw [← hc]
    rfl
  have hsse : ascii "streamGenerateContent?alt=sse" =
      ascii "streamGenerateContent" ++ ascii "?alt=sse" := by decide
  cases hmakes with
  | generate body =>
    have hmethod := Destination.Receives.post (d := destinationOf c)
      (ascii "generateContent") (by simp) body
    rw [← htimeout] at hmethod
    exact hmethod
  | stream body =>
    have hmethod := Destination.Receives.post (d := destinationOf c)
      (ascii "streamGenerateContent?alt=sse") (by simp) body
    rw [← htimeout, hsse, ← List.append_assoc] at hmethod
    exact hmethod
  | countTokens body =>
    have hmethod := Destination.Receives.post (d := destinationOf c)
      (ascii "countTokens") (by simp) body
    rw [← htimeout] at hmethod
    exact hmethod
  | page token =>
    by_cases htoken : token = []
    · have hpage := Destination.Receives.page (d := destinationOf c) [] (Or.inl rfl)
      rw [← htimeout, List.append_nil] at hpage
      rw [htoken]
      exact hpage
    · have hpage := Destination.Receives.page (d := destinationOf c)
        (ascii "&pageToken=" ++ token) (Or.inr ⟨token, htoken, rfl⟩)
      have hurl : c.pageUrl token = c.options.baseUrl ++ ascii "/models?pageSize=100" ++
          (ascii "&pageToken=" ++ token) := by
        unfold Client.pageUrl
        rw [if_neg htoken, List.append_assoc, List.append_assoc]
      rw [← htimeout] at hpage
      rw [hurl]
      exact hpage

/-- The flags that the command in `argv` has of its own. -/
def ownFlags (argv : List Bytes) : Finset Bytes :=
  if argv[1]? = some (ascii "ask") then askFlags
  else if argv[1]? = some (ascii "chat") then chatFlags
  else if argv[1]? = some (ascii "models") then modelsFlags
  else ∅

/-- All requests of a run go to one destination, which the environment and the words of the command
choose. -/
def Sends (m : Machine ω) (argv : List Bytes) (flags : Finset Bytes) (es : List Event) : Prop :=
  (∀ request, .http request ∉ es) ∨
    ∃ args config, ∃ d : Destination, parseCommand argv ∅ flags = .ok (args, config) ∧
      d.Chosen m.getenv (args.get (ascii "model")) ∧
      ∀ request, .http request ∈ es → d.Receives request

/-- What a run sends, and that it sends and prints nothing when it was misused. -/
structure Careful (m : Machine ω) (argv : List Bytes) (flags : Finset Bytes) (con : Console ω)
    (misused : Prop) (es : List Event) (con' : Console ω) : Prop where
  sends : Sends m argv flags es
  misused : misused → es = [] ∧ con'.1.out = con.1.out

section Careful
variable {m : Machine ω} {argv : List Bytes} {flags : Finset Bytes} {con con' : Console ω}
  {es : List Event}

theorem Careful.silent {misused : Prop} (hout : misused → con'.1.out = con.1.out) :
    Careful m argv flags con misused [] con' where
  sends := Or.inl fun _ h => by cases h
  misused h := ⟨rfl, hout h⟩

theorem Goes.careful {status : ℤ → α}
    {body : Cli.Args → Client (Bool × ω) → Program (Console ω) α → Prop}
    (hwithin : ∀ args c p, body args c p → Within (Effect.ofEvents (OnlyMakes c)) p)
    (hyields : ∀ args c p, body args c p → Yields (· ≠ status exitUsage) p) {r : MayThrow α}
    (h : Goes m argv flags con status body es con' r) :
    Careful m argv flags con (r = .ok (status exitUsage)) es con' := by
  cases h with
  | misused message h => exact .silent fun _ => by rw [h, Screen.out_note]
  | refused e hkey h => exact .silent fun _ => by rw [h, Screen.out_note]
  | @runs args config c p con₁ hargs hclient hbody hout =>
    have hmakes := hwithin args c p hbody con₁
    have hmisused := hyields args c p hbody con₁
    constructor
    · right
      refine ⟨args, config, destinationOf c, hargs, chosen_of_makeClient hclient, ?_⟩
      intro request hrequest
      exact receives_of_makes hclient (hmakes _ hrequest request rfl)
    · exact fun h => absurd rfl (hmisused _ h)

/-- A command that gives a number. -/
theorem careful_command {p : Program (Console ω) ℤ}
    {body : Cli.Args → Client (Bool × ω) → Program (Console ω) ℤ → Prop}
    (h : wp p con (Goes m argv flags con id body))
    (hwithin : ∀ args c p, body args c p → Within (Effect.ofEvents (OnlyMakes c)) p)
    (hyields : ∀ args c p, body args c p → Yields (· ≠ exitUsage) p) :
    wp (some <$> p) con fun es con' r =>
      Careful m argv flags con (r = .ok (some exitUsage)) es con' := by
  rw [wp_map]
  refine wp_mono h fun es con' r hgoes => ?_
  have hcareful := hgoes.careful hwithin hyields
  refine ⟨hcareful.sends, fun hr => hcareful.misused ?_⟩
  cases r with
  | error x => cases hr
  | ok code => exact congrArg _ (Option.some.inj (Except.ok.inj hr))

end Careful

/-- Whatever the server, the terminal and the user do: all requests of a run go to the base URL and
the model that were chosen, with the key of the environment in their headers, and a run that ends
with a usage error has sent and printed nothing. -/
theorem main_requests (m : Machine ω) (version : Bytes)
    (eval : List Bytes → Program (Console ω) ℤ) (fuel : ℕ) (argv : List Bytes)
    (heval : argv[1]? ≠ some (ascii "eval")) (con : Console ω) :
    wp (main m version eval fuel argv) con fun es con' r =>
      Careful m argv (ownFlags argv) con (r = .ok (some exitUsage)) es con' := by
  have hprint : ∀ t, wp (do print t; return some exitOk : Program (Console ω) (Option ℤ)) con
      fun es con' r => Careful m argv (ownFlags argv) con (r = .ok (some exitUsage)) es con' :=
    fun t => .silent fun h => absurd (Except.ok.inj h) (by decide)
  unfold main
  cases hcommand : argv[1]? with
  | none => exact .silent fun _ => rfl
  | some command =>
    dsimp only
    split_ifs with hhelp hversion hword hask hchat htokens hmodels htasks
    · exact hprint _
    · exact hprint _
    · exact hprint _
    · have hflags : ownFlags argv = askFlags := by rw [ownFlags, hcommand, hask, if_pos rfl]
      rw [hflags]
      refine careful_command (wp_cmdAsk m argv con) ?_ ?_
      · rintro args c p ⟨request, rfl⟩
        exact within_askModel args request
      · rintro args c p ⟨request, rfl⟩
        exact yields_askModel _ args request
    · have hflags : ownFlags argv = chatFlags := by
        rw [ownFlags, hcommand, hchat, if_neg (by decide), if_pos rfl]
      rw [hflags]
      refine careful_command (wp_cmdChat m argv con) ?_ ?_
      · rintro args c p ⟨config, rfl⟩
        exact within_chatModel m args config
      · rintro args c p ⟨config, rfl⟩
        exact yields_chatModel m args config c
    · have hflags : ownFlags argv = ∅ := by
        rw [ownFlags, hcommand, htokens, if_neg (by decide), if_neg (by decide), if_neg (by decide)]
      rw [hflags]
      refine careful_command (wp_cmdTokens m argv con) ?_ ?_
      · rintro args c p ⟨request, rfl⟩
        exact within_tokensModel request
      · rintro args c p ⟨request, rfl⟩
        exact yields_tokensModel _ request
    · have hflags : ownFlags argv = modelsFlags := by
        rw [ownFlags, hcommand, hmodels, if_neg (by decide), if_neg (by decide), if_pos rfl]
      rw [hflags]
      refine wp_mono (wp_cmdModels m argv con fuel) fun es con' r h => ?_
      refine h.careful ?_ ?_
      · rintro args c p rfl
        exact within_modelsModel fuel args
      · rintro args c p rfl
        exact yields_modelsModel fuel args _
    · rw [htasks] at hcommand
      exact absurd hcommand heval
    · exact .silent fun _ => rfl

deriving instance Inhabited for Arith

/-- A machine with a key, whose server says hello once. -/
def helloMachine : Machine (List FakeTransport.Reply) :=
  { getenv := fun name => if name = ascii "GEMINI_API_KEY" then some (ascii "k") else none
    stdin := fun w => ([], w), tty := false
    transport := FakeTransport.transport.beside Bool, host := .still
    text := .known [(helloText, helloDocument)] (ascii "\x7b\x7d")
    clock := { now := fun w => (0, w), print := fun _ => [] }, arith := default }

def askArgv : List Bytes :=
  [ascii "gemini-cpp", ascii "ask", ascii "--model=models/gemini-2.5-pro", ascii "hi"]

theorem main_requests_ask :
    let o := main helloMachine [] (fun _ => return exitOk) 1 askArgv helloConsole
    o.result = .ok (some exitOk) ∧
      Careful helloMachine askArgv (ownFlags askArgv) helloConsole
        (o.result = .ok (some exitUsage)) o.events o.state := by
  intro o
  have hresult : o.result = .ok (some exitOk) := by decide +kernel
  exact ⟨hresult, main_requests helloMachine [] _ 1 askArgv (by decide) helloConsole⟩

end GeminiCpp.Apps
