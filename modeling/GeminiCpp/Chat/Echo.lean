import GeminiCpp.Chat.Cancel
import GeminiCpp.Wire.Echo

/-! The request that follows a reply sends the calls and the signatures of the reply back. -/
namespace GeminiCpp
open Traced Traced.Prog

variable {ω : Type}

def Event.isAsk : Event → Bool
  | .ask _ => true
  | _ => false

def Event.isCancel : Event → Bool
  | .cancel => true
  | _ => false

/-- The body of a response. -/
def Event.body? : Event → Option Bytes
  | .response (.ok r) => some r.body
  | _ => none

/-- The requests of a session, each with the events up to the next one. -/
def exchanges : List Event → List (GenerateRequest × List Event)
  | [] => []
  | .ask request :: es => (request, es.takeWhile fun e => !e.isAsk) :: exchanges es
  | _ :: es => exchanges es

/-- The answer to the last request of the client, after one more event. -/
def Event.extendAnswer (answer : List Event) : Event → List Event
  | .http _ => []
  | .bytes piece => answer ++ [.bytes piece]
  | .chunk value => answer ++ [.chunk value]
  | .cancel => answer ++ [.cancel]
  | .response value => answer ++ [.response value]
  | _ => answer

def lastAnswer (es : List Event) : List Event := es.foldl Event.extendAnswer []

/-- The texts of the documents in a reply. A stream that was cancelled ends with the chunk
that the caller refused. -/
def documentTexts (streamed : Bool) (es : List Event) : List Bytes :=
  let answer := lastAnswer es
  if streamed then
    let texts := Client.payloads (SseParser.sseEvents (bytesOf answer))
    if answer.any Event.isCancel then texts.take (chunksOf answer).length else texts
  else answer.filterMap Event.body?

/-- The parts of the first candidate of a reply, as they were received. -/
def receivedParts (text : JsonText) (streamed : Bool) (es : List Event) : List Json :=
  let documents := (documentTexts streamed es).filterMap text.parse
  if streamed then Wire.streamedParts documents else documents.flatMap Wire.unaryParts

/-- The request `next` carries the reply of an exchange: after the contents of its request
there is a turn of the model that repeats the calls and the signatures. -/
def Echoes (text : JsonText) (streamed : Bool) (exchange : GenerateRequest × List Event)
    (next : GenerateRequest) : Prop :=
  let received := receivedParts text streamed exchange.2
  ∃ turn later,
    Wire.elemsUnder (Wire.requestToJson next) (ascii "contents") =
      Wire.elemsUnder (Wire.requestToJson exchange.1) (ascii "contents") ++ turn :: later ∧
    Wire.textField turn (ascii "role") [] = ascii "model" ∧
    ((∀ part ∈ received, Wire.WellTyped part) →
      Wire.Repeats received (Wire.elemsUnder turn (ascii "parts")))

/-- The session took the last reply of a `send` into its history: the `send` returned a value,
or it was left while the calls of that reply were executed. -/
def Kept (result : MayThrow (Result GenerateResponse)) (es : List Event) : Prop :=
  match result with
  | .ok (.ok _) => True
  | .ok (.error _) => False
  | .error _ => es.any Event.isToolRound

theorem exchanges_cons_ask (request : GenerateRequest) {during es : List Event}
    (hduring : ∀ e ∈ during, e.isAsk = false)
    (hes : es = [] ∨ ∃ next rest, es = .ask next :: rest) :
    exchanges (.ask request :: (during ++ es)) = (request, during) :: exchanges es := by
  have htake : (during ++ es).takeWhile (fun e => !e.isAsk) = during := by
    rw [List.takeWhile_append_of_pos fun e he => by simp [hduring e he]]
    rcases hes with rfl | ⟨next, rest, rfl⟩ <;> simp [Event.isAsk]
  have hskip : exchanges (during ++ es) = exchanges es := by
    clear htake
    induction during with
    | nil => rfl
    | cons e during ih =>
      have he := hduring e (List.mem_cons_self ..)
      have hrest := ih fun e he => hduring e (List.mem_cons_of_mem _ he)
      cases e with
      | ask next => cases he
      | _ => exact hrest
  rw [exchanges, htake, hskip]

theorem lastAnswer_attempt {before rest after : List Event} {request : HttpRequest}
    (hrest : ∀ e ∈ rest, e.ofAnswer) (hafter : ∀ e ∈ after, ¬ e.ofAnswer ∧ ¬ e.isHttp) :
    lastAnswer (before ++ .http request :: rest ++ after) = rest := by
  have hanswer : ∀ (es answer : List Event), (∀ e ∈ es, e.ofAnswer) →
      es.foldl Event.extendAnswer answer = answer ++ es := by
    intro es
    induction es with
    | nil => exact fun answer _ => (List.append_nil answer).symm
    | cons e es ih =>
      intro answer hes
      have he := hes e (List.mem_cons_self ..)
      have hone : Event.extendAnswer answer e = answer ++ [e] := by
        cases e <;> first | rfl | exact he.elim
      rw [List.foldl_cons, hone, ih _ fun e he => hes e (List.mem_cons_of_mem _ he),
        List.append_assoc]
      rfl
  have hother : ∀ (es answer : List Event), (∀ e ∈ es, ¬ e.ofAnswer ∧ ¬ e.isHttp) →
      es.foldl Event.extendAnswer answer = answer := by
    intro es
    induction es with
    | nil => exact fun answer _ => rfl
    | cons e es ih =>
      intro answer hes
      obtain ⟨hno, hhttp⟩ := hes e (List.mem_cons_self ..)
      have hone : Event.extendAnswer answer e = answer := by
        cases e <;> first | rfl | exact absurd trivial hno | exact absurd trivial hhttp
      rw [List.foldl_cons, hone, ih _ fun e he => hes e (List.mem_cons_of_mem _ he)]
  unfold lastAnswer
  rw [List.foldl_append, List.foldl_append, hother after _ hafter]
  exact (hanswer rest [] hrest).trans (List.nil_append rest)

/-- The texts that decode to some chunks hold documents that do. -/
theorem documents_of_texts {text : JsonText} {texts : List Bytes} {chunks : List GenerateResponse}
    (h : texts.map (Wire.parseResponseText text) = Client.returned chunks) :
    List.Forall₂ (fun document chunk => Wire.parseGenerateResponse document = .ok (.ok chunk))
      (texts.filterMap text.parse) chunks := by
  induction texts generalizing chunks with
  | nil =>
    cases chunks with
    | nil => exact .nil
    | cons chunk chunks => cases h
  | cons t texts ih =>
    cases chunks with
    | nil => cases h
    | cons chunk chunks =>
      obtain ⟨hfirst, hrest⟩ := List.cons.inj h
      cases hparse : text.parse t with
      | none =>
        rw [Wire.parseResponseText, hparse] at hfirst
        cases hfirst
      | some document =>
        rw [Wire.parseResponseText, hparse] at hfirst
        rw [List.filterMap_cons_some hparse]
        exact .cons hfirst (ih hrest)

/-- Events that belong to a request but not to its answer: those of the client around an
attempt, and those of the calls that are executed after it. -/
def Event.beside (e : Event) : Prop := ¬ e.ofAnswer ∧ ¬ e.isHttp

theorem Event.isMetric.beside {e : Event} (h : e.isMetric) : e.beside := by
  cases e <;> first | exact ⟨id, id⟩ | exact h.elim

/-- The parts of a candidate repeat the parts that were received. -/
def CarriedBy (received : List Json) (candidate : Candidate) : Prop :=
  (∀ part ∈ received, Wire.WellTyped part) →
    Wire.Repeats received (candidate.content.parts.map Wire.partToJson)

/-- What the session may rely on when a client has returned a reply. -/
structure Answered (text : JsonText) (streamed : Bool) (es : List Event)
    (r : MayThrow (Result GenerateResponse)) : Prop where
  silent : ∀ e ∈ es, e.isAsk = false ∧ e.isToolRound = false
  carried : ∀ response candidate others, r = .ok (.ok response) →
    response.candidates = candidate :: others → ∀ during, (∀ e ∈ during, e.beside) →
      CarriedBy (receivedParts text streamed (es ++ during)) candidate

theorem Answered.of_silent {text : JsonText} {streamed : Bool} {es : List Event}
    {r : MayThrow (Result GenerateResponse)} (hes : ∀ e ∈ es, e.isMetric)
    (hr : ∀ response, r ≠ .ok (.ok response)) : Answered text streamed es r where
  silent e he := by
    have hmetric := hes e he
    cases e <;> first | exact ⟨rfl, rfl⟩ | exact hmetric.elim
  carried response _ _ h := absurd h (hr response)

namespace Client
variable (c : Client ω)

/-- A call of the client whose last attempt is a request and an answer. -/
theorem IsLastAttempt.answered {τ : Type} {attempt : Program (τ × ω) (Result GenerateResponse)}
    {I : τ → Prop} {streamed : Bool} {es : List Event} {r : MayThrow (Result GenerateResponse)}
    (h : IsLastAttempt attempt I es r)
    (hattempt : ∀ s, ∃ request rest, (attempt s).events = .http request :: rest ∧
      (∀ e ∈ rest, e.ofAnswer) ∧
      ∀ response candidate others, (attempt s).result = .ok (.ok response) →
        response.candidates = candidate :: others →
        ∀ es, lastAnswer es = rest → CarriedBy (receivedParts c.text streamed es) candidate) :
    Answered c.text streamed es r := by
  obtain ⟨s, before, after, -, rfl, rfl, hbefore, hafter⟩ := h
  obtain ⟨request, rest, hevents, hrest, hcarried⟩ := hattempt s
  rw [hevents]
  constructor
  case silent =>
    intro e he
    rcases List.mem_append.mp he with he | he
    · rcases List.mem_append.mp he with he | he
      · have := hbefore e he
        cases e <;> first | exact ⟨rfl, rfl⟩ | exact this.elim
      · rcases List.mem_cons.mp he with rfl | he
        · exact ⟨rfl, rfl⟩
        · have := hrest e he
          cases e <;> first | exact ⟨rfl, rfl⟩ | exact this.elim
    · have := hafter e he
      cases e <;> first | exact ⟨rfl, rfl⟩ | exact this.elim
  case carried =>
    intro response candidate others hr hcandidates during hduring
    cases hresult : (attempt s).result with
    | error x =>
      rw [hresult] at hr
      cases hr
    | ok result =>
      rw [hresult] at hr
      cases result with
      | error e => cases hr
      | ok reply =>
        obtain rfl := eq_of_checkBlocked (Except.ok.inj hr).symm
        apply hcarried response candidate others hresult hcandidates
        rw [List.append_assoc]
        apply lastAnswer_attempt hrest
        intro e he
        exact (List.mem_append.mp he).elim (fun he => (hafter e he).beside) (hduring e)

theorem wp_generate_answered (request : GenerateRequest) (w : ω) :
    wp (c.generate request) w fun es _ r => Answered c.text false es r := by
  rcases hvalid : c.validate request with e | ⟨⟩
  · simp only [generate, hvalid, wp_bind, wp_emit, then_ok, wp_pure]
    exact .of_silent (by simp [Event.isMetric]) (by simp)
  refine wp_mono (c.wp_generate request w hvalid) fun es _ r h => ?_
  rcases h with ⟨x, -, rfl, hes⟩ | ⟨body, -, h⟩
  · exact .of_silent hes (by simp)
  apply h.answered
  intro s
  obtain ⟨http, response, hes, hreply⟩ := wp_iff.mp (c.wp_generateAttempt body s)
  refine ⟨http, [.response response], hes, by simp [Event.ofAnswer], ?_⟩
  intro reply candidate others hresult hcandidates es hlast htyped
  obtain ⟨answer, rfl, hparse⟩ := hreply reply hresult
  cases hdocument : c.text.parse answer.body with
  | none =>
    rw [Wire.parseResponseText, hdocument] at hparse
    cases hparse
  | some document =>
    rw [Wire.parseResponseText, hdocument] at hparse
    have hreceived : receivedParts c.text false es = Wire.unaryParts document := by
      simp [receivedParts, documentTexts, hlast, Event.body?, hdocument]
    rw [hreceived] at htyped ⊢
    exact Wire.unary_repeats hparse hcandidates htyped

theorem wp_stream_answered (request : GenerateRequest) (onChunk : Option (StreamCallback ω))
    (w : ω) : wp (c.stream request onChunk) w fun es _ r => Answered c.text true es r := by
  rcases hvalid : c.validate request with e | ⟨⟩
  · simp only [stream, hvalid, wp_bind, wp_emit, then_ok, wp_pure]
    exact .of_silent (by simp [Event.isMetric]) (by simp)
  refine wp_mono (c.wp_stream request onChunk w hvalid) fun es _ r h => ?_
  rcases h with ⟨x, -, rfl, hes⟩ | ⟨body, -, h⟩
  · exact .of_silent hes (by simp)
  apply h.answered
  intro s
  have spec := wp_iff.mp (wp_streamAttempt c body onChunk s)
  obtain ⟨rest, hes, hrest⟩ := spec.http
  refine ⟨_, rest, hes, hrest, ?_⟩
  intro reply candidate others hresult hcandidates es hlast htyped
  have hchunks := spec.chunks
  have hwhole := spec.whole reply hresult
  obtain rfl := spec.aggregate reply hresult
  rw [hes] at hchunks hwhole hcandidates
  simp only [chunksOf_http, bytesOf_http] at hchunks hwhole hcandidates
  have htexts : (documentTexts true es).map (Wire.parseResponseText c.text) =
      returned (chunksOf rest) := by
    unfold documentTexts
    rw [hlast, if_pos rfl]
    by_cases hcancel : rest.any Event.isCancel
    · rw [if_pos hcancel, List.map_take]
      have hlength : (returned (chunksOf rest)).length = (chunksOf rest).length :=
        List.length_map ..
      rw [← hlength]
      exact (List.prefix_iff_eq_take.mp hchunks).symm
    · rw [if_neg hcancel]
      refine (hwhole fun hmem => hcancel ?_).symm
      rcases List.mem_cons.mp hmem with hmem | hmem
      · cases hmem
      · exact List.any_eq_true.mpr ⟨_, hmem, rfl⟩
  exact Wire.streamed_repeats (documents_of_texts htexts) hcandidates htyped

end Client

/-- A request whose contents go on with the turn of a candidate. -/
theorem Echoes.of_contents {text : JsonText} {streamed : Bool}
    {exchange : GenerateRequest × List Event} {next : GenerateRequest} (candidate : Candidate)
    (later : List Content)
    (hcontents : next.contents =
      exchange.1.contents ++ ChatSession.replyTurn candidate :: later)
    (hcarried : CarriedBy (receivedParts text streamed exchange.2) candidate) :
    Echoes text streamed exchange next := by
  obtain ⟨hparts, hrole⟩ := Wire.contentToJson_fields (ChatSession.replyTurn candidate)
  refine ⟨Wire.contentToJson (ChatSession.replyTurn candidate), later.map Wire.contentToJson,
    ?_, hrole, fun htyped => ?_⟩
  · rw [Wire.elemsUnder_requestToJson, Wire.elemsUnder_requestToJson, hcontents, List.map_append,
      List.map_cons]
  · rw [hparts]
    exact hcarried htyped

namespace ChatSession
variable (s : ChatSession ω)

/-- What the rounds from a history on send back: `x'` and `r` are where they end. -/
structure RoundsEcho (text : JsonText) (streamed : Bool) (history : List Content)
    (es : List Event) (x' : ChatState) (r : MayThrow (Result GenerateResponse)) : Prop where
  first : (es = [] ∧ ∃ e, r = .ok (.error e)) ∨
    ∃ rest, es = .ask (s.buildRequest history) :: rest
  next : (exchanges es).IsChain fun a b => Echoes text streamed a b.1
  last : ∀ last ∈ (exchanges es).getLast?, Kept r last.2 → ∀ content,
    Echoes text streamed last (s.buildRequest (x'.history ++ [content]))

/-- The rounds of one request. -/
theorem RoundsEcho.single {s : ChatSession ω} {text : JsonText} {streamed : Bool}
    {history : List Content} {during : List Event} {x' : ChatState}
    {r : MayThrow (Result GenerateResponse)} (hduring : ∀ e ∈ during, e.isAsk = false)
    (hlast : Kept r during → ∃ candidate, x'.history = history ++ [replyTurn candidate] ∧
      CarriedBy (receivedParts text streamed during) candidate) :
    s.RoundsEcho text streamed history (.ask (s.buildRequest history) :: during) x' r := by
  have hone := exchanges_cons_ask (s.buildRequest history) hduring (Or.inl rfl)
  rw [List.append_nil] at hone
  change _ = [(s.buildRequest history, during)] at hone
  constructor
  case first => exact Or.inr ⟨during, rfl⟩
  case next =>
    rw [hone]
    exact .singleton _
  case last =>
    rw [hone]
    intro last hmem hkept content
    obtain rfl := Option.some.inj hmem
    obtain ⟨candidate, hhistory, hcarried⟩ := hlast hkept
    refine .of_contents candidate [content] ?_ hcarried
    simp [buildRequest, hhistory]

/-- One round more before the others. -/
theorem RoundsEcho.cons {s : ChatSession ω} {text : JsonText} {streamed : Bool}
    {history : List Content} {candidate : Candidate} {results : Content} {during es : List Event}
    {x' : ChatState} {r : MayThrow (Result GenerateResponse)}
    (hduring : ∀ e ∈ during, e.isAsk = false)
    (hcarried : CarriedBy (receivedParts text streamed during) candidate)
    (h : s.RoundsEcho text streamed (history ++ [replyTurn candidate] ++ [results]) es x' r) :
    s.RoundsEcho text streamed history
      (.ask (s.buildRequest history) :: (during ++ es)) x' r := by
  have hfirst : es = [] ∨ ∃ next rest, es = .ask next :: rest := by
    rcases h.first with ⟨hes, -⟩ | ⟨rest, hes⟩
    · exact Or.inl hes
    · exact Or.inr ⟨_, rest, hes⟩
  have hmore := exchanges_cons_ask (s.buildRequest history) hduring hfirst
  constructor
  case first => exact Or.inr ⟨_, rfl⟩
  case next =>
    rw [hmore]
    rcases h.first with ⟨rfl, -⟩ | ⟨rest, rfl⟩
    · exact .singleton _
    · refine List.isChain_cons_cons.mpr ⟨?_, h.next⟩
      refine .of_contents candidate [results] ?_ hcarried
      simp [buildRequest]
  case last =>
    rw [hmore]
    rcases h.first with ⟨rfl, e, rfl⟩ | ⟨rest, rfl⟩
    · exact fun last _ hkept => hkept.elim
    · rw [exchanges, List.getLast?_cons_cons]
      exact h.last

theorem wp_ask_answered {c : Client ω} (hs : s.client = c.forChat)
    (onChunk : Option (StreamCallback ω)) (request : GenerateRequest) (w : ω) :
    wp (s.ask onChunk request) w fun es _ r =>
      ∃ answer, es = .ask request :: answer ∧ Answered c.text onChunk.isSome answer r := by
  simp only [ask, hs, wp_bind, wp_emit, then_ok]
  cases onChunk with
  | none => exact wp_mono (c.wp_generate_answered request w) fun es _ r h => ⟨es, rfl, h⟩
  | some onChunk =>
    exact wp_mono (c.wp_stream_answered request (some onChunk) w) fun es _ r h => ⟨es, rfl, h⟩

/-- The round of tools sends nothing, and nothing in it comes from the answer. -/
theorem wp_runTools_beside (tools : ToolRegistry ω) (calls : List FunctionCall) (w : ω) :
    wp (s.runTools tools calls) w fun es _ _ => ∀ e ∈ es, e.beside ∧ e.isAsk = false := by
  refine wp_mono (s.wp_runTools tools calls w) fun es _ _ h => ?_
  obtain ⟨⟨rest, hes, hrest⟩, -⟩ := h
  intro e he
  rw [hes] at he
  rcases List.mem_cons.mp he with rfl | he
  · exact ⟨⟨id, id⟩, rfl⟩
  · have htool := hrest e he
    cases e <;> first | exact ⟨⟨id, id⟩, rfl⟩ | exact htool.elim

theorem wp_rounds_echo {c : Client ω} (hs : s.client = c.forChat) (checkpoint : ℕ)
    (onChunk : Option (StreamCallback ω)) (left : ℕ) (x : ChatState) (w : ω) :
    wp (s.rounds checkpoint onChunk left) (x, w) fun es s' r =>
      s.RoundsEcho c.text onChunk.isSome x.history es s'.1 r := by
  induction left generalizing x w with
  | zero =>
    simp only [rounds, rollback, setState, wp_bind, wp_modify, then_ok, wp_pure]
    exact ⟨Or.inl ⟨rfl, _, rfl⟩, .nil, fun last h => by cases h⟩
  | succ left ih =>
    have hask := wp_iff.mp (s.wp_ask_answered hs onChunk (s.buildRequest x.history) w)
    apply wp_rounds_succ
    constructor
    case thrown =>
      intro es w₁ t hasked
      rw [hasked] at hask
      obtain ⟨answer, rfl, hanswered⟩ := hask
      refine .single (fun e he => (hanswered.silent e he).1) fun hkept => ?_
      obtain ⟨e, he, hround⟩ := List.any_eq_true.mp hkept
      rw [(hanswered.silent e he).2] at hround
      cases hround
    case failed =>
      intro es w₁ e hasked
      rw [hasked] at hask
      obtain ⟨answer, rfl, hanswered⟩ := hask
      exact .single (fun e he => (hanswered.silent e he).1) fun hkept => hkept.elim
    case empty =>
      intro es w₁ response hasked _
      rw [hasked] at hask
      obtain ⟨answer, rfl, hanswered⟩ := hask
      exact .single (fun e he => (hanswered.silent e he).1) fun hkept => hkept.elim
    case answered =>
      intro es w₁ response candidate others hasked hcandidates _
      rw [hasked] at hask
      obtain ⟨answer, rfl, hanswered⟩ := hask
      refine .single (fun e he => (hanswered.silent e he).1) fun _ => ⟨candidate, rfl, ?_⟩
      have hcarried := hanswered.carried response candidate others rfl hcandidates [] (by simp)
      rwa [List.append_nil] at hcarried
    case tools =>
      intro es w₁ response candidate others tools hasked hcandidates _ _
      rw [hasked] at hask
      obtain ⟨answer, rfl, hanswered⟩ := hask
      refine wp_mono (s.wp_runTools_beside tools _ w₁) fun es' w₂ r hbeside => ?_
      have hduring : ∀ e ∈ answer ++ es', e.isAsk = false := by
        intro e he
        exact (List.mem_append.mp he).elim (fun he => (hanswered.silent e he).1)
          fun he => (hbeside e he).2
      have hcarried := hanswered.carried response candidate others rfl hcandidates es'
        fun e he => (hbeside e he).1
      cases r with
      | error t => exact .single hduring fun _ => ⟨candidate, rfl, hcarried⟩
      | ok parts =>
        refine wp_mono (ih _ w₂) fun es'' s' r' h => ?_
        have hround := RoundsEcho.cons hduring hcarried h
        rwa [List.append_assoc] at hround

/-- The request that follows a reply carries it: the next one of the same `send`, and the first
one of the next `send` if this one kept the reply. -/
theorem replies_echoed {c : Client ω} (hs : s.client = c.forChat) (message : Bytes)
    (onChunk : Option (StreamCallback ω)) (x : ChatState) (w : ω) :
    let o := s.send message onChunk (x, w)
    (exchanges o.events).IsChain (fun a b => Echoes c.text onChunk.isSome a b.1) ∧
      ∀ last ∈ (exchanges o.events).getLast?, Kept o.result last.2 →
        ∀ (message' : Bytes) (onChunk' : Option (StreamCallback ω)) (w' : ω)
          (next : GenerateRequest),
          (asksOf (s.send message' onChunk' (o.state.1, w')).events).head? = some next →
          Echoes c.text onChunk.isSome last next := by
  intro o
  have hsend : wp (s.send message onChunk) (x, w) fun es s' r =>
      s.RoundsEcho c.text onChunk.isSome (x.history ++ [.user message]) es s'.1 r := by
    simp only [send, setState, wp_bind, wp_get, wp_modify, then_ok, List.nil_append]
    exact s.wp_rounds_echo hs _ onChunk _ _ w
  have hecho := wp_iff.mp hsend
  refine ⟨hecho.next, fun last hlast hkept message' onChunk' w' next hnext => ?_⟩
  rw [s.send_asks message' onChunk' _ w' next hnext]
  exact hecho.last last hlast hkept _

end ChatSession

theorem wellTyped_callPart : Wire.WellTyped callPart where
  one_kind := by decide +kernel
  signature v h := by cases h
  text v h := by cases h
  thought v h := by cases h
  call v h := by
    cases h
    rfl
  call_fields call h := by
    cases h
    refine ⟨fun v h => ?_, fun v h => ?_, fun v h => ?_⟩
    · cases h
      rfl
    · cases h
    · cases h
  response v h := by cases h
  response_fields v h := by cases h

/-- A reply with one call, in the only round there is. -/
def callInLastRound :
    Outcome Event Exn (ChatState × List FakeTransport.Reply) (Result GenerateResponse) :=
  (oneToolSession true).send (ascii "hi") none (.init, [FakeTransport.ofJson 200 callText])

/-- The next request of its session. -/
def afterLastRound :
    Outcome Event Exn (ChatState × List FakeTransport.Reply) (Result GenerateResponse) :=
  (oneToolSession true).send (ascii "again") none (callInLastRound.state.1, [])

/-- The reply was executed and then rolled back, so that nothing carries its call. -/
theorem callInLastRound_not_echoed :
    let text := JsonText.known [(callText, callDocument)] []
    ∃ exchange next, exchanges callInLastRound.events = [exchange] ∧
      asksOf afterLastRound.events = [next] ∧
      receivedParts text false exchange.2 = [callPart] ∧ Wire.WellTyped callPart ∧
      (Wire.callsIn [callPart]).map (·.name) = [ascii "f"] ∧
      next.contents = [Content.user (ascii "again")] ∧ ¬ Echoes text false exchange next := by
  refine ⟨_, _, rfl, rfl, by rfl, wellTyped_callPart, rfl, rfl, ?_⟩
  intro h
  obtain ⟨turn, later, hcontents, -⟩ := h
  have hlength := congrArg List.length hcontents
  rw [Wire.elemsUnder_requestToJson, Wire.elemsUnder_requestToJson, List.length_append] at hlength
  change 1 = 1 + (later.length + 1) at hlength
  omega

/-- A reply with one call, with a round to follow, and an answer. -/
theorem replies_echoed_one_round :
    let s : ChatSession (List FakeTransport.Reply) :=
      { oneToolSession true with options := .bounded 1 }
    let o := s.send (ascii "hi") none (.init, [FakeTransport.ofJson 200 callText])
    let text := JsonText.known [(callText, callDocument)] []
    (exchanges o.events).IsChain (fun a b => Echoes text false a b.1) ∧
      ∀ last ∈ (exchanges o.events).getLast?, Kept o.result last.2 →
        ∀ (message' : Bytes) (onChunk' : Option (StreamCallback (List FakeTransport.Reply)))
          (w' : List FakeTransport.Reply) (next : GenerateRequest),
          (asksOf (s.send message' onChunk' (o.state.1, w')).events).head? = some next →
          Echoes text false last next := by
  intro s
  exact s.replies_echoed rfl (ascii "hi") none .init [FakeTransport.ofJson 200 callText]

end GeminiCpp
