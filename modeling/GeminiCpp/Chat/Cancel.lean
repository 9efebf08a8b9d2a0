import GeminiCpp.Chat.Send
import GeminiCpp.Client.Stream

/-! What a cancel in a streamed turn stops. The callback's refusal ends the stream, but the
session treats the partial reply like any other: it executes the calls in it. -/
namespace GeminiCpp
open Traced Traced.Prog

variable {ω : Type}

def Event.isHandler : Event → Prop
  | .handler .. => True
  | _ => False

/-- After a cancel no handler is run and no request is sent. -/
def StopsAfterCancel (es : List Event) : Prop :=
  ∀ shown rest, es = shown ++ .cancel :: rest → ∀ e ∈ rest, ¬ e.isHandler ∧ ¬ e.isHttp

/-- The reply that a stream has built up, after one more event. -/
def GenerateResponse.after (reply : GenerateResponse) : Event → GenerateResponse
  | .ask _ | .http _ => .empty
  | .chunk chunk => reply.merge chunk
  | _ => reply

/-- The reply at the end of some events. -/
def partialReply (es : List Event) : GenerateResponse := es.foldl .after .empty

theorem partialReply_ask (es es' : List Event) (request : GenerateRequest) :
    partialReply (es ++ .ask request :: es') = partialReply es' := by
  unfold partialReply
  rw [List.foldl_append]
  rfl

theorem partialReply_http (es es' : List Event) (request : HttpRequest) :
    partialReply (es ++ .http request :: es') = partialReply es' := by
  unfold partialReply
  rw [List.foldl_append]
  rfl

theorem partialReply_of_ofAnswer {es : List Event} (h : ∀ e ∈ es, e.ofAnswer) :
    partialReply es = mergeAll (chunksOf es) := by
  have hfold : ∀ reply, es.foldl GenerateResponse.after reply =
      (chunksOf es).foldl GenerateResponse.merge reply := by
    induction es with
    | nil => exact fun reply => rfl
    | cons e es ih =>
      have hes := ih fun e he => h e (List.mem_cons_of_mem _ he)
      have he := h e (List.mem_cons_self ..)
      intro reply
      cases e <;> first | exact hes _ | exact he.elim
  exact hfold .empty

/-- How a cancel shows in the events of a reply, and what comes of it. -/
def CancelSpec (es : List Event) (r : MayThrow (Result GenerateResponse)) : Prop :=
  ∀ shown rest, es = shown ++ .cancel :: rest →
    r = .ok (checkBlocked (.ok (partialReply shown))) ∧
      ∀ e ∈ rest, ¬ e.isHandler ∧ ¬ e.isHttp

theorem CancelSpec.of_not_mem {es : List Event} {r : MayThrow (Result GenerateResponse)}
    (h : .cancel ∉ es) : CancelSpec es r := by
  intro shown rest hes
  rw [hes] at h
  exact absurd (List.mem_append_right _ (List.mem_cons_self ..)) h

theorem Event.ofAnswer.not_isHandler {e : Event} (h : e.ofAnswer) : ¬ e.isHandler := by
  cases e <;> first | exact id | exact h.elim

theorem Event.isMetric.not_isHandler {e : Event} (h : e.isMetric) : ¬ e.isHandler := by
  cases e <;> first | exact id | exact h.elim

theorem not_mem_cancel {es : List Event} (h : ∀ e ∈ es, e.silent) : .cancel ∉ es :=
  fun hmem => h _ hmem

theorem eq_of_checkBlocked {reply response : GenerateResponse}
    (h : Except.ok response = checkBlocked (.ok reply)) : response = reply := by
  simp only [checkBlocked] at h
  split at h
  · cases h
  · exact Except.ok.inj h

/-- Two ways to cut a list, when the first cut is before the element of the second. -/
theorem split_after {es es' shown rest : List Event} {e : Event} (h : e ∉ es)
    (hes : es ++ es' = shown ++ e :: rest) :
    ∃ shown', shown = es ++ shown' ∧ es' = shown' ++ e :: rest := by
  rcases List.append_eq_append_iff.mp hes with ⟨between, hshown, hes'⟩ | ⟨between, rfl, hes'⟩
  · exact ⟨between, hshown, hes'⟩
  · cases between with
    | nil => exact ⟨[], by simp, hes'.symm⟩
    | cons first between =>
      obtain ⟨rfl, -⟩ := List.cons.inj hes'
      exact absurd (List.mem_append_right _ (List.mem_cons_self ..)) h

namespace Client
variable (c : Client ω)

theorem wp_stream_cancel (request : GenerateRequest) (onChunk : Option (StreamCallback ω)) (w : ω) :
    wp (c.stream request onChunk) w fun es _ r => CancelSpec es r := by
  rcases hvalid : c.validate request with e | ⟨⟩
  · simp only [stream, hvalid, wp_bind, wp_emit, then_ok, wp_pure]
    exact .of_not_mem (by simp)
  refine wp_mono (wp_stream c request onChunk w hvalid) fun es _ r h => ?_
  rcases h with ⟨x, -, -, hes⟩ | ⟨body, -, s, before, after, -, rfl, rfl, hbefore, hafter⟩
  · exact .of_not_mem (not_mem_cancel fun e he => (hes e he).silent)
  have spec := wp_iff.mp (wp_streamAttempt c body onChunk s)
  generalize c.streamAttempt body onChunk s = last at spec
  obtain ⟨mid, hmid, hanswer⟩ := spec.http
  intro shown rest hes
  have hmem : .cancel ∈ last.events := by
    have : Event.cancel ∈ before ++ last.events ++ after := by
      rw [hes]
      exact List.mem_append_right _ (List.mem_cons_self ..)
    rcases List.mem_append.mp this with h | h
    · exact (List.mem_append.mp h).resolve_left (not_mem_cancel hbefore)
    · exact absurd h (not_mem_cancel fun e he => (hafter e he).silent)
  obtain ⟨⟨given, tail, hsplit, hgiven, htail, hchunks, hnone⟩, agg, hr⟩ := spec.cancelled hmem
  have hbeforeGiven : .cancel ∉ before ++ given := by
    intro h
    exact (List.mem_append.mp h).elim (not_mem_cancel hbefore) hgiven
  have htailAfter : .cancel ∉ tail ++ after := by
    intro h
    exact (List.mem_append.mp h).elim htail (not_mem_cancel fun e he => (hafter e he).silent)
  have hwhole : before ++ given ++ .cancel :: (tail ++ after) = shown ++ .cancel :: rest := by
    rw [← hes, hsplit]
    simp
  obtain ⟨rfl, -, rfl⟩ :=
    (List.append_cons_inj_of_notMem hbeforeGiven htailAfter).mp hwhole
  -- the chunks since the last request are those of the last attempt
  rw [hmid] at hsplit
  cases given with
  | nil => exact absurd rfl hchunks
  | cons http given =>
    obtain ⟨rfl, rfl⟩ := List.cons.inj hsplit
    have hgivenAnswer : ∀ e ∈ given, e.ofAnswer := fun e he =>
      hanswer e (List.mem_append_left _ he)
    have hgiven : chunksOf last.events = chunksOf given := by
      have hcancel : chunksOf (.cancel :: tail) = [] := hnone
      have happend := chunksOf_append given (.cancel :: tail)
      rw [hcancel, List.append_nil] at happend
      rw [hmid, chunksOf_http]
      exact happend
    have hagg : ∀ request, agg = partialReply (before ++ .http request :: given) := by
      intro request
      rw [partialReply_http, partialReply_of_ofAnswer hgivenAnswer, spec.aggregate agg hr, hgiven]
    refine ⟨by rw [hr, hagg]; rfl, fun e he => ?_⟩
    rcases List.mem_append.mp he with he | he
    · have hrest : e.ofAnswer :=
        hanswer e (List.mem_append_right _ (List.mem_cons_of_mem _ he))
      exact ⟨hrest.not_isHandler, hrest.not_isHttp⟩
    · exact ⟨(hafter e he).not_isHandler, (hafter e he).not_isHttp⟩

/-- A reply that is not streamed shows its caller nothing before it returns. -/
theorem wp_generate_silent (request : GenerateRequest) (w : ω) :
    wp (c.generate request) w fun es _ _ => ∀ e ∈ es, e.silent := by
  rcases hvalid : c.validate request with e | ⟨⟩
  · simp only [generate, hvalid, wp_bind, wp_emit, then_ok, wp_pure]
    simp [Event.silent]
  refine wp_mono (c.wp_generate request w hvalid) fun es _ r h => ?_
  rcases h with ⟨x, -, -, hes⟩ | ⟨body, -, s, before, after, -, rfl, -, hbefore, hafter⟩
  · exact fun e he => (hes e he).silent
  · intro e he
    rcases List.mem_append.mp he with he | he
    · exact (List.mem_append.mp he).elim (hbefore e) (c.silent_generateAttempt body s e)
    · exact (hafter e he).silent

theorem wp_generate_cancel (request : GenerateRequest) (w : ω) :
    wp (c.generate request) w fun es _ r => CancelSpec es r :=
  wp_mono (c.wp_generate_silent request w) fun _ _ _ h => .of_not_mem (not_mem_cancel h)

end Client

namespace ChatSession
variable (s : ChatSession ω)

theorem wp_ask_cancel {c : Client ω} (hs : s.client = c.forChat)
    (onChunk : Option (StreamCallback ω)) (request : GenerateRequest) (w : ω) :
    wp (s.ask onChunk request) w fun es _ r => CancelSpec es r := by
  have hask : ∀ es r, CancelSpec es r → CancelSpec (.ask request :: es) r := by
    intro es r h shown rest hes
    cases shown with
    | nil => cases hes
    | cons e shown =>
      obtain ⟨rfl, rfl⟩ := List.cons.inj hes
      exact h shown rest rfl
  simp only [ask, hs, wp_bind, wp_emit, then_ok]
  cases onChunk with
  | none => exact wp_mono (c.wp_generate_cancel request w) fun es _ r h => hask es r h
  | some onChunk =>
    exact wp_mono (c.wp_stream_cancel request (some onChunk) w) fun es _ r h => hask es r h

/-- What is shown of the rounds of a session with a real client. -/
structure CancelShown (es : List Event) : Prop where
  first : es = [] ∨ ∃ request rest, es = .ask request :: rest
  stops : (∀ shown rest, es = shown ++ .cancel :: rest →
    s.tools = none ∨ (partialReply shown).functionCalls = []) → StopsAfterCancel es

theorem CancelShown.nil : s.CancelShown [] where
  first := Or.inl rfl
  stops _ shown rest h := by cases shown <;> cases h

/-- A round whose calls are executed: if its reply was cancelled, the condition fails. -/
theorem CancelShown.of_round {s : ChatSession ω} {es es' es'' : List Event}
    {response : GenerateResponse} {candidate : Candidate} {others : List Candidate}
    {tools : ToolRegistry ω} {request : GenerateRequest}
    (hfirst : ∃ rest, es = .ask request :: rest)
    (hask : CancelSpec es (.ok (.ok response)))
    (hcandidates : response.candidates = candidate :: others)
    (htools : s.tools = some tools) (hcalls : callsOf candidate.content.parts ≠ [])
    (hno : .cancel ∉ es') (hshown : s.CancelShown es'') :
    s.CancelShown (es ++ (es' ++ es'')) := by
  constructor
  case first =>
    obtain ⟨rest, rfl⟩ := hfirst
    exact Or.inr ⟨request, _, rfl⟩
  case stops =>
    intro hcond
    have hasked : .cancel ∉ es := by
      intro hmem
      obtain ⟨shown, rest, rfl⟩ := List.append_of_mem hmem
      have hreply := eq_of_checkBlocked (Except.ok.inj (hask shown rest rfl).1)
      have hfinal := hcond shown (rest ++ (es' ++ es'')) (by simp)
      rw [← hreply, htools] at hfinal
      simp only [GenerateResponse.functionCalls, hcandidates] at hfinal
      exact hfinal.elim (fun h => by cases h) hcalls
    have hbefore : .cancel ∉ es ++ es' := fun h => (List.mem_append.mp h).elim hasked hno
    rw [← List.append_assoc] at hcond ⊢
    -- a cancel is in a later reply, which has its own request
    have hlater : ∀ shown rest, es'' = shown ++ .cancel :: rest →
        partialReply (es ++ es' ++ shown) = partialReply shown := by
      intro shown rest hes
      obtain ⟨later, tail, htail⟩ : ∃ later tail, es'' = .ask later :: tail := by
        rcases hshown.first with rfl | h
        · cases shown <;> cases hes
        · exact h
      rw [htail] at hes
      cases shown with
      | nil => cases hes
      | cons e shown =>
        obtain ⟨rfl, -⟩ := List.cons.inj hes
        rw [partialReply_ask]
        exact (partialReply_ask [] shown later).symm
    have hstops := hshown.stops fun shown rest hes => by
      have hwhole := hcond (es ++ es' ++ shown) rest (by simp [hes])
      rwa [hlater shown rest hes] at hwhole
    intro shown rest hes
    obtain ⟨shown', -, hes''⟩ := split_after hbefore hes
    exact hstops shown' rest hes''

theorem wp_rounds_cancel {c : Client ω} (hs : s.client = c.forChat) (checkpoint : ℕ)
    (onChunk : Option (StreamCallback ω)) (left : ℕ) (x : ChatState) (w : ω) :
    wp (s.rounds checkpoint onChunk left) (x, w) fun es _ _ => s.CancelShown es := by
  induction left generalizing x w with
  | zero =>
    simp only [rounds, rollback, setState, wp_bind, wp_modify, then_ok, wp_pure]
    exact .nil s
  | succ left ih =>
    have hask := wp_iff.mp (s.wp_ask_cancel hs onChunk (s.buildRequest x.history) w)
    have hfirst := s.events_ask onChunk (s.buildRequest x.history) w
    have asked : ∀ {es w₁ r}, s.ask onChunk (s.buildRequest x.history) w = ⟨es, w₁, r⟩ →
        s.CancelShown es := by
      intro es w₁ r h
      rw [h] at hask hfirst
      obtain ⟨rest, rfl⟩ := hfirst
      exact ⟨Or.inr ⟨_, rest, rfl⟩, fun _ shown after hes => (hask shown after hes).2⟩
    apply wp_rounds_succ
    constructor
    case thrown => exact fun h => asked h
    case failed => exact fun h => asked h
    case empty => exact fun h _ => asked h
    case answered => exact fun h _ _ => asked h
    case tools =>
      intro es w₁ response candidate others tools h hcandidates htools hcalls
      rw [h] at hask hfirst
      refine wp_mono (s.wp_runTools tools _ w₁) fun es' w₂ r h => ?_
      obtain ⟨⟨during, hes', hduring⟩, -⟩ := h
      have hno : .cancel ∉ es' := by
        rw [hes']
        intro hmem
        rcases List.mem_cons.mp hmem with hmem | hmem
        · cases hmem
        · exact hduring _ hmem
      cases r with
      | error t =>
        have hround := CancelShown.of_round hfirst hask hcandidates htools hcalls hno (.nil s)
        rwa [List.append_nil] at hround
      | ok parts =>
        refine wp_mono (ih _ w₂) fun es'' s' r' hshown => ?_
        exact .of_round hfirst hask hcandidates htools hcalls hno hshown

/-- A cancel stops a `send` if no tools are configured or the partial reply, at each cancel,
has no calls. -/
theorem stops_after_cancel {c : Client ω} (hs : s.client = c.forChat) (message : Bytes)
    (onChunk : Option (StreamCallback ω)) (x : ChatState) (w : ω)
    (hreplies : ∀ shown rest, (s.send message onChunk (x, w)).events = shown ++ .cancel :: rest →
      s.tools = none ∨ (partialReply shown).functionCalls = []) :
    StopsAfterCancel (s.send message onChunk (x, w)).events := by
  rw [s.events_send] at hreplies ⊢
  exact (wp_iff.mp (s.wp_rounds_cancel hs _ onChunk _ _ w)).stops hreplies

end ChatSession

theorem not_stopsAfterCancel {es : List Event} (n : ℕ) (hcancel : es[n]?.any (· matches .cancel))
    (hhandler : (es.drop (n + 1)).any (· matches .handler ..)) : ¬ StopsAfterCancel es := by
  intro hstops
  cases hn : es[n]? with
  | none =>
    rw [hn] at hcancel
    cases hcancel
  | some e =>
    rw [hn] at hcancel
    obtain rfl : e = .cancel := by cases e <;> first | rfl | cases hcancel
    obtain ⟨hlt, hget⟩ := List.getElem?_eq_some_iff.mp hn
    have hes : es = es.take n ++ .cancel :: es.drop (n + 1) := by
      rw [← hget, List.getElem_cons_drop, List.take_append_drop]
    obtain ⟨e, he, hmatch⟩ := List.any_eq_true.mp hhandler
    refine (hstops _ _ hes e he).1 ?_
    cases e <;> trivial

/-- A reply with one call, as text and as JSON. -/
def callText : Bytes :=
  ascii "\x7b\"candidates\":[\x7b\"content\":\x7b\"parts\":[\x7b\"functionCall\":" ++
    ascii "\x7b\"name\":\"f\"\x7d\x7d]\x7d\x7d]\x7d"

def callPart : Json :=
  Json.object [(ascii "functionCall", Json.object [(ascii "name", .str (ascii "f"))])]

def callDocument : Json :=
  Json.object [(ascii "candidates", .arr [Json.object [(ascii "content",
    Json.object [(ascii "parts", .arr [callPart])])]])]

/-- The session of that reply, with or without a tool. -/
def oneToolSession (tool : Bool) : ChatSession (List FakeTransport.Reply) :=
  let contents := ascii
    "\x7b\"contents\":[\x7b\"parts\":[\x7b\"text\":\"hi\"\x7d],\"role\":\"user\"\x7d]"
  let declarations := ascii
    ",\"tools\":[\x7b\"functionDeclarations\":[\x7b\"description\":\"\",\"name\":\"f\"\x7d]\x7d]"
  let body := contents ++ (if tool then declarations else []) ++ ascii "\x7d"
  { client := (makeClient (.known [(callText, callDocument)] body)).forChat
    options := .bounded 0
    tools := if tool then some [echoTool (ascii "f")] else none
    toolObserver := none
    text := .known [] (ascii "\x7b\x7d") }

/-- The reply, streamed and cancelled at its only chunk. -/
def cancelledCall (tool : Bool) :
    Outcome Event Exn (ChatState × List FakeTransport.Reply) (Result GenerateResponse) :=
  (oneToolSession tool).send (ascii "hi") (some fun _ replies => (.ok false, replies))
    (.init, [FakeTransport.ofStream [ascii "data: " ++ callText ++ ascii "\n\n"]])

/-- The call is executed although the callback has refused the chunk. -/
theorem cancelledCall_runs_handler : ¬ StopsAfterCancel (cancelledCall true).events :=
  not_stopsAfterCancel 6 (by decide +kernel) (by decide +kernel)

/-- A property of what was shown before each cancel, by the places of the cancels. -/
theorem forall_cancel_of_all {es : List Event} {P : List Event → Bool}
    (h : (List.range es.length).all fun n => !(es[n]?.any (· matches .cancel)) || P (es.take n)) :
    ∀ shown rest, es = shown ++ .cancel :: rest → P shown = true := by
  rintro shown rest rfl
  have hn := List.all_eq_true.mp h shown.length (List.mem_range.mpr (by simp))
  rw [List.getElem?_append_right (Nat.le_refl _), Nat.sub_self, List.take_left] at hn
  simpa using hn

/-- A stream that is cancelled before the chunk with its call stops the turn. -/
theorem cancelledCall_stops_before_call :
    let text := JsonText.known [(helloText, helloDocument), (callText, callDocument)]
      (ascii "\x7b\x7d")
    let s := { oneToolSession true with client := (makeClient text).forChat }
    let stream := FakeTransport.ofStream
      [ascii "data: " ++ helloText ++ ascii "\n\n", ascii "data: " ++ callText ++ ascii "\n\n"]
    let o := s.send (ascii "hi") (some fun _ replies => (.ok false, replies)) (.init, [stream])
    .cancel ∈ o.events ∧ StopsAfterCancel o.events := by
  intro text s stream o
  have hcancel : o.events.any (· matches .cancel) = true := by decide +kernel
  have hcalls : ∀ shown rest, o.events = shown ++ .cancel :: rest →
      (partialReply shown).functionCalls.isEmpty = true :=
    forall_cancel_of_all (by decide +kernel)
  constructor
  · obtain ⟨e, he, hmatch⟩ := List.any_eq_true.mp hcancel
    cases e <;> first | exact he | cases hmatch
  · apply s.stops_after_cancel rfl
    intro shown rest hes
    exact Or.inr (List.isEmpty_iff.mp (hcalls shown rest hes))

end GeminiCpp
