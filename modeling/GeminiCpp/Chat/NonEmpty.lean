import GeminiCpp.Chat.Echo

/-! When a session stores a turn without parts: exactly when the client answers with a reply
whose first candidate has none, which the session then sends back with every later request. -/
namespace GeminiCpp
open Traced Traced.Prog

variable {ω : Type}

/-- Every turn of a history has a part. -/
def HaveParts (h : List Content) : Prop := ∀ c ∈ h, c.parts ≠ []

/-- Every content of a request has a part. -/
structure GenerateRequest.HasParts (request : GenerateRequest) : Prop where
  contents : HaveParts request.contents
  systemInstruction : ∀ c, request.systemInstruction = some c → c.parts ≠ []

/-- The turn that a reply becomes has no parts. -/
def GenerateResponse.EmptyTurn (response : GenerateResponse) : Prop :=
  ∃ candidate others, response.candidates = candidate :: others ∧ candidate.content.parts = []

theorem haveParts_nil : HaveParts [] := by simp [HaveParts]

theorem haveParts_concat {h : List Content} {c : Content} :
    HaveParts (h ++ [c]) ↔ HaveParts h ∧ c.parts ≠ [] := by
  simp [HaveParts, or_imp, forall_and]

theorem HaveParts.take {h : List Content} (hh : HaveParts h) (n : ℕ) : HaveParts (h.take n) :=
  fun c hc => hh c (List.mem_of_mem_take hc)

theorem asksOf_append (es es' : List Event) : asksOf (es ++ es') = asksOf es ++ asksOf es' :=
  List.filterMap_append

theorem asksOf_of_not_isAsk {es : List Event} (h : ∀ e ∈ es, e.isAsk = false) :
    asksOf es = [] := by
  refine List.filterMap_eq_nil_iff.mpr fun e he => ?_
  have hno := h e he
  cases e with
  | ask request => cases hno
  | _ => rfl

/-- Requests and the history after them have a part in every content. -/
def PartsKept (es : List Event) (x : ChatState) : Prop :=
  HaveParts x.history ∧ ∀ request ∈ asksOf es, request.HasParts

namespace ChatSession
variable (s : ChatSession ω)

theorem buildRequest_hasParts {h : List Content} :
    (s.buildRequest h).HasParts ↔ HaveParts h := by
  constructor
  · exact fun hrequest => hrequest.contents
  · intro hh
    constructor
    case contents => exact hh
    case systemInstruction =>
      intro c hc
      obtain ⟨t, -, rfl⟩ := Option.map_eq_some_iff.mp hc
      exact List.cons_ne_nil _ _

/-- The state after a tool round. -/
def afterTools (x : ChatState) (response : GenerateResponse) (candidate : Candidate)
    (parts : List Part) : ChatState :=
  ((x.addUsage response.usage).pushBack (replyTurn candidate)).pushBack { role := .user, parts }

/-- The client answers one of the next `left` requests with a reply. -/
inductive Receives (onChunk : Option (StreamCallback ω)) :
    (left : ℕ) → ChatState × ω → GenerateResponse → Prop
  | now {left : ℕ} {x : ChatState} {w : ω} {response : GenerateResponse}
    (hasked : (s.ask onChunk (s.buildRequest x.history) w).result = .ok (.ok response)) :
    Receives onChunk (left + 1) (x, w) response
  /-- A reply to a later request, after the tool round of `first`. -/
  | later {left : ℕ} {x : ChatState} {w : ω} {first response : GenerateResponse}
    {candidate : Candidate} {others : List Candidate} {tools : ToolRegistry ω} {parts : List Part}
    (hasked : (s.ask onChunk (s.buildRequest x.history) w).result = .ok (.ok first))
    (hcandidates : first.candidates = candidate :: others) (htools : s.tools = some tools)
    (hcalls : callsOf candidate.content.parts ≠ [])
    (hparts : (s.runTools tools (callsOf candidate.content.parts)
      (s.ask onChunk (s.buildRequest x.history) w).state).result = .ok parts)
    (h : Receives onChunk left (afterTools x first candidate parts,
      (s.runTools tools (callsOf candidate.content.parts)
        (s.ask onChunk (s.buildRequest x.history) w).state).state) response) :
    Receives onChunk (left + 1) (x, w) response

/-- One of the next `left` replies becomes a turn without parts. -/
def ReceivesEmpty (onChunk : Option (StreamCallback ω)) (left : ℕ) (σ : ChatState × ω) : Prop :=
  ∃ response, s.Receives onChunk left σ response ∧ response.EmptyTurn

variable {s} {onChunk : Option (StreamCallback ω)} {left : ℕ} {x : ChatState} {w : ω}

theorem not_receivesEmpty_zero : ¬ s.ReceivesEmpty onChunk 0 (x, w) := by
  rintro ⟨response, h, -⟩
  cases h

/-- Without a reply nothing is received. -/
theorem not_receivesEmpty_of_failed
    (h : ∀ response, (s.ask onChunk (s.buildRequest x.history) w).result ≠ .ok (.ok response)) :
    ¬ s.ReceivesEmpty onChunk (left + 1) (x, w) := by
  rintro ⟨response, hreceives, -⟩
  cases hreceives with
  | now hasked => exact h response hasked
  | later hasked => exact h _ hasked

/-- A reply after which there is no tool round that returns is the only one. -/
theorem receivesEmpty_iff_of_last {response : GenerateResponse}
    (hasked : (s.ask onChunk (s.buildRequest x.history) w).result = .ok (.ok response))
    (hlast : ∀ candidate others tools parts, response.candidates = candidate :: others →
      s.tools = some tools → callsOf candidate.content.parts ≠ [] →
      (s.runTools tools (callsOf candidate.content.parts)
        (s.ask onChunk (s.buildRequest x.history) w).state).result ≠ .ok parts) :
    s.ReceivesEmpty onChunk (left + 1) (x, w) ↔ response.EmptyTurn := by
  constructor
  · rintro ⟨response', hreceives, hempty⟩
    cases hreceives with
    | now hasked' =>
      obtain rfl : response = response' := Except.ok.inj (Except.ok.inj (hasked.symm.trans hasked'))
      exact hempty
    | @later _ _ _ first _ _ _ _ _ hasked' hcandidates htools hcalls hparts =>
      obtain rfl : response = first := Except.ok.inj (Except.ok.inj (hasked.symm.trans hasked'))
      exact absurd hparts (hlast _ _ _ _ hcandidates htools hcalls)
  · exact fun hempty => ⟨response, .now hasked, hempty⟩

/-- A reply with calls is not empty, and others may follow it. -/
theorem receivesEmpty_iff_of_tools {response : GenerateResponse} {candidate : Candidate}
    {others : List Candidate} {tools : ToolRegistry ω} {parts : List Part}
    (hasked : (s.ask onChunk (s.buildRequest x.history) w).result = .ok (.ok response))
    (hcandidates : response.candidates = candidate :: others) (htools : s.tools = some tools)
    (hcalls : callsOf candidate.content.parts ≠ [])
    (hparts : (s.runTools tools (callsOf candidate.content.parts)
      (s.ask onChunk (s.buildRequest x.history) w).state).result = .ok parts) :
    s.ReceivesEmpty onChunk (left + 1) (x, w) ↔
      s.ReceivesEmpty onChunk left (afterTools x response candidate parts,
        (s.runTools tools (callsOf candidate.content.parts)
          (s.ask onChunk (s.buildRequest x.history) w).state).state) := by
  constructor
  · rintro ⟨response', hreceives, hempty⟩
    cases hreceives with
    | now hasked' =>
      obtain rfl : response = response' := Except.ok.inj (Except.ok.inj (hasked.symm.trans hasked'))
      obtain ⟨candidate', others', hcandidates', hnil⟩ := hempty
      obtain ⟨rfl, -⟩ := List.cons.inj (hcandidates.symm.trans hcandidates')
      rw [hnil] at hcalls
      exact absurd rfl hcalls
    | @later _ _ _ first _ candidate' _ tools' parts' hasked' hcandidates' htools' _ hparts' h =>
      obtain rfl : response = first := Except.ok.inj (Except.ok.inj (hasked.symm.trans hasked'))
      obtain ⟨rfl, -⟩ := List.cons.inj (hcandidates.symm.trans hcandidates')
      obtain rfl : tools = tools' := Option.some.inj (htools.symm.trans htools')
      obtain rfl : parts = parts' := Except.ok.inj (hparts.symm.trans hparts')
      exact ⟨response', h, hempty⟩
  · rintro ⟨response', hreceives, hempty⟩
    exact ⟨response', .later hasked hcandidates htools hcalls hparts hreceives, hempty⟩

variable (s) in
/-- The events of one request: it has parts if the history has. -/
theorem wp_ask_asks {c : Client ω} (hs : s.client = c.forChat) (hx : HaveParts x.history) :
    wp (s.ask onChunk (s.buildRequest x.history)) w fun es _ _ =>
      ∀ request ∈ asksOf es, request.HasParts := by
  refine wp_mono (s.wp_ask_answered hs onChunk (s.buildRequest x.history) w) fun es _ r h => ?_
  obtain ⟨answer, rfl, hanswered⟩ := h
  have hnone := asksOf_of_not_isAsk fun e he => (hanswered.silent e he).1
  intro request hrequest
  have hrequest : request ∈ s.buildRequest x.history :: asksOf answer := hrequest
  rw [hnone] at hrequest
  obtain rfl := List.mem_singleton.mp hrequest
  exact s.buildRequest_hasParts.mpr hx

theorem asksOf_runTools (tools : ToolRegistry ω) (calls : List FunctionCall) :
    wp (s.runTools tools calls) w fun es _ r => asksOf es = [] ∧
      ∀ parts, r = .ok parts → List.Forall₂ Answers calls parts := by
  refine wp_mono (s.wp_runTools tools calls w) fun es _ r h => ?_
  obtain ⟨⟨rest, hes, hrest⟩, hparts⟩ := h
  refine ⟨asksOf_of_not_isAsk fun e he => ?_, fun parts h => (hparts parts h).1⟩
  rw [hes] at he
  rcases List.mem_cons.mp he with rfl | he
  · rfl
  · have htool := hrest e he
    cases e <;> first | rfl | exact htool.elim

/-- Calls come from parts. -/
theorem parts_ne_nil_of_calls {parts : List Part} (h : callsOf parts ≠ []) : parts ≠ [] := by
  rintro rfl
  exact h rfl

/-- A reply with calls that is not followed by another request. -/
theorem not_receivesEmpty_of_thrown {response : GenerateResponse} {candidate : Candidate}
    {others : List Candidate} {tools : ToolRegistry ω} {t : Exn}
    (hasked : (s.ask onChunk (s.buildRequest x.history) w).result = .ok (.ok response))
    (hcandidates : response.candidates = candidate :: others) (htools : s.tools = some tools)
    (hcalls : callsOf candidate.content.parts ≠ [])
    (hthrown : (s.runTools tools (callsOf candidate.content.parts)
      (s.ask onChunk (s.buildRequest x.history) w).state).result = .error t) :
    ¬ s.ReceivesEmpty onChunk (left + 1) (x, w) := by
  rw [receivesEmpty_iff_of_last hasked]
  · rintro ⟨candidate', others', hcandidates', hnil⟩
    obtain ⟨rfl, -⟩ := List.cons.inj (hcandidates.symm.trans hcandidates')
    exact parts_ne_nil_of_calls hcalls hnil
  · intro candidate' others' tools' parts hcandidates' htools' _ hparts
    obtain ⟨rfl, -⟩ := List.cons.inj (hcandidates.symm.trans hcandidates')
    obtain rfl : tools = tools' := Option.some.inj (htools.symm.trans htools')
    rw [hthrown] at hparts
    cases hparts

/-- The turns of a tool round have parts. -/
theorem haveParts_afterTools (hx : HaveParts x.history) {response : GenerateResponse}
    {candidate : Candidate} {parts : List Part} (hcalls : callsOf candidate.content.parts ≠ [])
    (hanswers : List.Forall₂ Answers (callsOf candidate.content.parts) parts) :
    HaveParts (afterTools x response candidate parts).history := by
  change HaveParts (x.history ++ [replyTurn candidate] ++ [{ role := .user, parts }])
  rw [haveParts_concat, haveParts_concat]
  refine ⟨⟨hx, parts_ne_nil_of_calls hcalls⟩, fun hnil => hcalls ?_⟩
  have hnil : parts = [] := hnil
  rw [hnil] at hanswers
  exact List.forall₂_nil_right_iff.mp hanswers

/-- Requests with parts, and then events without requests, leave open what the rest keeps. -/
theorem partsKept_append_iff {es es' es'' : List Event}
    (hasks : ∀ request ∈ asksOf es, request.HasParts) (hnone : asksOf es' = []) :
    PartsKept (es ++ (es' ++ es'')) x ↔ PartsKept es'' x := by
  rw [PartsKept, PartsKept, asksOf_append, asksOf_append, hnone, List.nil_append]
  refine and_congr_right fun _ => ?_
  constructor
  · exact fun hall request hmem => hall request (List.mem_append_right _ hmem)
  · intro hall request hmem
    exact (List.mem_append.mp hmem).elim (hasks request) (hall request)

/-- The turn of an answer keeps the parts of a history exactly if it has some. -/
theorem partsKept_answered_iff {es : List Event} {response : GenerateResponse}
    {candidate : Candidate} {others : List Candidate} (hx : HaveParts x.history)
    (hasks : ∀ request ∈ asksOf es, request.HasParts)
    (hcandidates : response.candidates = candidate :: others) :
    PartsKept es ((x.addUsage response.usage).pushBack (replyTurn candidate)) ↔
      ¬ response.EmptyTurn := by
  have hempty : response.EmptyTurn ↔ candidate.content.parts = [] := by
    simp [GenerateResponse.EmptyTurn, hcandidates]
  have hhistory : HaveParts (((x.addUsage response.usage).pushBack
      (replyTurn candidate)).history) ↔ candidate.content.parts ≠ [] := by
    change HaveParts (x.history ++ [replyTurn candidate]) ↔ _
    rw [haveParts_concat]
    exact and_iff_right hx
  rw [hempty, PartsKept, hhistory]
  exact and_iff_left hasks

theorem wp_rounds_parts {c : Client ω} (hs : s.client = c.forChat) (checkpoint left : ℕ)
    (x : ChatState) (w : ω) (hx : HaveParts x.history) (hle : checkpoint ≤ x.history.length) :
    wp (s.rounds checkpoint onChunk left) (x, w) fun es s' _ =>
      PartsKept es s'.1 ↔ ¬ s.ReceivesEmpty onChunk left (x, w) := by
  induction left generalizing x w with
  | zero =>
    refine wp_mono (wp_rollback checkpoint _ x w hle) ?_
    rintro es s' r ⟨rfl, hh, -⟩
    have hkept : PartsKept [] s'.1 := by
      constructor
      · rw [hh]
        exact hx.take checkpoint
      · intro request hrequest
        cases hrequest
    exact iff_of_true hkept not_receivesEmpty_zero
  | succ left ih =>
    have hasks : ∀ request ∈ asksOf (s.ask onChunk (s.buildRequest x.history) w).events,
        request.HasParts := s.wp_ask_asks hs hx
    apply wp_rounds_succ
    constructor
    case thrown =>
      intro es w₁ t hasked
      rw [hasked] at hasks
      exact iff_of_true ⟨hx, hasks⟩ (not_receivesEmpty_of_failed (by simp [hasked]))
    case failed =>
      intro es w₁ e hasked
      rw [hasked] at hasks
      refine iff_of_true ⟨?_, hasks⟩ (not_receivesEmpty_of_failed (by simp [hasked]))
      rw [ChatState.history_resize hle]
      exact hx.take checkpoint
    case empty =>
      intro es w₁ response hasked hnil
      rw [hasked] at hasks
      rw [receivesEmpty_iff_of_last (by rw [hasked]) (by simp [hnil])]
      refine iff_of_true ⟨?_, hasks⟩ ?_
      · have hle' : checkpoint ≤ (x.addUsage response.usage).history.length := hle
        rw [ChatState.history_resize hle']
        exact hx.take checkpoint
      · rintro ⟨candidate, others, hcandidates, -⟩
        rw [hnil] at hcandidates
        cases hcandidates
    case answered =>
      intro es w₁ response candidate others hasked hcandidates hlast
      rw [hasked] at hasks
      rw [receivesEmpty_iff_of_last (by rw [hasked])]
      · exact partsKept_answered_iff hx hasks hcandidates
      · intro candidate' others' tools parts hcandidates' htools hcalls
        obtain ⟨rfl, -⟩ := List.cons.inj (hcandidates.symm.trans hcandidates')
        rcases hlast with hnone | hnone
        · exact absurd hnone hcalls
        · rw [hnone] at htools
          cases htools
    case tools =>
      intro es w₁ response candidate others tools hasked hcandidates htools hcalls
      have hrun := wp_iff.mp (asksOf_runTools (s := s) (w := w₁) tools
        (callsOf candidate.content.parts))
      have hstate : (s.ask onChunk (s.buildRequest x.history) w).state = w₁ := by rw [hasked]
      have hresult : (s.ask onChunk (s.buildRequest x.history) w).result =
          .ok (.ok response) := by rw [hasked]
      rw [hasked] at hasks
      rw [wp_iff]
      rcases hr : (s.runTools tools (callsOf candidate.content.parts) w₁).result with t | parts
      · refine iff_of_true ⟨?_, ?_⟩ (not_receivesEmpty_of_thrown hresult hcandidates htools hcalls
          (by rw [hstate, hr]))
        · exact haveParts_concat.mpr ⟨hx, parts_ne_nil_of_calls hcalls⟩
        · rw [asksOf_append, hrun.1, List.append_nil]
          exact hasks
      · have hparts : HaveParts (afterTools x response candidate parts).history :=
          haveParts_afterTools hx hcalls (hrun.2 parts hr)
        rw [receivesEmpty_iff_of_tools hresult hcandidates htools hcalls (by rw [hstate, hr]),
          hstate]
        refine wp_mono (ih _ _ hparts ?_) fun es'' s' _ h => ?_
        · simp only [ChatState.pushBack, ChatState.addUsage, List.length_append]
          omega
        · exact (partsKept_append_iff hasks hrun.1).trans h

theorem wp_send_parts {c : Client ω} (hs : s.client = c.forChat) (message : Bytes) (x : ChatState)
    (w : ω) (hx : HaveParts x.history) :
    wp (s.send message onChunk) (x, w) fun es s' _ => PartsKept es s'.1 ↔
      ¬ s.ReceivesEmpty onChunk (s.options.maxToolRounds + 1).toNat
        (x.pushBack (.user message), w) := by
  simp only [send, setState, wp_bind, wp_get, wp_modify, then_ok, List.nil_append]
  apply wp_rounds_parts hs
  · exact haveParts_concat.mpr ⟨hx, List.cons_ne_nil _ _⟩
  · simp [ChatState.pushBack]

end ChatSession

/-- A call on a session. -/
inductive SessionCall (ω : Type)
  | send (message : Bytes) (onChunk : Option (StreamCallback ω))
  | reset

namespace ChatSession
variable (s : ChatSession ω)

/-- The events of a call, and the state it leaves, however it ends. -/
def call (x : ChatState) : SessionCall ω × ω → List Event × ChatState
  | (.send message onChunk, w) =>
    ((s.send message onChunk (x, w)).events, (s.send message onChunk (x, w)).state.1)
  | (.reset, w) =>
    ((reset (x, w) : Outcome Event Exn (ChatState × ω) Unit).events,
      (reset (x, w) : Outcome Event Exn (ChatState × ω) Unit).state.1)

/-- The calls of a run, each with the state before it. Between two calls the outside world
changes in any way. -/
def callStates (x : ChatState) :
    List (SessionCall ω × ω) → List (ChatState × SessionCall ω × ω)
  | [] => []
  | call :: calls => (x, call) :: callStates (s.call x call).2 calls

/-- Every reply that a call takes becomes a turn with parts. -/
def AnswersHaveParts (x : ChatState) : SessionCall ω × ω → Prop
  | (.send message onChunk, w) =>
    ¬ s.ReceivesEmpty onChunk (s.options.maxToolRounds + 1).toNat (x.pushBack (.user message), w)
  | (.reset, _) => True

variable {s} {x : ChatState}

theorem call_parts {c : Client ω} (hs : s.client = c.forChat) (hx : HaveParts x.history)
    (call : SessionCall ω × ω) :
    PartsKept (s.call x call).1 (s.call x call).2 ↔ s.AnswersHaveParts x call := by
  obtain ⟨call, w⟩ := call
  cases call with
  | send message onChunk => exact wp_iff.mp (wp_send_parts hs message x w hx)
  | reset => exact iff_of_true ⟨haveParts_nil, fun request h => by cases h⟩ trivial

theorem callStates_parts {c : Client ω} (hs : s.client = c.forChat)
    (calls : List (SessionCall ω × ω)) (x : ChatState) (hx : HaveParts x.history) :
    (∀ p ∈ s.callStates x calls, PartsKept (s.call p.1 p.2).1 (s.call p.1 p.2).2) ↔
      ∀ p ∈ s.callStates x calls, s.AnswersHaveParts p.1 p.2 := by
  induction calls generalizing x with
  | nil => simp [callStates]
  | cons call calls ih =>
    rw [callStates, List.forall_mem_cons, List.forall_mem_cons, call_parts hs hx]
    refine and_congr_right fun hcall => ?_
    have hkept := (call_parts hs hx call).mpr hcall
    exact ih (s.call x call).2 hkept.1

/-- All contents in the history, after every call of a run from a new session, and in its
requests have parts, exactly if no call takes a reply whose first candidate has no parts. -/
theorem parts_kept_iff {c : Client ω} (hs : s.client = c.forChat)
    (calls : List (SessionCall ω × ω)) :
    (∀ p ∈ s.callStates .init calls, PartsKept (s.call p.1 p.2).1 (s.call p.1 p.2).2) ↔
      ∀ p ∈ s.callStates .init calls, s.AnswersHaveParts p.1 p.2 :=
  callStates_parts hs calls .init haveParts_nil

end ChatSession

/-- A reply that is stopped before it has any content. -/
def stoppedText : Bytes :=
  ascii "\x7b\"candidates\":[\x7b\"finishReason\":\"SAFETY\"\x7d]\x7d"

def stoppedDocument : Json :=
  Json.object [(ascii "candidates",
    .arr [Json.object [(ascii "finishReason", .str (ascii "SAFETY"))]])]

def plainSession : ChatSession (List FakeTransport.Reply) :=
  { client := (makeClient (.known [(stoppedText, stoppedDocument)] (ascii
      "\x7b\"contents\":[\x7b\"parts\":[\x7b\"text\":\"hi\"\x7d],\"role\":\"user\"\x7d]\x7d"))).forChat
    options := .bounded 8
    tools := none
    toolObserver := none
    text := .known [] [] }

def stoppedCall : SessionCall (List FakeTransport.Reply) × List FakeTransport.Reply :=
  (.send (ascii "hi") none, [FakeTransport.ofJson 200 stoppedText])

/-- The stopped reply is stored as a turn without parts. -/
theorem stoppedCall_stores_empty :
    ¬ PartsKept (plainSession.call .init stoppedCall).1 (plainSession.call .init stoppedCall).2 := by
  intro h
  have hhistory : (plainSession.call .init stoppedCall).2.history =
      [.user (ascii "hi"), { role := .model, parts := [] }] := rfl
  refine h.1 { role := .model, parts := [] } ?_ rfl
  rw [hhistory]
  exact List.mem_cons_of_mem _ (List.mem_singleton.mpr rfl)

/-- A reset after it. -/
theorem parts_kept_iff_stopped :
    (∀ p ∈ plainSession.callStates .init [stoppedCall, (.reset, [])],
      PartsKept (plainSession.call p.1 p.2).1 (plainSession.call p.1 p.2).2) ↔
      ∀ p ∈ plainSession.callStates .init [stoppedCall, (.reset, [])],
        plainSession.AnswersHaveParts p.1 p.2 :=
  ChatSession.parts_kept_iff rfl [stoppedCall, (.reset, [])]

end GeminiCpp
