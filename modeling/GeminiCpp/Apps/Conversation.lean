import Mathlib.Data.List.Chain
import GeminiCpp.Apps.Chat
import GeminiCpp.Chat.Cancel
import GeminiCpp.Chat.Effects
import GeminiCpp.Chat.NonEmpty
import GeminiCpp.Client.StreamText

/-! The conversation that a chat carries on: messages, with the turns that answered them. The
model is told it with every message, and the screen shows it. -/
namespace GeminiCpp.Apps
open Traced Traced.Prog

variable {ω : Type}

/-- A message and the turns that answered it. -/
structure Exchange where
  message : Bytes
  turns : List Content

/-- What a conversation rests on. -/
abbrev Talk := List Exchange

/-- The history that carries a conversation. -/
def Talk.history (talk : Talk) : List Content :=
  talk.flatMap fun exchange => .user exchange.message :: exchange.turns

/-- What the model says in some turns. -/
def modelText (turns : List Content) : Bytes :=
  turns.flatMap fun c => if c.role = .model then c.text else []

/-- The contents of the requests, in order. -/
def contentsOf (es : List Event) : List (List Content) := (asksOf es).map (·.contents)

/-- A request that goes on where another one was answered by calls. -/
def NextRound (contents contents' : List Content) : Prop :=
  ∃ reply results, ToolTurns [reply, results] ∧ contents' = contents ++ [reply, results]

/-- What came of a message: what happened, what was shown of it, what the session returned, and
the turns that answer it, if the conversation goes on with them. -/
structure Said where
  message : Bytes
  events : List Event
  shown : Bytes
  reply : Result GenerateResponse
  kept : Option (List Content)

namespace Said

/-- The conversation after the message. -/
def after (talk : Talk) (said : Said) : Talk :=
  match said.kept with
  | some turns => talk ++ [{ message := said.message, turns }]
  | none => talk

/-- The message was sent as the next one of the conversation, and shown as it was answered. -/
structure Fair (s : ChatSession (Console ω)) (talk : Talk) (said : Said) : Prop where
  /-- The session sent it, with the conversation as its history, and returned the reply. -/
  sent : ∃ x con, x.history = talk.history ∧
    wp (s.send said.message (some stdoutPrinter)) (x, con) fun es _ r =>
      es = said.events ∧ r = .ok said.reply
  /-- The message stays in the conversation if and only if it was answered. -/
  keeps : said.kept.isSome ↔ ∃ response, said.reply = .ok response
  /-- The model is told the conversation and the message, -/
  first : ∀ contents ∈ (contentsOf said.events).head?,
    contents = talk.history ++ [.user said.message]
  /-- and in each further request the calls of its last reply, with their results. -/
  rounds : (contentsOf said.events).IsChain NextRound
  /-- The turns that are kept go on from the last request with an answer that needs no calls. -/
  answer : ∀ turns, said.kept = some turns → ∃ asked last,
    (contentsOf said.events).getLast? = some asked ∧
    talk.history ++ .user said.message :: turns = asked ++ [last] ∧
    last.role = .model ∧ (s.tools.isSome = true → callsOf last.parts = [])
  /-- Nothing is shown that was not received, -/
  shown : said.shown.Sublist ((chunksOf said.events).flatMap (·.text))
  /-- and what was received is shown, if nothing was cancelled, -/
  complete : .cancel ∉ said.events → said.shown = (chunksOf said.events).flatMap (·.text)
  /-- and it is what the model says in the turns that are kept. -/
  text : ∀ turns index, said.kept = some turns →
    (∀ chunk ∈ chunksOf said.events, chunk.FrontAt index) →
    (chunksOf said.events).flatMap (·.text) = modelText turns

end Said

/-- A line that the loop takes for a message. -/
structure IsMessage (line : Bytes) : Prop where
  notBlank : blankLine line = false
  notCommand : line ∉ [ascii "/exit", ascii "/quit", ascii "/reset", ascii "/usage",
    ascii "/history"]

/-- What a line does to a conversation. -/
inductive LineStep (s : ChatSession (Console ω)) :
    Talk → Bytes → List Said → Bool → Talk → Prop
  | exit {talk : Talk} {line : Bytes} (h : line = ascii "/exit" ∨ line = ascii "/quit") :
    LineStep s talk line [] false talk
  | reset {talk : Talk} : LineStep s talk (ascii "/reset") [] true []
  | other {talk : Talk} {line : Bytes}
    (h : blankLine line = true ∨ line = ascii "/usage" ∨ line = ascii "/history") :
    LineStep s talk line [] true talk
  | message {talk : Talk} {said : Said} (h : IsMessage said.message) (hfair : said.Fair s talk) :
    LineStep s talk said.message [said] true (said.after talk)

/-- How a conversation goes over the lines of the user. -/
inductive Talks (s : ChatSession (Console ω)) :
    Talk → List Bytes → List Said → Talk → Prop
  | eof {talk : Talk} : Talks s talk [] [] talk
  | ends {talk talk' : Talk} {line : Bytes} {lines : List Bytes} {log : List Said}
    (h : LineStep s talk line log false talk') : Talks s talk (line :: lines) log talk'
  | goesOn {talk talk' talk'' : Talk} {line : Bytes} {lines : List Bytes} {log log' : List Said}
    (h : LineStep s talk line log true talk') (hrest : Talks s talk' lines log' talk'') :
    Talks s talk (line :: lines) (log ++ log') talk''

theorem contentsOf_append (es es' : List Event) :
    contentsOf (es ++ es') = contentsOf es ++ contentsOf es' := by
  unfold contentsOf
  rw [asksOf_append, List.map_append]

/-- The events of one request. -/
theorem contentsOf_ask {request : GenerateRequest} {during : List Event}
    (h : ∀ e ∈ during, e.isAsk = false) :
    contentsOf (.ask request :: during) = [request.contents] := by
  have hnone : asksOf during = [] := asksOf_of_not_isAsk h
  have hcons : asksOf (.ask request :: during) = request :: asksOf during := rfl
  unfold contentsOf
  rw [hcons, hnone]
  rfl

/-- What the rounds of a message do to the conversation: `h` and `h'` are the histories before
and after them. -/
structure RoundsTalk (h : List Content) (es : List Event) (h' : List Content)
    (r : MayThrow (Result GenerateResponse)) : Prop where
  first : ∀ contents ∈ (contentsOf es).head?, contents = h
  rounds : (contentsOf es).IsChain NextRound
  answer : ∀ reply, r = .ok (.ok reply) → ∃ asked last,
    (contentsOf es).getLast? = some asked ∧ h' = asked ++ [last]
  text : ∀ reply index, r = .ok (.ok reply) → (∀ chunk ∈ chunksOf es, chunk.FrontAt index) →
    ∃ turns, h' = h ++ turns ∧ (chunksOf es).flatMap (·.text) = modelText turns

namespace RoundsTalk
variable {h h' : List Content} {es : List Event} {r : MayThrow (Result GenerateResponse)}

/-- One request without an answer. -/
theorem unanswered (hes : contentsOf es = [h]) (hr : ∀ reply, r ≠ .ok (.ok reply)) :
    RoundsTalk h es h' r where
  first contents hmem := by
    rw [hes] at hmem
    exact (Option.some.inj hmem).symm
  rounds := by
    rw [hes]
    exact .singleton _
  answer reply h := absurd h (hr reply)
  text reply _ h := absurd h (hr reply)

/-- One request that is answered. -/
theorem answered {reply : GenerateResponse} {candidate : Candidate} {others : List Candidate}
    (hes : contentsOf es = [h]) (hcandidates : reply.candidates = candidate :: others)
    (htext : ∀ index, (∀ chunk ∈ chunksOf es, chunk.FrontAt index) →
      reply.text = (chunksOf es).flatMap (·.text)) :
    RoundsTalk h es (h ++ [ChatSession.replyTurn candidate]) r where
  first contents hmem := by
    rw [hes] at hmem
    exact (Option.some.inj hmem).symm
  rounds := by
    rw [hes]
    exact .singleton _
  answer _ _ := ⟨h, ChatSession.replyTurn candidate, by rw [hes]; rfl, rfl⟩
  text _ index _ hfronts := by
    have hreply : reply.text = modelText [ChatSession.replyTurn candidate] := by
      have hone : modelText [ChatSession.replyTurn candidate] =
          candidate.content.text ++ [] := rfl
      rw [hone, List.append_nil]
      unfold GenerateResponse.text
      rw [hcandidates]
    exact ⟨_, rfl, (htext index hfronts).symm.trans hreply⟩

/-- A request that is answered by calls, and the rounds after it. -/
theorem cons {reply : GenerateResponse} {candidate : Candidate} {others : List Candidate}
    {results : Content} {es' : List Event} (hes : contentsOf es = [h])
    (hcandidates : reply.candidates = candidate :: others)
    (hround : ToolTurns [ChatSession.replyTurn candidate, results])
    (huser : results.role = .user)
    (htext : ∀ index, (∀ chunk ∈ chunksOf es, chunk.FrontAt index) →
      reply.text = (chunksOf es).flatMap (·.text))
    (hrest : RoundsTalk (h ++ [ChatSession.replyTurn candidate] ++ [results]) es' h' r) :
    RoundsTalk h (es ++ es') h' r where
  first contents hmem := by
    rw [contentsOf_append, hes] at hmem
    exact (Option.some.inj hmem).symm
  rounds := by
    rw [contentsOf_append, hes, List.singleton_append, List.isChain_cons]
    refine ⟨fun next hnext => ?_, hrest.rounds⟩
    have hcontents := hrest.first next hnext
    exact ⟨_, results, hround, by rw [hcontents, List.append_assoc]; rfl⟩
  answer last hr := by
    obtain ⟨asked, last, hlast, hh⟩ := hrest.answer last hr
    refine ⟨asked, last, ?_, hh⟩
    rw [contentsOf_append, List.getLast?_append, hlast]
    rfl
  text last index hr hfronts := by
    rw [chunksOf_append] at hfronts ⊢
    obtain ⟨turns, hh, hturns⟩ := hrest.text last index hr
      fun chunk hmem => hfronts chunk (List.mem_append_right _ hmem)
    have hfirst := htext index fun chunk hmem => hfronts chunk (List.mem_append_left _ hmem)
    refine ⟨ChatSession.replyTurn candidate :: results :: turns, by rw [hh]; simp, ?_⟩
    have hsplit : modelText (ChatSession.replyTurn candidate :: results :: turns) =
        candidate.content.text ++ ((if results.role = .model then results.text else []) ++
          modelText turns) := rfl
    have hreply : reply.text = candidate.content.text := by
      unfold GenerateResponse.text
      rw [hcandidates]
    rw [hsplit, huser, List.flatMap_append, ← hfirst, hturns, hreply]
    rfl

end RoundsTalk

section Session
variable (s : ChatSession ω)

/-- The text of a reply that a session asks for. -/
theorem wp_ask_text {c : Client ω} (hs : s.client = c.forChat) (callback : StreamCallback ω)
    (request : GenerateRequest) (w : ω) :
    wp (s.ask (some callback) request) w fun es _ r => ∀ reply index, r = .ok (.ok reply) →
      (∀ chunk ∈ chunksOf es, chunk.FrontAt index) →
        reply.text = (chunksOf es).flatMap (·.text) := by
  simp only [ChatSession.ask, hs, wp_bind, wp_emit, then_ok]
  exact c.wp_stream_text request (some callback) w

theorem wp_rounds_talk {c : Client ω} (hs : s.client = c.forChat) (callback : StreamCallback ω)
    (checkpoint left : ℕ) (x : ChatState) (w : ω) :
    wp (s.rounds checkpoint (some callback) left) (x, w) fun es s' r =>
      RoundsTalk x.history es s'.1.history r := by
  induction left generalizing x w with
  | zero =>
    simp only [ChatSession.rounds, ChatSession.rollback, ChatSession.setState, wp_bind, wp_modify,
      then_ok, wp_pure]
    exact
      { first := fun contents h => by cases h
        rounds := .nil
        answer := fun reply h => by cases h
        text := fun reply _ h => by cases h }
  | succ left ih =>
    have hanswered := wp_iff.mp
      (s.wp_ask_answered hs (some callback) (s.buildRequest x.history) w)
    have htext := wp_iff.mp (wp_ask_text s hs callback (s.buildRequest x.history) w)
    -- there is one request in the events of a question
    have hone : ∀ {es w₁ r}, s.ask (some callback) (s.buildRequest x.history) w = ⟨es, w₁, r⟩ →
        contentsOf es = [x.history] := by
      intro es w₁ r hasked
      rw [hasked] at hanswered
      obtain ⟨answer, rfl, hsilent⟩ := hanswered
      exact contentsOf_ask fun e he => (hsilent.silent e he).1
    apply ChatSession.wp_rounds_succ
    constructor
    case thrown => exact fun hasked => .unanswered (hone hasked) fun reply h => by cases h
    case failed => exact fun hasked => .unanswered (hone hasked) fun reply h => by cases h
    case empty => exact fun hasked _ => .unanswered (hone hasked) fun reply h => by cases h
    case answered =>
      intro es w₁ response candidate others hasked hcandidates _
      rw [hasked] at htext
      exact .answered (hone hasked) hcandidates fun index => htext response index rfl
    case tools =>
      intro es w₁ response candidate others tools hasked hcandidates _ hcalls
      rw [hasked] at htext
      have hbeside := wp_iff.mp (s.wp_runTools_beside tools (callsOf candidate.content.parts) w₁)
      have hrun := wp_iff.mp (s.wp_runTools tools (callsOf candidate.content.parts) w₁)
      rw [wp_iff]
      generalize s.runTools tools (callsOf candidate.content.parts) w₁ = ran at hbeside hrun ⊢
      obtain ⟨es', w₂, r⟩ := ran
      have hnone : contentsOf es' = [] := by
        unfold contentsOf
        rw [asksOf_of_not_isAsk fun e he => (hbeside e he).2]
        rfl
      have hnochunks : chunksOf es' = [] := by
        refine List.filterMap_eq_nil_iff.mpr fun e he => ?_
        have hno := (hbeside e he).1.1
        cases e <;> first | rfl | exact absurd trivial hno
      have hround : contentsOf (es ++ es') = [x.history] := by
        rw [contentsOf_append, hone hasked, hnone, List.append_nil]
      have hchunks : chunksOf (es ++ es') = chunksOf es := by
        rw [chunksOf_append, hnochunks, List.append_nil]
      cases r with
      | error t => exact .unanswered hround fun reply h => by cases h
      | ok parts =>
        refine wp_mono (ih _ w₂) fun es'' s' r' hrest => ?_
        rw [← List.append_assoc]
        refine .cons hround hcandidates ?_ rfl ?_ hrest
        · exact .cons rfl hcalls rfl (hrun.2 parts rfl).1 .nil
        · rw [hchunks]
          exact fun index => htext response index rfl

end Session

theorem Talk.history_concat (talk : Talk) (exchange : Exchange) :
    Talk.history (talk ++ [exchange]) =
      talk.history ++ .user exchange.message :: exchange.turns := by
  unfold Talk.history
  rw [List.flatMap_append, List.flatMap_singleton]

theorem ToolRegistry.handlerOf_beside {κ : Type} (tools : ToolRegistry ω) (name : Bytes) :
    (tools.beside κ).handlerOf name = (tools.handlerOf name).map (ToolHandler.beside κ) := by
  have hname : ((fun tool : FunctionDeclaration × ToolHandler (κ × ω) =>
      decide (tool.1.name = name)) ∘ fun tool : FunctionDeclaration × ToolHandler ω =>
      (tool.1, tool.2.beside κ)) = fun tool => decide (tool.1.name = name) := rfl
  unfold ToolRegistry.beside ToolRegistry.handlerOf
  rw [List.find?_map, hname]
  cases tools.find? fun tool => tool.1.name = name <;> rfl

theorem out_toolPrinter (text : JsonText) (call : FunctionCall) (result : FunctionResponse)
    (con : Console ω) : (toolPrinter text call result con).2.1.out = con.1.out := by
  simp only [toolPrinter]
  cases text.dump call.args with
  | error x => rfl
  | ok args => cases text.dump result.response <;> rfl

section Chat
variable (c : Client (Bool × ω)) (options : ChatOptions)
  (tools : Option (ToolRegistry (Bool × ω)))

/-- The screen changes by what the events of a chat show. -/
theorem chatSession_allows :
    (chatSession c options tools).Allows (some stdoutPrinter) (printed ω) where
  request con _ := printed_event rfl (by simp) con
  toolRound con _ := printed_event rfl (by simp) con
  handler con _ _ := printed_event rfl (by simp) con
  toolResult con _ _ := printed_event rfl (by simp) con
  stream callback hcallback request := by
    cases hcallback
    exact Client.within_stream (allows_printed c) allowsChunks_printed request
  generate h := by cases h
  handlers registry hregistry name run hrun con args := by
    obtain ⟨own, -, rfl⟩ := Option.map_eq_some_iff.mp hregistry
    rw [ToolRegistry.handlerOf_beside] at hrun
    obtain ⟨handler, -, hhandler⟩ := Option.map_eq_some_iff.mp hrun
    obtain ⟨ownRun, -, rfl⟩ := Option.map_eq_some_iff.mp hhandler
    exact printed_world rfl
  observer observer hobserver con call result := by
    cases hobserver
    exact printed_world (out_toolPrinter c.text call result con)

/-- How a step of the chat carries on the conversation. -/
structure Follows (con : Console ω) (es : List Event) (s' : ChatState × Console ω)
    (log : List Said) (talk' : Talk) : Prop where
  history : s'.1.history = talk'.history
  events : es = log.flatMap (·.events)
  out : s'.2.1.out = con.1.out ++ log.flatMap fun said => said.shown ++ [lf]

/-- What comes of a message that is sent. -/
theorem wp_send_said (message : Bytes) (x : ChatState) (con : Console ω) (talk : Talk)
    (hx : x.history = talk.history) :
    wp ((chatSession c options tools).send message (some stdoutPrinter)) (x, con) fun es s' r =>
      ∀ reply, r = .ok reply → ∃ said : Said, said.message = message ∧ said.events = es ∧
        said.Fair (chatSession c options tools) talk ∧ s'.1.history = (said.after talk).history ∧
        s'.2.1.out = con.1.out ++ said.shown := by
  have hpost := (chatSession c options tools).wp_send message (some stdoutPrinter) x con
  have hshown := ChatSession.within_send (chatSession_allows c options tools) message (x, con)
  have htalk : wp ((chatSession c options tools).send message (some stdoutPrinter)) (x, con)
      fun es s' r => RoundsTalk (x.history ++ [.user message]) es s'.1.history r := by
    simp only [ChatSession.send, ChatSession.setState, wp_bind, wp_get, wp_modify, then_ok,
      List.nil_append]
    exact wp_rounds_talk (chatSession c options tools) (c := c.beside Screen) rfl stdoutPrinter _ _
      _ con
  rw [wp_iff] at hpost hshown htalk ⊢
  obtain ⟨shown, hshows, hout⟩ := hshown
  intro reply hr
  have hsent : ∃ y con', y.history = talk.history ∧
      wp ((chatSession c options tools).send message (some stdoutPrinter)) (y, con') fun es _ r =>
        es = ((chatSession c options tools).send message (some stdoutPrinter) (x, con)).events ∧
        r = .ok reply := ⟨x, con, hx, rfl, hr⟩
  rw [hr] at hpost
  generalize (chatSession c options tools).send message (some stdoutPrinter) (x, con) = o at *
  rw [hx] at hpost htalk
  cases reply with
  | error e =>
    have hback : o.state.1.history =
        (talk.history ++ [Content.user message]).take talk.history.length := hpost
    rw [List.take_left] at hback
    let said : Said := { message, events := o.events, shown, reply := .error e, kept := none }
    have hfair : said.Fair (chatSession c options tools) talk :=
      { sent := hsent
        keeps :=
          { mp := fun h => by cases h
            mpr := fun h => by obtain ⟨response, h⟩ := h; cases h }
        first := htalk.first
        rounds := htalk.rounds
        answer := fun turns h => by cases h
        shown := hshows.sublist
        complete := hshows.eq_of_not_cancelled
        text := fun turns index h => by cases h }
    exact ⟨said, rfl, rfl, hfair, hback, hout⟩
  | ok response =>
    obtain ⟨turns, last, hturns, hhistory, hmodel, hcalls⟩ := hpost
    have hhistory : o.state.1.history = talk.history ++ .user message :: (turns ++ [last]) := by
      rw [hhistory]
      simp
    let said : Said :=
      { message, events := o.events, shown, reply := .ok response, kept := some (turns ++ [last]) }
    have hfair : said.Fair (chatSession c options tools) talk :=
      { sent := hsent
        keeps := ⟨fun _ => ⟨response, rfl⟩, fun _ => rfl⟩
        first := htalk.first
        rounds := htalk.rounds
        answer := by
          intro kept hkept
          cases hkept
          obtain ⟨asked, last', hlast, hasked⟩ := htalk.answer response hr
          have hsame : (talk.history ++ .user message :: turns) ++ [last] = asked ++ [last'] := by
            rw [← hasked, hhistory]
            simp
          obtain ⟨-, hlast'⟩ := List.append_inj' hsame rfl
          obtain rfl := List.singleton_inj.mp hlast'
          exact ⟨asked, last, hlast, by rw [← hasked, hhistory], hmodel, hcalls⟩
        shown := hshows.sublist
        complete := hshows.eq_of_not_cancelled
        text := by
          intro kept index hkept hfronts
          cases hkept
          obtain ⟨turns', hturns', htext⟩ := htalk.text response index hr hfronts
          have hsame : talk.history ++ Content.user message :: (turns ++ [last]) =
              talk.history ++ Content.user message :: turns' := by
            rw [← hhistory, hturns']
            simp
          obtain rfl := (List.cons.inj (List.append_cancel_left hsame)).2
          exact htext }
    refine ⟨said, rfl, rfl, hfair, ?_, hout⟩
    rw [hhistory]
    exact (Talk.history_concat talk { message, turns := turns ++ [last] }).symm

/-- The prompt is not part of what is shown. -/
theorem wp_prompt {tty : Bool} {t : Bytes} {x : ChatState} {con : Console ω}
    {Q : List Event → ChatState × Console ω → MayThrow Unit → Prop}
    (h : ∀ con', con'.1.out = con.1.out → Q [] (x, con') (.ok ())) :
    wp (prompt tty t) (x, con) Q := by
  unfold prompt
  split_ifs
  · exact h (con.1.note t, con.2) rfl
  · exact h con rfl

theorem wp_chatMessage (tty : Bool) (line : Bytes) (x : ChatState) (con : Console ω) (talk : Talk)
    (hx : x.history = talk.history) :
    wp (chatMessage (chatSession c options tools) tty line) (x, con) fun es s' r =>
      r = .ok () → ∃ said : Said, said.message = line ∧
        said.Fair (chatSession c options tools) talk ∧
        Follows con es s' [said] (said.after talk) := by
  simp only [chatMessage, clearInterrupted, wp_bind, wp_lift, wp_modify, then_ok]
  refine wp_prompt fun con' hcon => ?_
  simp only [then_ok, wp_bind, List.nil_append]
  refine wp_mono (wp_send_said c options tools line x con' talk hx) fun es s' r h => ?_
  cases r with
  | error t => exact fun hr => by cases hr
  | ok reply =>
    obtain ⟨said, hmessage, hevents, hfair, hhistory, hout⟩ := h reply rfl
    have hout : s'.2.1.out ++ [lf] =
        con.1.out ++ [said].flatMap fun said => said.shown ++ [lf] := by
      rw [hout, hcon, List.flatMap_singleton, List.append_assoc]
    have hes : es = [said].flatMap (·.events) := by rw [List.flatMap_singleton, hevents]
    simp only [then_ok, wp_bind, wp_lift, print, wp_modify]
    cases reply with
    | ok response =>
      simp only [wp_pure, List.append_nil]
      exact fun _ => ⟨said, hmessage, hfair, ⟨hhistory, hes, hout⟩⟩
    | error e =>
      simp only [wp_lift, note, wp_modify, List.append_nil]
      exact fun _ => ⟨said, hmessage, hfair, ⟨hhistory, hes, hout⟩⟩

/-- A line carries on the conversation by one step. -/
theorem wp_chatLine (tty : Bool) (line : Bytes) (x : ChatState) (con : Console ω) (talk : Talk)
    (hx : x.history = talk.history) :
    wp (chatLine (chatSession c options tools) tty line) (x, con) fun es s' r =>
      ∀ go, r = .ok go → ∃ log talk',
        LineStep (chatSession c options tools) talk line log go talk' ∧
        Follows con es s' log talk' := by
  have hsame : ∀ con' : Console ω, con'.1.out = con.1.out → Follows con [] (x, con') [] talk :=
    fun con' hout => ⟨hx, rfl, by rw [List.flatMap_nil, List.append_nil]; exact hout⟩
  unfold chatLine
  by_cases hblank : blankLine line = true
  · rw [if_pos hblank]
    exact fun go hgo => by cases hgo; exact ⟨[], talk, .other (Or.inl hblank), hsame con rfl⟩
  rw [if_neg hblank]
  by_cases hexit : line = ascii "/exit" ∨ line = ascii "/quit"
  · rw [if_pos hexit]
    exact fun go hgo => by cases hgo; exact ⟨[], talk, .exit hexit, hsame con rfl⟩
  rw [if_neg hexit]
  by_cases hreset : line = ascii "/reset"
  · rw [if_pos hreset]
    simp only [ChatSession.reset, ChatSession.setState, note, wp_bind, wp_lift, wp_modify, then_ok,
      wp_pure]
    intro go hgo
    cases hgo
    exact ⟨[], [], hreset ▸ .reset, rfl, rfl, (List.append_nil _).symm⟩
  rw [if_neg hreset]
  by_cases husage : line = ascii "/usage"
  · rw [if_pos husage]
    simp only [note, wp_bind, wp_get, wp_lift, wp_modify, then_ok, wp_pure]
    intro go hgo
    cases hgo
    exact ⟨[], talk, .other (Or.inr (Or.inl husage)), hsame _ rfl⟩
  rw [if_neg husage]
  by_cases hhistory : line = ascii "/history"
  · rw [if_pos hhistory]
    simp only [note, wp_bind, wp_get, wp_lift, wp_modify, then_ok, wp_pure]
    intro go hgo
    cases hgo
    exact ⟨[], talk, .other (Or.inr (Or.inr hhistory)), hsame _ rfl⟩
  rw [if_neg hhistory, wp_bind]
  refine wp_mono (wp_chatMessage c options tools tty line x con talk hx) fun es s' r h => ?_
  cases r with
  | error t => exact fun go hgo => by cases hgo
  | ok _ =>
    rw [then_ok, wp_pure, List.append_nil]
    intro go hgo
    cases hgo
    obtain ⟨said, rfl, hfair, hfollows⟩ := h rfl
    have hmessage : IsMessage said.message :=
      { notBlank := Bool.eq_false_iff.mpr hblank
        notCommand := by simp_all }
    exact ⟨[said], said.after talk, .message hmessage hfair, hfollows⟩

/-- The chat carries on a conversation. Every request tells the model all of it and the new
message, in order; what is shown on the screen is what the model says in it. -/
theorem chat_refines (tty : Bool) (lines : List Bytes) (talk : Talk) (x : ChatState)
    (con : Console ω) (hx : x.history = talk.history) :
    wp (chatLoop (chatSession c options tools) tty lines) (x, con) fun es s' r =>
      r = .ok () → ∃ log talk', Talks (chatSession c options tools) talk lines log talk' ∧
        Follows con es s' log talk' := by
  induction lines generalizing talk x con with
  | nil =>
    refine wp_prompt fun con' hcon => ?_
    intro _
    exact ⟨[], talk, .eof, hx, rfl, by rw [List.flatMap_nil, List.append_nil]; exact hcon⟩
  | cons line lines ih =>
    rw [chatLoop, wp_bind]
    refine wp_prompt fun con' hcon => ?_
    rw [then_ok, wp_bind]
    refine wp_mono (wp_chatLine c options tools tty line x con' talk hx) fun es s' r h => ?_
    cases r with
    | error t => exact fun hr => by cases hr
    | ok go =>
      obtain ⟨log, talk', hstep, hfollows⟩ := h go rfl
      have hout := hfollows.out
      rw [hcon] at hout
      rw [then_ok]
      cases go with
      | false =>
        rw [if_neg Bool.false_ne_true, wp_pure, List.append_nil]
        exact fun _ => ⟨log, talk', .ends hstep, hfollows.history, hfollows.events, hout⟩
      | true =>
        rw [if_pos rfl]
        refine wp_mono (ih talk' s'.1 s'.2 hfollows.history) fun es' s'' r' hrest => ?_
        intro hr
        obtain ⟨log', talk'', htalks, hfollows'⟩ := hrest hr
        refine ⟨log ++ log', talk'', .goesOn hstep htalks, hfollows'.history, ?_, ?_⟩
        · rw [List.nil_append, List.flatMap_append, hfollows'.events, hfollows.events]
        · rw [hfollows'.out, hout, List.flatMap_append, List.append_assoc]

end Chat

/-- A signal that never comes, and a reply that says hello. -/
def helloConsole : Console (List FakeTransport.Reply) :=
  (.blank, false, [FakeTransport.ofStream [ascii "data: " ++ helloText ++ ascii "\n\n"]])

/-- A greeting that is answered after a tool round, and one that is not, for want of a reply. -/
def greetings : List Bytes :=
  [ascii "hi", ascii "/history", ascii "hi again", ascii "/exit", ascii "more"]

theorem chat_refines_greetings :
    let text := JsonText.known [(callText, callDocument), (helloText, helloDocument)]
      (ascii "\x7b\x7d")
    let c : Client (Bool × List FakeTransport.Reply) := (makeClient text).beside Bool
    let call := FakeTransport.ofStream [ascii "data: " ++ callText ++ ascii "\n\n"]
    let con := (helloConsole.1, helloConsole.2.1, call :: helloConsole.2.2)
    let session := chatSession c (.bounded 8) (some [echoTool (ascii "f")])
    let o := chatLoop session true greetings (.init, con)
    (contentsOf o.events).map List.length = [1, 3, 5] ∧
    ∃ log talk', Talks session [] greetings log talk' ∧ Follows con o.events o.state log talk' := by
  intro text c call con session o
  have hreturns : o.result = .ok () := by decide +kernel
  have htools := chat_refines c (.bounded 8) (some [echoTool (ascii "f")]) true greetings [] .init
    con rfl hreturns
  exact ⟨by decide +kernel, htools⟩

end GeminiCpp.Apps
