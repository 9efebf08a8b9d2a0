import Mathlib.Algebra.Group.Nat.Even
import GeminiCpp.Chat.Send

/-! The history of a session is a dialogue after every call: the user and the model take
turns, and every function call of the model is answered in the turn after it. -/
namespace GeminiCpp
open Traced Traced.Prog

variable {ω : Type}

/-- A turn of the model whose calls the next turn answers. -/
def asksTools (c : Content) : Bool := c.role = .model && !(callsOf c.parts).isEmpty

/-- The user turns that answer no calls, in order; the first turn answers some if `answering`. -/
def plainTurns : (answering : Bool) → List Content → List Content
  | _, [] => []
  | answering, c :: h =>
    (if c.role = .user ∧ answering = false then [c] else []) ++ plainTurns (asksTools c) h

def speaker (i : ℕ) : Role := if i % 2 = 0 then .user else .model

/-- The turns of a history, in a session with or without tools, in which the messages `sent` were
answered. -/
structure Turns (tools : Bool) (sent : List Bytes) (h : List Content) : Prop where
  roles : ∀ i c, h[i]? = some c → c.role = speaker i
  answered : tools = true → ∀ i c, h[i]? = some c → c.role = .model → callsOf c.parts ≠ [] →
    ∃ results, h[i + 1]? = some results ∧ List.Forall₂ Answers (callsOf c.parts) results.parts
  /-- The other user turns are the messages, each as one part. -/
  plain : tools = true → plainTurns false h = sent.map Content.user

/-- A history between two calls: it is empty or ends with the model. -/
structure Dialogue (tools : Bool) (sent : List Bytes) (h : List Content) : Prop
    extends Turns tools sent h where
  even : Even h.length

theorem getElem?_concat_eq_some {α : Type} {h : List α} {c d : α} {i : ℕ} :
    (h ++ [c])[i]? = some d ↔ h[i]? = some d ∨ i = h.length ∧ d = c := by
  rw [List.getElem?_append]
  split_ifs with hi
  · have : i ≠ h.length := by omega
    simp [this]
  · have hnone : h[i]? = none := List.getElem?_eq_none (by omega)
    rw [hnone]
    by_cases hlen : i = h.length
    · subst hlen
      simp [eq_comm]
    · have : ([c] : List α)[i - h.length]? = none := by
        apply List.getElem?_eq_none
        simp only [List.length_singleton]
        omega
      simp [this, hlen]

theorem speaker_of_even {n : ℕ} (h : Even n) : speaker n = .user := by
  unfold speaker
  rw [if_pos (Nat.even_iff.mp h)]

theorem speaker_of_not_even {n : ℕ} (h : ¬ Even n) : speaker n = .model := by
  unfold speaker
  rw [if_neg fun hn => h (Nat.even_iff.mpr hn)]

theorem plainTurns_append (answering : Bool) (h h' : List Content) :
    plainTurns answering (h ++ h') =
      plainTurns answering h ++ plainTurns (h.getLast?.elim answering asksTools) h' := by
  induction h generalizing answering with
  | nil => rfl
  | cons c h ih =>
    have hlast : (c :: h).getLast?.elim answering asksTools =
        h.getLast?.elim (asksTools c) asksTools := by
      rw [List.getLast?_cons]
      cases h.getLast? <;> rfl
    rw [List.cons_append, plainTurns, ih, plainTurns, hlast, List.append_assoc]

namespace Turns
variable {tools : Bool} {sent : List Bytes} {h : List Content}

theorem nil : Turns tools [] [] where
  roles i c hc := by simp at hc
  answered _ i c hc := by simp at hc
  plain _ := rfl

/-- The last turn of a history asks for no tools, as nothing follows that would answer. -/
theorem last_asks (ht : Turns tools sent h) (htools : tools = true) :
    h.getLast?.elim false asksTools = false := by
  cases hlast : h.getLast? with
  | none => rfl
  | some c =>
    rw [List.getLast?_eq_getElem?] at hlast
    by_contra hasks
    have hcall : c.role = .model ∧ callsOf c.parts ≠ [] := by
      simpa [asksTools] using hasks
    obtain ⟨results, hnext, -⟩ := ht.answered htools _ c hlast hcall.1 hcall.2
    have hlength := (List.getElem?_eq_some_iff.mp hnext).1
    omega

/-- A last turn of the model is no plain turn. -/
theorem plain_model (ht : Turns tools sent h) {reply : Content} (hmodel : reply.role = .model)
    (htools : tools = true) : plainTurns false (h ++ [reply]) = sent.map Content.user := by
  have huser : ¬ (reply.role = .user ∧ false = false) := by
    rw [hmodel]
    simp
  rw [plainTurns_append, ht.plain htools, ht.last_asks htools, plainTurns, if_neg huser, plainTurns,
    List.append_nil, List.append_nil]

theorem push_user (ht : Turns tools sent h) (heven : Even h.length) (message : Bytes) :
    Turns tools (sent ++ [message]) (h ++ [.user message]) where
  roles i c hc := by
    rcases getElem?_concat_eq_some.mp hc with hc | ⟨rfl, rfl⟩
    · exact ht.roles i c hc
    · exact (speaker_of_even heven).symm
  answered htools i c hc hmodel hcalls := by
    rcases getElem?_concat_eq_some.mp hc with hc | ⟨rfl, rfl⟩
    · obtain ⟨results, hr, hanswers⟩ := ht.answered htools i c hc hmodel hcalls
      exact ⟨results, getElem?_concat_eq_some.mpr (Or.inl hr), hanswers⟩
    · cases hmodel
  plain htools := by
    rw [plainTurns_append, ht.plain htools, ht.last_asks htools, List.map_append]
    rfl

theorem push_reply (ht : Turns tools sent h) (hodd : ¬ Even h.length) {reply : Content}
    (hmodel : reply.role = .model) (hcalls : tools = true → callsOf reply.parts = []) :
    Turns tools sent (h ++ [reply]) where
  roles i c hc := by
    rcases getElem?_concat_eq_some.mp hc with hc | ⟨rfl, rfl⟩
    · exact ht.roles i c hc
    · rw [hmodel, speaker_of_not_even hodd]
  answered htools i c hc hm hne := by
    rcases getElem?_concat_eq_some.mp hc with hc | ⟨rfl, rfl⟩
    · obtain ⟨results, hr, hanswers⟩ := ht.answered htools i c hc hm hne
      exact ⟨results, getElem?_concat_eq_some.mpr (Or.inl hr), hanswers⟩
    · exact absurd (hcalls htools) hne
  plain := ht.plain_model hmodel

/-- A tool round adds two turns at once: between them the calls are not answered yet. -/
theorem push_round (ht : Turns tools sent h) (hodd : ¬ Even h.length) {reply results : Content}
    (hmodel : reply.role = .model) (huser : results.role = .user)
    (hcalls : callsOf reply.parts ≠ [])
    (hanswers : List.Forall₂ Answers (callsOf reply.parts) results.parts) :
    Turns tools sent (h ++ [reply] ++ [results]) := by
  have hlen : (h ++ [reply]).length = h.length + 1 := by simp
  have hmem : ∀ {i c}, (h ++ [reply] ++ [results])[i]? = some c ↔
      h[i]? = some c ∨ i = h.length ∧ c = reply ∨ i = h.length + 1 ∧ c = results := by
    intro i c
    rw [getElem?_concat_eq_some, getElem?_concat_eq_some, hlen, or_assoc]
  constructor
  case roles =>
    intro i c hc
    rcases hmem.mp hc with hc | ⟨rfl, rfl⟩ | ⟨rfl, rfl⟩
    · exact ht.roles i c hc
    · rw [hmodel, speaker_of_not_even hodd]
    · rw [huser, speaker_of_even (by rwa [Nat.even_add_one])]
  case answered =>
    intro htools i c hc hm hne
    rcases hmem.mp hc with hc | ⟨rfl, rfl⟩ | ⟨rfl, rfl⟩
    · obtain ⟨next, hr, hnext⟩ := ht.answered htools i c hc hm hne
      exact ⟨next, hmem.mpr (Or.inl hr), hnext⟩
    · exact ⟨results, hmem.mpr (Or.inr (Or.inr ⟨rfl, rfl⟩)), hanswers⟩
    · rw [huser] at hm
      cases hm
  case plain =>
    intro htools
    have hasks : asksTools reply = true := by simp [asksTools, hmodel, hcalls]
    have hlast : (h ++ [reply]).getLast?.elim false asksTools = true := by
      rw [List.getLast?_concat]
      exact hasks
    have hresults : ¬ (results.role = .user ∧ true = false) := by simp
    rw [plainTurns_append, ht.plain_model hmodel htools, hlast, plainTurns, if_neg hresults,
      plainTurns, List.append_nil, List.append_nil]

/-- Tool rounds keep a history open that ends with the user. -/
theorem push_toolTurns {turns : List Content} (hturns : ToolTurns turns)
    (ht : Turns tools sent h) (hodd : ¬ Even h.length) :
    Turns tools sent (h ++ turns) ∧ ¬ Even (h ++ turns).length := by
  induction hturns generalizing h with
  | nil =>
    rw [List.append_nil]
    exact ⟨ht, hodd⟩
  | @cons reply results turns hmodel hcalls huser hanswers _ ih =>
    have hlen : (h ++ [reply] ++ [results]).length = h.length + 1 + 1 := by simp
    have hround := ih (ht.push_round hodd hmodel huser hcalls hanswers)
      (by rwa [hlen, Nat.even_add_one, Nat.even_add_one, not_not])
    simpa using hround

end Turns

/-- The messages that were answered, after one more `send`. -/
def answeredAfter (sent : List Bytes) (message : Bytes) : Result GenerateResponse → List Bytes
  | .ok _ => sent ++ [message]
  | .error _ => sent

/-- A `send` that returns keeps the dialogue; one that fails leaves no trace of its message. -/
theorem Dialogue.of_rounds {tools : Bool} {sent : List Bytes} {h h' : List Content}
    {message : Bytes} {r : Result GenerateResponse} (hd : Dialogue tools sent h)
    (hpost : RoundsPost tools h.length (h ++ [.user message]) h' (.ok r)) :
    Dialogue tools (answeredAfter sent message r) h' := by
  cases r with
  | error e =>
    have hh : h' = (h ++ [Content.user message]).take h.length := hpost
    rw [List.take_left] at hh
    rw [hh]
    exact hd
  | ok response =>
    obtain ⟨turns, last, hturns, rfl, hmodel, hcalls⟩ := hpost
    have hopen := hd.toTurns.push_user hd.even message
    have hodd : ¬ Even (h ++ [Content.user message]).length := by
      rw [List.length_append, List.length_singleton, Nat.even_add_one, not_not]
      exact hd.even
    obtain ⟨ht, hodd⟩ := Turns.push_toolTurns hturns hopen hodd
    refine { toTurns := ht.push_reply hodd hmodel hcalls, even := ?_ }
    rw [List.length_append, List.length_singleton, Nat.even_add_one]
    exact hodd

namespace ChatSession

/-- The states a session can be in between two calls, with the messages, in order, whose `send`
succeeded since it was new or was reset. The outside world may do anything in between. -/
inductive Reachable (s : ChatSession ω) : List Bytes → ChatState × ω → Prop
  | new (w : ω) : Reachable s [] (.init, w)
  | world {sent : List Bytes} {x : ChatState} {w : ω} (w' : ω) (h : Reachable s sent (x, w)) :
    Reachable s sent (x, w')
  | reset {sent : List Bytes} {σ : ChatState × ω} (h : Reachable s sent σ) :
    Reachable s [] (reset σ : Outcome Event Exn _ Unit).state
  | send {sent : List Bytes} {σ : ChatState × ω} {r : Result GenerateResponse} (message : Bytes)
    (onChunk : Option (StreamCallback ω)) (h : Reachable s sent σ)
    (hr : (s.send message onChunk σ).result = .ok r) :
    Reachable s (answeredAfter sent message r) (s.send message onChunk σ).state

theorem dialogue_of_reachable (s : ChatSession ω) {sent : List Bytes} {σ : ChatState × ω}
    (h : s.Reachable sent σ) : Dialogue s.tools.isSome sent σ.1.history := by
  induction h with
  | new w => exact { toTurns := .nil, even := by simp [ChatState.init] }
  | world w' _ ih => exact ih
  | reset _ _ => exact { toTurns := .nil, even := Even.zero }
  | @send sent σ r message onChunk _ hr ih =>
    have hpost := wp_iff.mp (s.wp_send message onChunk σ.1 σ.2)
    rw [Prod.eta, hr] at hpost
    exact ih.of_rounds hpost

end ChatSession

/-- A message that fails, and then one that the model answers after a tool round. -/
theorem dialogue_of_reachable_tool_round :
    let s : ChatSession (Script Unit) :=
      .scripted (.bounded 8) (some [echoTool (ascii "f")]) none (.known [] (ascii "\x7b\x7d"))
    let replies : ℕ → Result GenerateResponse := fun n =>
      if n = 0 then .error (makeError .server (ascii "HTTP 500"))
      else if n = 1 then callReply (ascii "f") else textReply (ascii "done")
    let failed := (s.send (ascii "lost") none (.init, replies, ())).state
    Dialogue true [ascii "hi"] (s.send (ascii "hi") none failed).state.1.history := by
  intro s replies failed
  have hfailed : s.Reachable [] failed :=
    .send (r := replies 0) (ascii "lost") none (.new (replies, ())) rfl
  exact s.dialogue_of_reachable (.send (r := replies 2) (ascii "hi") none hfailed rfl)

end GeminiCpp
