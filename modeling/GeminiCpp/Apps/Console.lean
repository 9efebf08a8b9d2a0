import GeminiCpp.Chat.Basic
import GeminiCpp.Client.Effects
import GeminiCpp.Client.Handing

/-! The console of the command line (`main.cpp`): the two output streams, the flag that Ctrl-C
sets, and the callback that prints a streamed reply. -/
namespace GeminiCpp
open Traced Traced.Prog

variable {ω κ : Type}

/-! A library in a world with one component more, which it leaves alone. -/
section Beside

def Transport.beside (κ : Type) (t : Transport ω) : Transport (κ × ω) :=
  { send := fun request s => ((t.send request s.2).1, s.1, (t.send request s.2).2)
    sendStreaming := fun request s =>
      ((t.sendStreaming request s.2).1, s.1, (t.sendStreaming request s.2).2) }

def Host.beside (κ : Type) (h : Host ω) : Host (κ × ω) :=
  { sleeper := fun delay s => (s.1, h.sleeper delay s.2)
    clock := fun s => ((h.clock s.2).1, s.1, (h.clock s.2).2)
    rng := fun s => ((h.rng s.2).1, s.1, (h.rng s.2).2) }

def Client.beside (κ : Type) (c : Client ω) : Client (κ × ω) :=
  { options := c.options, transport := c.transport.beside κ, host := c.host.beside κ
    text := c.text }

def ToolHandler.beside (κ : Type) (handler : ToolHandler ω) : ToolHandler (κ × ω) :=
  handler.map fun handler args s => ((handler args s.2).1, s.1, (handler args s.2).2)

def ToolRegistry.beside (κ : Type) (tools : ToolRegistry ω) : ToolRegistry (κ × ω) :=
  tools.map fun tool => (tool.1, tool.2.beside κ)

end Beside

namespace Apps

/-- What the commands have written to `std::cout` and `std::cerr`. -/
structure Screen where
  out : Bytes
  err : Bytes

namespace Screen

def blank : Screen := { out := [], err := [] }

def print (s : Screen) (t : Bytes) : Screen := { s with out := s.out ++ t }

def note (s : Screen) (t : Bytes) : Screen := { s with err := s.err ++ t }

@[simp] theorem out_print (s : Screen) (t : Bytes) : (s.print t).out = s.out ++ t := rfl

@[simp] theorem out_note (s : Screen) (t : Bytes) : (s.note t).out = s.out := rfl

end Screen

/-- The streams, `g_interrupted`, and the outside world. The outside world does not write to the
streams, and a signal may set the flag whenever the outside world is asked. -/
abbrev Console (ω : Type) := Screen × Bool × ω

/-- `std::cout << t`. -/
def print (t : Bytes) : Program (Console ω) Unit := Prog.modify fun con => (con.1.print t, con.2)

/-- `std::cerr << t`. -/
def note (t : Bytes) : Program (Console ω) Unit := Prog.modify fun con => (con.1.note t, con.2)

/-- `g_interrupted.store(false)`. -/
def clearInterrupted : Program (Console ω) Unit :=
  Prog.modify fun con => (con.1, false, con.2.2)

/-- Streams visible text to stdout; cancels on Ctrl-C. -/
def stdoutPrinter : StreamCallback (Console ω) := fun chunk con =>
  if con.2.1 then (.ok false, con)
  else
    match chunk.candidates with
    | [] => (.ok true, con)
    | front :: _ => (.ok true, con.1.print front.content.text, con.2)

/-- The observer that `chat` sets: a tool call and its result, dimmed. -/
def toolPrinter (text : JsonText) : ToolObserver (Console ω) := fun call result con =>
  let con := (con.1.note (ascii "  \x1b[2m-> " ++ call.name ++ ascii "("), con.2)
  match text.dump call.args with
  | .error x => (.error x, con)
  | .ok args =>
    let con := (con.1.note (args ++ ascii ") = "), con.2)
    match text.dump result.response with
    | .error x => (.error x, con)
    | .ok response => (.ok (), con.1.note (response ++ ascii "\x1b[0m\n"), con.2)

/-- A line about token usage. -/
def usageLine (usage : UsageMetadata) : Bytes :=
  ascii "[tokens] prompt=" ++ toDecimal usage.promptTokens.toInt ++
    ascii " output=" ++ toDecimal usage.candidatesTokens.toInt ++
    (if usage.thoughtsTokens ≠ 0 then
      ascii " thinking=" ++ toDecimal usage.thoughtsTokens.toInt else []) ++
    ascii " total=" ++ toDecimal usage.totalTokens.toInt ++ [lf]

/-- Events that show some text: the chunks, but one that is refused. -/
inductive Shows : List Event → Bytes → Prop
  | nil : Shows [] []
  | silent {e : Event} {es : List Event} {t : Bytes} (he : e.chunk? = none) (hcancel : e ≠ .cancel)
    (h : Shows es t) : Shows (e :: es) t
  | chunk {chunk : GenerateResponse} {es : List Event} {t : Bytes} (h : Shows es t) :
    Shows (.chunk chunk :: es) (chunk.text ++ t)
  | refused {chunk : GenerateResponse} {es : List Event} {t : Bytes} (h : Shows es t) :
    Shows (.chunk chunk :: .cancel :: es) t

namespace Shows
variable {es es' : List Event} {t t' : Bytes}

theorem append (h : Shows es t) (h' : Shows es' t') : Shows (es ++ es') (t ++ t') := by
  induction h with
  | nil => exact h'
  | silent he hcancel _ ih => exact .silent he hcancel ih
  | chunk _ ih =>
    rw [List.append_assoc]
    exact .chunk ih
  | refused _ ih => exact .refused ih

theorem one {e : Event} (he : e.chunk? = none) (hcancel : e ≠ .cancel) : Shows [e] [] :=
  .silent he hcancel .nil

/-- What is shown is in the chunks, in their order. -/
theorem sublist (h : Shows es t) : t.Sublist ((chunksOf es).flatMap (·.text)) := by
  induction h with
  | nil => exact .slnil
  | @silent e es t he _ _ ih =>
    have hskip : chunksOf (e :: es) = chunksOf es := List.filterMap_cons_none he
    rw [hskip]
    exact ih
  | @chunk chunk es t _ ih =>
    have hcons : chunksOf (.chunk chunk :: es) = chunk :: chunksOf es := rfl
    rw [hcons, List.flatMap_cons]
    exact (List.Sublist.refl _).append ih
  | @refused chunk es t _ ih =>
    have hcons : chunksOf (.chunk chunk :: .cancel :: es) = chunk :: chunksOf es := rfl
    rw [hcons, List.flatMap_cons]
    exact ih.trans (List.sublist_append_right _ _)

/-- Without a cancel every chunk is shown. -/
theorem eq_of_not_cancelled (h : Shows es t) (hcancel : .cancel ∉ es) :
    t = (chunksOf es).flatMap (·.text) := by
  induction h with
  | nil => rfl
  | @silent e es t he _ _ ih =>
    have hskip : chunksOf (e :: es) = chunksOf es := List.filterMap_cons_none he
    rw [hskip]
    exact ih fun hmem => hcancel (List.mem_cons_of_mem _ hmem)
  | @chunk chunk es t _ ih =>
    have hcons : chunksOf (.chunk chunk :: es) = chunk :: chunksOf es := rfl
    rw [hcons, List.flatMap_cons, ← ih fun hmem => hcancel (List.mem_cons_of_mem _ hmem)]
  | refused _ _ => simp at hcancel

end Shows

/-- A run prints what its events show. -/
def printed (ω : Type) : Effect Event (Console ω) where
  rel con es con' := ∃ t, Shows es t ∧ con'.1.out = con.1.out ++ t
  nil con := ⟨[], .nil, (List.append_nil _).symm⟩
  append h h' := by
    obtain ⟨t, hshows, hout⟩ := h
    obtain ⟨t', hshows', hout'⟩ := h'
    exact ⟨t ++ t', hshows.append hshows', by rw [hout', hout, List.append_assoc]⟩

theorem printed_event {e : Event} (he : e.chunk? = none) (hcancel : e ≠ .cancel)
    (con : Console ω) : (printed ω).rel con [e] con :=
  ⟨[], .one he hcancel, (List.append_nil _).symm⟩

theorem printed_world {con con' : Console ω} (h : con'.1.out = con.1.out) :
    (printed ω).rel con [] con' :=
  ⟨[], .nil, by rw [h, List.append_nil]⟩

theorem allows_printed (c : Client (Bool × ω)) : (c.beside Screen).Allows (printed ω) where
  metric con _ _ := printed_event rfl (by simp) con
  http con _ _ := printed_event rfl (by simp) con
  bytes con _ := printed_event rfl (by simp) con
  response con _ := printed_event rfl (by simp) con
  sleep con _ := printed_event rfl (by simp) con
  send _ _ := printed_world rfl
  sendStreaming _ _ := printed_world rfl
  sleeper _ _ := printed_world rfl
  clock _ := printed_world rfl
  rng _ := printed_world rfl

/-- The printer shows the chunk, or refuses it. -/
theorem allowsChunks_printed : Client.AllowsChunks (printed ω) (some stdoutPrinter) := by
  intro chunk s
  obtain ⟨vars, screen, interrupted, w⟩ := s
  simp only [Client.notify, wp_bind, wp_emit, then_ok, wp_lift, wp_call, stdoutPrinter]
  cases interrupted with
  | true =>
    simp only [if_true, then_ok, Bool.false_eq_true, if_false, Client.setVars, wp_bind, wp_emit,
      wp_modify, wp_pure]
    exact ⟨[], .refused .nil, (List.append_nil _).symm⟩
  | false =>
    have hshows : Shows [.chunk chunk] (chunk.text) := by
      have hchunk : Shows [.chunk chunk] (chunk.text ++ []) := .chunk .nil
      rwa [List.append_nil] at hchunk
    unfold GenerateResponse.text at hshows
    cases hcandidates : chunk.candidates with
    | nil =>
      rw [hcandidates] at hshows
      simp only [Bool.false_eq_true, if_false, then_ok, if_true, wp_pure]
      exact ⟨[], hshows, (List.append_nil _).symm⟩
    | cons front others =>
      rw [hcandidates] at hshows
      simp only [Bool.false_eq_true, if_false, then_ok, if_true, wp_pure]
      exact ⟨_, hshows, rfl⟩

end Apps
end GeminiCpp
