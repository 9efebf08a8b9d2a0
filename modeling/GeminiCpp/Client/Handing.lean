import GeminiCpp.Client.Retry
import GeminiCpp.Sse.Tokens

/-! The event handler of `stream`: what it does with the SSE events of a body, however the
body was split and wherever it stops. -/
namespace GeminiCpp
open Traced Traced.Prog

/-- Events that belong to the body of one response. -/
def Event.ofBody : Event → Prop
  | .bytes _ | .chunk _ | .cancel => True
  | _ => False

def Event.chunk? : Event → Option GenerateResponse
  | .chunk c => some c
  | _ => none

def Event.bytes? : Event → Option Bytes
  | .bytes b => some b
  | _ => none

/-- The chunks handed to the caller. -/
def chunksOf (es : List Event) : List GenerateResponse := es.filterMap Event.chunk?

/-- The body bytes delivered by the transport. -/
def bytesOf (es : List Event) : Bytes := (es.filterMap Event.bytes?).flatten

@[simp] theorem chunksOf_nil : chunksOf [] = [] := rfl

@[simp] theorem chunksOf_append (es es' : List Event) :
    chunksOf (es ++ es') = chunksOf es ++ chunksOf es' := List.filterMap_append ..

@[simp] theorem bytesOf_nil : bytesOf [] = [] := rfl

@[simp] theorem bytesOf_append (es es' : List Event) :
    bytesOf (es ++ es') = bytesOf es ++ bytesOf es' := by
  simp [bytesOf, List.filterMap_append]

namespace Client
variable {ω : Type} (c : Client ω)

/-- The payloads that are decoded. -/
def payloads (events : List Bytes) : List Bytes := events.filter (· ≠ ascii "[DONE]")

/-- What the events of a stream decode to, in order. -/
def decoded (events : List Bytes) : List (MayThrow (Result GenerateResponse)) :=
  (payloads events).map (Wire.parseResponseText c.text)

@[simp] theorem decoded_nil : c.decoded [] = [] := rfl

@[simp] theorem decoded_append (es es' : List Bytes) :
    c.decoded (es ++ es') = c.decoded es ++ c.decoded es' := by
  simp [decoded, payloads]

/-- Chunks, as the decoder returned them. -/
def returned (chunks : List GenerateResponse) : List (MayThrow (Result GenerateResponse)) :=
  chunks.map fun chunk => .ok (.ok chunk)

@[simp] theorem returned_append (cs cs' : List GenerateResponse) :
    returned (cs ++ cs') = returned cs ++ returned cs' := List.map_append ..

/-- What handing a list of SSE events to the handler does, however it ends. -/
structure Handed (sse : List Bytes) (v : StreamVars) (es : List Event) (v' : StreamVars) :
    Prop where
  body : ∀ e ∈ es, e.ofBody
  chunks : returned (chunksOf es) <+: c.decoded sse
  aggregate : v'.aggregate = (chunksOf es).foldl .merge v.aggregate
  delivered : v'.deliveredAny = (v.deliveredAny || !(chunksOf es).isEmpty)

/-- The caller has not cancelled. -/
structure HandedSome (sse : List Bytes) (v : StreamVars) (es : List Event) (v' : StreamVars) :
    Prop extends Handed c sse v es v' where
  no_cancel : .cancel ∉ es

/-- Every event was handed over and none was refused. -/
structure HandedAll (sse : List Bytes) (v : StreamVars) (es : List Event) (v' : StreamVars) :
    Prop extends HandedSome c sse v es v' where
  all : returned (chunksOf es) = c.decoded sse
  parseError : v'.parseError = v.parseError
  callerStopped : v'.callerStopped = v.callerStopped

/-- The caller cancelled at the end, when it had been given a chunk. -/
def Cancelled (es : List Event) : Prop :=
  ∃ shown, es = shown ++ [.cancel] ∧ .cancel ∉ shown ∧ chunksOf shown ≠ []

/-- The handler stopped: the caller cancelled, or an event did not decode. -/
structure HandedStop (sse : List Bytes) (v : StreamVars) (es : List Event) (v' : StreamVars) :
    Prop extends Handed c sse v es v' where
  reason : (v'.callerStopped = true ∧ v'.parseError = v.parseError ∧ Cancelled es) ∨
    (v'.callerStopped = v.callerStopped ∧ .cancel ∉ es ∧
      ∃ e, v'.parseError = some e ∧ .ok (.error e) ∈ c.decoded sse)

variable {c} {sse sse' : List Bytes} {v v' v'' : StreamVars} {es es' : List Event}

theorem Handed.trans (h : HandedAll c sse v es v') (h' : Handed c sse' v' es' v'') :
    Handed c (sse ++ sse') v (es ++ es') v'' where
  body e he := (List.mem_append.mp he).elim (h.body e) (h'.body e)
  chunks := by
    rw [chunksOf_append, returned_append, decoded_append, h.all]
    exact (List.prefix_append_right_inj _).mpr h'.chunks
  aggregate := by rw [chunksOf_append, List.foldl_append, h'.aggregate, h.aggregate]
  delivered := by
    rw [h'.delivered, h.delivered, chunksOf_append, Bool.or_assoc]
    cases chunksOf es <;> cases chunksOf es' <;> rfl

theorem HandedSome.trans (h : HandedAll c sse v es v') (h' : HandedSome c sse' v' es' v'') :
    HandedSome c (sse ++ sse') v (es ++ es') v'' where
  toHanded := .trans h h'.toHanded
  no_cancel he := (List.mem_append.mp he).elim h.no_cancel h'.no_cancel

theorem HandedAll.trans (h : HandedAll c sse v es v') (h' : HandedAll c sse' v' es' v'') :
    HandedAll c (sse ++ sse') v (es ++ es') v'' where
  toHandedSome := .trans h h'.toHandedSome
  all := by rw [chunksOf_append, returned_append, decoded_append, h.all, h'.all]
  parseError := h'.parseError.trans h.parseError
  callerStopped := h'.callerStopped.trans h.callerStopped

theorem Cancelled.append (h : .cancel ∉ es) (h' : Cancelled es') : Cancelled (es ++ es') := by
  obtain ⟨shown, rfl, hcancel, hchunks⟩ := h'
  refine ⟨es ++ shown, (List.append_assoc ..).symm, ?_, ?_⟩
  · exact fun he => (List.mem_append.mp he).elim h hcancel
  · rw [chunksOf_append]
    exact fun he => hchunks (List.append_eq_nil_iff.mp he).2

theorem HandedStop.trans (h : HandedAll c sse v es v') (h' : HandedStop c sse' v' es' v'') :
    HandedStop c (sse ++ sse') v (es ++ es') v'' where
  toHanded := .trans h h'.toHanded
  reason := by
    rcases h'.reason with ⟨hs, hp, hc⟩ | ⟨hs, hc, e, he, hd⟩
    · exact Or.inl ⟨hs, hp.trans h.parseError, hc.append h.no_cancel⟩
    · refine Or.inr ⟨hs.trans h.callerStopped, fun hm => ?_, e, he, ?_⟩
      · exact (List.mem_append.mp hm).elim h.no_cancel hc
      · rw [decoded_append]
        exact List.mem_append_right _ hd

/-- Events after the last one handed over do not matter. -/
theorem Handed.weaken (h : Handed c sse v es v') (sse' : List Bytes) :
    Handed c (sse ++ sse') v es v' :=
  { h with chunks := h.chunks.trans (by rw [decoded_append]; exact List.prefix_append ..) }

theorem HandedSome.weaken (h : HandedSome c sse v es v') (sse' : List Bytes) :
    HandedSome c (sse ++ sse') v es v' where
  toHanded := h.toHanded.weaken sse'
  no_cancel := h.no_cancel

theorem HandedStop.weaken (h : HandedStop c sse v es v') (sse' : List Bytes) :
    HandedStop c (sse ++ sse') v es v' where
  toHanded := h.toHanded.weaken sse'
  reason := h.reason.imp_right fun ⟨hs, hc, e, he, hd⟩ =>
    ⟨hs, hc, e, he, by rw [decoded_append]; exact List.mem_append_left _ hd⟩

theorem HandedAll.nil (v : StreamVars) : HandedAll c [] v [] v where
  body := by simp
  chunks := List.nil_prefix
  aggregate := rfl
  delivered := by simp
  all := rfl
  parseError := rfl
  callerStopped := rfl
  no_cancel := by simp

/-- How handing over a list of SSE events may end. -/
def HandedPost (c : Client ω) (sse : List Bytes) (v : StreamVars) (es : List Event)
    (v' : StreamVars) : MayThrow Bool → Prop
  | .ok true => HandedAll c sse v es v'
  | .ok false => HandedStop c sse v es v'
  | .error _ => HandedSome c sse v es v'

theorem HandedPost.handed {r : MayThrow Bool} (h : HandedPost c sse v es v' r) :
    Handed c sse v es v' := by
  rcases r with x | (_ | _)
  exacts [h.toHanded, h.toHanded, h.toHanded]

/-- One chunk that was decoded is handed on. -/
theorem Handed.of_chunk {data : Bytes} {chunk : GenerateResponse} {v v' : StreamVars}
    {es : List Event} (hret : returned [chunk] = c.decoded [data]) (hes : ∀ e ∈ es, e = .cancel)
    (hagg : v'.aggregate = v.aggregate.merge chunk) (hdel : v'.deliveredAny = true) :
    Handed c [data] v (.chunk chunk :: es) v' := by
  have hchunks : chunksOf (.chunk chunk :: es) = [chunk] := by
    have hnone : chunksOf es = [] := List.filterMap_eq_nil_iff.mpr fun e he => by
      obtain rfl := hes e he
      rfl
    simpa [chunksOf, Event.chunk?] using hnone
  constructor
  case body =>
    intro e he
    rcases List.mem_cons.mp he with rfl | he
    · trivial
    · obtain rfl := hes e he
      trivial
  case chunks =>
    rw [hchunks]
    exact ⟨[], (List.append_nil _).trans hret⟩
  case aggregate =>
    rw [hchunks, hagg]
    rfl
  case delivered => simp [hchunks, hdel]

variable (c)

theorem wp_onEvent (onChunk : Option (StreamCallback ω)) (data : Bytes) (s : StreamVars × ω) :
    wp (c.onEvent onChunk data) s fun es s' r =>
      bytesOf es = [] ∧ HandedPost c [data] s.1 es s'.1 r := by
  unfold onEvent
  by_cases hdone : data = ascii "[DONE]"
  · have hnone : c.decoded [data] = [] := by simp [decoded, payloads, hdone]
    simp only [hdone, if_true, wp_pure]
    refine ⟨rfl, ?_⟩
    exact { HandedAll.nil (c := c) s.1 with
      chunks := List.nil_prefix
      all := by rw [← hdone, hnone]; rfl }
  have hone : c.decoded [data] = [Wire.parseResponseText c.text data] := by
    simp [decoded, payloads, hdone]
  simp only [hdone, if_false, wp_bind, wp_ofExcept]
  have nothing : HandedSome c [data] s.1 [] s.1 :=
    { (HandedAll.nil (c := c) s.1).toHandedSome with chunks := List.nil_prefix }
  rcases hparse : Wire.parseResponseText c.text data with x | (e | chunk)
  · exact ⟨rfl, nothing⟩
  · simp only [then_ok, wp_bind, setVars, wp_modify, wp_pure]
    refine ⟨rfl, ?_⟩
    refine { nothing.toHanded with reason := Or.inr ⟨rfl, by simp, e, rfl, ?_⟩ }
    simp [hone, hparse]
  · have hret : returned [chunk] = c.decoded [data] := by simp [hone, hparse, returned]
    have go : HandedAll c [data] s.1 [.chunk chunk]
        { s.1 with aggregate := s.1.aggregate.merge chunk, deliveredAny := true } :=
      { Handed.of_chunk hret (by simp) rfl rfl with
        all := hret, parseError := rfl, callerStopped := rfl, no_cancel := by simp }
    simp only [then_ok, wp_bind, setVars, wp_modify, wp_emit, notify]
    cases onChunk with
    | none => exact ⟨rfl, go⟩
    | some callback =>
      simp only [wp_bind, wp_lift, wp_call]
      rcases (callback chunk s.2).1 with x | (_ | _)
      · exact ⟨rfl, { Handed.of_chunk hret (by simp) rfl rfl with no_cancel := by simp }⟩
      · simp only [then_ok, Bool.false_eq_true, if_false, wp_bind, wp_emit, wp_modify, wp_pure]
        refine ⟨rfl, ?_⟩
        exact { Handed.of_chunk hret (by simp) rfl rfl with
          reason := Or.inl ⟨rfl, rfl, [.chunk chunk], rfl, by simp, by simp [chunksOf, Event.chunk?]⟩ }
      · exact ⟨rfl, go⟩

/-- The handler run over a list of events. -/
theorem wp_allM (onChunk : Option (StreamCallback ω)) (sse : List Bytes) (s : StreamVars × ω) :
    wp (sse.allM (c.onEvent onChunk)) s fun es s' r =>
      bytesOf es = [] ∧ HandedPost c sse s.1 es s'.1 r := by
  induction sse generalizing s with
  | nil => exact ⟨rfl, HandedAll.nil _⟩
  | cons data sse ih =>
    simp only [List.allM, wp_bind]
    refine wp_mono (wp_onEvent c onChunk data s) ?_
    rintro es s₁ (x | (_ | _)) ⟨hb, h⟩
    · exact ⟨hb, HandedSome.weaken h sse⟩
    · simp only [then_ok, wp_pure, List.append_nil]
      exact ⟨hb, HandedStop.weaken h sse⟩
    · rw [then_ok]
      refine wp_mono (ih s₁) ?_
      rintro es' s₂ r ⟨hb', h'⟩
      refine ⟨by rw [bytesOf_append, hb, hb']; rfl, ?_⟩
      rcases r with x | (_ | _)
      exacts [HandedSome.trans h h', HandedStop.trans h h', HandedAll.trans h h']

/-- One piece of the body: the SSE events it completes are handed over. -/
theorem wp_feed (onChunk : Option (StreamCallback ω)) {p : SseParser} (hp : lf ∉ p.buffer)
    (bytes : Bytes) (s : StreamVars × ω) :
    wp (SseParser.feed (c.onEvent onChunk) p bytes) s fun es s' r =>
      bytesOf es = [] ∧
        HandedPost c (SseParser.tokenize p bytes).2 s.1 es s'.1 (r.map Prod.fst) ∧
        ∀ q, r = .ok (true, q) → q = (SseParser.tokenize p bytes).1 := by
  have hwp : wp (SseParser.going <$> SseParser.feed (c.onEvent onChunk) p bytes) s fun es s' r =>
      bytesOf es = [] ∧
        HandedPost c (SseParser.tokenize p bytes).2 s.1 es s'.1 (r.map Option.isSome) ∧
        ∀ q, r = .ok (some q) → q = (SseParser.tokenize p bytes).1 := by
    rw [SseParser.going_feed _ hp, SseParser.offer, wp_map]
    refine wp_mono (wp_allM c onChunk _ s) ?_
    rintro es s' (x | (_ | _)) ⟨hb, h⟩
    · exact ⟨hb, h, fun q hq => by cases hq⟩
    · exact ⟨hb, h, fun q hq => by cases hq⟩
    · exact ⟨hb, h, fun q hq => by cases hq; rfl⟩
  rw [wp_map] at hwp
  refine wp_mono hwp ?_
  rintro es s' (x | ⟨go, q⟩) ⟨hb, h, hq⟩
  · exact ⟨hb, h, fun q hq => by cases hq⟩
  · cases go
    · exact ⟨hb, h, fun q hq => by cases hq⟩
    · exact ⟨hb, h, fun q' hq' => by cases hq'; exact hq _ rfl⟩

theorem wp_finish (onChunk : Option (StreamCallback ω)) (p : SseParser) (s : StreamVars × ω) :
    wp (SseParser.finish (c.onEvent onChunk) p) s fun es s' r =>
      bytesOf es = [] ∧ HandedPost c p.trailing s.1 es s'.1 (r.map Prod.fst) := by
  have hwp := wp_allM c onChunk p.trailing s
  rwa [← SseParser.fst_finish, wp_map] at hwp

variable {c}

theorem Handed.bytes (h : Handed c sse v es v') (b : Bytes) :
    Handed c sse v (.bytes b :: es) v' where
  body := by simpa [Event.ofBody] using h.body
  chunks := h.chunks
  aggregate := h.aggregate
  delivered := h.delivered

theorem HandedSome.bytes (h : HandedSome c sse v es v') (b : Bytes) :
    HandedSome c sse v (.bytes b :: es) v' where
  toHanded := h.toHanded.bytes b
  no_cancel := by simpa using h.no_cancel

theorem HandedAll.bytes (h : HandedAll c sse v es v') (b : Bytes) :
    HandedAll c sse v (.bytes b :: es) v' :=
  { h with toHandedSome := h.toHandedSome.bytes b }

theorem HandedStop.bytes (h : HandedStop c sse v es v') (b : Bytes) :
    HandedStop c sse v (.bytes b :: es) v' :=
  { h with
    toHanded := h.toHanded.bytes b
    reason := h.reason.imp
      (fun ⟨hs, hp, hc⟩ => ⟨hs, hp, .append (by simp : Event.cancel ∉ [.bytes b]) hc⟩)
      (fun ⟨hs, hc, he⟩ => ⟨hs, by simpa using hc, he⟩) }

variable (c)

/-- How the delivery of a body may end. -/
def DeliverPost (c : Client ω) (p : SseParser) (v : StreamVars) (es : List Event)
    (v' : StreamVars) : MayThrow (Result HttpResponse × SseParser) → Prop
  | .ok (_, q) =>
    HandedAll c (SseParser.tokenize p (bytesOf es)).2 v es v' ∧
        q = (SseParser.tokenize p (bytesOf es)).1 ∨
      HandedStop c (SseParser.tokenize p (bytesOf es)).2 v es v'
  | .error _ => HandedSome c (SseParser.tokenize p (bytesOf es)).2 v es v'

/-- A delivery in which a first part of the body was handed over entirely. -/
theorem DeliverPost.cons {p : SseParser} {r : MayThrow (Result HttpResponse × SseParser)}
    (h : HandedAll c (SseParser.tokenize p (bytesOf es)).2 v es v')
    (h' : DeliverPost c (SseParser.tokenize p (bytesOf es)).1 v' es' v'' r) :
    DeliverPost c p v (es ++ es') v'' r := by
  have htok : SseParser.tokenize p (bytesOf (es ++ es')) =
      ((SseParser.tokenize (SseParser.tokenize p (bytesOf es)).1 (bytesOf es')).1,
        (SseParser.tokenize p (bytesOf es)).2 ++
          (SseParser.tokenize (SseParser.tokenize p (bytesOf es)).1 (bytesOf es')).2) := by
    rw [bytesOf_append, SseParser.tokenize_append]
  rcases r with x | ⟨response, q⟩
  · simp only [DeliverPost, htok]
    exact HandedSome.trans h h'
  · simp only [DeliverPost, htok]
    rcases h' with ⟨h', hq⟩ | h'
    · exact Or.inl ⟨HandedAll.trans h h', hq⟩
    · exact Or.inr (HandedStop.trans h h')

theorem wp_deliver (onChunk : Option (StreamCallback ω)) (script : StreamScript) {p : SseParser}
    (hp : lf ∉ p.buffer) (s : StreamVars × ω) :
    wp (deliver (SseParser.feed (c.onEvent onChunk)) p script) s fun es s' r =>
      DeliverPost c p s.1 es s'.1 r := by
  induction script generalizing p s with
  | done response => exact Or.inl ⟨HandedAll.nil _, rfl⟩
  | piece b aborted rest ih =>
    simp only [deliver, wp_bind, wp_emit, then_ok]
    refine wp_mono (wp_feed c onChunk hp b s) ?_
    rintro es s₁ r ⟨hb, h, hq⟩
    have hbytes : bytesOf (.bytes b :: es) = b := by
      change b ++ bytesOf es = b
      rw [hb, List.append_nil]
    rw [← hbytes] at h hq
    rcases r with x | ⟨_ | _, q⟩
    · exact HandedSome.bytes h b
    · simp only [then_ok, Bool.false_eq_true, if_false, wp_pure, List.append_nil]
      exact Or.inr (HandedStop.bytes h b)
    · obtain rfl := hq q rfl
      have hp' := SseParser.lf_not_mem_tokenize hp (bytesOf (.bytes b :: es))
      simp only [then_ok, if_true]
      refine wp_mono (ih hp' s₁) fun es' s₂ r h' => ?_
      change DeliverPost c p s.1 ((.bytes b :: es) ++ es') s₂.1 r
      exact DeliverPost.cons c (HandedAll.bytes h b) h'

end Client
end GeminiCpp
