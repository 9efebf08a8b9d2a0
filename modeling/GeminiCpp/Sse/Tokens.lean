import GeminiCpp.Sse.Parser

/-! The parser is a pure tokenizer whose events are offered to the handler one after the
other until it refuses one. How the bytes were split is lost in the tokenizer. -/
namespace GeminiCpp.SseParser

/-- The event a blank line completes. -/
def flush (p : SseParser) : SseParser × List Bytes :=
  if p.hasData then ({ p with data := [], hasData := false }, [p.data]) else (p, [])

def closeLine (p : SseParser) (line : Bytes) : SseParser × List Bytes :=
  if line = [] then p.flush else (p.addLine line, [])

/-- Reads bytes with a handler that always continues. -/
def tokenize (p : SseParser) : Bytes → SseParser × List Bytes
  | [] => (p, [])
  | b :: rest =>
    if b = lf then
      let t := closeLine { p with buffer := [] } (stripCr p.buffer)
      ((tokenize t.1 rest).1, t.2 ++ (tokenize t.1 rest).2)
    else tokenize { p with buffer := p.buffer ++ [b] } rest

/-- The events of a trailing line and of a trailing event. -/
def trailing (p : SseParser) : List Bytes :=
  if p.buffer = [] then p.flush.2
  else
    let t := closeLine { p with buffer := [] } (stripCr p.buffer)
    t.2 ++ t.1.flush.2

theorem tokenize_append (p : SseParser) (s t : Bytes) :
    tokenize p (s ++ t) =
      ((tokenize (tokenize p s).1 t).1, (tokenize p s).2 ++ (tokenize (tokenize p s).1 t).2) := by
  induction s generalizing p with
  | nil => rfl
  | cons b s ih =>
    simp only [List.cons_append, tokenize]
    split_ifs
    · simp only [ih, List.append_assoc]
    · exact ih _

@[simp] theorem flush_buffer (p : SseParser) : p.flush.1.buffer = p.buffer := by
  unfold flush
  split_ifs <;> rfl

@[simp] theorem addLine_buffer (p : SseParser) (line : Bytes) :
    (p.addLine line).buffer = p.buffer := by
  unfold addLine
  split_ifs <;> rfl

@[simp] theorem closeLine_buffer (p : SseParser) (line : Bytes) :
    (closeLine p line).1.buffer = p.buffer := by
  unfold closeLine
  split_ifs <;> simp

/-- A parser that was never stopped holds a partial line. -/
theorem lf_not_mem_tokenize {p : SseParser} (h : lf ∉ p.buffer) (s : Bytes) :
    lf ∉ (tokenize p s).1.buffer := by
  induction s generalizing p with
  | nil => exact h
  | cons b s ih =>
    simp only [tokenize]
    split_ifs with hb
    · exact ih (by simp)
    · exact ih (by simpa [h] using Ne.symm hb)

section
variable {m : Type → Type} [Monad m] [LawfulMonad m] (handler : Bytes → m Bool)

/-- The parser after a run that was not stopped. -/
def going (r : Bool × SseParser) : Option SseParser := if r.1 then some r.2 else none

/-- Offers events in order up to the first the handler refuses. -/
def offer (p : SseParser) (es : List Bytes) : m (Option SseParser) :=
  (fun go => if go then some p else none) <$> es.allM handler

theorem allM_append (es es' : List Bytes) :
    (es ++ es').allM handler =
      es.allM handler >>= fun go => if go then es'.allM handler else pure false := by
  induction es with
  | nil => simp [List.allM]
  | cons e es ih =>
    simp only [List.cons_append, List.allM, ih, bind_assoc]
    congr 1
    funext go
    cases go <;> simp

theorem going_dispatch (p : SseParser) :
    going <$> dispatch handler p = offer handler p.flush.1 p.flush.2 := by
  unfold dispatch flush offer
  split_ifs with h
  · simp only [List.allM, map_bind, bind_pure_comp, Functor.map_map]
    rw [← bind_pure_comp]
    congr 1
    funext go
    cases go <;> simp [going]
  · simp [going, List.allM]

theorem going_processLine (p : SseParser) (line : Bytes) :
    going <$> processLine handler p line =
      offer handler (closeLine p line).1 (closeLine p line).2 := by
  unfold processLine closeLine
  split_ifs
  · exact going_dispatch handler p
  · simp [offer, going, List.allM]

/-- Two steps in sequence, the second taken only if the first was not stopped. -/
theorem going_then {x : m (Bool × SseParser)} {k : SseParser → m (Bool × SseParser)}
    {q q' : SseParser} {es es' : List Bytes} (stop : SseParser → SseParser)
    (hx : going <$> x = offer handler q es) (hk : going <$> k q = offer handler q' es') :
    going <$> (do let (go, p) ← x; if go then k p else return (false, stop p)) =
      offer handler q' (es ++ es') := by
  have hgo : going <$> (do let (go, p) ← x; if go then k p else return (false, stop p)) =
      (going <$> x) >>= fun r => match r with
        | some p => going <$> k p
        | none => pure none := by
    simp only [map_bind, bind_map_left]
    congr 1
    funext ⟨go, p⟩
    cases go <;> simp [going]
  rw [hgo, hx]
  simp only [offer, allM_append, map_bind, bind_map_left]
  congr 1
  funext go
  cases go
  · simp
  · simpa [offer] using hk

/-- The loop of `feed` offers the tokenizer's events. -/
theorem going_scan (p : SseParser) (s : Bytes) :
    going <$> scan handler p s = offer handler (tokenize p s).1 (tokenize p s).2 := by
  induction s generalizing p with
  | nil => simp [scan, tokenize, offer, going]
  | cons b s ih =>
    simp only [scan, tokenize]
    split_ifs
    · exact going_then handler (k := fun q => scan handler q s)
        (fun q => { q with buffer := s }) (going_processLine ..) (ih _)
    · exact ih _

theorem going_finish (p : SseParser) :
    ∃ q, going <$> finish handler p = offer handler q p.trailing := by
  unfold finish trailing
  split_ifs
  · exact ⟨_, going_dispatch handler p⟩
  · exact ⟨_, going_then handler id (going_processLine ..) (going_dispatch ..)⟩

omit [LawfulMonad m] in
/-- A parser that holds a partial line reads on from it. -/
theorem scan_partial {p : SseParser} (h : lf ∉ p.buffer) (s : Bytes) :
    scan handler { p with buffer := [] } (p.buffer ++ s) = scan handler p s := by
  have rescan : ∀ pre rest, lf ∉ rest →
      scan handler { p with buffer := pre } (rest ++ s) =
        scan handler { p with buffer := pre ++ rest } s := by
    intro pre rest
    induction rest generalizing pre with
    | nil => simp
    | cons b rest ih =>
      intro hb
      have hne : b ≠ lf := fun e => hb (by simp [e])
      simp only [List.cons_append, scan, if_neg hne]
      rw [ih (pre ++ [b]) (fun e => hb (by simp [e]))]
      simp
  simpa using rescan [] p.buffer h

/-- `feed` offers the events its bytes complete, and keeps the tokenizer's state. -/
theorem going_feed {p : SseParser} (h : lf ∉ p.buffer) (bytes : Bytes) :
    going <$> feed handler p bytes =
      offer handler (tokenize p bytes).1 (tokenize p bytes).2 := by
  rw [feed, scan_partial handler h]
  exact going_scan handler p bytes

theorem fst_of_going {x : m (Bool × SseParser)} {q : SseParser} {es : List Bytes}
    (h : going <$> x = offer handler q es) : Prod.fst <$> x = es.allM handler := by
  have hfst : Prod.fst <$> x = Option.isSome <$> going <$> x := by
    rw [Functor.map_map]
    congr 1
    funext ⟨go, p⟩
    cases go <;> rfl
  rw [hfst, h, offer, Functor.map_map]
  conv_rhs => rw [← id_map (es.allM handler)]
  congr 1
  funext go
  cases go <;> rfl

theorem fst_finish (p : SseParser) :
    Prod.fst <$> finish handler p = p.trailing.allM handler := by
  obtain ⟨q, hq⟩ := going_finish handler p
  exact fst_of_going handler hq

/-- Only the concatenation of the pieces matters. -/
theorem feedAll_eq {p : SseParser} (h : lf ∉ p.buffer) (pieces : List Bytes) :
    feedAll handler p pieces =
      ((tokenize p pieces.flatten).2 ++ (tokenize p pieces.flatten).1.trailing).allM handler := by
  induction pieces generalizing p with
  | nil => exact fst_finish handler p
  | cons bytes pieces ih =>
    have hnext := ih (lf_not_mem_tokenize h bytes)
    have hgo : feedAll handler p (bytes :: pieces) =
        (going <$> feed handler p bytes) >>= fun r => match r with
          | some q => feedAll handler q pieces
          | none => pure false := by
      simp only [feedAll, bind_map_left]
      congr 1
      funext ⟨go, q⟩
      cases go <;> rfl
    rw [hgo, going_feed handler h, List.flatten_cons, tokenize_append, List.append_assoc,
      allM_append]
    simp only [offer, bind_map_left]
    congr 1
    funext go
    cases go
    · rfl
    · simpa using hnext

end

/-- The events of a byte string are those its tokenizer makes. -/
theorem sseEvents_eq (bytes : Bytes) :
    sseEvents bytes =
      (tokenize .init bytes).2 ++ (tokenize .init bytes).1.trailing := by
  have record : ∀ (es seen : List Bytes),
      ((es.allM (recorded fun _ => true)).run seen).2 = seen ++ es := by
    intro es
    induction es with
    | nil => exact fun seen => (List.append_nil seen).symm
    | cons e es ih =>
      intro seen
      simp only [List.allM, recorded]
      simpa [recorded] using ih (seen ++ [e])
  unfold sseEvents
  rw [feedAll_eq _ (by simp [init])]
  simpa using record _ []

/-- Feeding a byte string in pieces or at once gives every handler the same events and
ends the same way. -/
theorem feedAll_split (answer : List Bytes → Bool) (pieces : List Bytes) :
    (feedAll (recorded answer) .init pieces).run [] =
      (feedAll (recorded answer) .init [pieces.flatten]).run [] := by
  have hp : lf ∉ init.buffer := by simp [init]
  rw [feedAll_eq _ hp, feedAll_eq _ hp]
  simp

end GeminiCpp.SseParser
