import GeminiCpp.Sse.Event

/-! Calls that go on after the handler has asked to stop. Whole lines then wait in the buffer.
`feed` reads them as lines, but `finish` takes all that is left for one line. -/
namespace GeminiCpp.SseParser

section
variable {m : Type → Type} [Monad m] (handler : Bytes → m Bool)

/-- Feeds pieces in order, whatever `feed` answers. -/
def feedOn (p : SseParser) : List Bytes → m SseParser
  | [] => pure p
  | bytes :: pieces => do
    let (_, p) ← feed handler p bytes
    feedOn p pieces

end

/-- What the parser makes of the bytes it has not read yet. -/
def unread (p : SseParser) : SseParser × List Bytes := tokenize { p with buffer := [] } p.buffer

/-- The rest of the buffer begins with a data line that more lines follow. -/
def HoldsDataLine (p : SseParser) : Prop := lf ∈ p.buffer ∧ ascii "data:" <+: p.buffer

instance (p : SseParser) : Decidable p.HoldsDataLine :=
  inferInstanceAs (Decidable (lf ∈ p.buffer ∧ ascii "data:" <+: p.buffer))

/-- The events `seen` were handed out, those that `p` still holds come after them, and together
they are the events of `bytes`. -/
structure Delivered (bytes : Bytes) (p : SseParser) (seen : List Bytes) : Prop where
  events : seen ++ p.unread.2 = (tokenize .init bytes).2
  state : p.unread.1 = (tokenize .init bytes).1
  /-- Whole lines are left only by a stop, which is made between two events. -/
  between : lf ∈ p.buffer → p.hasData = false

theorem tokenize_of_not_mem (p : SseParser) {s : Bytes} (h : lf ∉ s) :
    tokenize p s = ({ p with buffer := p.buffer ++ s }, []) := by
  induction s generalizing p with
  | nil => simp [tokenize]
  | cons b s ih =>
    have hb : b ≠ lf := fun heq => h (by simp [heq])
    have hs : lf ∉ s := fun hmem => h (List.mem_cons_of_mem _ hmem)
    simp only [tokenize, if_neg hb]
    rw [ih _ hs]
    simp

theorem unread_of_not_mem {p : SseParser} (h : lf ∉ p.buffer) : p.unread = (p, []) :=
  tokenize_of_not_mem _ h

@[simp] theorem flush_hasData (p : SseParser) : p.flush.1.hasData = false := by
  unfold flush
  split_ifs with h
  · rfl
  · simpa using h

section
variable (answer : List Bytes → Bool)

theorem dispatch_recorded (p : SseParser) (seen : List Bytes) :
    ∃ go, (dispatch (recorded answer) p).run seen = ((go, p.flush.1), seen ++ p.flush.2) := by
  unfold dispatch flush
  split_ifs
  · exact ⟨answer (seen ++ [p.data]), rfl⟩
  · refine ⟨true, ?_⟩
    rw [List.append_nil]
    rfl

/-- A line is refused only when it completes an event. -/
theorem processLine_recorded (p : SseParser) (line : Bytes) (seen : List Bytes) :
    ∃ go, (processLine (recorded answer) p line).run seen =
        ((go, (closeLine p line).1), seen ++ (closeLine p line).2) ∧
      (go = false → (closeLine p line).1.hasData = false) := by
  unfold processLine closeLine
  split_ifs
  · obtain ⟨go, hrun⟩ := dispatch_recorded answer p seen
    exact ⟨go, hrun, fun _ => flush_hasData p⟩
  · refine ⟨true, ?_, by simp⟩
    rw [List.append_nil]
    rfl

/-- The loop of `feed` hands out the first of the events it was given, and keeps the others. -/
theorem scan_recorded {p : SseParser} (h : lf ∉ p.buffer) (s : Bytes) (seen : List Bytes) :
    ∃ go q seen', (scan (recorded answer) p s).run seen = ((go, q), seen') ∧
      seen' ++ q.unread.2 = seen ++ (tokenize p s).2 ∧ q.unread.1 = (tokenize p s).1 ∧
      (lf ∈ q.buffer → q.hasData = false) := by
  induction s generalizing p seen with
  | nil =>
    refine ⟨true, p, seen, rfl, ?_, ?_, fun hmem => absurd hmem h⟩
    · rw [unread_of_not_mem h, tokenize]
    · rw [unread_of_not_mem h, tokenize]
  | cons b s ih =>
    by_cases hb : b = lf
    · obtain ⟨go, hrun, hstop⟩ :=
        processLine_recorded answer { p with buffer := [] } (stripCr p.buffer) seen
      have hbuffer : (closeLine { p with buffer := [] } (stripCr p.buffer)).1.buffer = [] :=
        closeLine_buffer _ _
      have htokenize : tokenize p (b :: s) =
          ((tokenize (closeLine { p with buffer := [] } (stripCr p.buffer)).1 s).1,
            (closeLine { p with buffer := [] } (stripCr p.buffer)).2 ++
              (tokenize (closeLine { p with buffer := [] } (stripCr p.buffer)).1 s).2) := by
        rw [tokenize, if_pos hb]
      rw [htokenize]
      generalize closeLine { p with buffer := [] } (stripCr p.buffer) = t at hrun hstop hbuffer
      have hscan : (scan (recorded answer) p (b :: s)).run seen =
          if go then (scan (recorded answer) t.1 s).run (seen ++ t.2)
          else ((false, { t.1 with buffer := s }), seen ++ t.2) := by
        rw [scan, if_pos hb, StateT.run_bind, hrun]
        cases go <;> rfl
      cases go with
      | true =>
        obtain ⟨go, q, seen', hrest, hevents, hstate, hbetween⟩ :=
          ih (p := t.1) (by rw [hbuffer]; exact List.not_mem_nil) (seen ++ t.2)
        refine ⟨go, q, seen', ?_, ?_, hstate, hbetween⟩
        · rw [hscan, if_pos rfl, hrest]
        · rw [hevents, List.append_assoc]
      | false =>
        have hunread : unread { t.1 with buffer := s } = tokenize t.1 s := by
          have hsame : ({ t.1 with buffer := [] } : SseParser) = t.1 := by
            rw [← hbuffer]
          unfold unread
          change tokenize { t.1 with buffer := [] } s = _
          rw [hsame]
        refine ⟨false, { t.1 with buffer := s }, seen ++ t.2, ?_, ?_, ?_, fun _ => hstop rfl⟩
        · rw [hscan, if_neg Bool.false_ne_true]
        · rw [hunread, List.append_assoc]
        · rw [hunread]
    · have hnext : lf ∉ p.buffer ++ [b] := by simpa [h] using Ne.symm hb
      obtain ⟨go, q, seen', hrest, hevents, hstate, hbetween⟩ :=
        ih (p := { p with buffer := p.buffer ++ [b] }) hnext seen
      refine ⟨go, q, seen', ?_, ?_, ?_, hbetween⟩
      · rw [scan, if_neg hb, hrest]
      · rw [hevents, tokenize, if_neg hb]
      · rw [hstate, tokenize, if_neg hb]

/-- One more `feed`, after a stop or not. -/
theorem Delivered.feed {bytes : Bytes} {p : SseParser} {seen : List Bytes}
    (h : Delivered bytes p seen) (piece : Bytes) :
    ∃ go q seen', (SseParser.feed (recorded answer) p piece).run seen = ((go, q), seen') ∧
      Delivered (bytes ++ piece) q seen' := by
  obtain ⟨go, q, seen', hrun, hevents, hstate, hbetween⟩ :=
    scan_recorded answer (p := { p with buffer := [] }) List.not_mem_nil (p.buffer ++ piece) seen
  refine ⟨go, q, seen', hrun, ?_, ?_, hbetween⟩
  · rw [hevents, tokenize_append, tokenize_append .init, ← h.state, ← h.events, List.append_assoc]
    rfl
  · rw [hstate, tokenize_append, tokenize_append .init, ← h.state]
    rfl

theorem delivered_init : Delivered [] .init [] := by
  refine ⟨rfl, rfl, ?_⟩
  intro hmem
  cases hmem

/-- Any number of calls of `feed`. -/
theorem Delivered.feedOn {bytes : Bytes} {p : SseParser} {seen : List Bytes}
    (h : Delivered bytes p seen) (pieces : List Bytes) :
    ∃ q seen', (SseParser.feedOn (recorded answer) p pieces).run seen = (q, seen') ∧
      Delivered (bytes ++ pieces.flatten) q seen' := by
  induction pieces generalizing bytes p seen with
  | nil => exact ⟨p, seen, rfl, by simpa using h⟩
  | cons piece pieces ih =>
    obtain ⟨go, q, seen', hfeed, hnext⟩ := h.feed answer piece
    obtain ⟨q', seen'', hrest, hlast⟩ := ih hnext
    refine ⟨q', seen'', ?_, ?_⟩
    · rw [SseParser.feedOn, StateT.run_bind, hfeed]
      exact hrest
    · rwa [List.flatten_cons, ← List.append_assoc]

/-- `finish` hands out at most one event, so it matters no more what the handler answers. -/
theorem finish_recorded (p : SseParser) (seen : List Bytes) :
    ((finish (recorded answer) p).run seen).2 = seen ++ p.trailing := by
  unfold finish trailing
  split_ifs with hbuffer
  · obtain ⟨go, hrun⟩ := dispatch_recorded answer p seen
    rw [hrun]
  · obtain ⟨go, hrun, hstop⟩ :=
      processLine_recorded answer { p with buffer := [] } (stripCr p.buffer) seen
    generalize closeLine { p with buffer := [] } (stripCr p.buffer) = t at hrun hstop
    rw [StateT.run_bind, hrun]
    cases go with
    | true =>
      obtain ⟨go, hlast⟩ := dispatch_recorded answer t.1 (seen ++ t.2)
      change ((dispatch (recorded answer) t.1).run (seen ++ t.2)).2 = _
      rw [hlast, List.append_assoc]
    | false =>
      have hnone : t.1.flush.2 = [] := by simp [flush, hstop rfl]
      change seen ++ t.2 = seen ++ (t.2 ++ t.1.flush.2)
      rw [hnone, List.append_nil]

end

theorem length_splitField (line : Bytes) :
    (splitField line).1.length + (splitField line).2.length ≤ line.length := by
  have hparts := congrArg List.length (@List.takeWhile_append_dropWhile _ (· ≠ colon) line)
  rw [List.length_append] at hparts
  unfold splitField
  split
  · simp only [List.length_nil]
    omega
  · rename_i value hrest
    rw [hrest, List.length_cons] at hparts
    dsimp only
    split_ifs
    · rw [List.length_tail]
      omega
    · omega

/-- A line adds fewer bytes to an event than it has. -/
theorem length_addLine (p : SseParser) {line : Bytes} (h : line ≠ []) :
    (p.addLine line).data.length < p.data.length + line.length := by
  have hpos : 0 < line.length := List.length_pos_iff.mpr h
  have hparts := length_splitField line
  unfold addLine
  by_cases hcomment : line.head? = some colon
  · rw [if_pos hcomment]
    omega
  rw [if_neg hcomment]
  by_cases hdata : (splitField line).1 = ascii "data"
  · have hname : (splitField line).1.length = 4 := by
      rw [hdata]
      rfl
    rw [if_pos hdata, List.length_append]
    split_ifs
    · rw [List.length_append, List.length_singleton]
      omega
    · omega
  · rw [if_neg hdata]
    omega

theorem length_stripCr (line : Bytes) : (stripCr line).length ≤ line.length := by
  unfold stripCr
  split_ifs
  · rw [List.length_dropLast]
    omega
  · omega

theorem mem_flush {p : SseParser} {event : Bytes} (h : event ∈ p.flush.2) : event = p.data := by
  unfold flush at h
  split_ifs at h
  · exact List.mem_singleton.mp h
  · cases h

theorem mem_closeLine {p : SseParser} {line event : Bytes} (h : event ∈ (closeLine p line).2) :
    event = p.data := by
  unfold closeLine at h
  split_ifs at h
  · exact mem_flush h
  · cases h

theorem length_closeLine (p : SseParser) (line : Bytes) :
    (closeLine p line).1.data.length ≤ p.data.length + (line.length - 1) := by
  unfold closeLine flush
  split_ifs with hline
  · exact Nat.zero_le _
  · exact Nat.le_add_right ..
  · have hadd := length_addLine p hline
    dsimp only
    omega

/-- An event is shorter than what it is read from. -/
theorem length_event {p : SseParser} {s event : Bytes}
    (h : event ∈ (tokenize p s).2 ++ (tokenize p s).1.trailing) :
    event.length ≤ p.data.length + (p.buffer.length + s.length - 1) := by
  have hline := length_stripCr p.buffer
  have hclose := length_closeLine { p with buffer := [] } (stripCr p.buffer)
  dsimp only at hclose
  induction s generalizing p with
  | nil =>
    have htrailing : event ∈ p.trailing := h
    unfold trailing at htrailing
    split_ifs at htrailing
    · rw [mem_flush htrailing]
      omega
    · rcases List.mem_append.mp htrailing with hmem | hmem
      · rw [mem_closeLine hmem]
        exact Nat.le_add_right ..
      · rw [mem_flush hmem]
        omega
  | cons b s ih =>
    rw [List.length_cons]
    by_cases hb : b = lf
    · have hbuffer := closeLine_buffer { p with buffer := [] } (stripCr p.buffer)
      rw [tokenize, if_pos hb, List.append_assoc] at h
      rcases List.mem_append.mp h with hmem | hmem
      · rw [mem_closeLine hmem]
        exact Nat.le_add_right ..
      · have hrest := ih hmem (length_stripCr _) (length_closeLine ..)
        rw [hbuffer, List.length_nil] at hrest
        omega
    · rw [tokenize, if_neg hb] at h
      have hrest := ih h (length_stripCr _) (length_closeLine ..)
      rw [List.length_append, List.length_singleton] at hrest
      dsimp only at hrest
      omega

/-- A field's value without one space at its start. -/
def dropSpace (value : Bytes) : Bytes := if value.head? = some space then value.tail else value

theorem addLine_data {p : SseParser} (hp : p.hasData = false) (value : Bytes) :
    p.addLine (ascii "data:" ++ value) =
      { p with data := p.data ++ dropSpace value, hasData := true } := by
  have hsplit : splitField (ascii "data:" ++ value) = (ascii "data", dropSpace value) :=
    @splitField_colon (ascii "data") (by decide) value
  unfold addLine
  rw [if_neg (by simp [ascii, colon]), hsplit, if_pos rfl]
  simp [hp]

/-- Of all that `finish` can take for a line, only a data line makes an event. -/
theorem addLine_of_lf (p : SseParser) {line : Bytes} (hlf : lf ∈ line)
    (h : ¬ascii "data:" <+: line) : p.addLine line = p := by
  unfold addLine
  by_cases hcomment : line.head? = some colon
  · rw [if_pos hcomment]
  rw [if_neg hcomment, if_neg]
  intro hfield
  have hparts := @List.takeWhile_append_dropWhile _ (· ≠ colon) line
  have hname : line.takeWhile (· ≠ colon) = ascii "data" := by
    rw [← hfield]
    unfold splitField
    split <;> rfl
  rw [hname] at hparts
  cases hrest : line.dropWhile (· ≠ colon) with
  | nil =>
    rw [hrest, List.append_nil] at hparts
    rw [← hparts] at hlf
    exact absurd hlf (by decide)
  | cons b value =>
    have hb : b = colon := by
      have hhead := List.head?_dropWhile_not (· ≠ colon) line
      rw [hrest] at hhead
      simpa using hhead
    apply h
    rw [← hparts, hrest, hb]
    exact ⟨value, rfl⟩

/-- A CR is not taken from before an LF. -/
theorem stripCr_lf (line rest : Bytes) :
    ∃ rest', stripCr (line ++ lf :: rest) = line ++ lf :: rest' ∧
      rest.length ≤ rest'.length + 1 := by
  rcases List.eq_nil_or_concat rest with rfl | ⟨init, last, rfl⟩
  · refine ⟨[], ?_, Nat.zero_le _⟩
    unfold stripCr
    rw [List.getLast?_concat, if_neg (by decide)]
  · have hsplit : line ++ lf :: init.concat last = (line ++ lf :: init) ++ [last] := by simp
    unfold stripCr
    rw [hsplit, List.getLast?_concat, List.dropLast_concat]
    split_ifs
    · exact ⟨init, rfl, by simp⟩
    · exact ⟨init ++ [last], by simp, by simp⟩

theorem length_dropSpace_stripCr (line : Bytes) :
    (dropSpace (stripCr line)).length ≤ (dropSpace line).length := by
  by_cases hlast : line.getLast? = some cr
  · obtain ⟨init, rfl⟩ := List.getLast?_eq_some_iff.mp hlast
    rw [stripCr_append_cr]
    cases init with
    | nil => exact Nat.zero_le _
    | cons b init =>
      unfold dropSpace
      rw [List.cons_append, List.head?_cons, List.head?_cons]
      split_ifs <;> simp
  · unfold stripCr
    rw [if_neg hlast]

theorem length_dropSpace_lf (line rest : Bytes) :
    (dropSpace (line ++ lf :: rest)).length = (dropSpace line).length + rest.length + 1 := by
  cases line with
  | nil => simp [dropSpace, lf, space]
  | cons b line =>
    unfold dropSpace
    rw [List.cons_append, List.head?_cons, List.head?_cons]
    split_ifs
    · simp only [List.tail_cons, List.length_append, List.length_cons]
      omega
    · simp only [List.length_append, List.length_cons]
      omega

theorem lf_mem_stripCr {line : Bytes} (h : lf ∈ line) : lf ∈ stripCr line := by
  obtain ⟨pre, rest, rfl⟩ := List.append_of_mem h
  obtain ⟨rest', hstrip, -⟩ := stripCr_lf pre rest
  rw [hstrip]
  exact List.mem_append_right _ (List.mem_cons_self ..)

theorem stripCr_isPrefixOf (line : Bytes) : stripCr line <+: line := by
  unfold stripCr
  split_ifs
  · exact List.dropLast_prefix line
  · exact List.prefix_rfl

/-- With whole lines in the buffer, `finish` makes an event only of a data line. -/
theorem trailing_of_not_holdsDataLine {p : SseParser} (hp : p.hasData = false)
    (hlf : lf ∈ p.buffer) (h : ¬p.HoldsDataLine) : p.trailing = [] := by
  have hdata : ¬ascii "data:" <+: stripCr p.buffer :=
    fun hpre => h ⟨hlf, hpre.trans (stripCr_isPrefixOf _)⟩
  have hline := lf_mem_stripCr hlf
  unfold trailing closeLine
  rw [if_neg (List.ne_nil_of_mem hlf), if_neg (List.ne_nil_of_mem hline),
    addLine_of_lf _ hline hdata]
  simp [flush, hp]

/-- That event is none of the events the lines stand for: it is longer than each of them. -/
theorem trailing_of_holdsDataLine {p : SseParser} (hp : p.hasData = false)
    (h : p.HoldsDataLine) :
    ∃ event, p.trailing = [event] ∧ event ∉ p.unread.2 ++ p.unread.1.trailing := by
  obtain ⟨hlf, value, hbuffer⟩ := h
  have hvalue : lf ∈ value := by
    rw [← hbuffer] at hlf
    rcases List.mem_append.mp hlf with hmem | hmem
    · exact absurd hmem (by decide)
    · exact hmem
  obtain ⟨first, rest, rfl, hfirst⟩ := List.eq_append_cons_of_mem hvalue
  obtain ⟨rest', hstrip, hrest⟩ := stripCr_lf first rest
  have hall : stripCr p.buffer = ascii "data:" ++ (first ++ lf :: rest') := by
    rw [← hbuffer, stripCr_append (by decide), hstrip]
  have hempty : ({ p with buffer := [] } : SseParser).hasData = false := hp
  refine ⟨p.data ++ dropSpace (first ++ lf :: rest'), ?_, ?_⟩
  · unfold trailing closeLine
    rw [if_neg (List.ne_nil_of_mem hlf), hall, if_neg (by simp [ascii]), addLine_data hempty]
    rfl
  · intro hmem
    have hline : stripCr (ascii "data:" ++ first) = ascii "data:" ++ stripCr first :=
      stripCr_append (by decide) first
    have hclose : closeLine { p with buffer := [] } (ascii "data:" ++ stripCr first) =
        ({ p with buffer := [], data := p.data ++ dropSpace (stripCr first), hasData := true },
          []) := by
      unfold closeLine
      rw [if_neg (by simp [ascii]), addLine_data hempty]
    have hunread : p.unread = tokenize
        { p with buffer := [], data := p.data ++ dropSpace (stripCr first), hasData := true }
        rest := by
      have hlf' : lf ∉ ascii "data:" ++ first := by
        intro hmem
        rcases List.mem_append.mp hmem with hmem | hmem
        · exact absurd hmem (by decide)
        · exact hfirst hmem
      unfold unread
      rw [← hbuffer, ← List.append_assoc, tokenize_line rfl hlf', hline, hclose]
      rfl
    rw [hunread] at hmem
    have hlong := length_event hmem
    have hshort := length_dropSpace_stripCr first
    have hlength := length_dropSpace_lf first rest'
    simp only [List.length_append, List.length_nil] at hlong
    omega

theorem Delivered.sseEvents_eq {bytes : Bytes} {p : SseParser} {seen : List Bytes}
    (h : Delivered bytes p seen) :
    sseEvents bytes = seen ++ (p.unread.2 ++ p.unread.1.trailing) := by
  rw [SseParser.sseEvents_eq, ← h.events, ← h.state, List.append_assoc]

/-- When `finish` keeps to the events of the stream. -/
theorem Delivered.trailing_isPrefixOf_iff {bytes : Bytes} {p : SseParser} {seen : List Bytes}
    (h : Delivered bytes p seen) :
    seen ++ p.trailing <+: sseEvents bytes ↔ ¬p.HoldsDataLine := by
  rw [h.sseEvents_eq, List.prefix_append_right_inj]
  by_cases hlf : lf ∈ p.buffer
  · have hp := h.between hlf
    constructor
    · intro hpre hholds
      obtain ⟨event, htrailing, hnot⟩ := trailing_of_holdsDataLine hp hholds
      rw [htrailing] at hpre
      exact hnot (hpre.subset (List.mem_singleton_self event))
    · intro hnot
      rw [trailing_of_not_holdsDataLine hp hlf hnot]
      exact List.nil_prefix
  · rw [unread_of_not_mem hlf]
    constructor
    · intro _ hholds
      exact hlf hholds.1
    · intro _
      exact List.prefix_rfl

/-- However a stream is split and whatever the handler answers, calls of `feed` hand out the first
events of the stream. `finish` then hands out no other event either, unless a stop has left a data
line in the buffer with more lines behind it: just then it makes an event of all of them. -/
theorem stop_keeps_events_iff (answer : List Bytes → Bool) (pieces : List Bytes) :
    let fed := (feedOn (recorded answer) .init pieces).run []
    fed.2 <+: sseEvents pieces.flatten ∧
      (((finish (recorded answer) fed.1).run fed.2).2 <+: sseEvents pieces.flatten ↔
        ¬fed.1.HoldsDataLine) := by
  obtain ⟨q, seen, hrun, hdelivered⟩ := delivered_init.feedOn answer pieces
  rw [List.nil_append] at hdelivered
  intro fed
  have hfed : fed = (q, seen) := hrun
  rw [hfed]
  constructor
  · rw [hdelivered.sseEvents_eq]
    exact List.prefix_append ..
  · rw [finish_recorded]
    exact hdelivered.trailing_isPrefixOf_iff

/-- A handler that stops at the first event, and a `finish` after it: two events are handed out as
one, in a payload that the stream does not contain. -/
theorem stop_corrupts_payload :
    let fed := (feedOn (recorded fun _ => false) .init
      [ascii "data: a\n\ndata: b\n\ndata: c\n\n"]).run []
    ¬((finish (recorded fun _ => false) fed.1).run fed.2).2 <+:
        sseEvents (ascii "data: a\n\ndata: b\n\ndata: c\n\n") ∧
      ((finish (recorded fun _ => false) fed.1).run fed.2).2 =
        [ascii "a", ascii "b\n\ndata: c\n\n"] := by
  decide +kernel

end GeminiCpp.SseParser
