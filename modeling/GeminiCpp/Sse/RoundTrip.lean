import Mathlib.Data.List.TakeWhile
import GeminiCpp.Sse.Tokens

/-! Streams of events as a server writes them, with comments, other fields and blank lines in
between. Parsing such a stream gives the payloads of its events back. -/
namespace GeminiCpp

/-- The name of a field that the parser does not use. -/
structure FieldName where
  bytes : Bytes
  nonempty : bytes ≠ []
  not_data : bytes ≠ ascii "data"
  no_colon : colon ∉ bytes
  no_lf : lf ∉ bytes
  no_cr : cr ∉ bytes

inductive SseLine
  | data (value : {v : Bytes // lf ∉ v ∧ cr ∉ v})
  | comment (text : {t : Bytes // lf ∉ t})
  /-- `event`, `id`, `retry` or an unknown field, with or without a value. -/
  | field (name : FieldName) (value : Option {v : Bytes // lf ∉ v})
  | blank

inductive LineEnd
  | lf
  | crlf

namespace SseLine

def bytes : SseLine → Bytes
  | .data value => ascii "data: " ++ value.1
  | .comment text => colon :: text.1
  | .field name none => name.bytes
  | .field name (some value) => name.bytes ++ colon :: value.1
  | .blank => []

/-- A line that is no part of an event. -/
def isNoise : SseLine → Bool
  | .comment _ | .field .. => true
  | _ => false

def value? : SseLine → Option Bytes
  | .data value => some value.1
  | _ => none

end SseLine

/-- What stands before the LF. -/
def LineEnd.mark : LineEnd → Bytes
  | .lf => []
  | .crlf => [cr]

def renderLines (lines : List (SseLine × LineEnd)) : Bytes :=
  lines.flatMap fun l => l.1.bytes ++ l.2.mark ++ [lf]

/-- Lines that encode some payloads. Each payload is an event: a data line for each of its lines,
with noise around them, and then a blank line. Between the events is noise and more blank lines. -/
inductive Encodes : List Bytes → List SseLine → Prop
  | nil {gap : List SseLine} (hgap : ∀ l ∈ gap, l.isNoise = true ∨ l = .blank) : Encodes [] gap
  | cons {gap body lines : List SseLine} {payload : Bytes} {payloads : List Bytes}
    (hgap : ∀ l ∈ gap, l.isNoise = true ∨ l = .blank) (hbody : ∀ l ∈ body, l ≠ .blank)
    (hdata : body.filterMap SseLine.value? = payload.splitOn lf) (h : Encodes payloads lines) :
    Encodes (payload :: payloads) (gap ++ body ++ .blank :: lines)

/-- Any payloads without a CR have an encoding. -/
theorem exists_encodes (payloads : List Bytes) (h : ∀ payload ∈ payloads, cr ∉ payload) :
    ∃ lines, Encodes payloads lines := by
  induction payloads with
  | nil => exact ⟨[], .nil (by simp)⟩
  | cons payload payloads ih =>
    obtain ⟨lines, hlines⟩ := ih fun p hp => h p (List.mem_cons_of_mem _ hp)
    have hbody : ∀ values : List Bytes, (∀ v ∈ values, lf ∉ v ∧ cr ∉ v) →
        ∃ body : List SseLine, (∀ l ∈ body, l ≠ .blank) ∧
          body.filterMap SseLine.value? = values := by
      intro values
      induction values with
      | nil => exact fun _ => ⟨[], by simp, rfl⟩
      | cons v values ih =>
        intro hvalues
        obtain ⟨body, hblank, hdata⟩ := ih fun w hw => hvalues w (List.mem_cons_of_mem _ hw)
        refine ⟨.data ⟨v, hvalues v (List.mem_cons_self ..)⟩ :: body, ?_, ?_⟩
        · simpa using hblank
        · exact congrArg (v :: ·) hdata
    obtain ⟨body, hblank, hdata⟩ := hbody (payload.splitOn lf) fun v hv => by
      obtain ⟨hlf, hin⟩ := of_mem_splitOn hv
      exact ⟨hlf, fun hcr => h payload (List.mem_cons_self ..) (hin cr hcr)⟩
    have hgap : ∀ l ∈ ([] : List SseLine), l.isNoise = true ∨ l = .blank := by simp
    exact ⟨_, .cons hgap hblank hdata hlines⟩

namespace SseParser

/-- Appends one more line to the event being assembled. -/
def addData (p : SseParser) (value : Bytes) : SseParser :=
  { p with data := (if p.hasData then p.data ++ [lf] else p.data) ++ value, hasData := true }

/-- What a line does to the parser. -/
def readLine (p : SseParser) : SseLine → SseParser × List Bytes
  | .data value => (p.addData value.1, [])
  | .blank => p.flush
  | _ => (p, [])

def readLines (p : SseParser) : List SseLine → SseParser × List Bytes
  | [] => (p, [])
  | l :: lines =>
    ((readLines (readLine p l).1 lines).1, (readLine p l).2 ++ (readLines (readLine p l).1 lines).2)

theorem stripCr_append_cr (line : Bytes) : stripCr (line ++ [cr]) = line := by
  unfold stripCr
  rw [if_pos (List.getLast?_concat ..), List.dropLast_concat]

theorem stripCr_of_not_mem {line : Bytes} (h : cr ∉ line) : stripCr line = line := by
  unfold stripCr
  apply if_neg
  exact fun hlast => h (List.mem_of_getLast? hlast)

/-- At most one CR is taken from the end of a line. -/
theorem stripCr_mark (line : Bytes) (e : LineEnd) :
    stripCr (line ++ e.mark) = line ∨ ∃ line', line = line' ++ [cr] ∧
      stripCr (line ++ e.mark) = line' := by
  cases e with
  | crlf => exact Or.inl (stripCr_append_cr line)
  | lf =>
    rw [LineEnd.mark, List.append_nil]
    unfold stripCr
    split_ifs with hlast
    · obtain ⟨line', rfl⟩ := List.getLast?_eq_some_iff.mp hlast
      exact Or.inr ⟨line', rfl, List.dropLast_concat⟩
    · exact Or.inl rfl

theorem stripCr_mark_of_not_mem {line : Bytes} (h : cr ∉ line) (e : LineEnd) :
    stripCr (line ++ e.mark) = line := by
  rcases stripCr_mark line e with hline | ⟨line', rfl, -⟩
  · exact hline
  · simp at h

theorem ne_colon {name : Bytes} (h : colon ∉ name) : ∀ b ∈ name, decide (b ≠ colon) = true := by
  intro b hb
  have hne : b ≠ colon := fun heq => h (heq.subst hb)
  exact decide_eq_true hne

theorem splitField_of_no_colon {name : Bytes} (h : colon ∉ name) : (splitField name).1 = name := by
  have htake : name.takeWhile (fun b => decide (b ≠ colon)) = name :=
    List.takeWhile_eq_self_iff.mpr (ne_colon h)
  unfold splitField
  split <;> exact htake

theorem splitField_colon {name : Bytes} (h : colon ∉ name) (value : Bytes) :
    splitField (name ++ colon :: value) =
      (name, if value.head? = some space then value.tail else value) := by
  unfold splitField
  rw [List.takeWhile_append_of_pos (ne_colon h), List.dropWhile_append_of_pos (ne_colon h),
    List.takeWhile_cons_of_neg (by simp), List.dropWhile_cons_of_neg (by simp), List.append_nil]

/-- A field with another name changes nothing. -/
theorem addLine_field (p : SseParser) (name : FieldName) {line : Bytes}
    (h : (splitField line).1 = name.bytes) : p.addLine line = p := by
  unfold addLine
  rw [h, if_neg name.not_data, ite_self]

theorem closeLine_field (p : SseParser) (name : FieldName) (rest : Bytes) :
    closeLine p (name.bytes ++ colon :: rest) = (p, []) := by
  have hfield : (splitField (name.bytes ++ colon :: rest)).1 = name.bytes := by
    rw [splitField_colon name.no_colon]
  unfold closeLine
  rw [if_neg (by simp), addLine_field p name hfield]

theorem closeLine_data (p : SseParser) (value : Bytes) :
    closeLine p (ascii "data: " ++ value) = (p.addData value, []) := by
  have hsplit : splitField (ascii "data: " ++ value) = (ascii "data", value) :=
    @splitField_colon (ascii "data") (by decide) (space :: value)
  unfold closeLine addLine
  rw [if_neg (by simp [ascii]), if_neg (by simp [ascii, colon]), hsplit, if_pos rfl]
  rfl

/-- The parser sees a line as it was meant, whichever way it ends. -/
theorem closeLine_line (p : SseParser) (l : SseLine) (e : LineEnd) :
    closeLine p (stripCr (l.bytes ++ e.mark)) = readLine p l := by
  cases l with
  | blank =>
    rw [SseLine.bytes, stripCr_mark_of_not_mem List.not_mem_nil]
    rfl
  | data value =>
    have hcr : cr ∉ SseLine.bytes (.data value) := by
      intro hmem
      rcases List.mem_append.mp hmem with hmem | hmem
      · exact absurd hmem (by decide)
      · exact value.2.2 hmem
    rw [stripCr_mark_of_not_mem hcr, SseLine.bytes]
    exact closeLine_data p value.1
  | comment text =>
    have hcolon : ∀ rest, closeLine p (colon :: rest) = (p, []) := by
      intro rest
      unfold closeLine addLine
      rw [if_neg (List.cons_ne_nil _ _), List.head?_cons, if_pos rfl]
    rw [SseLine.bytes]
    rcases stripCr_mark (colon :: text.1) e with hline | ⟨line', hline', hline⟩
    · rw [hline]
      exact hcolon _
    · rw [hline]
      cases line' with
      | nil => cases hline'
      | cons b line' =>
        obtain rfl := (List.cons.inj hline').1
        exact hcolon _
  | field name value =>
    cases value with
    | none =>
      rw [SseLine.bytes, stripCr_mark_of_not_mem name.no_cr]
      unfold closeLine
      rw [if_neg name.nonempty, addLine_field p name (splitField_of_no_colon name.no_colon)]
      rfl
    | some value =>
      rw [SseLine.bytes]
      rcases stripCr_mark (name.bytes ++ colon :: value.1) e with hline | ⟨line', hline', hline⟩
      · rw [hline]
        exact closeLine_field p name _
      · rw [hline]
        have hrest : ∃ rest, line' = name.bytes ++ colon :: rest := by
          rcases List.eq_nil_or_concat value.1 with hvalue | ⟨rest, b, hvalue⟩
          · rw [hvalue] at hline'
            have hlast := (List.append_singleton_inj.mp hline').2
            exact absurd hlast (by decide)
          · rw [hvalue, List.concat_eq_append, ← List.cons_append, ← List.append_assoc] at hline'
            exact ⟨rest, (List.append_singleton_inj.mp hline').1.symm⟩
        obtain ⟨rest, rfl⟩ := hrest
        exact closeLine_field p name rest

theorem lf_not_mem_mark (e : LineEnd) : lf ∉ e.mark := by
  cases e <;> decide

theorem lf_not_mem_line (l : SseLine) (e : LineEnd) : lf ∉ l.bytes ++ e.mark := by
  intro hmem
  rcases List.mem_append.mp hmem with hmem | hmem
  · cases l with
    | data value =>
      rcases List.mem_append.mp hmem with hmem | hmem
      · exact absurd hmem (by decide)
      · exact value.2.1 hmem
    | comment text =>
      rcases List.mem_cons.mp hmem with hmem | hmem
      · exact absurd hmem (by decide)
      · exact text.2 hmem
    | field name value =>
      cases value with
      | none => exact name.no_lf hmem
      | some value =>
        rcases List.mem_append.mp hmem with hmem | hmem
        · exact name.no_lf hmem
        · rcases List.mem_cons.mp hmem with hmem | hmem
          · exact absurd hmem (by decide)
          · exact value.2 hmem
    | blank => cases hmem
  · exact lf_not_mem_mark e hmem

/-- The tokenizer on one line. -/
theorem tokenize_line {p : SseParser} (hp : p.buffer = []) {line : Bytes} (h : lf ∉ line)
    (rest : Bytes) :
    tokenize p (line ++ lf :: rest) =
      ((tokenize (closeLine p (stripCr line)).1 rest).1,
        (closeLine p (stripCr line)).2 ++ (tokenize (closeLine p (stripCr line)).1 rest).2) := by
  have hline : ∀ (line read : Bytes), lf ∉ line →
      tokenize { p with buffer := read } (line ++ lf :: rest) =
        tokenize { p with buffer := read ++ line } (lf :: rest) := by
    intro line
    induction line with
    | nil => simp
    | cons b line ih =>
      intro read hmem
      have hb : b ≠ lf := fun heq => hmem (by simp [heq])
      rw [List.cons_append, tokenize, if_neg hb]
      have hnext := ih (read ++ [b]) (fun hin => hmem (List.mem_cons_of_mem _ hin))
      rwa [List.append_assoc] at hnext
  have hself : { p with buffer := [] } = p := by
    rw [← hp]
  have hwhole := hline line [] h
  rw [hself, List.nil_append] at hwhole
  rw [hwhole, tokenize, if_pos rfl]
  dsimp only
  rw [hself]

theorem readLine_buffer (p : SseParser) (l : SseLine) : (readLine p l).1.buffer = p.buffer := by
  cases l with
  | blank => exact flush_buffer p
  | _ => rfl

theorem tokenize_renderLines {p : SseParser} (hp : p.buffer = [])
    (lines : List (SseLine × LineEnd)) :
    tokenize p (renderLines lines) = readLines p (lines.map Prod.fst) := by
  induction lines generalizing p with
  | nil => rfl
  | cons l lines ih =>
    have hrender : renderLines (l :: lines) =
        (l.1.bytes ++ l.2.mark) ++ lf :: renderLines lines := by
      simp [renderLines]
    have hnext : (readLine p l.1).1.buffer = [] := (readLine_buffer p l.1).trans hp
    rw [hrender, tokenize_line hp (lf_not_mem_line l.1 l.2), closeLine_line, ih hnext]
    rfl

theorem readLines_append (p : SseParser) (lines lines' : List SseLine) :
    readLines p (lines ++ lines') =
      ((readLines (readLines p lines).1 lines').1,
        (readLines p lines).2 ++ (readLines (readLines p lines).1 lines').2) := by
  induction lines generalizing p with
  | nil => rfl
  | cons l lines ih =>
    rw [List.cons_append, readLines, ih]
    simp only [readLines, List.append_assoc]

/-- Between two events nothing happens. -/
theorem readLines_gap {p : SseParser} (hp : p.hasData = false) {gap : List SseLine}
    (hgap : ∀ l ∈ gap, l.isNoise = true ∨ l = .blank) : readLines p gap = (p, []) := by
  have hflush : p.flush = (p, []) := by
    unfold flush
    rw [hp]
    rfl
  induction gap with
  | nil => rfl
  | cons l gap ih =>
    have hone : readLine p l = (p, []) := by
      cases l with
      | blank => exact hflush
      | data value => rcases hgap _ (List.mem_cons_self ..) with h | h <;> cases h
      | comment text => rfl
      | field name value => rfl
    rw [readLines, hone, ih fun l hl => hgap l (List.mem_cons_of_mem _ hl)]
    rfl

/-- The lines of an event are added one after the other. -/
theorem readLines_body (p : SseParser) {body : List SseLine} (hbody : ∀ l ∈ body, l ≠ .blank) :
    readLines p body = ((body.filterMap SseLine.value?).foldl addData p, []) := by
  induction body generalizing p with
  | nil => rfl
  | cons l body ih =>
    have hrest := fun p => ih p fun l hl => hbody l (List.mem_cons_of_mem _ hl)
    cases l with
    | blank => exact absurd rfl (hbody _ (List.mem_cons_self ..))
    | data value => exact hrest (p.addData value.1)
    | comment text => exact hrest p
    | field name value => exact hrest p

/-- Lines are joined by LF. -/
theorem foldl_addData {values : List Bytes} (h : values ≠ []) :
    values.foldl addData .init = { buffer := [], data := [lf].intercalate values, hasData := true } := by
  have hmore : ∀ (values : List Bytes) (first : Bytes),
      values.foldl addData { buffer := [], data := first, hasData := true } =
        { buffer := [], data := [lf].intercalate (first :: values), hasData := true } := by
    intro values
    induction values with
    | nil => exact fun first => by rw [List.intercalate_singleton]; rfl
    | cons value values ih =>
      intro first
      have hstep : addData { buffer := [], data := first, hasData := true } value =
          { buffer := [], data := first ++ [lf] ++ value, hasData := true } := rfl
      rw [List.foldl_cons, hstep, ih]
      cases values with
      | nil => simp [List.intercalate_cons_cons]
      | cons next values => simp [List.intercalate_cons_cons]
  cases values with
  | nil => exact absurd rfl h
  | cons value values => exact hmore values value

/-- A parser between two events reads a stream of events and stands between two events again. -/
theorem readLines_of_encodes {payloads : List Bytes} {lines : List SseLine}
    (h : Encodes payloads lines) : readLines .init lines = (.init, payloads) := by
  induction h with
  | nil hgap => exact readLines_gap rfl hgap
  | @cons gap body lines payload payloads hgap hbody hdata _ ih =>
    have hpayload : (body.filterMap SseLine.value?).foldl addData .init =
        { buffer := [], data := payload, hasData := true } := by
      rw [hdata, foldl_addData (List.splitOn_ne_nil _ _), List.intercalate_splitOn]
    rw [readLines_append, readLines_append, readLines_gap rfl hgap]
    dsimp only
    rw [readLines_body _ hbody, hpayload]
    change ((readLines SseParser.init lines).1,
      [] ++ [] ++ ([payload] ++ (readLines SseParser.init lines).2)) = _
    rw [ih]
    rfl

theorem allM_recorded (events seen : List Bytes) :
    (events.allM (recorded fun _ => true)).run seen = (true, seen ++ events) := by
  induction events generalizing seen with
  | nil =>
    rw [List.append_nil]
    rfl
  | cons e events ih =>
    have hnext := ih (seen ++ [e])
    rw [List.append_assoc] at hnext
    exact hnext

/-- A handler that always continues is given the events of the tokenizer. -/
theorem feed_recorded {p : SseParser} (h : lf ∉ p.buffer) (bytes : Bytes) (seen : List Bytes) :
    (feed (recorded fun _ => true) p bytes).run seen =
      ((true, (tokenize p bytes).1), seen ++ (tokenize p bytes).2) := by
  have hgoing := congrArg (fun x => StateT.run x seen)
    (going_feed (m := StateM (List Bytes)) (recorded fun _ => true) h bytes)
  have hoffer : (offer (m := StateM (List Bytes)) (recorded fun _ => true) (tokenize p bytes).1
      (tokenize p bytes).2).run seen = (some (tokenize p bytes).1, seen ++ (tokenize p bytes).2) := by
    unfold offer
    rw [StateT.run_map, allM_recorded]
    rfl
  rw [hoffer, StateT.run_map] at hgoing
  generalize (feed (recorded fun _ => true) p bytes).run seen = r at hgoing
  obtain ⟨⟨go, q⟩, delivered⟩ := r
  obtain ⟨hq, rfl⟩ := Prod.mk.inj hgoing
  cases go with
  | false => cases hq
  | true =>
    obtain rfl := Option.some.inj hq
    rfl

/-- Feeding an encoding delivers its payloads, and finishing delivers nothing more; it may be fed
in pieces. -/
theorem decode_encode {payloads : List Bytes} {lines : List (SseLine × LineEnd)}
    (h : Encodes payloads (lines.map Prod.fst)) :
    (∃ p, (feed (recorded fun _ => true) .init (renderLines lines)).run [] = ((true, p), payloads) ∧
      ∃ p', (finish (recorded fun _ => true) p).run payloads = ((true, p'), payloads)) ∧
    ∀ pieces : List Bytes, pieces.flatten = renderLines lines →
      (feedAll (recorded fun _ => true) .init pieces).run [] = (true, payloads) := by
  have htokens : tokenize .init (renderLines lines) = (.init, payloads) := by
    rw [tokenize_renderLines rfl, readLines_of_encodes h]
  have hbuffer : lf ∉ init.buffer := List.not_mem_nil
  constructor
  · refine ⟨.init, ?_, .init, rfl⟩
    rw [feed_recorded hbuffer, htokens]
    rfl
  · intro pieces hpieces
    rw [feedAll_eq _ hbuffer, hpieces, htokens, allM_recorded]
    exact congrArg (Prod.mk true) (List.append_nil payloads)

/-- An empty payload and one of two lines, with a comment, an id and CRLF in between. -/
def noisyLines : List (SseLine × LineEnd) :=
  [(.comment ⟨ascii " hello", by decide⟩, .lf), (.blank, .crlf),
    (.data ⟨[], by decide⟩, .lf), (.blank, .lf),
    (.data ⟨ascii ": a", by decide⟩, .crlf),
    (.field { bytes := ascii "id", nonempty := by decide, not_data := by decide,
              no_colon := by decide, no_lf := by decide, no_cr := by decide } none, .lf),
    (.data ⟨ascii " b", by decide⟩, .lf), (.blank, .crlf)]

theorem encodes_noisyLines :
    Encodes [[], ascii ": a\n b"] (noisyLines.map Prod.fst) := by
  have hsecond : Encodes [ascii ": a\n b"] ((noisyLines.drop 4).map Prod.fst) :=
    @Encodes.cons [] [_, _, _] [] _ [] (by simp) (by simp) rfl (.nil (by simp))
  exact @Encodes.cons [_, _] [_] _ _ _ (by simp [SseLine.isNoise]) (by simp) rfl hsecond

theorem decode_encode_noisy :
    (∃ p, (feed (recorded fun _ => true) .init (renderLines noisyLines)).run [] =
        ((true, p), [[], ascii ": a\n b"]) ∧
      ∃ p', (finish (recorded fun _ => true) p).run [[], ascii ": a\n b"] =
        ((true, p'), [[], ascii ": a\n b"])) ∧
    ∀ pieces : List Bytes, pieces.flatten = renderLines noisyLines →
      (feedAll (recorded fun _ => true) .init pieces).run [] = (true, [[], ascii ": a\n b"]) :=
  decode_encode encodes_noisyLines

end SseParser

end GeminiCpp
