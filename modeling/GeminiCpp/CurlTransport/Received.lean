import GeminiCpp.Client.Agreement
import GeminiCpp.CurlTransport

/-! What a response holds after a transfer: the body that was not streamed, and the fields of the
last header block. -/
namespace GeminiCpp

/-- The header calls of a transfer. -/
def Transfer.lines : Transfer → List Bytes
  | .done .. => []
  | .header line rest => line :: rest.lines
  | .body _ _ rest => rest.lines

/-- The bytes of the body calls whose response code satisfies `p`. -/
def Transfer.bytes (p : ℤ → Bool) (transfer : Transfer) : Bytes :=
  (transfer.bodies.filter fun body => p body.1).flatMap Prod.snd

/-- A header field as a server writes it. -/
structure HeaderLine where
  name : Bytes
  pad : Bytes
  value : Bytes
  tail : Bytes
  /-- A name is a token. -/
  name_token : ∀ b ∈ name, b ≠ colon ∧ b ≠ 0x2F
  pad_blank : ∀ b ∈ pad, b = space ∨ b = 0x09
  value_front : ∀ b, value.head? = some b → ¬ (b = space ∨ b = 0x09)
  value_back : ∀ b, value.getLast? = some b → ¬ (b = cr ∨ b = lf ∨ b = space)
  tail_end : ∀ b ∈ tail, b = cr ∨ b = lf ∨ b = space

namespace HeaderLine

def render (h : HeaderLine) : Bytes := h.name ++ colon :: (h.pad ++ h.value ++ h.tail)

/-- The name under which a client finds the field. -/
def key (h : HeaderLine) : Bytes := h.name.map toLower

end HeaderLine

theorem trimBack_append {s tail : Bytes} (hs : ∀ b, s.getLast? = some b →
    ¬ (b = cr ∨ b = lf ∨ b = space)) (htail : ∀ b ∈ tail, b = cr ∨ b = lf ∨ b = space) :
    trimBack (s ++ tail) = s := by
  unfold trimBack List.rdropWhile
  rw [List.reverse_append, dropWhile_append (m := tail.reverse) (r := s.reverse),
    List.reverse_reverse]
  · intro b hb
    simpa using htail b (List.mem_reverse.mp hb)
  · intro b hb
    rw [List.head?_reverse] at hb
    simpa using hs b hb

theorem trimBack_of_all {s : Bytes} (h : ∀ b ∈ s, b = cr ∨ b = lf ∨ b = space) :
    trimBack s = [] := by
  have hback : ∀ b, ([] : Bytes).getLast? = some b → ¬ (b = cr ∨ b = lf ∨ b = space) :=
    fun b hb => by cases hb
  simpa using trimBack_append hback h

theorem HeaderLine.trim (h : HeaderLine) :
    trimBack (trimFront (h.pad ++ h.value ++ h.tail)) = h.value := by
  have hpad : trimFront (h.pad ++ (h.value ++ h.tail)) = trimFront (h.value ++ h.tail) :=
    List.dropWhile_append_of_pos fun b hb => by simpa using h.pad_blank b hb
  rw [List.append_assoc, hpad]
  cases hvalue : h.value with
  | nil =>
    -- the blanks of the tail go with those before it
    apply trimBack_of_all
    intro b hb
    exact h.tail_end b ((List.dropWhile_suffix _).subset hb)
  | cons b value =>
    have hfront : trimFront (b :: value ++ h.tail) = b :: value ++ h.tail := by
      apply List.dropWhile_cons_of_neg
      simpa using h.value_front b (by rw [hvalue, List.head?_cons])
    rw [hfront]
    refine trimBack_append (fun b' hb' => ?_) h.tail_end
    exact h.value_back b' (by rwa [hvalue])

theorem HeaderLine.headerField_render (h : HeaderLine) :
    headerField h.render = some (h.key, h.value) := by
  have hindex : h.render.findIdx? (· = colon) = some h.name.length := by
    unfold render
    rw [List.findIdx?_append]
    have hname : h.name.findIdx? (· = colon) = none := by
      rw [List.findIdx?_eq_none_iff]
      intro b hb
      simpa using (h.name_token b hb).1
    rw [hname, List.findIdx?_cons]
    simp
  have hrest : h.render.drop (h.name.length + 1) = h.pad ++ h.value ++ h.tail := by
    unfold render
    rw [← List.drop_drop, List.drop_left]
    rfl
  have hname : h.render.take h.name.length = h.name := List.take_left
  simp only [headerField, hindex, hrest, hname, h.trim, key]

/-- A field is not taken for the first line of a response. -/
theorem HeaderLine.not_isStatusLine (h : HeaderLine) : isStatusLine h.render = false := by
  rw [Bool.eq_false_iff]
  intro hprefix
  obtain ⟨rest, hrest⟩ := List.isPrefixOf_iff_prefix.mp hprefix
  have hstart : ascii "HTTP/" ++ rest = h.name ++ colon :: (h.pad ++ h.value ++ h.tail) := hrest
  rcases List.append_eq_append_iff.mp hstart with ⟨more, hname, -⟩ | ⟨more, hliteral, hcons⟩
  · exact (h.name_token 0x2F (by rw [hname]; exact List.mem_append_left _ (by decide))).2 rfl
  · have hcolon : colon ∈ ascii "HTTP/" ++ rest := by
      rw [hstart]
      simp
    cases more with
    | nil =>
      rw [List.append_nil] at hliteral
      exact (h.name_token 0x2F (by rw [← hliteral]; decide)).2 rfl
    | cons b more =>
      rw [List.cons_append] at hcons
      obtain ⟨rfl, -⟩ := List.cons.inj hcons
      have hmem : colon ∈ ascii "HTTP/" := by
        rw [hliteral]
        simp
      exact absurd hmem (by decide)

theorem lookup_filter_ne {headers : HttpHeaders} {name key : Bytes} (h : key ≠ name) :
    (headers.filter fun header => header.1 ≠ name).lookup key = headers.lookup key := by
  induction headers with
  | nil => rfl
  | cons header headers ih =>
    by_cases hname : header.1 = name
    · have hne : (key == header.1) = false := by simpa [hname] using h
      rw [List.filter_cons_of_neg (by simpa using hname), ih, List.lookup_cons, hne]
    · rw [List.filter_cons_of_pos (by simpa using hname), List.lookup_cons, List.lookup_cons, ih]

theorem lookup_setHeader (headers : HttpHeaders) (name value key : Bytes) :
    (setHeader headers name value).lookup key =
      if key = name then some value else headers.lookup key := by
  unfold setHeader
  rw [List.lookup_cons]
  by_cases hkey : key = name
  · rw [beq_iff_eq.mpr hkey, if_pos hkey]
  · rw [beq_eq_false_iff_ne.mpr hkey, if_neg hkey, lookup_filter_ne hkey]

namespace CurlTransport

/-- The value of the last of some fields that has a name. -/
def lastNamed (fields : List HeaderLine) (key : Bytes) : Option Bytes :=
  ((fields.filter fun h => h.key = key).getLast?).map HeaderLine.value

theorem lookup_onHeader_render (ctx : Context) (h : HeaderLine) (key : Bytes) :
    (ctx.onHeader h.render).response.headers.lookup key =
      if key = h.key then some h.value else ctx.response.headers.lookup key := by
  simp only [Context.onHeader, h.not_isStatusLine, Bool.false_eq_true, if_false,
    h.headerField_render, lookup_setHeader]

theorem lookup_foldl_render (fields : List HeaderLine) (ctx : Context) (key : Bytes) :
    ((fields.map HeaderLine.render).foldl Context.onHeader ctx).response.headers.lookup key =
      (lastNamed fields key).or (ctx.response.headers.lookup key) := by
  induction fields generalizing ctx with
  | nil => rfl
  | cons h fields ih =>
    rw [List.map_cons, List.foldl_cons, ih, lookup_onHeader_render]
    unfold lastNamed
    by_cases hkey : key = h.key
    · rw [if_pos hkey, List.filter_cons_of_pos (by simpa using hkey.symm), List.getLast?_cons]
      cases (fields.filter fun h => h.key = key).getLast? <;> rfl
    · have hne : ¬ h.key = key := fun heq => hkey heq.symm
      rw [if_neg hkey, List.filter_cons_of_neg (by simpa using hne)]

theorem headers_statusLine (ctx : Context) {line : Bytes} (h : isStatusLine line = true) :
    (ctx.onHeader line).response.headers = [] := by
  simp only [Context.onHeader, h, if_true]

/-- The empty line after a header block. -/
theorem onHeader_blank (ctx : Context) : ctx.onHeader [cr, lf] = ctx := rfl

/-- The header lines of a transfer: some responses before the last one, and its header block. -/
def LastBlock (lines : List Bytes) (fields : List HeaderLine) : Prop :=
  ∃ before statusLine, isStatusLine statusLine = true ∧
    lines = before ++ statusLine :: (fields.map HeaderLine.render ++ [[cr, lf]])

theorem LastBlock.lookup {lines : List Bytes} {fields : List HeaderLine}
    (h : LastBlock lines fields) (ctx : Context) (key : Bytes) :
    (lines.foldl Context.onHeader ctx).response.headers.lookup key = lastNamed fields key := by
  obtain ⟨before, statusLine, hstatus, rfl⟩ := h
  rw [List.foldl_append, List.foldl_cons, List.foldl_append, List.foldl_cons, List.foldl_nil,
    onHeader_blank, lookup_foldl_render, headers_statusLine _ hstatus]
  exact Option.or_none

variable {ω : Type} {curl : Curl ω}

theorem conclude_eq_ok {ending : Ending} {ctx : Context} {response : HttpResponse}
    (h : conclude curl ending ctx = .ok response) :
    response = { ctx.response with status := ending.status } := by
  unfold conclude at h
  split_ifs at h
  cases h
  rfl

theorem onHeader_body (ctx : Context) (line : Bytes) :
    (ctx.onHeader line).response.body = ctx.response.body := by
  unfold Context.onHeader
  split_ifs
  · rfl
  · split <;> rfl

/-- Body calls leave the headers alone. -/
theorem foldl_onHeader_congr (lines : List Bytes) {ctx ctx' : Context}
    (h : ctx.response.headers = ctx'.response.headers) :
    (lines.foldl Context.onHeader ctx).response.headers =
      (lines.foldl Context.onHeader ctx').response.headers := by
  induction lines generalizing ctx ctx' with
  | nil => exact h
  | cons line lines ih =>
    apply ih
    unfold Context.onHeader
    split_ifs
    · rfl
    · split <;> simp [h]

theorem collect_eq_ok {transfer : Transfer} {ctx : Context} {response : HttpResponse}
    (h : collect curl transfer ctx = .ok response) :
    response.body = ctx.response.body ++ transfer.bytes (fun _ => true) ∧
      response.headers = (transfer.lines.foldl Context.onHeader ctx).response.headers := by
  induction transfer generalizing ctx with
  | done rc status errorBuffer =>
    rw [conclude_eq_ok h]
    exact ⟨(List.append_nil _).symm, rfl⟩
  | header line rest ih =>
    obtain ⟨hbody, hheaders⟩ := ih h
    rw [onHeader_body] at hbody
    exact ⟨hbody, hheaders⟩
  | body status data rest ih =>
    obtain ⟨hbody, hheaders⟩ := ih h
    refine ⟨?_, hheaders.trans (foldl_onHeader_congr rest.lines rfl)⟩
    rw [hbody]
    simp [Transfer.bytes, Transfer.bodies, Context.append]

theorem script_bytes (transfer : Transfer) (ctx : Context) :
    (script curl transfer ctx).bytes = transfer.bytes isSuccess := by
  induction transfer generalizing ctx with
  | done rc status errorBuffer => rfl
  | header line rest ih => exact ih (ctx.onHeader line)
  | body status data rest ih =>
    unfold script
    by_cases hstatus : isSuccess status
    · rw [if_pos hstatus, StreamScript.bytes, ih]
      simp [Transfer.bytes, Transfer.bodies, hstatus]
    · rw [if_neg hstatus, ih]
      simp [Transfer.bytes, Transfer.bodies, hstatus]

theorem script_last_eq_ok {transfer : Transfer} {ctx : Context} {response : HttpResponse}
    (h : (script curl transfer ctx).last = .ok response) :
    response.body = ctx.response.body ++ transfer.bytes (fun status => !isSuccess status) ∧
      response.headers = (transfer.lines.foldl Context.onHeader ctx).response.headers := by
  induction transfer generalizing ctx with
  | done rc status errorBuffer =>
    rw [conclude_eq_ok h]
    exact ⟨(List.append_nil _).symm, rfl⟩
  | header line rest ih =>
    obtain ⟨hbody, hheaders⟩ := ih h
    rw [onHeader_body] at hbody
    exact ⟨hbody, hheaders⟩
  | body status data rest ih =>
    unfold script at h
    by_cases hstatus : isSuccess status
    · rw [if_pos hstatus] at h
      obtain ⟨hbody, hheaders⟩ := ih h
      refine ⟨?_, hheaders⟩
      rw [hbody]
      simp [Transfer.bytes, Transfer.bodies, hstatus]
    · rw [if_neg hstatus] at h
      obtain ⟨hbody, hheaders⟩ := ih h
      refine ⟨?_, hheaders.trans (foldl_onHeader_congr rest.lines rfl)⟩
      rw [hbody]
      simp [Transfer.bytes, Transfer.bodies, hstatus, Context.append]

/-- What a client receives of a transfer. The bytes of a success are streamed in order and are in
no response; every other byte is in the body of the response. The headers are those of the last
response, found by name in any case. -/
theorem received (transfer : Transfer) :
    (script curl transfer .init).bytes = transfer.bytes isSuccess ∧
    (∀ response, (script curl transfer .init).last = .ok response →
      response.body = transfer.bytes fun status => !isSuccess status) ∧
    (∀ response, collect curl transfer .init = .ok response →
      response.body = transfer.bytes fun _ => true) ∧
    ∀ fields, LastBlock transfer.lines fields → ∀ response,
      (script curl transfer .init).last = .ok response ∨
        collect curl transfer .init = .ok response →
      ∀ key, response.headers.lookup key = lastNamed fields key := by
  refine ⟨script_bytes transfer .init, ?_, ?_, ?_⟩
  · exact fun response hlast => (script_last_eq_ok hlast).1
  · exact fun response hcollect => (collect_eq_ok hcollect).1
  · intro fields hfields response hresponse key
    have hheaders : response.headers =
        (transfer.lines.foldl Context.onHeader .init).response.headers :=
      hresponse.elim (fun hlast => (script_last_eq_ok hlast).2)
        (fun hcollect => (collect_eq_ok hcollect).2)
    rw [hheaders, hfields.lookup]

end CurlTransport

/-- A field after a provisional response, with its name in another case. -/
theorem CurlTransport.received_retryAfter :
    let field : HeaderLine :=
      { name := ascii "Retry-After", pad := [space], value := ascii "3", tail := [cr, lf]
        name_token := by decide +kernel, pad_blank := by decide +kernel
        value_front := by decide +kernel, value_back := by decide +kernel
        tail_end := by decide +kernel }
    let transfer := Transfer.header (ascii "HTTP/1.1 100 Continue\r\n")
      (.header (ascii "Retry-After: 9\r\n") (.header (ascii "HTTP/1.1 429 Too Many Requests\r\n")
        (.header field.render (.header [cr, lf] (.body 429 (ascii "busy") (.done .ok 429 []))))))
    ∃ response, (script (Curl.answering transfer) transfer .init).last = .ok response ∧
      response.body = ascii "busy" ∧
      response.headers.lookup (ascii "retry-after") = some (ascii "3") := by
  intro field transfer
  have hreceived := @received Unit (Curl.answering transfer) transfer
  obtain ⟨-, hbody, -, hheaders⟩ := hreceived
  have hfields : LastBlock transfer.lines [field] :=
    ⟨[ascii "HTTP/1.1 100 Continue\r\n", ascii "Retry-After: 9\r\n"],
      ascii "HTTP/1.1 429 Too Many Requests\r\n", by decide, rfl⟩
  refine ⟨_, rfl, ?_, ?_⟩
  · rw [hbody _ rfl]
    decide +kernel
  · rw [hheaders [field] hfields _ (Or.inl rfl)]
    decide +kernel

end GeminiCpp
