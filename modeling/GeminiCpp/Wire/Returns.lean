import GeminiCpp.Wire.Decode

/-! Which documents make a decoder throw. Every access of the decoders looks at the type
first, but one: the `thought` flag of a text part. -/
namespace GeminiCpp.Wire

/-- The function returns, with a value or with a parse error. -/
def ReturnsOrParseError {α : Type} (m : MayThrow (Result α)) : Prop :=
  ∃ r, m = .ok r ∧ ∀ e, r = .error e → e.code = .parse

/-- A string under `key`; anything else is read as `fallback`. -/
def textField (j : Json) (key : Bytes) (fallback : Bytes) : Bytes :=
  match j.find key with
  | some (.str s) => s
  | _ => fallback

def intField (j : Json) (key : Bytes) (fallback : Int64) : Int64 :=
  match j.find key with
  | some (.int v) => v
  | some (.uint v) => v.toInt64
  | _ => fallback

theorem stringOr_eq (j : Json) (key fallback : Bytes) :
    stringOr j key fallback = .ok (textField j key fallback) := by
  unfold stringOr textField
  cases j.find key with
  | none => rfl
  | some v => cases v <;> rfl

theorem intOr_eq (j : Json) (key : Bytes) (fallback : Int64) :
    intOr j key fallback = .ok (intField j key fallback) := by
  unfold intOr intField
  cases j.find key with
  | none => rfl
  | some v => cases v <;> rfl

/-- A text part whose `thought` is there but is not a boolean. -/
def badThought (part : Json) : Bool :=
  (findIf part (ascii "text") Json.isString).isSome &&
    match part.find (ascii "thought") with
    | none | some (.bool _) => false
    | some _ => true

/-- A part that is an error, and ends the parts before it. -/
def malformedPart (part : Json) : Bool :=
  !part.isObject ||
    ((findIf part (ascii "text") Json.isString).isNone &&
      match findIf part (ascii "functionCall") Json.isObject with
      | some call => textField call (ascii "name") [] = []
      | none => false)

/-- A bad flag is reached before a malformed part. -/
def partsThrow : List Json → Bool
  | [] => false
  | part :: rest => badThought part || (!malformedPart part && partsThrow rest)

def contentThrows (content : Json) : Bool := partsThrow (elemsUnder content (ascii "parts"))

def contentMalformed (content : Json) : Bool :=
  (elemsUnder content (ascii "parts")).any malformedPart

/-- The content of a candidate, null if it has none. -/
def contentOf (candidate : Json) : Json := (candidate.find (ascii "content")).getD .null

/-- A bad flag is reached before a candidate with a malformed part. -/
def candidatesThrow : List Json → Bool
  | [] => false
  | candidate :: rest =>
    contentThrows (contentOf candidate) ||
      (!contentMalformed (contentOf candidate) && candidatesThrow rest)

def responseThrows (response : Json) : Bool :=
  candidatesThrow (elemsUnder response (ascii "candidates"))

theorem find_of_not_object {j : Json} (h : j.isObject = false) (key : Bytes) :
    j.find key = none := by
  cases j <;> first | rfl | cases h

theorem valueBool_eq (part : Json) (htext : (findIf part (ascii "text") Json.isString).isSome) :
    (badThought part = false ∧ ∃ b, part.valueBool (ascii "thought") false = .ok b) ∨
      badThought part = true ∧ ∃ x, part.valueBool (ascii "thought") false = .error x := by
  unfold badThought Json.valueBool
  rw [htext]
  rcases part.find (ascii "thought") with _ | v
  · exact Or.inl ⟨rfl, false, rfl⟩
  · cases v with
    | bool b => exact Or.inl ⟨rfl, b, rfl⟩
    | _ => exact Or.inr ⟨rfl, _, rfl⟩

/-- The four ways `parse_part` can go. -/
inductive PartOutcome (part : Json) : MayThrow (Result Part) → Prop
  | thrown {x : Exn} (h : badThought part = true) : PartOutcome part (.error x)
  | value {p : Part} (h : badThought part = false) (hm : malformedPart part = false) :
    PartOutcome part (.ok (.ok p))
  | malformed {e : Error} (h : badThought part = false) (hm : malformedPart part = true)
    (he : e.code = .parse) (hs : e.message ≠ unsupportedPartKind) : PartOutcome part (.ok (.error e))
  | skipped {e : Error} (h : badThought part = false) (hm : malformedPart part = false)
    (he : e.code = .parse) (hs : e.message = unsupportedPartKind) : PartOutcome part (.ok (.error e))

theorem findIf_eq_some {j : Json} {key : Bytes} {test : Json → Bool} {v : Json}
    (h : findIf j key test = some v) : j.find key = some v ∧ test v = true :=
  Option.filter_eq_some_iff.mp h

theorem parsePart_outcome (part : Json) : PartOutcome part (parsePart part) := by
  unfold parsePart
  cases hobject : part.isObject with
  | false =>
    have hbad : badThought part = false := by
      simp [badThought, findIf, find_of_not_object hobject]
    have hmalformed : malformedPart part = true := by simp [malformedPart, hobject]
    exact .malformed hbad hmalformed rfl (by decide)
  | true =>
    simp only [stringOr_eq, Bool.not_true, Bool.false_eq_true, if_false, MayThrow.ok_bind]
    cases htext : findIf part (ascii "text") Json.isString with
    | some text =>
      have hmalformed : malformedPart part = false := by simp [malformedPart, hobject, htext]
      obtain ⟨t, rfl⟩ : ∃ t, text = .str t := by
        have hstring := (findIf_eq_some htext).2
        cases text with
        | str t => exact ⟨t, rfl⟩
        | _ => cases hstring
      simp only [Json.getString, MayThrow.ok_bind]
      rcases valueBool_eq part (by rw [htext]; rfl) with ⟨hbad, b, hb⟩ | ⟨hbad, x, hx⟩
      · rw [hb]
        exact .value hbad hmalformed
      · rw [hx]
        exact .thrown hbad
    | none =>
      have hbad : badThought part = false := by simp [badThought, htext]
      cases hcall : findIf part (ascii "functionCall") Json.isObject with
      | some call =>
        simp only [parseFunctionCall, stringOr_eq, MayThrow.ok_bind, MayThrow.pure_eq]
        by_cases hname : textField call (ascii "name") [] = []
        · rw [if_pos hname]
          have hmalformed : malformedPart part = true := by
            simp [malformedPart, htext, hcall, hname]
          exact .malformed hbad hmalformed rfl (by decide)
        · rw [if_neg hname]
          have hmalformed : malformedPart part = false := by
            simp [malformedPart, hobject, hcall, hname]
          exact .value hbad hmalformed
      | none =>
        have hmalformed : malformedPart part = false := by
          simp [malformedPart, hobject, hcall]
        cases findIf part (ascii "functionResponse") Json.isObject with
        | some resp => 
          simp only [parseFunctionResponse, stringOr_eq, MayThrow.ok_bind, MayThrow.pure_eq]
          exact .value hbad hmalformed
        | none => exact .skipped hbad hmalformed rfl rfl

theorem PartOutcome.returns_iff {part : Json} {m : MayThrow (Result Part)}
    (h : PartOutcome part m) : ReturnsOrParseError m ↔ badThought part = false := by
  cases h with
  | thrown h => simp [ReturnsOrParseError, h]
  | value h => simp [ReturnsOrParseError, h]
  | malformed h _ he => simp [ReturnsOrParseError, h, he]
  | skipped h _ he => simp [ReturnsOrParseError, h, he]

/-- How a loop over JSON values goes: it throws, fails, or returns. -/
inductive LoopOutcome {α : Type} (throws fails : Bool) : MayThrow (Result α) → Prop
  | thrown {x : Exn} (h : throws = true) : LoopOutcome throws fails (.error x)
  | failed {e : Error} (h : throws = false) (hf : fails = true) (he : e.code = .parse) :
    LoopOutcome throws fails (.ok (.error e))
  | value {a : α} (h : throws = false) (hf : fails = false) : LoopOutcome throws fails (.ok (.ok a))

theorem LoopOutcome.returns_iff {α : Type} {throws fails : Bool} {m : MayThrow (Result α)}
    (h : LoopOutcome throws fails m) : ReturnsOrParseError m ↔ throws = false := by
  cases h with
  | thrown h => simp [ReturnsOrParseError, h]
  | failed h _ he => simp [ReturnsOrParseError, h, he]
  | value h => simp [ReturnsOrParseError, h]

theorem LoopOutcome.code_eq {α : Type} {throws fails : Bool} {m : MayThrow (Result α)}
    (h : LoopOutcome throws fails m) : ∀ e, m = .ok (.error e) → e.code = .parse := by
  intro e he
  cases h with
  | thrown => cases he
  | failed _ _ hcode =>
    obtain rfl := Except.error.inj (Except.ok.inj he)
    exact hcode
  | value => cases he

/-- Mapping over the value changes nothing of how a loop went. -/
theorem LoopOutcome.map {α β : Type} {throws fails : Bool} {m : MayThrow (Result α)}
    (h : LoopOutcome throws fails m) (f : α → β) :
    LoopOutcome throws fails (m >>= fun r => .ok (r.map f)) := by
  cases h with
  | thrown h => exact .thrown h
  | failed h hf he => exact .failed h hf he
  | value h hf => exact .value h hf

theorem parseParts_outcome (parts : List Json) :
    LoopOutcome (partsThrow parts) (parts.any malformedPart) (parseParts parts) := by
  induction parts with
  | nil => exact .value rfl rfl
  | cons part rest ih =>
    unfold parseParts
    rw [partsThrow, List.any_cons]
    have hpart := parsePart_outcome part
    generalize parsePart part = outcome at hpart
    cases hpart with
    | thrown h =>
      rw [h, Bool.true_or]
      exact .thrown rfl
    | value h hm =>
      rw [h, hm]
      exact ih.map _
    | malformed h hm he hs =>
      rw [h, hm]
      simp only [MayThrow.ok_bind, if_neg hs]
      exact .failed rfl rfl he
    | skipped h hm he hs =>
      rw [h, hm]
      simp only [MayThrow.ok_bind, if_pos hs]
      exact ih

theorem parseContent_outcome (content : Json) :
    LoopOutcome (contentThrows content) (contentMalformed content) (parseContent content) := by
  unfold parseContent contentThrows contentMalformed
  cases hobject : content.isObject with
  | false =>
    have helems : elemsUnder content (ascii "parts") = [] := by
      unfold elemsUnder
      rw [find_of_not_object hobject]
    rw [helems]
    exact .value rfl rfl
  | true =>
    simp only [stringOr_eq, Bool.not_true, Bool.false_eq_true, if_false, MayThrow.ok_bind,
      MayThrow.pure_eq, elemsUnder]
    rcases content.find (ascii "parts") with _ | parts
    · exact .value rfl rfl
    · cases parts with
      | arr elems => exact (parseParts_outcome elems).map _
      | _ => exact .value rfl rfl

theorem parseCandidate_outcome (candidate : Json) (position : Int64) :
    LoopOutcome (contentThrows (contentOf candidate)) (contentMalformed (contentOf candidate))
      (parseCandidate candidate position) := by
  unfold parseCandidate contentOf
  simp only [stringOr_eq, intOr_eq, MayThrow.ok_bind, MayThrow.pure_eq]
  cases candidate.find (ascii "content") with
  | none => exact .value rfl rfl
  | some content => exact (parseContent_outcome content).map _

theorem parseCandidates_outcome (position : Int64) (candidates : List Json) :
    LoopOutcome (candidatesThrow candidates)
      (candidates.any fun candidate => contentMalformed (contentOf candidate))
      (parseCandidates position candidates) := by
  induction candidates generalizing position with
  | nil => exact .value rfl rfl
  | cons candidate rest ih =>
    unfold parseCandidates
    rw [candidatesThrow, List.any_cons]
    have hcandidate := parseCandidate_outcome candidate position
    generalize parseCandidate candidate position = outcome at hcandidate
    cases hcandidate with
    | thrown h =>
      rw [h, Bool.true_or]
      exact .thrown rfl
    | failed h hf he =>
      rw [h, hf]
      exact .failed rfl rfl he
    | value h hf =>
      rw [h, hf]
      exact (ih (position + 1)).map _

/-- What is read after the candidates is read from fields of the right type. -/
theorem parseResponseRest_ok (response : Json) (candidates : List Candidate) :
    ∃ r, parseResponseRest response candidates = .ok (.ok r) ∧ r.candidates = candidates := by
  unfold parseResponseRest parseUsage
  simp only [stringOr_eq, intOr_eq, MayThrow.ok_bind, MayThrow.pure_eq]
  cases findIf response (ascii "usageMetadata") Json.isObject <;>
    cases findIf response (ascii "promptFeedback") Json.isObject <;> exact ⟨_, rfl, rfl⟩

theorem parseGenerateResponse_outcome (response : Json) :
    ∃ fails, LoopOutcome (responseThrows response) fails (parseGenerateResponse response) := by
  unfold parseGenerateResponse responseThrows
  cases hobject : response.isObject with
  | false =>
    have helems : elemsUnder response (ascii "candidates") = [] := by
      unfold elemsUnder
      rw [find_of_not_object hobject]
    rw [helems]
    exact ⟨true, .failed rfl rfl rfl⟩
  | true =>
    simp only [Bool.not_true, Bool.false_eq_true, if_false]
    have hcandidates := parseCandidates_outcome 0 (elemsUnder response (ascii "candidates"))
    generalize parseCandidates 0 (elemsUnder response (ascii "candidates")) = outcome at hcandidates
    cases hcandidates with
    | thrown h => exact ⟨true, .thrown h⟩
    | failed h hf he => exact ⟨true, .failed h rfl he⟩
    | @value candidates h hf =>
      obtain ⟨r, hr, -⟩ := parseResponseRest_ok response candidates
      rw [MayThrow.ok_bind]
      simp only [hr]
      exact ⟨false, .value h rfl⟩

theorem parseGenerateResponse_returns_iff (response : Json) :
    ReturnsOrParseError (parseGenerateResponse response) ↔ responseThrows response = false := by
  obtain ⟨fails, h⟩ := parseGenerateResponse_outcome response
  exact h.returns_iff

/-- A body that does not decode is a parse error. -/
theorem code_of_parseResponseText {text : JsonText} {body : Bytes} {e : Error}
    (h : parseResponseText text body = .ok (.error e)) : e.code = .parse := by
  unfold parseResponseText at h
  cases hbody : text.parse body with
  | none =>
    rw [hbody] at h
    cases h
    rfl
  | some j =>
    rw [hbody] at h
    obtain ⟨fails, houtcome⟩ := parseGenerateResponse_outcome j
    exact houtcome.code_eq e h

theorem mapM_ok {α β : Type} {f : α → MayThrow β} (hf : ∀ a, ∃ b, f a = .ok b) (l : List α) :
    ∃ bs, l.mapM f = .ok bs := by
  induction l with
  | nil => exact ⟨[], rfl⟩
  | cons a l ih =>
    obtain ⟨b, hb⟩ := hf a
    obtain ⟨bs, hbs⟩ := ih
    exact ⟨b :: bs, by rw [List.mapM_cons, hb, hbs]; rfl⟩

theorem foldlM_ok {α β : Type} {f : β → α → MayThrow β} (hf : ∀ b a, ∃ b', f b a = .ok b')
    (l : List α) (b : β) : ∃ b', l.foldlM f b = .ok b' := by
  induction l generalizing b with
  | nil => exact ⟨b, rfl⟩
  | cons a l ih =>
    obtain ⟨b₁, hb₁⟩ := hf b a
    obtain ⟨b', hb'⟩ := ih b₁
    exact ⟨b', by rw [List.foldlM_cons, hb₁]; exact hb'⟩

theorem mapM_getString_ok (l : List Json) :
    ∃ names, (l.filter Json.isString).mapM Json.getString = .ok names := by
  induction l with
  | nil => exact ⟨[], rfl⟩
  | cons j l ih =>
    obtain ⟨names, hnames⟩ := ih
    cases j with
    | str s =>
      refine ⟨s :: names, ?_⟩
      rw [List.filter_cons_of_pos rfl, List.mapM_cons, hnames]
      rfl
    | _ => exact ⟨names, by rw [List.filter_cons_of_neg (by simp [Json.isString])]; exact hnames⟩

theorem parseModelInfo_ok (model : Json) : ∃ info, parseModelInfo model = .ok info := by
  unfold parseModelInfo
  simp only [stringOr_eq, intOr_eq, MayThrow.ok_bind]
  obtain ⟨names, hnames⟩ := mapM_getString_ok (elemsUnder model (ascii "supportedGenerationMethods"))
  rw [hnames]
  exact ⟨_, rfl⟩

theorem parseModelList_returns (text : JsonText) (body : Bytes) :
    ReturnsOrParseError (parseModelList text body) := by
  have failed : ReturnsOrParseError (.ok (.error (makeError .parse
      (ascii "invalid JSON in model list"))) : MayThrow (Result (List ModelInfo × Bytes))) :=
    ⟨_, rfl, fun e h => by rw [← Except.error.inj h]; rfl⟩
  unfold parseModelList
  cases text.parse body with
  | none => exact failed
  | some response =>
    by_cases hobject : response.isObject = true
    · obtain ⟨infos, hinfos⟩ := mapM_ok parseModelInfo_ok (elemsUnder response (ascii "models"))
      simp only [hobject, Bool.not_true, Bool.false_eq_true, if_false, hinfos, stringOr_eq,
        MayThrow.ok_bind, MayThrow.pure_eq]
      exact ⟨_, rfl, fun e h => by cases h⟩
    · simp only [Bool.not_eq_true] at hobject
      simp only [hobject, Bool.not_false, if_true, MayThrow.pure_eq]
      exact failed

theorem parseErrorObject_ok (error : Json) (fallback : Bytes) :
    ∃ r, parseErrorObject error fallback = .ok r := by
  unfold parseErrorObject
  simp only [stringOr_eq, MayThrow.ok_bind]
  have hdetail : ∀ hint detail, ∃ hint', applyDetail hint detail = .ok hint' := by
    intro hint detail
    unfold applyDetail
    simp only [stringOr_eq, MayThrow.ok_bind]
    split <;> exact ⟨_, rfl⟩
  obtain ⟨hint, hhint⟩ := foldlM_ok hdetail (elemsUnder error (ascii "details")) none
  rw [hhint]
  exact ⟨_, rfl⟩

theorem parseApiError_ok (text : JsonText) (httpStatus : ℤ) (body : Bytes)
    (headers : HttpHeaders) : ∃ e, parseApiError text httpStatus body headers = .ok e := by
  unfold parseApiError
  rcases errorDocument text body with _ | document
  · by_cases hbody : body = [] <;> simp [hbody]
  · cases document with
    | obj fields =>
      simp only []
      cases findIf (.obj fields) (ascii "error") Json.isObject with
      | none => exact ⟨_, rfl⟩
      | some e =>
        obtain ⟨r, hr⟩ := parseErrorObject_ok e (ascii "HTTP " ++ toDecimal httpStatus)
        simp only [hr, MayThrow.ok_bind]
        exact ⟨_, rfl⟩
    | _ => by_cases hbody : body = [] <;> simp [hbody]

/-- The decoders of a 2xx body return unless a text part with a bad `thought` flag is
reached; those of a model list and of an error always return. -/
theorem decoders_return_iff (text : JsonText) :
    (∀ part, ReturnsOrParseError (parsePart part) ↔ badThought part = false) ∧
    (∀ content, ReturnsOrParseError (parseContent content) ↔ contentThrows content = false) ∧
    (∀ response, ReturnsOrParseError (parseGenerateResponse response) ↔
      responseThrows response = false) ∧
    (∀ body, ReturnsOrParseError (parseResponseText text body) ↔
      ∀ response, text.parse body = some response → responseThrows response = false) ∧
    (∀ body, ReturnsOrParseError (parseModelList text body)) ∧
    ∀ httpStatus body headers, ∃ e, parseApiError text httpStatus body headers = .ok e := by
  refine ⟨fun part => (parsePart_outcome part).returns_iff,
    fun content => (parseContent_outcome content).returns_iff,
    parseGenerateResponse_returns_iff, fun body => ?_, parseModelList_returns text,
    parseApiError_ok text⟩
  unfold parseResponseText
  cases text.parse body with
  | none =>
    constructor
    · intro _ response h
      cases h
    · intro _
      refine ⟨_, rfl, fun e h => ?_⟩
      rw [← Except.error.inj h]
      rfl
  | some response =>
    rw [parseGenerateResponse_returns_iff]
    exact ⟨fun h response' hr => by cases hr; exact h, fun h => h response rfl⟩

/-- A text part whose `thought` is null. -/
theorem parseGenerateResponse_throws :
    let part := Json.object [(ascii "text", .str (ascii "hi")), (ascii "thought", .null)]
    let content := Json.object [(ascii "parts", .arr [part])]
    let response := Json.object [(ascii "candidates",
      .arr [Json.object [(ascii "content", content)]])]
    ¬ ReturnsOrParseError (parseGenerateResponse response) := by
  intro part content response h
  rw [parseGenerateResponse_returns_iff] at h
  exact absurd h (by decide)

end GeminiCpp.Wire
