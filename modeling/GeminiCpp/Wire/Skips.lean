import GeminiCpp.Wire.Returns

/-! Which parts of a content are skipped. The decoder takes a known key with a value of the wrong
type for no key at all, so more than the unknown kinds falls through to the skipped ones. -/
namespace GeminiCpp.Wire

def carriesKnownKey (part : Json) : Bool :=
  (part.find (ascii "text")).isSome || (part.find (ascii "functionCall")).isSome ||
    (part.find (ascii "functionResponse")).isSome

/-- A part that is no object, or has a known key whose value cannot be decoded. -/
def malformedKnown (part : Json) : Bool :=
  !part.isObject || (part.find (ascii "text")).any (fun text => !text.isString) ||
    (part.find (ascii "functionCall")).any
      (fun call => !call.isObject || textField call (ascii "name") [] = []) ||
    (part.find (ascii "functionResponse")).any (fun response => !response.isObject)

/-- The parts of a content. -/
def partsOf (content : Json) : List Json := elemsUnder content (ascii "parts")

/-- The content fails if and only if it has a malformed part; if it does not fail, its parts are
those with a known key, decoded in order. -/
structure SkipsOnlyUnknown (content : Json) : Prop where
  fails : (∃ e, parseContent content = .ok (.error e)) ↔
    (partsOf content).any malformedKnown = true
  decodes : (partsOf content).any malformedKnown = false →
    ∃ c, parseContent content = .ok (.ok c) ∧
      ((partsOf content).filter carriesKnownKey).map parsePart = c.parts.map fun p => .ok (.ok p)

/-- A value that is not of the wrong type is taken. -/
theorem findIf_eq_find {j : Json} {key : Bytes} {test : Json → Bool}
    (h : (j.find key).any (fun v => !test v) = false) : findIf j key test = j.find key := by
  unfold findIf
  cases hfind : j.find key with
  | none => rfl
  | some v =>
    rw [hfind, Option.any_some, Bool.not_eq_false'] at h
    rw [Option.filter_some, if_pos h]

/-- What the decoder itself treats as an error is malformed. -/
theorem malformedKnown_of_malformedPart {part : Json} (h : malformedPart part = true) :
    malformedKnown part = true := by
  unfold malformedPart at h
  unfold malformedKnown
  cases hobject : part.isObject with
  | false => simp
  | true =>
    rw [hobject, Bool.not_true, Bool.false_or, Bool.and_eq_true] at h
    cases hcall : findIf part (ascii "functionCall") Json.isObject with
    | none =>
      rw [hcall] at h
      exact absurd h.2 Bool.false_ne_true
    | some call =>
      rw [hcall] at h
      obtain ⟨hfind, -⟩ := findIf_eq_some hcall
      have hname : textField call (ascii "name") [] = [] := of_decide_eq_true h.2
      simp [hfind, hname]

/-- A part that is not malformed is decoded if it has a known key, and otherwise skipped. -/
theorem parsePart_of_wellformed {part : Json} (h : malformedKnown part = false)
    (hthought : badThought part = false) :
    (carriesKnownKey part = true ∧ ∃ p, parsePart part = .ok (.ok p)) ∨
      (carriesKnownKey part = false ∧
        ∃ e, parsePart part = .ok (.error e) ∧ e.message = unsupportedPartKind) := by
  unfold malformedKnown at h
  simp only [Bool.or_eq_false_iff, Bool.not_eq_false'] at h
  obtain ⟨⟨⟨hobject, htext⟩, hcall⟩, hresponse⟩ := h
  have htext' := findIf_eq_find htext
  have hcall' : findIf part (ascii "functionCall") Json.isObject =
      part.find (ascii "functionCall") := by
    apply findIf_eq_find
    cases hfind : part.find (ascii "functionCall") with
    | none => rfl
    | some call =>
      rw [hfind, Option.any_some, Bool.or_eq_false_iff] at hcall
      exact hcall.1
  have hresponse' := findIf_eq_find hresponse
  unfold parsePart carriesKnownKey
  simp only [hobject, stringOr_eq, Bool.not_true, Bool.false_eq_true, if_false, MayThrow.ok_bind]
  cases hfind : part.find (ascii "text") with
  | some text =>
    have hsome : (findIf part (ascii "text") Json.isString).isSome := by
      rw [htext', hfind]
      rfl
    rw [hfind] at htext'
    have hstring := (findIf_eq_some htext').2
    obtain ⟨t, rfl⟩ : ∃ t, text = .str t := by
      cases text with
      | str t => exact ⟨t, rfl⟩
      | _ => cases hstring
    rcases valueBool_eq part hsome with ⟨-, b, hb⟩ | ⟨hbad, -⟩
    · rw [htext']
      simp only [Json.getString, MayThrow.ok_bind, hb]
      exact Or.inl ⟨rfl, _, rfl⟩
    · rw [hbad] at hthought
      cases hthought
  | none =>
    rw [htext', hfind, hcall']
    cases hfindCall : part.find (ascii "functionCall") with
    | some call =>
      rw [hfindCall, Option.any_some, Bool.or_eq_false_iff] at hcall
      have hname : textField call (ascii "name") [] ≠ [] := of_decide_eq_false hcall.2
      simp only [parseFunctionCall, stringOr_eq, MayThrow.ok_bind, MayThrow.pure_eq, if_neg hname]
      exact Or.inl ⟨rfl, _, rfl⟩
    | none =>
      rw [hresponse']
      cases part.find (ascii "functionResponse") with
      | some response =>
        simp only [parseFunctionResponse, stringOr_eq, MayThrow.ok_bind, MayThrow.pure_eq]
        exact Or.inl ⟨rfl, _, rfl⟩
      | none => exact Or.inr ⟨rfl, _, rfl, rfl⟩

/-- Without a malformed part the loop decodes the known parts, in order. -/
theorem parseParts_of_wellformed {parts : List Json} (h : parts.any malformedKnown = false)
    (hthrow : partsThrow parts = false) :
    ∃ ps, parseParts parts = .ok (.ok ps) ∧
      (parts.filter carriesKnownKey).map parsePart = ps.map fun p => .ok (.ok p) := by
  induction parts with
  | nil => exact ⟨[], rfl, rfl⟩
  | cons part rest ih =>
    rw [List.any_cons, Bool.or_eq_false_iff] at h
    rw [partsThrow, Bool.or_eq_false_iff, Bool.and_eq_false_iff, Bool.not_eq_false'] at hthrow
    have hnot : malformedPart part ≠ true := by
      intro hmalformed
      rw [malformedKnown_of_malformedPart hmalformed] at h
      cases h.1
    obtain ⟨ps, hrest, hdecoded⟩ := ih h.2 (hthrow.2.resolve_left hnot)
    rcases parsePart_of_wellformed h.1 hthrow.1 with ⟨hknown, p, hpart⟩ | ⟨hknown, e, hpart, he⟩
    · refine ⟨p :: ps, ?_, ?_⟩
      · unfold parseParts
        rw [hpart, hrest]
        rfl
      · rw [List.filter_cons_of_pos hknown, List.map_cons, List.map_cons, hpart, hdecoded]
    · refine ⟨ps, ?_, ?_⟩
      · unfold parseParts
        rw [hpart]
        simp only [MayThrow.ok_bind, if_pos he]
        exact hrest
      · rw [List.filter_cons_of_neg (by simp [hknown]), hdecoded]

theorem parseContent_of_wellformed {content : Json}
    (h : (partsOf content).any malformedKnown = false)
    (hthrow : contentThrows content = false) :
    ∃ c, parseContent content = .ok (.ok c) ∧
      ((partsOf content).filter carriesKnownKey).map parsePart =
        c.parts.map fun p => .ok (.ok p) := by
  obtain ⟨ps, hparts, hdecoded⟩ := parseParts_of_wellformed h hthrow
  unfold parseContent
  cases hobject : content.isObject with
  | false =>
    refine ⟨_, rfl, ?_⟩
    unfold partsOf elemsUnder
    rw [find_of_not_object hobject]
    rfl
  | true =>
    simp only [stringOr_eq, Bool.not_true, Bool.false_eq_true, if_false, MayThrow.ok_bind,
      MayThrow.pure_eq]
    unfold partsOf elemsUnder at hparts hdecoded ⊢
    cases hfind : content.find (ascii "parts") with
    | none => exact ⟨_, rfl, rfl⟩
    | some parts =>
      rw [hfind] at hparts hdecoded
      cases parts with
      | arr elems =>
        have hparts' : parseParts elems = .ok (.ok ps) := hparts
        simp only [hparts', MayThrow.ok_bind]
        exact ⟨_, rfl, hdecoded⟩
      | _ => exact ⟨_, rfl, rfl⟩

/-- When exactly unknown kinds are skipped: no text with a `thought` that is not a boolean is met
before the first part that is an error to the decoder, and there is such a part if any part is
malformed. -/
theorem skipsOnlyUnknown_iff (content : Json) :
    SkipsOnlyUnknown content ↔
      partsThrow (partsOf content) = false ∧
        ((partsOf content).any malformedKnown = true →
          (partsOf content).any malformedPart = true) := by
  have houtcome := parseContent_outcome content
  have hdecodes := @parseContent_of_wellformed content
  change LoopOutcome (partsThrow (partsOf content)) ((partsOf content).any malformedPart)
    (parseContent content) at houtcome
  unfold contentThrows at hdecodes
  change _ → partsThrow (partsOf content) = false → _ at hdecodes
  have hany : (partsOf content).any malformedPart = true →
      (partsOf content).any malformedKnown = true := by
    intro hpart
    obtain ⟨part, hmem, hmalformed⟩ := List.any_eq_true.mp hpart
    exact List.any_eq_true.mpr ⟨part, hmem, malformedKnown_of_malformedPart hmalformed⟩
  constructor
  · intro h
    cases hmalformed : (partsOf content).any malformedKnown with
    | true =>
      obtain ⟨e, he⟩ := h.fails.mpr hmalformed
      rw [he] at houtcome
      cases houtcome with
      | failed hthrow hfails _ => exact ⟨hthrow, fun _ => hfails⟩
    | false =>
      obtain ⟨c, hc, -⟩ := h.decodes hmalformed
      rw [hc] at houtcome
      cases houtcome with
      | value hthrow _ => exact ⟨hthrow, by simp⟩
  · intro h
    obtain ⟨hthrow, himp⟩ := h
    refine ⟨?_, fun hwell => hdecodes hwell hthrow⟩
    generalize parseContent content = result at houtcome ⊢
    cases houtcome with
    | thrown h => rw [h] at hthrow; cases hthrow
    | failed _ hfails _ =>
      constructor
      · exact fun _ => hany hfails
      · exact fun _ => ⟨_, rfl⟩
    | value _ hfails =>
      constructor
      · intro h
        obtain ⟨e, he⟩ := h
        cases he
      · intro hmalformed
        rw [himp hmalformed] at hfails
        cases hfails

/-- A text that is a number. It is skipped like an unknown kind. -/
def numberText : Json :=
  Json.object [(ascii "parts", .arr [Json.object [(ascii "text", .int 5)]])]

theorem numberText_skipped :
    ¬SkipsOnlyUnknown numberText ∧
      parseContent numberText = .ok (.ok { role := .model, parts := [] }) := by
  refine ⟨?_, rfl⟩
  intro h
  obtain ⟨e, he⟩ := h.fails.mpr (by decide)
  cases he

end GeminiCpp.Wire
