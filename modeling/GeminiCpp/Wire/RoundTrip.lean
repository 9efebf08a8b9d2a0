import GeminiCpp.Wire.Echo

/-! Decoding an encoded content gives the content back, and a content that was decoded is one
that the encoder keeps. -/
namespace GeminiCpp.Wire

/-- Parts that can be encoded without a loss: a call has a name, and only text is a thought. -/
structure Codable (part : Part) : Prop where
  named : ∀ call, part.value = .call call → call.name ≠ []
  thought : part.thought = true → ∃ t, part.value = .text t

theorem isObject_set (j : Json) (key : Bytes) (v : Json) : (j.set key v).isObject = true := by
  cases j <;> rfl

theorem isObject_object (fields : List (Bytes × Json)) :
    (Json.object fields).isObject = true := by
  have hfold : ∀ j : Json, j.isObject = true →
      (fields.foldl (fun j kv => j.set kv.1 kv.2) j).isObject = true := by
    induction fields with
    | nil => exact fun j hj => hj
    | cons kv fields ih => exact fun j _ => ih _ (isObject_set ..)
  exact hfold (.obj []) rfl

theorem functionResponseToJson_fields (r : FunctionResponse) :
    textField (functionResponseToJson r) (ascii "name") [] = r.name ∧
      (functionResponseToJson r).find (ascii "response") = some r.response ∧
      textField (functionResponseToJson r) (ascii "id") [] = r.id :=
  namedValue_fields (by decide) (by decide) r.name r.id r.response rfl

theorem isObject_unless {j : Json} (hj : j.isObject = true) (key v : Bytes) :
    (if v = [] then j else j.set key (.str v)).isObject = true := by
  by_cases hv : v = []
  · rwa [if_pos hv]
  · rw [if_neg hv]
    exact isObject_set ..

theorem parseFunctionCall_callToJson (c : FunctionCall) :
    (callToJson c).isObject = true ∧ parseFunctionCall (callToJson c) = .ok c := by
  constructor
  · unfold callToJson
    exact isObject_unless (isObject_object _) ..
  · obtain ⟨hname, hargs, hid⟩ := callToJson_fields c
    simp only [parseFunctionCall, stringOr_eq, MayThrow.ok_bind, MayThrow.pure_eq, hname, hargs,
      hid, Option.getD_some]

theorem parseFunctionResponse_toJson (r : FunctionResponse) :
    (functionResponseToJson r).isObject = true ∧
      parseFunctionResponse (functionResponseToJson r) = .ok r := by
  constructor
  · unfold functionResponseToJson
    exact isObject_unless (isObject_object _) ..
  · obtain ⟨hname, hresponse, hid⟩ := functionResponseToJson_fields r
    simp only [parseFunctionResponse, stringOr_eq, MayThrow.ok_bind, MayThrow.pure_eq, hname,
      hresponse, hid, Option.getD_some]

/-- What `parse_part` looks at in an encoded part. -/
theorem partToJson_fields (part : Part) :
    (partToJson part).isObject = true ∧
      textField (partToJson part) (ascii "thoughtSignature") [] = part.thoughtSignature ∧
      match part.value with
      | .text t =>
        (partToJson part).find (ascii "text") = some (.str t) ∧
          (partToJson part).find (ascii "thought") =
            if part.thought then some (.bool true) else none
      | .call c =>
        (partToJson part).find (ascii "text") = none ∧
          (partToJson part).find (ascii "functionCall") = some (callToJson c)
      | .response r =>
        (partToJson part).find (ascii "text") = none ∧
          (partToJson part).find (ascii "functionCall") = none ∧
          (partToJson part).find (ascii "functionResponse") = some (functionResponseToJson r) := by
  refine ⟨?_, (carries_partToJson part).signature, ?_⟩
  · apply isObject_unless
    cases part.value with
    | text t => cases part.thought <;> rfl
    | _ => rfl
  · obtain ⟨value, thought, signature⟩ := part
    unfold partToJson
    cases value with
    | text t =>
      dsimp only
      rw [find_unless (by decide), find_unless (by decide)]
      cases thought with
      | true =>
        rw [if_pos rfl, if_pos rfl]
        refine ⟨?_, Json.find_set_self ..⟩
        exact (Json.find_set_ne (by decide) _ _).trans (Json.find_set_self ..)
      | false =>
        rw [if_neg Bool.false_ne_true, if_neg Bool.false_ne_true]
        exact ⟨Json.find_set_self .., Json.find_set_ne (by decide) .null _⟩
    | call c =>
      dsimp only
      rw [find_unless (by decide), find_unless (by decide)]
      exact ⟨Json.find_set_ne (by decide) .null _, Json.find_set_self ..⟩
    | response r =>
      dsimp only
      rw [find_unless (by decide), find_unless (by decide), find_unless (by decide)]
      exact ⟨Json.find_set_ne (by decide) .null _, Json.find_set_ne (by decide) .null _,
        Json.find_set_self ..⟩

theorem findIf_of_find {j v : Json} {key : Bytes} {test : Json → Bool} (h : j.find key = some v)
    (hv : test v = true) : findIf j key test = some v := by
  unfold findIf
  rw [h, Option.filter_some_pos hv]

theorem findIf_of_none {j : Json} {key : Bytes} (test : Json → Bool) (h : j.find key = none) :
    findIf j key test = none := by
  unfold findIf
  rw [h, Option.filter_none]

theorem parsePart_partToJson {part : Part} (h : Codable part) :
    parsePart (partToJson part) = .ok (.ok part) := by
  obtain ⟨hobject, hsignature, hfields⟩ := partToJson_fields part
  unfold parsePart
  simp only [hobject, Bool.not_true, Bool.false_eq_true, if_false, stringOr_eq, MayThrow.ok_bind,
    hsignature]
  obtain ⟨value, thought, signature⟩ := part
  generalize partToJson { value, thought, thoughtSignature := signature } = j at hfields
  have hplain : (∀ t, value ≠ .text t) → thought = false := by
    intro hvalue
    rw [← Bool.not_eq_true]
    intro hthought
    obtain ⟨t, ht⟩ := h.thought hthought
    exact hvalue t ht
  cases value with
  | text t =>
    obtain ⟨htext, hthought⟩ := hfields
    rw [findIf_of_find htext rfl]
    simp only [Json.getString, MayThrow.ok_bind, Json.valueBool, hthought]
    cases thought <;> rfl
  | call c =>
    obtain ⟨htext, hcall⟩ := hfields
    obtain ⟨hcallObject, hparse⟩ := parseFunctionCall_callToJson c
    obtain rfl := hplain (by simp)
    rw [findIf_of_none _ htext, findIf_of_find hcall hcallObject]
    simp only [hparse, MayThrow.ok_bind, if_neg (h.named c rfl), MayThrow.pure_eq]
  | response r =>
    obtain ⟨htext, hcall, hresponse⟩ := hfields
    obtain ⟨hresponseObject, hparse⟩ := parseFunctionResponse_toJson r
    obtain rfl := hplain (by simp)
    rw [findIf_of_none _ htext, findIf_of_none _ hcall, findIf_of_find hresponse hresponseObject]
    simp only [hparse, MayThrow.ok_bind, MayThrow.pure_eq]

theorem parseParts_map_partToJson {parts : List Part} (h : ∀ part ∈ parts, Codable part) :
    parseParts (parts.map partToJson) = .ok (.ok parts) := by
  induction parts with
  | nil => rfl
  | cons part parts ih =>
    have hpart := parsePart_partToJson (h part (List.mem_cons_self ..))
    have hparts := ih fun p hp => h p (List.mem_cons_of_mem _ hp)
    rw [List.map_cons, parseParts, hpart, MayThrow.ok_bind, hparts]
    rfl

theorem role_of_toString (role : Role) :
    (if role.toString = ascii "user" then Role.user else Role.model) = role := by
  cases role <;> rfl

theorem parseContent_contentToJson {content : Content} (h : ∀ part ∈ content.parts, Codable part) :
    parseContent (contentToJson content) = .ok (.ok content) := by
  have hobject : (contentToJson content).isObject = true := isObject_object _
  have hrole : textField (contentToJson content) (ascii "role") (ascii "model") =
      content.role.toString := by
    unfold contentToJson textField
    simp only [Json.object, List.foldl_cons, List.foldl_nil]
    rw [Json.find_set_ne (by decide), Json.find_set_self]
  unfold parseContent
  simp only [hobject, Bool.not_true, Bool.false_eq_true, if_false, stringOr_eq, MayThrow.ok_bind,
    hrole, role_of_toString, find_parts, parseParts_map_partToJson h]
  rfl

/-- A part that was decoded can be encoded. -/
theorem codable_of_parsePart {j : Json} {part : Part} (h : parsePart j = .ok (.ok part)) :
    Codable part := by
  unfold parsePart at h
  simp only [stringOr_eq, MayThrow.ok_bind] at h
  cases hobject : j.isObject with
  | false =>
    rw [hobject] at h
    cases h
  | true =>
    simp only [hobject, Bool.not_true, Bool.false_eq_true, if_false] at h
    cases htext : findIf j (ascii "text") Json.isString with
    | some text =>
      simp only [htext] at h
      cases hstring : text.getString with
      | error x =>
        rw [hstring] at h
        cases h
      | ok t =>
        cases hthought : j.valueBool (ascii "thought") false with
        | error x =>
          simp only [hstring, hthought] at h
          cases h
        | ok thought =>
          simp only [hstring, hthought, MayThrow.ok_bind, MayThrow.pure_eq] at h
          cases h
          exact { named := by simp, thought := fun _ => ⟨t, rfl⟩ }
    | none =>
      rw [htext] at h
      cases hcall : findIf j (ascii "functionCall") Json.isObject with
      | some call =>
        simp only [hcall, parseFunctionCall, stringOr_eq, MayThrow.ok_bind, MayThrow.pure_eq] at h
        by_cases hname : textField call (ascii "name") [] = []
        · rw [if_pos hname] at h
          cases h
        · rw [if_neg hname] at h
          cases h
          exact { named := fun call hcall => by cases hcall; exact hname, thought := by simp }
      | none =>
        cases hresponse : findIf j (ascii "functionResponse") Json.isObject with
        | some response =>
          simp only [hcall, hresponse, parseFunctionResponse, stringOr_eq, MayThrow.ok_bind,
            MayThrow.pure_eq] at h
          cases h
          exact { named := by simp, thought := by simp }
        | none =>
          simp only [hcall, hresponse, MayThrow.pure_eq] at h
          cases h

theorem codable_of_parseParts {elems : List Json} {parts : List Part}
    (h : parseParts elems = .ok (.ok parts)) : ∀ part ∈ parts, Codable part := by
  induction elems generalizing parts with
  | nil =>
    cases h
    exact fun part hpart => by cases hpart
  | cons j elems ih =>
    rw [parseParts] at h
    cases hfirst : parsePart j with
    | error x =>
      rw [hfirst] at h
      cases h
    | ok outcome =>
      rw [hfirst, MayThrow.ok_bind] at h
      cases outcome with
      | ok part =>
        obtain ⟨rest, hrest, rfl⟩ := MayThrow.bind_map_eq_ok h
        intro p hp
        rcases List.mem_cons.mp hp with rfl | hp
        · exact codable_of_parsePart hfirst
        · exact ih hrest p hp
      | error e =>
        by_cases hskipped : e.message = unsupportedPartKind
        · simp only [hskipped, if_true] at h
          exact ih h
        · simp only [hskipped, if_false] at h
          cases h

/-- Encoding and decoding a content gives it back, and a second round trip changes nothing in what
was decoded once. -/
theorem content_roundTrip :
    (∀ content : Content, (∀ part ∈ content.parts, Codable part) →
      parseContent (contentToJson content) = .ok (.ok content)) ∧
    ∀ (j : Json) (content : Content), parseContent j = .ok (.ok content) →
      parseContent (contentToJson content) = .ok (.ok content) := by
  constructor
  · exact fun content h => parseContent_contentToJson h
  · intro j content h
    exact parseContent_contentToJson (codable_of_parseParts (parseContent_reads h))

/-- A turn of a thinking model. -/
def thinkingTurn : Content :=
  { role := .model
    parts :=
      [{ value := .text (ascii "It asks for 2+3."), thought := true
         thoughtSignature := ascii "c2ln" },
      { value := .call { name := ascii "add", args := .obj [(ascii "a", .int 2)], id := ascii "1" }
        thought := false, thoughtSignature := ascii "c2lu" },
      .response { name := ascii "add", response := .arr [.int 5], id := [] },
      .text []] }

/-- The same turn as a server may send it: no role, and a part of an unknown kind. -/
def thinkingTurnOnWire : Json :=
  .obj [(ascii "parts", .arr
    [.obj [(ascii "text", .str (ascii "It asks for 2+3.")), (ascii "thought", .bool true),
      (ascii "thoughtSignature", .str (ascii "c2ln"))],
    .obj [(ascii "inlineData", .obj [])],
    .obj [(ascii "functionCall", .obj [(ascii "args", .obj [(ascii "a", .int 2)]),
        (ascii "id", .str (ascii "1")), (ascii "name", .str (ascii "add"))]),
      (ascii "thoughtSignature", .str (ascii "c2lu"))],
    .obj [(ascii "functionResponse", .obj [(ascii "name", .str (ascii "add")),
      (ascii "response", .arr [.int 5])])],
    .obj [(ascii "text", .str [])]])]

theorem content_roundTrip_thinkingTurn :
    parseContent (contentToJson thinkingTurn) = .ok (.ok thinkingTurn) ∧
      parseContent thinkingTurnOnWire = .ok (.ok thinkingTurn) := by
  have hdecoded : parseContent thinkingTurnOnWire = .ok (.ok thinkingTurn) := rfl
  refine ⟨?_, hdecoded⟩
  have hcodable : ∀ part ∈ thinkingTurn.parts, Codable part :=
    codable_of_parseParts (parseContent_reads hdecoded)
  have hencoded := content_roundTrip.1 thinkingTurn hcodable
  exact content_roundTrip.2 _ thinkingTurn hencoded

end GeminiCpp.Wire
