import GeminiCpp.Wire.Echo

/-! Values that can be printed: every string in them is valid UTF-8. What is decoded from a document
of valid strings can be printed again, and so can what is merged from it. -/
namespace GeminiCpp
open Wire

def FunctionCall.Encodable (call : FunctionCall) : Prop :=
  Utf8.valid call.name = true ∧ call.args.wellEncoded = true ∧ Utf8.valid call.id = true

def FunctionResponse.Encodable (r : FunctionResponse) : Prop :=
  Utf8.valid r.name = true ∧ r.response.wellEncoded = true ∧ Utf8.valid r.id = true

def PartValue.Encodable : PartValue → Prop
  | .text t => Utf8.valid t = true
  | .call c => c.Encodable
  | .response r => r.Encodable

structure Part.Encodable (part : Part) : Prop where
  value : part.value.Encodable
  signature : Utf8.valid part.thoughtSignature = true

def Content.Encodable (content : Content) : Prop := ∀ part ∈ content.parts, part.Encodable

def GenerateResponse.Encodable (r : GenerateResponse) : Prop :=
  ∀ c ∈ r.candidates, c.content.Encodable

structure GenerationConfig.Encodable (config : GenerationConfig) : Prop where
  responseMimeType : ∀ t ∈ config.responseMimeType, Utf8.valid t = true
  responseSchema : config.responseSchema.wellEncoded = true
  stopSequences : ∀ t ∈ config.stopSequences, Utf8.valid t = true

structure FunctionDeclaration.Encodable (d : FunctionDeclaration) : Prop where
  name : Utf8.valid d.name = true
  description : Utf8.valid d.description = true
  parameters : d.parameters.wellEncoded = true

namespace Wire

/-! Printing. -/
section Encode

theorem wellEncoded_namedValue {name key id : Bytes} {v : Json} (hkey : Utf8.valid key = true)
    (hname : Utf8.valid name = true) (hv : v.wellEncoded = true) (hid : Utf8.valid id = true) :
    (if id = [] then Json.object [(ascii "name", .str name), (key, v)]
      else (Json.object [(ascii "name", .str name), (key, v)]).set (ascii "id")
        (.str id)).wellEncoded = true := by
  have hobject : (Json.object [(ascii "name", .str name), (key, v)]).wellEncoded = true := by
    apply Json.wellEncoded_object
    intro kv hkv
    simp only [List.mem_cons, List.not_mem_nil, or_false] at hkv
    rcases hkv with rfl | rfl
    · exact ⟨valid_ascii (by decide), hname⟩
    · exact ⟨hkey, hv⟩
  exact wellEncoded_unless (id = []) hobject (valid_ascii (by decide)) hid

theorem wellEncoded_partToJson {part : Part} (h : part.Encodable) :
    (partToJson part).wellEncoded = true := by
  obtain ⟨hvalue, hsignature⟩ := h
  have hbody : ∀ {j : Json}, j.wellEncoded = true →
      (if part.thoughtSignature = [] then j
        else j.set (ascii "thoughtSignature") (.str part.thoughtSignature)).wellEncoded = true :=
    fun hj => wellEncoded_unless _ hj (valid_ascii (by decide)) hsignature
  apply hbody
  cases hkind : part.value with
  | text t =>
    rw [hkind] at hvalue
    have htext : (Json.null.set (ascii "text") (.str t)).wellEncoded = true :=
      Json.wellEncoded_set (v := .str t) rfl (valid_ascii (by decide)) hvalue
    cases part.thought with
    | false => exact htext
    | true => exact Json.wellEncoded_set htext (valid_ascii (by decide)) rfl
  | call call =>
    rw [hkind] at hvalue
    obtain ⟨hname, hargs, hid⟩ := hvalue
    exact Json.wellEncoded_set rfl (valid_ascii (by decide))
      (wellEncoded_namedValue (valid_ascii (by decide)) hname hargs hid)
  | response r =>
    rw [hkind] at hvalue
    obtain ⟨hname, hresponse, hid⟩ := hvalue
    exact Json.wellEncoded_set rfl (valid_ascii (by decide))
      (wellEncoded_namedValue (valid_ascii (by decide)) hname hresponse hid)

theorem wellEncoded_contentToJson {content : Content} (h : content.Encodable) :
    (contentToJson content).wellEncoded = true := by
  apply Json.wellEncoded_object
  intro kv hkv
  simp only [List.mem_cons, List.not_mem_nil, or_false] at hkv
  rcases hkv with rfl | rfl
  · refine ⟨valid_ascii (by decide), ?_⟩
    cases content.role <;> exact valid_ascii (by decide)
  · exact ⟨valid_ascii (by decide), wellEncoded_arr_map fun part hpart =>
      wellEncoded_partToJson (h part hpart)⟩

theorem wellEncoded_configToJson {config : GenerationConfig} (h : config.Encodable) :
    (configToJson config).wellEncoded = true := by
  have hnumber : ∀ {j : Json} {cs : List Char} {ν : Type} {v : Option ν} {f : ν → Json},
      j.wellEncoded = true → cs.all (fun c => c.toNat ≤ 0x7F) = true →
      (∀ x, (f x).wellEncoded = true) →
      (setSome j (ascii (String.ofList cs)) (v.map f)).wellEncoded = true := by
    intro j cs ν v f hj hkey hf
    refine wellEncoded_setSome hj (valid_ascii hkey) fun w hw => ?_
    obtain ⟨x, -, rfl⟩ := Option.map_eq_some_iff.mp hw
    exact hf x
  have hmime : ∀ w ∈ config.responseMimeType.map Json.str, w.wellEncoded = true := by
    intro w hw
    obtain ⟨t, ht, rfl⟩ := Option.map_eq_some_iff.mp hw
    exact h.responseMimeType t ht
  have hschema : ∀ {j : Json}, j.wellEncoded = true →
      (if config.responseSchema.isNull then j
        else j.set (ascii "responseSchema") config.responseSchema).wellEncoded = true := by
    intro j hj
    exact wellEncoded_unless _ hj (valid_ascii (by decide)) h.responseSchema
  unfold configToJson
  refine hnumber (wellEncoded_unless _ (hschema (wellEncoded_setSome ?_ (valid_ascii (by decide))
    hmime)) (valid_ascii (by decide)) (wellEncoded_arr_map h.stopSequences)) (by decide) ?_
  · apply hnumber _ (by decide) fun seed => rfl
    apply hnumber _ (by decide) fun candidateCount => rfl
    apply hnumber _ (by decide) fun maxOutputTokens => rfl
    apply hnumber _ (by decide) fun topK => rfl
    apply hnumber _ (by decide) fun topP => rfl
    exact hnumber rfl (by decide) fun temperature => rfl
  · exact fun thinkingBudget => rfl

theorem wellEncoded_declarationToJson {d : FunctionDeclaration} (h : d.Encodable) :
    (declarationToJson d).wellEncoded = true := by
  have hdecl : (Json.object [(ascii "name", .str d.name),
      (ascii "description", .str d.description)]).wellEncoded = true := by
    apply Json.wellEncoded_object
    intro kv hkv
    simp only [List.mem_cons, List.not_mem_nil, or_false] at hkv
    rcases hkv with rfl | rfl
    · exact ⟨valid_ascii (by decide), h.name⟩
    · exact ⟨valid_ascii (by decide), h.description⟩
  unfold declarationToJson
  split
  · exact hdecl
  · exact hdecl
  · exact hdecl
  · exact Json.wellEncoded_set hdecl (valid_ascii (by decide)) h.parameters

end Encode

/-! Decoding. -/
section Decode

theorem valid_textField {j : Json} (hj : j.wellEncoded = true) (key : Bytes) {fallback : Bytes}
    (hfallback : Utf8.valid fallback = true) : Utf8.valid (textField j key fallback) = true := by
  unfold textField
  split
  · next s hs => exact Json.wellEncoded_find hj hs
  · exact hfallback

theorem wellEncoded_findIf {j v : Json} {key : Bytes} {test : Json → Bool}
    (hj : j.wellEncoded = true) (h : findIf j key test = some v) : v.wellEncoded = true :=
  Json.wellEncoded_find hj (findIf_eq_some h).1

theorem wellEncoded_getD {j : Json} (hj : j.wellEncoded = true) (key : Bytes) :
    ((j.find key).getD (.obj [])).wellEncoded = true := by
  cases hfind : j.find key with
  | none => rfl
  | some v => exact Json.wellEncoded_find hj hfind

theorem encodable_of_parsePart {j : Json} (hj : j.wellEncoded = true) {part : Part}
    (h : parsePart j = .ok (.ok part)) : part.Encodable := by
  have hsignature := valid_textField hj (ascii "thoughtSignature") Utf8.valid_nil
  unfold parsePart at h
  simp only [stringOr_eq, MayThrow.ok_bind] at h
  cases hobject : j.isObject with
  | false =>
    rw [hobject] at h
    cases h
  | true =>
    simp only [hobject, Bool.not_true, Bool.false_eq_true, if_false] at h
    cases htext : findIf j (ascii "text") Json.isString with
    | some text =>
      have hvalid := wellEncoded_findIf hj htext
      simp only [htext] at h
      cases text with
      | str t =>
        cases hthought : j.valueBool (ascii "thought") false with
        | error x =>
          simp only [Json.getString, hthought] at h
          cases h
        | ok thought =>
          simp only [Json.getString, hthought, MayThrow.ok_bind, MayThrow.pure_eq] at h
          cases h
          exact { value := hvalid, signature := hsignature }
      | _ => cases h
    | none =>
      rw [htext] at h
      cases hcall : findIf j (ascii "functionCall") Json.isObject with
      | some call =>
        have hencoded := wellEncoded_findIf hj hcall
        simp only [hcall, parseFunctionCall, stringOr_eq, MayThrow.ok_bind, MayThrow.pure_eq] at h
        by_cases hname : textField call (ascii "name") [] = []
        · rw [if_pos hname] at h
          cases h
        · rw [if_neg hname] at h
          cases h
          exact ⟨⟨valid_textField hencoded _ rfl, wellEncoded_getD hencoded _,
            valid_textField hencoded _ rfl⟩, hsignature⟩
      | none =>
        cases hresponse : findIf j (ascii "functionResponse") Json.isObject with
        | some response =>
          have hencoded := wellEncoded_findIf hj hresponse
          simp only [hcall, hresponse, parseFunctionResponse, stringOr_eq, MayThrow.ok_bind,
            MayThrow.pure_eq] at h
          cases h
          exact ⟨⟨valid_textField hencoded _ rfl, wellEncoded_getD hencoded _,
            valid_textField hencoded _ rfl⟩, hsignature⟩
        | none =>
          simp only [hcall, hresponse, MayThrow.pure_eq] at h
          cases h

theorem encodable_of_parseParts {elems : List Json} (helems : ∀ j ∈ elems, j.wellEncoded = true)
    {parts : List Part} (h : parseParts elems = .ok (.ok parts)) :
    ∀ part ∈ parts, part.Encodable := by
  induction elems generalizing parts with
  | nil =>
    cases h
    exact fun part hpart => by cases hpart
  | cons j elems ih =>
    have hrest : ∀ {parts : List Part}, parseParts elems = .ok (.ok parts) →
        ∀ part ∈ parts, part.Encodable := ih fun j hj => helems j (List.mem_cons_of_mem _ hj)
    rw [parseParts] at h
    cases hfirst : parsePart j with
    | error x =>
      rw [hfirst] at h
      cases h
    | ok outcome =>
      rw [hfirst, MayThrow.ok_bind] at h
      cases outcome with
      | ok part =>
        obtain ⟨rest, hparts, rfl⟩ := MayThrow.bind_map_eq_ok h
        intro p hp
        rcases List.mem_cons.mp hp with rfl | hp
        · exact encodable_of_parsePart (helems j (List.mem_cons_self ..)) hfirst
        · exact hrest hparts p hp
      | error e =>
        by_cases hskipped : e.message = unsupportedPartKind
        · simp only [hskipped, if_true] at h
          exact hrest h
        · simp only [hskipped, if_false] at h
          cases h

theorem wellEncoded_elemsUnder {j : Json} (hj : j.wellEncoded = true) (key : Bytes) :
    ∀ elem ∈ elemsUnder j key, elem.wellEncoded = true := by
  unfold elemsUnder
  split
  · next elems helems => exact Json.wellEncoded_arr.mp (Json.wellEncoded_find hj helems)
  · exact fun elem h => by cases h

theorem encodable_of_parseCandidate {j : Json} (hj : j.wellEncoded = true) {position : Int64}
    {c : Candidate} (h : parseCandidate j position = .ok (.ok c)) : c.content.Encodable := by
  have hcontent : (contentOf j).wellEncoded = true := by
    unfold contentOf
    cases hfind : j.find (ascii "content") with
    | none => rfl
    | some v => exact Json.wellEncoded_find hj hfind
  exact encodable_of_parseParts (wellEncoded_elemsUnder hcontent _) (parseCandidate_reads h).parts

theorem encodable_of_parseCandidates {elems : List Json}
    (helems : ∀ j ∈ elems, j.wellEncoded = true) {position : Int64} {cs : List Candidate}
    (h : parseCandidates position elems = .ok (.ok cs)) : ∀ c ∈ cs, c.content.Encodable := by
  induction elems generalizing position cs with
  | nil =>
    cases h
    exact fun c hc => by cases hc
  | cons j elems ih =>
    unfold parseCandidates at h
    cases hfirst : parseCandidate j position with
    | error x => simp [hfirst] at h
    | ok outcome =>
      cases outcome with
      | error e => simp [hfirst] at h
      | ok c =>
        simp only [hfirst, MayThrow.ok_bind] at h
        obtain ⟨rest, hrest, rfl⟩ := MayThrow.bind_map_eq_ok h
        intro c' hc'
        rcases List.mem_cons.mp hc' with rfl | hc'
        · exact encodable_of_parseCandidate (helems j (List.mem_cons_self ..)) hfirst
        · exact ih (fun j hj => helems j (List.mem_cons_of_mem _ hj)) hrest c' hc'

/-- A reply that was decoded from valid strings. -/
theorem encodable_of_parseGenerateResponse {j : Json} (hj : j.wellEncoded = true)
    {r : GenerateResponse} (h : parseGenerateResponse j = .ok (.ok r)) : r.Encodable := by
  obtain ⟨cs, hcandidates, hrest⟩ := exists_candidates h
  obtain ⟨r', hr', hcs⟩ := parseResponseRest_ok j cs
  rw [hr'] at hrest
  cases hrest
  unfold GenerateResponse.Encodable
  rw [hcs]
  exact encodable_of_parseCandidates (wellEncoded_elemsUnder hj _) hcandidates

end Decode
end Wire

/-! Merging. -/
section Merge

theorem encodable_appendPart {parts : List Part} (hparts : ∀ part ∈ parts, part.Encodable)
    {incoming : Part} (hincoming : incoming.Encodable) :
    ∀ part ∈ appendPart parts incoming, part.Encodable := by
  have happend : ∀ part ∈ parts ++ [incoming], part.Encodable := by
    intro part hpart
    rcases List.mem_append.mp hpart with hpart | hpart
    · exact hparts part hpart
    · rw [List.mem_singleton.mp hpart]
      exact hincoming
  cases hkind : incoming.value with
  | call call =>
    simp only [appendPart, hkind]
    exact happend
  | response r =>
    simp only [appendPart, hkind]
    exact happend
  | text t =>
    cases hlast : parts.getLast? with
    | none =>
      simp only [appendPart, hkind, hlast]
      exact happend
    | some last =>
      have hlastEncodable := hparts last (List.mem_of_mem_getLast? hlast)
      cases hlastKind : last.value with
      | call call =>
        simp only [appendPart, hkind, hlast, hlastKind]
        exact happend
      | response r =>
        simp only [appendPart, hkind, hlast, hlastKind]
        exact happend
      | text lastText =>
        simp only [appendPart, hkind, hlast, hlastKind]
        by_cases hglue : last.thought = incoming.thought ∧
            (last.thoughtSignature = [] ∨ incoming.thoughtSignature = [])
        · rw [if_pos hglue]
          have hvalues := And.intro hlastEncodable.value hincoming.value
          rw [hlastKind, hkind] at hvalues
          have htext : Utf8.valid (lastText ++ t) = true :=
            Utf8.valid_append_of_valid hvalues.1 hvalues.2
          have hsignature : Utf8.valid (if last.thoughtSignature = [] then
              incoming.thoughtSignature else last.thoughtSignature) = true := by
            split_ifs
            · exact hincoming.signature
            · exact hlastEncodable.signature
          intro part hpart
          rcases List.mem_append.mp hpart with hpart | hpart
          · exact hparts part (List.dropLast_subset _ hpart)
          · rw [List.mem_singleton.mp hpart]
            exact { value := htext, signature := hsignature }
        · rw [if_neg hglue]
          exact happend

theorem encodable_absorb {c incoming : Candidate} (hc : c.content.Encodable)
    (hincoming : incoming.content.Encodable) : (c.absorb incoming).content.Encodable := by
  have hfold : ∀ parts : List Part, (∀ part ∈ parts, part.Encodable) →
      ∀ acc : List Part, (∀ part ∈ acc, part.Encodable) →
        ∀ part ∈ parts.foldl appendPart acc, part.Encodable := by
    intro parts
    induction parts with
    | nil => exact fun _ acc hacc => hacc
    | cons first parts ih =>
      intro hparts acc hacc
      have hfirst := encodable_appendPart hacc (hparts first (List.mem_cons_self ..))
      exact ih (fun part hpart => hparts part (List.mem_cons_of_mem _ hpart)) _ hfirst
  exact hfold _ hincoming _ hc

theorem encodable_mergeCandidate {cs : List Candidate} (hcs : ∀ c ∈ cs, c.content.Encodable)
    {incoming : Candidate} (hincoming : incoming.content.Encodable) :
    ∀ c ∈ mergeCandidate cs incoming, c.content.Encodable := by
  induction cs with
  | nil =>
    intro c hc
    rw [mergeCandidate, List.mem_singleton] at hc
    rw [hc]
    exact encodable_absorb (fun part hpart => by cases hpart) hincoming
  | cons first cs ih =>
    have hfirst := hcs first (List.mem_cons_self ..)
    have hrest : ∀ c ∈ cs, c.content.Encodable := fun c hc => hcs c (List.mem_cons_of_mem _ hc)
    intro c hc
    rw [mergeCandidate] at hc
    split_ifs at hc
    · rcases List.mem_cons.mp hc with rfl | hc
      · exact encodable_absorb hfirst hincoming
      · exact hrest c hc
    · rcases List.mem_cons.mp hc with rfl | hc
      · exact hfirst
      · exact ih hrest c hc

theorem GenerateResponse.Encodable.merge {r chunk : GenerateResponse} (hr : r.Encodable)
    (hchunk : chunk.Encodable) : (r.merge chunk).Encodable := by
  have hfold : ∀ incoming : List Candidate, (∀ c ∈ incoming, c.content.Encodable) →
      ∀ cs : List Candidate, (∀ c ∈ cs, c.content.Encodable) →
        ∀ c ∈ incoming.foldl mergeCandidate cs, c.content.Encodable := by
    intro incoming
    induction incoming with
    | nil => exact fun _ cs hcs => hcs
    | cons first incoming ih =>
      intro hincoming cs hcs
      have hfirst := encodable_mergeCandidate hcs (hincoming first (List.mem_cons_self ..))
      exact ih (fun c hc => hincoming c (List.mem_cons_of_mem _ hc)) _ hfirst
  exact hfold _ hchunk _ hr

theorem encodable_empty : GenerateResponse.empty.Encodable := fun c hc => by cases hc

end Merge
end GeminiCpp
