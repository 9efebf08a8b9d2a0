import Mathlib.Data.List.Forall2
import GeminiCpp.Merge
import GeminiCpp.Wire.Encode
import GeminiCpp.Wire.Returns

/-! What a reply carries that must be sent back verbatim: its function calls and its
signatures. Both are read from JSON, on the way in and on the way out. -/
namespace GeminiCpp.Wire

/-- A function call as it stands in a part. -/
structure EchoedCall where
  name : Bytes
  args : Json
  id : Bytes
  signature : Bytes

def signatureIn (part : Json) : Bytes := textField part (ascii "thoughtSignature") []

def callIn (part : Json) : Option EchoedCall :=
  (part.find (ascii "functionCall")).map fun call =>
    { name := textField call (ascii "name") []
      args := (call.find (ascii "args")).getD (.obj [])
      id := textField call (ascii "id") []
      signature := signatureIn part }

def callsIn (parts : List Json) : List EchoedCall := parts.filterMap callIn

/-- The signatures that are not empty. -/
def signaturesIn (parts : List Json) : List Bytes := (parts.map signatureIn).filter (· ≠ [])

/-- The value under `key`, if there is one, passes the test. -/
def FieldTyped (j : Json) (key : Bytes) (test : Json → Bool) : Prop :=
  ∀ v, j.find key = some v → test v = true

/-- The keys that say what kind of part it is. -/
def partKinds : List Bytes := [ascii "text", ascii "functionCall", ascii "functionResponse"]

/-- A part of one known kind, with fields of their documented types. -/
structure WellTyped (part : Json) : Prop where
  one_kind : (partKinds.filter fun kind => (part.find kind).isSome).length = 1
  signature : FieldTyped part (ascii "thoughtSignature") Json.isString
  text : FieldTyped part (ascii "text") Json.isString
  thought : FieldTyped part (ascii "thought") fun v => v matches .bool _
  call : FieldTyped part (ascii "functionCall") Json.isObject
  call_fields : ∀ call, part.find (ascii "functionCall") = some call →
    FieldTyped call (ascii "name") Json.isString ∧ FieldTyped call (ascii "id") Json.isString ∧
      FieldTyped call (ascii "args") Json.isObject
  response : FieldTyped part (ascii "functionResponse") Json.isObject
  response_fields : ∀ response, part.find (ascii "functionResponse") = some response →
    FieldTyped response (ascii "name") Json.isString ∧
      FieldTyped response (ascii "id") Json.isString ∧
      FieldTyped response (ascii "response") Json.isObject

/-- The call of a decoded part. -/
def callOf (part : Part) : Option EchoedCall :=
  match part.value with
  | .call c => some { name := c.name, args := c.args, id := c.id, signature := part.thoughtSignature }
  | _ => none

/-- A part in JSON and a decoded one carry the same call and signature. -/
structure Carries (json : Json) (part : Part) : Prop where
  call : callIn json = callOf part
  signature : signatureIn json = part.thoughtSignature

theorem textField_set_self (j : Json) (key s : Bytes) :
    textField (j.set key (.str s)) key [] = s := by
  unfold textField
  rw [Json.find_set_self]

theorem textField_of_find_none {j : Json} {key : Bytes} (h : j.find key = none) :
    textField j key [] = [] := by
  unfold textField
  rw [h]

/-- A field that is left out when it is empty reads the same. -/
theorem textField_unless_empty {j : Json} {key : Bytes} (s : Bytes) (h : j.find key = none) :
    textField (if s = [] then j else j.set key (.str s)) key [] = s := by
  by_cases hs : s = []
  · rw [if_pos hs, hs, textField_of_find_none h]
  · rw [if_neg hs, textField_set_self]

/-- A name, a value and an id that is left out when it is empty. -/
theorem namedValue_fields {key : Bytes} (hname : key ≠ ascii "name") (hid : key ≠ ascii "id")
    (name id : Bytes) (value : Json) {j : Json}
    (hj : j = Json.object [(ascii "name", .str name), (key, value)]) :
    let whole := if id = [] then j else j.set (ascii "id") (.str id)
    textField whole (ascii "name") [] = name ∧ whole.find key = some value ∧
      textField whole (ascii "id") [] = id := by
  have hidName : ascii "id" ≠ ascii "name" := by decide
  intro whole
  subst hj
  simp only [whole, Json.object, List.foldl_cons, List.foldl_nil]
  refine ⟨?_, ?_, ?_⟩
  · unfold textField
    rw [find_unless hidName, Json.find_set_ne hname, Json.find_set_self]
  · rw [find_unless hid.symm, Json.find_set_self]
  · apply textField_unless_empty
    rw [Json.find_set_ne hid, Json.find_set_ne hidName.symm]
    rfl

theorem callToJson_fields (c : FunctionCall) :
    textField (callToJson c) (ascii "name") [] = c.name ∧
      (callToJson c).find (ascii "args") = some c.args ∧
      textField (callToJson c) (ascii "id") [] = c.id :=
  namedValue_fields (by decide) (by decide) c.name c.id c.args rfl

/-- A call and a signature in JSON, before the signature is added. -/
theorem carries_of_body {body : Json} {part : Part}
    (hcall : body.find (ascii "functionCall") =
      match part.value with
      | .call c => some (callToJson c)
      | _ => none)
    (hsignature : body.find (ascii "thoughtSignature") = none) :
    Carries (if part.thoughtSignature = [] then body
      else body.set (ascii "thoughtSignature") (.str part.thoughtSignature)) part := by
  have hsig := textField_unless_empty part.thoughtSignature hsignature
  refine ⟨?_, hsig⟩
  unfold callIn callOf signatureIn
  rw [find_unless (by decide), hsig, hcall]
  cases part.value with
  | call c =>
    obtain ⟨hname, hargs, hid⟩ := callToJson_fields c
    simp only [Option.map_some, hname, hargs, hid, Option.getD_some]
  | text t => rfl
  | response r => rfl

/-- Encoding a part keeps its call and its signature. -/
theorem carries_partToJson (part : Part) : Carries (partToJson part) part := by
  obtain ⟨value, thought, signature⟩ := part
  cases value with
  | text t =>
    apply carries_of_body
    · cases thought
      · exact Json.find_set_ne (by decide) .null _
      · exact (Json.find_set_ne (by decide) _ _).trans (Json.find_set_ne (by decide) .null _)
    · cases thought
      · exact Json.find_set_ne (by decide) .null _
      · exact (Json.find_set_ne (by decide) _ _).trans (Json.find_set_ne (by decide) .null _)
  | call c =>
    apply carries_of_body
    · exact Json.find_set_self .null _ _
    · exact Json.find_set_ne (by decide) .null _
  | response r =>
    apply carries_of_body
    · exact Json.find_set_ne (by decide) .null _
    · exact Json.find_set_ne (by decide) .null _

/-- A kind of part that is there when another one is cannot be. -/
theorem WellTyped.find_other {part : Json} (h : WellTyped part) {kind other : Bytes} {v : Json}
    (hkind : kind ∈ partKinds) (hother : other ∈ partKinds) (hne : kind ≠ other)
    (hv : part.find kind = some v) : part.find other = none := by
  obtain ⟨found, hfound⟩ := List.length_eq_one_iff.mp h.one_kind
  have hmem : ∀ k ∈ partKinds, (part.find k).isSome = true → k = found := by
    intro k hk hsome
    have : k ∈ partKinds.filter fun kind => (part.find kind).isSome :=
      List.mem_filter.mpr ⟨hk, hsome⟩
    rw [hfound] at this
    exact List.mem_singleton.mp this
  cases ho : part.find other with
  | none => rfl
  | some w =>
    have h₁ := hmem kind hkind (by rw [hv]; rfl)
    have h₂ := hmem other hother (by rw [ho]; rfl)
    exact absurd (h₁.trans h₂.symm) hne

theorem findIf_eq_of_typed {j : Json} {key : Bytes} {test : Json → Bool}
    (h : FieldTyped j key test) : findIf j key test = j.find key := by
  unfold findIf
  cases hv : j.find key with
  | none => rfl
  | some v => simp [h v hv]

theorem WellTyped.not_all_none {part : Json} (h : WellTyped part)
    (htext : part.find (ascii "text") = none) (hcall : part.find (ascii "functionCall") = none)
    (hresponse : part.find (ascii "functionResponse") = none) : False := by
  have hlength := h.one_kind
  simp [partKinds, htext, hcall, hresponse] at hlength

theorem WellTyped.isObject {part : Json} (h : WellTyped part) : part.isObject = true := by
  cases hobject : part.isObject with
  | true => rfl
  | false =>
    have hnone := find_of_not_object hobject
    exact (h.not_all_none (hnone _) (hnone _) (hnone _)).elim

/-- Decoding a well-typed part keeps its call and its signature, or is an error that ends the
parts. -/
theorem parsePart_carries {json : Json} (h : WellTyped json) {r : Result Part}
    (hr : parsePart json = .ok r) :
    (∃ part, r = .ok part ∧ Carries json part) ∨
      ∃ e, r = .error e ∧ e.message ≠ unsupportedPartKind := by
  unfold parsePart at hr
  simp only [stringOr_eq, h.isObject, Bool.not_true, Bool.false_eq_true, if_false,
    MayThrow.ok_bind, findIf_eq_of_typed h.text, findIf_eq_of_typed h.call,
    findIf_eq_of_typed h.response, parseFunctionCall, parseFunctionResponse, MayThrow.pure_eq] at hr
  cases htext : json.find (ascii "text") with
  | some text =>
    have hnone : json.find (ascii "functionCall") = none :=
      h.find_other (by decide) (by decide) (by decide) htext
    rw [htext] at hr
    obtain ⟨t, rfl⟩ : ∃ t, text = .str t := by
      have hstring := h.text text htext
      cases text with
      | str t => exact ⟨t, rfl⟩
      | _ => cases hstring
    simp only [Json.getString, MayThrow.ok_bind] at hr
    cases hthought : json.valueBool (ascii "thought") false with
    | error x =>
      rw [hthought] at hr
      cases hr
    | ok b =>
      rw [hthought] at hr
      cases hr
      exact Or.inl ⟨_, rfl, by rw [callIn, hnone]; rfl, rfl⟩
  | none =>
    rw [htext] at hr
    cases hcall : json.find (ascii "functionCall") with
    | some call =>
      rw [hcall] at hr
      simp only at hr
      by_cases hname : textField call (ascii "name") [] = []
      · rw [if_pos hname] at hr
        cases hr
        exact Or.inr ⟨_, rfl, by decide⟩
      · rw [if_neg hname] at hr
        cases hr
        exact Or.inl ⟨_, rfl, by rw [callIn, hcall]; rfl, rfl⟩
    | none =>
      rw [hcall] at hr
      cases hresponse : json.find (ascii "functionResponse") with
      | some response =>
        rw [hresponse] at hr
        cases hr
        exact Or.inl ⟨_, rfl, by rw [callIn, hcall]; rfl, rfl⟩
      | none => exact (h.not_all_none htext hcall hresponse).elim

theorem parseParts_carries {json : List Json} (h : ∀ j ∈ json, WellTyped j) {parts : List Part}
    (hr : parseParts json = .ok (.ok parts)) : List.Forall₂ Carries json parts := by
  induction json generalizing parts with
  | nil =>
    cases hr
    exact .nil
  | cons j json ih =>
    have hj := h j (List.mem_cons_self ..)
    have hjson : ∀ j ∈ json, WellTyped j := fun j hj => h j (List.mem_cons_of_mem _ hj)
    unfold parseParts at hr
    cases hpart : parsePart j with
    | error x =>
      rw [hpart] at hr
      cases hr
    | ok r =>
      rw [hpart, MayThrow.ok_bind] at hr
      rcases parsePart_carries hj hpart with ⟨part, rfl, hcarries⟩ | ⟨e, rfl, hmessage⟩
      · obtain ⟨rest, hrest, rfl⟩ := MayThrow.bind_map_eq_ok hr
        exact .cons hcarries (ih hjson hrest)
      · simp only [if_neg hmessage] at hr
        cases hr

/-- The calls of decoded parts. -/
def partCalls (parts : List Part) : List EchoedCall := parts.filterMap callOf

/-- The signatures of decoded parts that are not empty. -/
def partSignatures (parts : List Part) : List Bytes :=
  (parts.map Part.thoughtSignature).filter (· ≠ [])

theorem calls_of_carries {json : List Json} {parts : List Part}
    (h : List.Forall₂ Carries json parts) :
    callsIn json = partCalls parts ∧ signaturesIn json = partSignatures parts := by
  induction h with
  | nil => exact ⟨rfl, rfl⟩
  | cons hcarries _ ih =>
    obtain ⟨hcalls, hsignatures⟩ := ih
    unfold callsIn partCalls signaturesIn partSignatures at *
    rw [List.filterMap_cons, List.filterMap_cons, hcarries.call, hcalls, List.map_cons,
      List.map_cons, List.filter_cons, List.filter_cons, hcarries.signature, hsignatures]
    exact ⟨rfl, rfl⟩

theorem carries_map_partToJson (parts : List Part) :
    List.Forall₂ Carries (parts.map partToJson) parts := by
  induction parts with
  | nil => exact .nil
  | cons part parts ih => exact .cons (carries_partToJson part) ih

theorem partCalls_append (ps qs : List Part) : partCalls (ps ++ qs) = partCalls ps ++ partCalls qs :=
  List.filterMap_append ..

theorem partSignatures_append (ps qs : List Part) :
    partSignatures (ps ++ qs) = partSignatures ps ++ partSignatures qs := by
  unfold partSignatures
  rw [List.map_append, List.filter_append]

/-- Gluing text to the last part keeps the calls and the signatures, in order. -/
theorem appendPart_echo (parts : List Part) (incoming : Part) :
    partCalls (appendPart parts incoming) = partCalls parts ++ partCalls [incoming] ∧
      partSignatures (appendPart parts incoming) =
        partSignatures parts ++ partSignatures [incoming] := by
  have pushed : partCalls (parts ++ [incoming]) = partCalls parts ++ partCalls [incoming] ∧
      partSignatures (parts ++ [incoming]) = partSignatures parts ++ partSignatures [incoming] :=
    ⟨partCalls_append .., partSignatures_append ..⟩
  unfold appendPart
  split
  case h_2 => exact pushed
  case h_1 t last hvalue hlast =>
    split
    case h_2 => exact pushed
    case h_1 lastText hlastValue =>
      by_cases hglue : last.thought = incoming.thought ∧
          (last.thoughtSignature = [] ∨ incoming.thoughtSignature = [])
      · rw [if_pos hglue]
        have hparts := List.dropLast_append_getLast? last hlast
        have hcall : ∀ (p : Part) (s : Bytes), p.value = .text s → partCalls [p] = [] := by
          intro p s hp
          simp [partCalls, callOf, hp]
        constructor
        · rw [← hparts, partCalls_append, partCalls_append, List.dropLast_concat,
            hcall last lastText hlastValue, hcall incoming t hvalue, hcall _ _ rfl]
          simp
        · rw [← hparts, partSignatures_append, partSignatures_append, List.dropLast_concat,
            List.append_assoc]
          congr 1
          by_cases hlastEmpty : last.thoughtSignature = []
          · simp [partSignatures, hlastEmpty]
          · have hincoming := hglue.2.resolve_left hlastEmpty
            simp [partSignatures, hlastEmpty, hincoming]
      · rw [if_neg hglue]
        exact pushed

theorem foldl_appendPart_echo (incoming parts : List Part) :
    partCalls (incoming.foldl appendPart parts) = partCalls parts ++ partCalls incoming ∧
      partSignatures (incoming.foldl appendPart parts) =
        partSignatures parts ++ partSignatures incoming := by
  induction incoming generalizing parts with
  | nil => exact ⟨(List.append_nil _).symm, (List.append_nil _).symm⟩
  | cons part incoming ih =>
    obtain ⟨hcalls, hsignatures⟩ := ih (appendPart parts part)
    obtain ⟨hcalls', hsignatures'⟩ := appendPart_echo parts part
    rw [List.foldl_cons, hcalls, hsignatures, hcalls', hsignatures', List.append_assoc,
      List.append_assoc, ← partCalls_append, ← partSignatures_append]
    exact ⟨rfl, rfl⟩

/-- The indices and the parts of candidates, from a position on. -/
def indexedParts (position : Int64) : List Json → List (Int32 × List Json)
  | [] => []
  | candidate :: rest =>
    ((intField candidate (ascii "index") position).toInt32,
      elemsUnder (contentOf candidate) (ascii "parts")) :: indexedParts (position + 1) rest

/-- The candidates of a document. -/
def documentParts (document : Json) : List (Int32 × List Json) :=
  indexedParts 0 (elemsUnder document (ascii "candidates"))

/-- The parts of the first candidate of a reply that came in one document. -/
def unaryParts (document : Json) : List Json :=
  match documentParts document with
  | [] => []
  | first :: _ => first.2

/-- The parts of the first candidate of a reply that came in chunks. -/
def streamedParts (documents : List Json) : List Json :=
  match documents.flatMap documentParts with
  | [] => []
  | first :: rest => ((first :: rest).filter (·.1 = first.1)).flatMap (·.2)

/-- A candidate has the index and the parts that stand in JSON. -/
structure ReadsCandidate (json : Int32 × List Json) (c : Candidate) : Prop where
  index : json.1 = c.index
  parts : parseParts json.2 = .ok (.ok c.content.parts)

theorem parseContent_reads {json : Json} {content : Content}
    (h : parseContent json = .ok (.ok content)) :
    parseParts (elemsUnder json (ascii "parts")) = .ok (.ok content.parts) := by
  unfold parseContent at h
  unfold elemsUnder
  cases hobject : json.isObject with
  | false =>
    simp only [hobject, Bool.not_false, if_true, MayThrow.pure_eq] at h
    cases h
    rw [find_of_not_object hobject]
    rfl
  | true =>
    simp only [hobject, stringOr_eq, Bool.not_true, Bool.false_eq_true, if_false,
      MayThrow.ok_bind, MayThrow.pure_eq] at h
    generalize json.find (ascii "parts") = found at h
    rcases found with _ | parts
    · cases h
      rfl
    · cases parts with
      | arr elems =>
        obtain ⟨parts, hparts, rfl⟩ := MayThrow.bind_map_eq_ok h
        exact hparts
      | _ =>
        cases h
        rfl

theorem parseCandidate_reads {json : Json} {position : Int64} {c : Candidate}
    (h : parseCandidate json position = .ok (.ok c)) :
    ReadsCandidate ((intField json (ascii "index") position).toInt32,
      elemsUnder (contentOf json) (ascii "parts")) c := by
  unfold parseCandidate at h
  simp only [stringOr_eq, intOr_eq, MayThrow.ok_bind, MayThrow.pure_eq] at h
  unfold contentOf
  cases hcontent : json.find (ascii "content") with
  | none =>
    rw [hcontent] at h
    cases h
    exact ⟨rfl, rfl⟩
  | some content =>
    rw [hcontent] at h
    obtain ⟨parsed, hparsed, rfl⟩ := MayThrow.bind_map_eq_ok h
    exact ⟨rfl, parseContent_reads hparsed⟩

theorem parseCandidates_reads {position : Int64} {json : List Json} {cs : List Candidate}
    (h : parseCandidates position json = .ok (.ok cs)) :
    List.Forall₂ ReadsCandidate (indexedParts position json) cs := by
  induction json generalizing position cs with
  | nil =>
    cases h
    exact .nil
  | cons candidate json ih =>
    unfold parseCandidates at h
    cases hcandidate : parseCandidate candidate position with
    | error x => simp [hcandidate] at h
    | ok r =>
      cases r with
      | error e => simp [hcandidate] at h
      | ok c =>
        simp only [hcandidate, MayThrow.ok_bind] at h
        obtain ⟨rest, hrest, rfl⟩ := MayThrow.bind_map_eq_ok h
        exact .cons (parseCandidate_reads hcandidate) (ih hrest)

/-- A response that has been decoded was an object, and its candidates were decoded first. -/
theorem exists_candidates {document : Json} {r : GenerateResponse}
    (h : parseGenerateResponse document = .ok (.ok r)) :
    ∃ cs, parseCandidates 0 (elemsUnder document (ascii "candidates")) = .ok (.ok cs) ∧
      parseResponseRest document cs = .ok (.ok r) := by
  unfold parseGenerateResponse at h
  cases hobject : document.isObject with
  | false => simp [hobject] at h
  | true =>
    simp only [hobject, Bool.not_true, Bool.false_eq_true, if_false] at h
    cases hcandidates : parseCandidates 0 (elemsUnder document (ascii "candidates")) with
    | error x => simp [hcandidates] at h
    | ok result =>
      cases result with
      | error e => simp [hcandidates] at h
      | ok cs =>
        simp only [hcandidates, MayThrow.ok_bind] at h
        exact ⟨cs, rfl, h⟩

theorem parseGenerateResponse_reads {document : Json} {r : GenerateResponse}
    (h : parseGenerateResponse document = .ok (.ok r)) :
    List.Forall₂ ReadsCandidate (documentParts document) r.candidates := by
  obtain ⟨cs, hcandidates, hrest⟩ := exists_candidates h
  obtain ⟨r', hr', hcs⟩ := parseResponseRest_ok document cs
  rw [hr'] at hrest
  cases hrest
  rw [hcs]
  exact parseCandidates_reads hcandidates

/-- The parts of one index, in JSON and decoded. -/
theorem carries_partsAt {json : List (Int32 × List Json)} {cs : List Candidate}
    (h : List.Forall₂ ReadsCandidate json cs) (index : Int32)
    (htyped : ∀ part ∈ (json.filter (·.1 = index)).flatMap (·.2), WellTyped part) :
    List.Forall₂ Carries ((json.filter (·.1 = index)).flatMap (·.2)) (partsAt index cs) := by
  unfold partsAt
  induction h with
  | nil => exact .nil
  | @cons j c json cs hreads _ ih =>
    by_cases hindex : j.1 = index
    · have hc : c.index = index := hreads.index.symm.trans hindex
      rw [List.filter_cons_of_pos (by simpa using hindex), List.flatMap_cons] at htyped ⊢
      rw [List.filter_cons_of_pos (by simpa using hc), List.flatMap_cons]
      have hfirst := parseParts_carries (fun part hp => htyped part (List.mem_append_left _ hp))
        hreads.parts
      exact List.rel_append hfirst (ih fun part hp => htyped part (List.mem_append_right _ hp))
    · have hc : ¬ c.index = index := fun hc => hindex (hreads.index.trans hc)
      rw [List.filter_cons_of_neg (by simpa using hindex)] at htyped ⊢
      rw [List.filter_cons_of_neg (by simpa using hc)]
      exact ih htyped

/-- What a turn that is sent repeats of the parts that were received. -/
def Repeats (received sent : List Json) : Prop :=
  callsIn sent = callsIn received ∧ signaturesIn sent = signaturesIn received

theorem repeats_of_parts {received : List Json} {parts : List Part}
    (hcalls : partCalls parts = callsIn received)
    (hsignatures : partSignatures parts = signaturesIn received) :
    Repeats received (parts.map partToJson) := by
  obtain ⟨h₁, h₂⟩ := calls_of_carries (carries_map_partToJson parts)
  exact ⟨h₁.trans hcalls, h₂.trans hsignatures⟩

/-- A reply in one document. -/
theorem unary_repeats {document : Json} {r : GenerateResponse} {c : Candidate}
    {others : List Candidate} (h : parseGenerateResponse document = .ok (.ok r))
    (hc : r.candidates = c :: others) (htyped : ∀ part ∈ unaryParts document, WellTyped part) :
    Repeats (unaryParts document) (c.content.parts.map partToJson) := by
  have hreads := parseGenerateResponse_reads h
  rw [hc] at hreads
  unfold unaryParts at htyped ⊢
  generalize documentParts document = json at hreads htyped
  cases hreads with
  | cons hfirst _ =>
    obtain ⟨hcalls, hsignatures⟩ := calls_of_carries (parseParts_carries htyped hfirst.parts)
    exact repeats_of_parts hcalls.symm hsignatures.symm

/-- A reply in chunks, however its parts are distributed over them. -/
theorem streamed_repeats {documents : List Json} {chunks : List GenerateResponse} {c : Candidate}
    {others : List Candidate}
    (h : List.Forall₂ (fun document chunk => parseGenerateResponse document = .ok (.ok chunk))
      documents chunks)
    (hc : (mergeAll chunks).candidates = c :: others)
    (htyped : ∀ part ∈ streamedParts documents, WellTyped part) :
    Repeats (streamedParts documents) (c.content.parts.map partToJson) := by
  have hreads : List.Forall₂ ReadsCandidate (documents.flatMap documentParts)
      (chunks.flatMap (·.candidates)) := by
    clear hc htyped
    induction h with
    | nil => exact .nil
    | cons hdocument _ ih => exact List.rel_append (parseGenerateResponse_reads hdocument) ih
  unfold streamedParts at htyped ⊢
  generalize documents.flatMap documentParts = json at hreads htyped
  cases hfirst : chunks.flatMap (·.candidates) with
  | nil =>
    rw [mergeAll_candidates, hfirst] at hc
    cases hc
  | cons first incoming =>
    obtain ⟨c', others', hc', hparts⟩ := mergeAll_first hfirst
    obtain ⟨rfl, -⟩ := List.cons.inj (hc'.symm.trans hc)
    obtain ⟨hcalls, hsignatures⟩ := foldl_appendPart_echo (partsAt first.index (first :: incoming)) []
    rw [← hparts] at hcalls hsignatures
    rw [hfirst] at hreads
    cases hreads with
    | @cons j _ json _ hj hjson =>
      simp only [hj.index] at htyped ⊢
      obtain ⟨hcalls', hsignatures'⟩ :=
        calls_of_carries (carries_partsAt (.cons hj hjson) first.index htyped)
      exact repeats_of_parts (hcalls.trans hcalls'.symm) (hsignatures.trans hsignatures'.symm)

theorem elemsUnder_requestToJson (request : GenerateRequest) :
    elemsUnder (requestToJson request) (ascii "contents") =
      request.contents.map contentToJson := by
  unfold elemsUnder
  rw [find_contents]

theorem contentToJson_fields (content : Content) :
    elemsUnder (contentToJson content) (ascii "parts") = content.parts.map partToJson ∧
      textField (contentToJson content) (ascii "role") [] = content.role.toString := by
  constructor
  · unfold elemsUnder
    rw [find_parts]
  · unfold contentToJson textField
    simp only [Json.object, List.foldl_cons, List.foldl_nil]
    rw [Json.find_set_ne (by decide), Json.find_set_self]

end GeminiCpp.Wire
