import GeminiCpp.Types

/-! The `to_json` overloads of `serialization.cpp`. -/
namespace GeminiCpp.Wire

/-- Assigns a field when there is a value for it. -/
def setSome (j : Json) (key : Bytes) (v : Option Json) : Json :=
  match v with
  | some v => j.set key v
  | none => j

def int32 (v : Int32) : Json := .int v.toInt64

def configToJson (c : GenerationConfig) : Json :=
  let j := setSome (.obj []) (ascii "temperature") (c.temperature.map .float)
  let j := setSome j (ascii "topP") (c.topP.map .float)
  let j := setSome j (ascii "topK") (c.topK.map int32)
  let j := setSome j (ascii "maxOutputTokens") (c.maxOutputTokens.map int32)
  let j := setSome j (ascii "candidateCount") (c.candidateCount.map int32)
  let j := setSome j (ascii "seed") (c.seed.map int32)
  let j := setSome j (ascii "responseMimeType") (c.responseMimeType.map .str)
  let j := if c.responseSchema.isNull then j else j.set (ascii "responseSchema") c.responseSchema
  let j := if c.stopSequences = [] then j
    else j.set (ascii "stopSequences") (.arr (c.stopSequences.map .str))
  setSome j (ascii "thinkingConfig")
    (c.thinkingBudget.map fun b => Json.object [(ascii "thinkingBudget", int32 b)])

def callToJson (call : FunctionCall) : Json :=
  let j := Json.object [(ascii "name", .str call.name), (ascii "args", call.args)]
  if call.id = [] then j else j.set (ascii "id") (.str call.id)

def functionResponseToJson (resp : FunctionResponse) : Json :=
  let j := Json.object [(ascii "name", .str resp.name), (ascii "response", resp.response)]
  if resp.id = [] then j else j.set (ascii "id") (.str resp.id)

def partToJson (part : Part) : Json :=
  let j := match part.value with
    | .text t =>
      let j := Json.null.set (ascii "text") (.str t)
      if part.thought then j.set (ascii "thought") (.bool true) else j
    | .call c => Json.null.set (ascii "functionCall") (callToJson c)
    | .response r => Json.null.set (ascii "functionResponse") (functionResponseToJson r)
  if part.thoughtSignature = [] then j
  else j.set (ascii "thoughtSignature") (.str part.thoughtSignature)

def contentToJson (content : Content) : Json :=
  Json.object [(ascii "role", .str content.role.toString),
    (ascii "parts", .arr (content.parts.map partToJson))]

def declarationToJson (d : FunctionDeclaration) : Json :=
  let decl := Json.object [(ascii "name", .str d.name), (ascii "description", .str d.description)]
  -- `empty()` holds of null and of an array or object without elements
  match d.parameters with
  | .null | .arr [] | .obj [] => decl
  | parameters => decl.set (ascii "parameters") parameters

def safetyToJson (s : SafetySetting) : Json :=
  Json.object [(ascii "category", .str s.category), (ascii "threshold", .str s.threshold)]

def requestToJson (request : GenerateRequest) : Json :=
  let j := Json.null.set (ascii "contents") (.arr (request.contents.map contentToJson))
  let j := setSome j (ascii "systemInstruction") (request.systemInstruction.map fun c =>
    Json.object [(ascii "parts", .arr (c.parts.map partToJson))])
  let j := if request.tools = [] then j
    else j.set (ascii "tools") (.arr [Json.object
      [(ascii "functionDeclarations", .arr (request.tools.map declarationToJson))]])
  let j := match configToJson request.config with
    | .obj [] => j
    | cfg => j.set (ascii "generationConfig") cfg
  if request.safetySettings = [] then j
  else j.set (ascii "safetySettings") (.arr (request.safetySettings.map safetyToJson))

theorem find_unless {key key' : Bytes} (h : key ≠ key') (j v : Json) (p : Prop) [Decidable p] :
    (if p then j else j.set key v).find key' = j.find key' := by
  by_cases hp : p
  · rw [if_pos hp]
  · rw [if_neg hp, Json.find_set_ne h]

theorem find_setSome_ne {key key' : Bytes} (h : key ≠ key') (j : Json) (v : Option Json) :
    (setSome j key v).find key' = j.find key' := by
  cases v with
  | none => rfl
  | some v => exact Json.find_set_ne h j v

theorem find_contents (request : GenerateRequest) :
    (requestToJson request).find (ascii "contents") =
      some (.arr (request.contents.map contentToJson)) := by
  unfold requestToJson
  dsimp only
  rw [find_unless (by decide)]
  split
  · rw [find_unless (by decide), find_setSome_ne (by decide), Json.find_set_self]
  · rw [Json.find_set_ne (by decide), find_unless (by decide), find_setSome_ne (by decide),
      Json.find_set_self]

theorem find_parts (content : Content) : (contentToJson content).find (ascii "parts") =
    some (.arr (content.parts.map partToJson)) := by
  unfold contentToJson
  simp only [Json.object, List.foldl_cons, List.foldl_nil, Json.find_set_self]

theorem wellEncoded_setSome {j : Json} {key : Bytes} {v : Option Json}
    (hj : j.wellEncoded = true) (hkey : Utf8.valid key = true)
    (hv : ∀ w ∈ v, w.wellEncoded = true) : (setSome j key v).wellEncoded = true := by
  cases v with
  | none => exact hj
  | some w => exact Json.wellEncoded_set hj hkey (hv w rfl)

theorem wellEncoded_unless {j v : Json} {key : Bytes} (p : Prop) [Decidable p]
    (hj : j.wellEncoded = true) (hkey : Utf8.valid key = true) (hv : v.wellEncoded = true) :
    (if p then j else j.set key v).wellEncoded = true := by
  by_cases hp : p
  · rwa [if_pos hp]
  · rw [if_neg hp]
    exact Json.wellEncoded_set hj hkey hv

theorem wellEncoded_arr_map {α : Type} {f : α → Json} {l : List α}
    (h : ∀ a ∈ l, (f a).wellEncoded = true) : (Json.arr (l.map f)).wellEncoded = true := by
  refine Json.wellEncoded_arr.mpr fun j hj => ?_
  obtain ⟨a, ha, rfl⟩ := List.mem_map.mp hj
  exact h a ha

theorem wellEncoded_text {t : Bytes} (h : Utf8.valid t = true) :
    (partToJson (.text t)).wellEncoded = true :=
  Json.wellEncoded_set (j := .null) rfl (valid_ascii (by decide)) h

theorem wellEncoded_user_iff (t : Bytes) :
    (contentToJson (.user t)).wellEncoded = true ↔ Utf8.valid t = true := by
  constructor
  case mp =>
    intro h
    have hparts := Json.wellEncoded_find h (find_parts (.user t))
    have hpart := Json.wellEncoded_arr.mp hparts _ (List.mem_map_of_mem (List.mem_singleton.mpr rfl))
    exact Json.wellEncoded_find hpart (Json.find_set_self .null (ascii "text") (.str t))
  case mpr =>
    intro h
    apply Json.wellEncoded_object
    intro kv hkv
    simp only [List.mem_cons, List.not_mem_nil, or_false] at hkv
    rcases hkv with rfl | rfl <;> refine ⟨valid_ascii (by decide), ?_⟩
    · exact valid_ascii (by decide)
    · apply wellEncoded_arr_map
      intro part hpart
      rw [List.mem_singleton.mp hpart]
      exact wellEncoded_text h

theorem wellEncoded_of_request {request : GenerateRequest}
    (h : (requestToJson request).wellEncoded = true) {c : Content} (hc : c ∈ request.contents) :
    (contentToJson c).wellEncoded = true :=
  Json.wellEncoded_arr.mp (Json.wellEncoded_find h (find_contents request)) _
    (List.mem_map_of_mem hc)

/-- A request can be printed when the strings in all its parts can. -/
theorem wellEncoded_requestToJson {request : GenerateRequest}
    (hcontents : ∀ c ∈ request.contents, (contentToJson c).wellEncoded = true)
    (hsystem : ∀ c ∈ request.systemInstruction, ∀ part ∈ c.parts,
      (partToJson part).wellEncoded = true)
    (htools : ∀ d ∈ request.tools, (declarationToJson d).wellEncoded = true)
    (hconfig : (configToJson request.config).wellEncoded = true)
    (hsafety : ∀ s ∈ request.safetySettings, (safetyToJson s).wellEncoded = true) :
    (requestToJson request).wellEncoded = true := by
  have hstart : (Json.null.set (ascii "contents")
      (.arr (request.contents.map contentToJson))).wellEncoded = true :=
    Json.wellEncoded_set rfl (valid_ascii (by decide)) (wellEncoded_arr_map hcontents)
  have hinstruction : ∀ w ∈ request.systemInstruction.map fun c =>
      Json.object [(ascii "parts", .arr (c.parts.map partToJson))], w.wellEncoded = true := by
    intro w hw
    obtain ⟨c, hc, rfl⟩ := Option.map_eq_some_iff.mp hw
    apply Json.wellEncoded_object
    intro kv hkv
    rw [List.mem_singleton.mp hkv]
    exact ⟨valid_ascii (by decide), wellEncoded_arr_map (hsystem c hc)⟩
  have hdeclarations : (Json.arr [Json.object [(ascii "functionDeclarations",
      .arr (request.tools.map declarationToJson))]]).wellEncoded = true := by
    refine Json.wellEncoded_arr.mpr fun j hj => ?_
    rw [List.mem_singleton.mp hj]
    apply Json.wellEncoded_object
    intro kv hkv
    rw [List.mem_singleton.mp hkv]
    exact ⟨valid_ascii (by decide), wellEncoded_arr_map htools⟩
  have htoolsSet := wellEncoded_unless (request.tools = [])
    (wellEncoded_setSome hstart
      (valid_ascii (by decide) : Utf8.valid (ascii "systemInstruction") = true) hinstruction)
    (valid_ascii (by decide) : Utf8.valid (ascii "tools") = true) hdeclarations
  unfold requestToJson
  apply wellEncoded_unless
  case hkey => exact valid_ascii (by decide)
  case hv => exact wellEncoded_arr_map hsafety
  case hj =>
    split
    · exact htoolsSet
    · exact Json.wellEncoded_set htoolsSet (valid_ascii (by decide)) hconfig

end GeminiCpp.Wire
