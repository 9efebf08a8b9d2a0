import Mathlib.Data.List.Forall2
import GeminiCpp.Merge
import GeminiCpp.Wire.Echo

/-! The integers of a document and those that the decoders store. -/
namespace GeminiCpp.Wire

/-- The mathematical value of a JSON integer. -/
def integer? : Json → Option ℤ
  | .int v => some v.toInt
  | .uint v => some v.toNat
  | _ => none

/-- The integer under a key. -/
def wireInteger (j : Json) (key : Bytes) : Option ℤ := (j.find key).bind integer?

/-- An integer that is stored in a field of some width: the value on the wire or the fallback of
the field, and no value that has wrapped around. -/
def Kept (width : ℕ) (wire : Option ℤ) (fallback stored : ℤ) : Prop :=
  match wire with
  | none => stored = fallback
  | some v => stored = v ∨ stored = fallback ∧ stored ≠ v.bmod (2 ^ width)

/-- The value on the wire fits into the field. -/
def Fits (width : ℕ) (wire : Option ℤ) : Prop :=
  ∀ v, wire = some v →
    -((2 ^ (width - 1) : ℕ) : ℤ) ≤ v ∧ v < ((2 ^ (width - 1) : ℕ) : ℤ)

theorem fits_some_iff {width : ℕ} {v : ℤ} : Fits width (some v) ↔
    -((2 ^ (width - 1) : ℕ) : ℤ) ≤ v ∧ v < ((2 ^ (width - 1) : ℕ) : ℤ) := by
  constructor
  · exact fun h => h v rfl
  · intro h w hw
    rw [← Option.some.inj hw]
    exact h

instance (width : ℕ) : (wire : Option ℤ) → Decidable (Fits width wire)
  | none => isTrue fun _ h => absurd h (Option.some_ne_none _).symm
  | some _ => decidable_of_iff _ fits_some_iff.symm

theorem toInt_toInt64 (v : UInt64) : v.toInt64.toInt = (v.toNat : ℤ).bmod (2 ^ 64) := by
  exact BitVec.toInt_eq_toNat_bmod v.toBitVec

theorem toInt_intField (j : Json) (key : Bytes) (fallback : Int64) :
    (intField j key fallback).toInt =
      ((wireInteger j key).map fun v => v.bmod (2 ^ 64)).getD fallback.toInt := by
  unfold intField wireInteger
  cases j.find key with
  | none => rfl
  | some v =>
    cases v with
    | int v =>
      have hlow := v.le_toInt
      have hhigh := v.toInt_lt
      have hfits : v.toInt.bmod (2 ^ 64) = v.toInt := by
        apply Int.bmod_eq_of_le <;> omega
      exact hfits.symm
    | uint v =>
      rw [Option.bind_some, integer?, Option.map_some, Option.getD_some]
      exact toInt_toInt64 v
    | _ => rfl

/-- A value is not changed by wrapping if and only if it fits. -/
theorem bmod_eq_self_iff {width : ℕ} (hwidth : 0 < width) (v : ℤ) :
    v.bmod (2 ^ width) = v ↔
      -((2 ^ (width - 1) : ℕ) : ℤ) ≤ v ∧ v < ((2 ^ (width - 1) : ℕ) : ℤ) := by
  obtain ⟨n, rfl⟩ := Nat.exists_eq_succ_of_ne_zero (Nat.pos_iff_ne_zero.mp hwidth)
  have hpos : 0 < 2 ^ n := Nat.two_pow_pos n
  rw [Nat.succ_sub_one, Nat.pow_succ]
  generalize 2 ^ n = half at hpos ⊢
  constructor
  · intro h
    have hlow := Int.le_bmod (x := v) (m := half * 2) (by omega)
    have hhigh := Int.bmod_lt (x := v) (m := half * 2) (by omega)
    rw [h] at hlow hhigh
    omega
  · intro h
    apply Int.bmod_eq_of_le <;> omega

/-- What is stored by wrapping is kept if and only if it fits. -/
theorem kept_iff_fits {width : ℕ} (hwidth : 0 < width) {wire : Option ℤ} {fallback stored : ℤ}
    (hstored : stored = (wire.map fun v => v.bmod (2 ^ width)).getD fallback) :
    Kept width wire fallback stored ↔ Fits width wire := by
  unfold Kept Fits
  cases wire with
  | none => exact ⟨fun _ v hv => (by cases hv), fun _ => hstored⟩
  | some v =>
    have hwrapped : stored = v.bmod (2 ^ width) := hstored
    constructor
    · intro h w hw
      cases hw
      rw [← bmod_eq_self_iff hwidth]
      rcases h with hvalue | hfallback
      · exact hwrapped.symm.trans hvalue
      · exact absurd hwrapped hfallback.2
    · intro h
      exact Or.inl (hwrapped.trans ((bmod_eq_self_iff hwidth v).mpr (h v rfl)))

/-- The integer fields of a record, each under its key. -/
abbrev Fields := List (Bytes × ℤ)

/-- 64-bit fields with the fallback 0, read from a JSON object. -/
def ReadFrom (j : Json) (fields : Fields) : Prop :=
  ∀ f ∈ fields, f.2 = (intField j f.1 0).toInt

/-- All fields are kept, and those that are not negative on the wire are not negative. -/
structure FieldsKept (j : Json) (fields : Fields) : Prop where
  kept : ∀ f ∈ fields, Kept 64 (wireInteger j f.1) 0 f.2
  nonneg : ∀ f ∈ fields, (∀ v, wireInteger j f.1 = some v → 0 ≤ v) → 0 ≤ f.2

def FieldsFit (j : Json) (keys : List Bytes) : Prop := ∀ key ∈ keys, Fits 64 (wireInteger j key)

instance (j : Json) (keys : List Bytes) : Decidable (FieldsFit j keys) :=
  inferInstanceAs (Decidable (∀ key ∈ keys, Fits 64 (wireInteger j key)))

theorem fieldsKept_iff {j : Json} {fields : Fields} (h : ReadFrom j fields) :
    FieldsKept j fields ↔ FieldsFit j (fields.map fun f => f.1) := by
  have hfield : ∀ f ∈ fields,
      Kept 64 (wireInteger j f.1) 0 f.2 ↔ Fits 64 (wireInteger j f.1) := by
    intro f hf
    exact kept_iff_fits (by omega) ((h f hf).trans (toInt_intField j f.1 0))
  constructor
  · intro hkept key hkey
    obtain ⟨f, hf, rfl⟩ := List.mem_map.mp hkey
    exact (hfield f hf).mp (hkept.kept f hf)
  · intro hfits
    have hkept : ∀ f ∈ fields, Kept 64 (wireInteger j f.1) 0 f.2 := fun f hf =>
      (hfield f hf).mpr (hfits f.1 (List.mem_map_of_mem hf))
    refine ⟨hkept, ?_⟩
    intro f hf hwire
    have hstored := hkept f hf
    have hfit := hfits f.1 (List.mem_map_of_mem hf)
    have hread := (h f hf).trans (toInt_intField j f.1 0)
    cases hvalue : wireInteger j f.1 with
    | none =>
      rw [hvalue] at hread
      rw [hread]
      exact Int.le_refl 0
    | some v =>
      rw [hvalue, Option.map_some, Option.getD_some,
        (bmod_eq_self_iff (by omega) v).mpr (hfit v hvalue)] at hread
      rw [hread]
      exact hwire v hvalue

/-- The token counts. -/
def tokenCounts (u : UsageMetadata) : Fields :=
  [(ascii "promptTokenCount", u.promptTokens.toInt),
    (ascii "candidatesTokenCount", u.candidatesTokens.toInt),
    (ascii "thoughtsTokenCount", u.thoughtsTokens.toInt),
    (ascii "totalTokenCount", u.totalTokens.toInt)]

/-- The token limits of a model. -/
def tokenLimits (m : ModelInfo) : Fields :=
  [(ascii "inputTokenLimit", m.inputTokenLimit.toInt),
    (ascii "outputTokenLimit", m.outputTokenLimit.toInt)]

def countKeys : List Bytes :=
  [ascii "promptTokenCount", ascii "candidatesTokenCount", ascii "thoughtsTokenCount",
    ascii "totalTokenCount"]

def limitKeys : List Bytes := [ascii "inputTokenLimit", ascii "outputTokenLimit"]

theorem readFrom_parseUsage {usage : Json} {u : UsageMetadata} (h : parseUsage usage = .ok u) :
    ReadFrom usage (tokenCounts u) := by
  unfold parseUsage at h
  simp only [intOr_eq, MayThrow.ok_bind, MayThrow.pure_eq] at h
  cases h
  intro f hf
  simp only [tokenCounts, List.mem_cons, List.not_mem_nil, or_false] at hf
  rcases hf with rfl | rfl | rfl | rfl <;> rfl

theorem readFrom_parseModelInfo {m : Json} {info : ModelInfo} (h : parseModelInfo m = .ok info) :
    ReadFrom m (tokenLimits info) := by
  unfold parseModelInfo at h
  simp only [stringOr_eq, intOr_eq, MayThrow.ok_bind, MayThrow.pure_eq] at h
  cases hmethods : ((elemsUnder m (ascii "supportedGenerationMethods")).filter
      Json.isString).mapM Json.getString with
  | error x =>
    rw [hmethods] at h
    cases h
  | ok methods =>
    rw [hmethods] at h
    cases h
    intro f hf
    simp only [tokenLimits, List.mem_cons, List.not_mem_nil, or_false] at hf
    rcases hf with rfl | rfl <;> rfl

/-- The usage metadata of a response, null if it has none. -/
def usageObject (j : Json) : Json :=
  (findIf j (ascii "usageMetadata") Json.isObject).getD .null

theorem readFrom_null (keys : List Bytes) : ReadFrom .null (keys.map fun key => (key, 0)) := by
  intro f hf
  obtain ⟨key, -, rfl⟩ := List.mem_map.mp hf
  rfl

theorem readFrom_usageObject {j : Json} {r : GenerateResponse}
    (h : parseGenerateResponse j = .ok (.ok r)) :
    ReadFrom (usageObject j) (tokenCounts r.usage) := by
  obtain ⟨cs, -, hrest⟩ := exists_candidates h
  unfold parseResponseRest at hrest
  unfold usageObject
  cases husage : findIf j (ascii "usageMetadata") Json.isObject with
  | none =>
    have hzero : r.usage = .zero := by
      rw [husage] at hrest
      simp only [stringOr_eq, MayThrow.ok_bind, MayThrow.pure_eq] at hrest
      cases hfeedback : findIf j (ascii "promptFeedback") Json.isObject <;>
        rw [hfeedback] at hrest <;> cases hrest <;> rfl
    rw [hzero]
    exact readFrom_null countKeys
  | some usage =>
    obtain ⟨u, hu⟩ : ∃ u, parseUsage usage = .ok u := by
      unfold parseUsage
      simp only [intOr_eq, MayThrow.ok_bind, MayThrow.pure_eq]
      exact ⟨_, rfl⟩
    have hsame : r.usage = u := by
      rw [husage] at hrest
      simp only [hu, stringOr_eq, MayThrow.ok_bind, MayThrow.pure_eq] at hrest
      cases hfeedback : findIf j (ascii "promptFeedback") Json.isObject <;>
        rw [hfeedback] at hrest <;> cases hrest <;> rfl
    rw [hsame]
    exact readFrom_parseUsage hu

/-- The index of a candidate in JSON that stands at some position. -/
def storedIndex (candidate : Json × ℕ) : Int32 :=
  (intField candidate.1 (ascii "index") (Int64.ofNat candidate.2)).toInt32

theorem indices_parseCandidates {elems : List Json} {position : ℕ} {cs : List Candidate}
    (h : parseCandidates (Int64.ofNat position) elems = .ok (.ok cs)) :
    List.Forall₂ (fun candidate c => storedIndex candidate = c.index) (elems.zipIdx position)
      cs := by
  induction elems generalizing position cs with
  | nil =>
    cases h
    exact .nil
  | cons elem elems ih =>
    unfold parseCandidates at h
    cases hcandidate : parseCandidate elem (Int64.ofNat position) with
    | error x => simp [hcandidate] at h
    | ok result =>
      cases result with
      | error e => simp [hcandidate] at h
      | ok c =>
        simp only [hcandidate, MayThrow.ok_bind] at h
        obtain ⟨rest, hrest, rfl⟩ := MayThrow.bind_map_eq_ok h
        have hnext : Int64.ofNat position + 1 = Int64.ofNat (position + 1) := by
          rw [Int64.ofNat_add]
          rfl
        rw [hnext] at hrest
        exact .cons (parseCandidate_reads hcandidate).index (ih hrest)

/-- The index is narrowed to 32 bits, also the position that stands for a missing one. -/
theorem toInt_storedIndex (candidate : Json × ℕ) :
    (storedIndex candidate).toInt =
      ((wireInteger candidate.1 (ascii "index")).map fun v => v.bmod (2 ^ 32)).getD
        (Int64.ofNat candidate.2).toInt32.toInt := by
  unfold storedIndex
  rw [Int64.toInt_toInt32, toInt_intField]
  cases wireInteger candidate.1 (ascii "index") with
  | none => exact (Int64.toInt_toInt32 _).symm
  | some v =>
    rw [Option.map_some, Option.getD_some, Option.map_some, Option.getD_some]
    exact Int.bmod_bmod_of_dvd (by decide)

/-- The integers of a response are kept. -/
structure ResponseKept (j : Json) (r : GenerateResponse) : Prop where
  indices : List.Forall₂ (fun candidate c =>
      Kept 32 (wireInteger candidate.1 (ascii "index")) (Int64.ofNat candidate.2).toInt32.toInt
        c.index.toInt)
    (elemsUnder j (ascii "candidates")).zipIdx r.candidates
  counts : FieldsKept (usageObject j) (tokenCounts r.usage)

/-- Indices fit into `int`, and token counts into `std::int64_t`. -/
structure ResponseFits (j : Json) : Prop where
  indices : ∀ candidate ∈ elemsUnder j (ascii "candidates"),
    Fits 32 (wireInteger candidate (ascii "index"))
  counts : FieldsFit (usageObject j) countKeys

theorem responseFits_iff {j : Json} : ResponseFits j ↔
    (∀ candidate ∈ elemsUnder j (ascii "candidates"),
      Fits 32 (wireInteger candidate (ascii "index"))) ∧ FieldsFit (usageObject j) countKeys :=
  ⟨fun h => ⟨h.indices, h.counts⟩, fun h => ⟨h.1, h.2⟩⟩

instance (j : Json) : Decidable (ResponseFits j) := decidable_of_iff _ responseFits_iff.symm

theorem indices_parseGenerateResponse {j : Json} {r : GenerateResponse}
    (h : parseGenerateResponse j = .ok (.ok r)) :
    List.Forall₂ (fun candidate c => storedIndex candidate = c.index)
      (elemsUnder j (ascii "candidates")).zipIdx r.candidates := by
  obtain ⟨cs, hcandidates, hrest⟩ := exists_candidates h
  obtain ⟨r', hr', hcs⟩ := parseResponseRest_ok j cs
  rw [hr'] at hrest
  cases hrest
  rw [hcs]
  exact indices_parseCandidates hcandidates

theorem responseKept_iff {j : Json} {r : GenerateResponse}
    (h : parseGenerateResponse j = .ok (.ok r)) : ResponseKept j r ↔ ResponseFits j := by
  have hindices := indices_parseGenerateResponse h
  have hcounts := fieldsKept_iff (readFrom_usageObject h)
  have hone : ∀ (candidate : Json × ℕ) (c : Candidate), storedIndex candidate = c.index →
      (Kept 32 (wireInteger candidate.1 (ascii "index")) (Int64.ofNat candidate.2).toInt32.toInt
        c.index.toInt ↔ Fits 32 (wireInteger candidate.1 (ascii "index"))) := by
    intro candidate c hstored
    rw [← hstored]
    exact kept_iff_fits (by omega) (toInt_storedIndex candidate)
  constructor
  · intro hkept
    refine ⟨?_, hcounts.mp hkept.counts⟩
    have hboth := List.Forall₂.mp (fun candidate c hstored hk =>
      And.intro ((hone candidate c hstored).mp hk) hstored) hindices hkept.indices
    intro elem helem
    rw [← List.zipIdx_map_fst 0 (elemsUnder j (ascii "candidates"))] at helem
    obtain ⟨candidate, hcandidate, rfl⟩ := List.mem_map.mp helem
    exact ((List.forall₂_and_left _ _).mp hboth).1 candidate hcandidate
  · intro hfits
    refine ⟨?_, hcounts.mpr hfits.counts⟩
    have hall : ∀ candidate ∈ (elemsUnder j (ascii "candidates")).zipIdx,
        Fits 32 (wireInteger candidate.1 (ascii "index")) := by
      intro candidate hcandidate
      apply hfits.indices
      rw [← List.zipIdx_map_fst 0 (elemsUnder j (ascii "candidates"))]
      exact List.mem_map_of_mem hcandidate
    have hboth := (List.forall₂_and_left _ _).mpr ⟨hall, hindices⟩
    exact hboth.imp fun candidate c hc => (hone candidate c hc.2).mpr hc.1

/-- The candidates of some chunks, each with the JSON that it was decoded from. -/
def incoming (js : List Json) (rs : List GenerateResponse) : List (Json × Candidate) :=
  (js.zip rs).flatMap fun jr => (elemsUnder jr.1 (ascii "candidates")).zip jr.2.candidates

/-- Those that an aggregate candidate has taken up. -/
def taken (k : Candidate) (candidates : List (Json × Candidate)) : List (Json × Candidate) :=
  candidates.filter fun a => a.2.index = k.index

/-- A chunk list is decoded, and `GenerateResponse::merge` takes no two candidates with different
indices on the wire for one. -/
structure StreamKept (js : List Json) (rs : List GenerateResponse) : Prop where
  kept : List.Forall₂ ResponseKept js rs
  apart : ∀ k ∈ (mergeAll rs).candidates, ∀ a ∈ taken k (incoming js rs),
    ∀ b ∈ taken k (incoming js rs), ∀ v w, wireInteger a.1 (ascii "index") = some v →
      wireInteger b.1 (ascii "index") = some w → v = w

/-- Documents and what they are decoded to. -/
abbrev Decodes (js : List Json) (rs : List GenerateResponse) : Prop :=
  List.Forall₂ (fun j r => parseGenerateResponse j = .ok (.ok r)) js rs

theorem map_snd_incoming {js : List Json} {rs : List GenerateResponse} (h : Decodes js rs) :
    (incoming js rs).map Prod.snd = rs.flatMap (·.candidates) := by
  induction h with
  | nil => rfl
  | cons hfirst _ ih =>
    have hlength := (indices_parseGenerateResponse hfirst).length_eq
    rw [List.length_zipIdx] at hlength
    unfold incoming at ih ⊢
    rw [List.zip_cons_cons, List.flatMap_cons, List.map_append, ih, List.flatMap_cons,
      List.map_snd_zip (Nat.le_of_eq hlength.symm)]

/-- The aggregate candidate that `merge` makes of some candidates. -/
def mergedFrom (index : Int32) (candidates : List Candidate) : Candidate :=
  candidates.foldl Candidate.absorb
    { content := { role := .model, parts := [] }, finishReason := [], index }

/-- An aggregate candidate is made of those it has taken up. -/
theorem mergeAll_taken {js : List Json} {rs : List GenerateResponse} (h : Decodes js rs)
    {k : Candidate} (hk : k ∈ (mergeAll rs).candidates) :
    k = mergedFrom k.index ((taken k (incoming js rs)).map Prod.snd) := by
  rw [mergeAll_candidates, mergeCandidate_eq, KeyedFold.foldl_insert_nil] at hk
  obtain ⟨index, -, hmade⟩ := List.mem_map.mp hk
  have hindex : k.index = index := by
    rw [← hmade]
    exact KeyedFold.slot_foldl_absorb candidateRules _ _
  have htaken : (taken k (incoming js rs)).map Prod.snd =
      ownAt index (rs.flatMap (·.candidates)) := by
    rw [← map_snd_incoming h, ← hindex]
    unfold taken ownAt KeyedFold.own
    rw [List.filter_map]
    rfl
  rw [htaken, hindex]
  exact hmade.symm

/-- Where the integers fit, a candidate has the index that it has on the wire. -/
theorem index_of_incoming {js : List Json} {rs : List GenerateResponse} (h : Decodes js rs)
    (hfits : ∀ j ∈ js, ResponseFits j) {a : Json × Candidate} (ha : a ∈ incoming js rs) {v : ℤ}
    (hv : wireInteger a.1 (ascii "index") = some v) : a.2.index.toInt = v := by
  obtain ⟨jr, hjr, hzip⟩ := List.mem_flatMap.mp ha
  have hindices := indices_parseGenerateResponse (List.forall₂_zip h hjr)
  have hfit := (hfits jr.1 (List.of_mem_zip hjr).1).indices a.1 (List.of_mem_zip hzip).1 v hv
  have hstored : ∃ position, storedIndex (a.1, position) = a.2.index := by
    have hall : List.Forall₂ (fun elem c => ∃ position, storedIndex (elem, position) = c.index)
        ((elemsUnder jr.1 (ascii "candidates")).zipIdx.map Prod.fst) jr.2.candidates := by
      rw [List.forall₂_map_left_iff]
      exact hindices.imp fun candidate c hc => ⟨candidate.2, hc⟩
    rw [List.zipIdx_map_fst] at hall
    exact List.forall₂_zip hall hzip
  obtain ⟨position, hposition⟩ := hstored
  rw [← hposition, toInt_storedIndex, hv, Option.map_some, Option.getD_some]
  exact (bmod_eq_self_iff (by omega) v).mpr hfit

theorem streamKept_iff {js : List Json} {rs : List GenerateResponse} (h : Decodes js rs) :
    StreamKept js rs ↔ ∀ j ∈ js, ResponseFits j := by
  constructor
  · intro hkept
    have hboth := List.Forall₂.mp (fun j r hdecodes hk =>
      And.intro ((responseKept_iff hdecodes).mp hk) hdecodes) h hkept.kept
    exact ((List.forall₂_and_left _ _).mp hboth).1
  · intro hfits
    have hboth := (List.forall₂_and_left _ _).mpr ⟨hfits, h⟩
    refine ⟨hboth.imp fun j r hj => (responseKept_iff hj.2).mpr hj.1, ?_⟩
    intro k _ a ha b hb v w hv hw
    obtain ⟨hain, hak⟩ := List.mem_filter.mp ha
    obtain ⟨hbin, hbk⟩ := List.mem_filter.mp hb
    have hsame : a.2.index = b.2.index :=
      (of_decide_eq_true hak).trans (of_decide_eq_true hbk).symm
    rw [← index_of_incoming h hfits hain hv, ← index_of_incoming h hfits hbin hw, hsame]

/-- The limits of all models of a page are kept. -/
def ModelsKept (j : Json) (models : List ModelInfo) : Prop :=
  List.Forall₂ (fun m info => FieldsKept m (tokenLimits info)) (elemsUnder j (ascii "models"))
    models

def ModelsFit (j : Json) : Prop :=
  ∀ m ∈ elemsUnder j (ascii "models"), FieldsFit m limitKeys

theorem forall₂_mapM {α β : Type} {f : α → MayThrow β} {l : List α} {bs : List β}
    (h : l.mapM f = .ok bs) : List.Forall₂ (fun a b => f a = .ok b) l bs := by
  induction l generalizing bs with
  | nil =>
    cases h
    exact .nil
  | cons a l ih =>
    rw [List.mapM_cons] at h
    cases ha : f a with
    | error x =>
      rw [ha] at h
      cases h
    | ok b =>
      cases hl : l.mapM f with
      | error x =>
        rw [ha, hl] at h
        cases h
      | ok rest =>
        rw [ha, hl] at h
        cases h
        exact .cons ha (ih hl)

theorem models_parseModelList {text : JsonText} {body : Bytes} {j : Json}
    {models : List ModelInfo} {token : Bytes} (hbody : text.parse body = some j)
    (h : parseModelList text body = .ok (.ok (models, token))) :
    List.Forall₂ (fun m info => parseModelInfo m = .ok info) (elemsUnder j (ascii "models"))
      models := by
  unfold parseModelList at h
  rw [hbody] at h
  cases hobject : j.isObject with
  | false => simp [hobject] at h
  | true =>
    cases hmodels : (elemsUnder j (ascii "models")).mapM parseModelInfo with
    | error x => simp [hobject, hmodels] at h
    | ok infos =>
      simp only [hobject, Bool.not_true, Bool.false_eq_true, if_false, hmodels, stringOr_eq,
        MayThrow.ok_bind, MayThrow.pure_eq] at h
      cases h
      exact forall₂_mapM hmodels

theorem modelsKept_iff {j : Json} {models : List ModelInfo}
    (h : List.Forall₂ (fun m info => parseModelInfo m = .ok info) (elemsUnder j (ascii "models"))
      models) : ModelsKept j models ↔ ModelsFit j := by
  constructor
  · intro hkept
    have hboth := List.Forall₂.mp (fun m info hm hk =>
      And.intro ((fieldsKept_iff (readFrom_parseModelInfo hm)).mp hk) hm) h hkept
    exact ((List.forall₂_and_left _ _).mp hboth).1
  · intro hfits
    have hboth := (List.forall₂_and_left _ _).mpr ⟨hfits, h⟩
    exact hboth.imp fun m info hm => (fieldsKept_iff (readFrom_parseModelInfo hm.2)).mpr hm.1

/-- The integers of the chunks of a response, of a model list and of usage metadata are kept, and
merging keeps the candidates apart, if and only if all of them fit into their fields. An aggregate
candidate is made of those it has taken up. -/
theorem integers_kept_iff (text : JsonText) :
    (∀ js rs, Decodes js rs → (StreamKept js rs ↔ ∀ j ∈ js, ResponseFits j) ∧
        ∀ k ∈ (mergeAll rs).candidates,
          k = mergedFrom k.index ((taken k (incoming js rs)).map Prod.snd)) ∧
      (∀ body j models token, text.parse body = some j →
        parseModelList text body = .ok (.ok (models, token)) →
          (ModelsKept j models ↔ ModelsFit j)) ∧
      ∀ usage u, parseUsage usage = .ok u →
        (FieldsKept usage (tokenCounts u) ↔ FieldsFit usage countKeys) := by
  refine ⟨fun js rs h => ⟨streamKept_iff h, fun k hk => mergeAll_taken h hk⟩, ?_, ?_⟩
  · intro body j models token hbody h
    exact modelsKept_iff (models_parseModelList hbody h)
  · exact fun usage u h => fieldsKept_iff (readFrom_parseUsage h)

/-- A response with one candidate and one count. -/
def countedDocument (index count : UInt64) : Json :=
  .obj [(ascii "candidates", .arr [.obj [], .obj [(ascii "index", .uint index)]]),
    (ascii "usageMetadata", .obj [(ascii "promptTokenCount", .uint count)])]

def countedResponse (index : Int32) (count : Int64) : GenerateResponse :=
  { candidates :=
      [{ content := { role := .model, parts := [] }, finishReason := [], index := 0 },
        { content := { role := .model, parts := [] }, finishReason := [], index }]
    usage := { UsageMetadata.zero with promptTokens := count }, modelVersion := [], responseId := []
    promptBlockReason := none }

def limitedList : Json :=
  .obj [(ascii "models", .arr [.obj [(ascii "inputTokenLimit", .uint 8192)]])]

theorem integers_kept_counted :
    StreamKept [countedDocument 1 5] [countedResponse 1 5] ∧
      (∃ models, ModelsKept limitedList models) ∧
      FieldsKept (.obj [(ascii "promptTokenCount", .uint 5)])
        (tokenCounts (countedResponse 1 5).usage) := by
  obtain ⟨hstream, hmodels, husage⟩ :=
    integers_kept_iff (JsonText.known [(ascii "list", limitedList)] [])
  refine ⟨?_, ?_, ?_⟩
  · rw [(hstream _ _ (.cons rfl .nil)).1]
    intro j hj
    rw [List.mem_singleton.mp hj]
    decide
  · refine ⟨_, (hmodels (ascii "list") limitedList _ [] rfl rfl).mpr ?_⟩
    intro m hm
    rw [List.mem_singleton.mp hm]
    decide
  · rw [husage (.obj [(ascii "promptTokenCount", .uint 5)]) (countedResponse 1 5).usage rfl]
    decide

/-- Two candidates become one, and a count becomes negative. -/
theorem integers_kept_wrapped :
    parseGenerateResponse (countedDocument 4294967296 18446744073709551615) =
        .ok (.ok (countedResponse 0 (-1))) ∧
      ¬StreamKept [countedDocument 4294967296 18446744073709551615] [countedResponse 0 (-1)] ∧
      (mergeAll [countedResponse 0 (-1)]).candidates.length = 1 := by
  refine ⟨rfl, ?_, rfl⟩
  intro hkept
  rw [streamKept_iff (.cons rfl .nil)] at hkept
  have hfits := hkept _ List.mem_cons_self
  revert hfits
  decide

end GeminiCpp.Wire
