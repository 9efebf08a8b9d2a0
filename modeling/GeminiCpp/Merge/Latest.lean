import GeminiCpp.Merge

/-! Merging keeps the latest value of a field that is not empty. Each field has its own test of
what is empty, and the test for token counts looks at two counts of the four. -/
namespace GeminiCpp

/-- The last of some values that is `full`, or else a default. -/
def latest {α : Type} (full : α → Bool) (default : α) (values : List α) : α :=
  ((values.filter full).getLast?).getD default

section
variable {α : Type} {full : α → Bool}

theorem latest_cons (default a : α) (values : List α) :
    latest full default (a :: values) = latest full (if full a then a else default) values := by
  unfold latest
  by_cases ha : full a = true
  · rw [List.filter_cons_of_pos ha, if_pos ha, List.getLast?_cons, Option.getD_some]
  · rw [List.filter_cons_of_neg ha, if_neg ha]

/-- The value picked is a default or a value that is accepted. -/
theorem latest_cases (full : α → Bool) (default : α) (values : List α) :
    (values.filter full = [] ∧ latest full default values = default) ∨
      ((values.filter full).getLast? = some (latest full default values) ∧
        full (latest full default values) = true) := by
  unfold latest
  cases hlast : (values.filter full).getLast? with
  | none => exact Or.inl ⟨List.getLast?_eq_none_iff.mp hlast, rfl⟩
  | some a =>
    have hmem := List.mem_of_getLast? hlast
    exact Or.inr ⟨rfl, (List.mem_filter.mp hmem).2⟩

/-- A stricter test picks the same value if it accepts the one that the other test picks. -/
theorem latest_eq_of_imp {strict : α → Bool} (himp : ∀ a, strict a = true → full a = true)
    (default : α) (values : List α)
    (h : ∀ a, (values.filter full).getLast? = some a → strict a = true) :
    latest strict default values = latest full default values := by
  have hfilter : values.filter strict = (values.filter full).filter strict := by
    rw [List.filter_filter]
    apply List.filter_congr
    intro a _
    cases hstrict : strict a with
    | false => rfl
    | true => rw [himp a hstrict]; rfl
  unfold latest
  rw [hfilter]
  rcases List.eq_nil_or_concat (values.filter full) with hnil | ⟨before, a, hlast⟩
  · rw [hnil, List.filter_nil]
  · rw [List.concat_eq_append] at hlast
    have ha : strict a = true := h a (by rw [hlast, List.getLast?_concat])
    rw [hlast, List.filter_append, List.filter_cons_of_pos ha, List.filter_nil,
      List.getLast?_concat, List.getLast?_concat]

/-- A field that each step of a fold replaces when the new value is accepted. -/
theorem foldl_field {ρ γ : Type} {step : ρ → γ → ρ} {field : ρ → α} {given : γ → α}
    (h : ∀ r c, field (step r c) = if full (given c) then given c else field r)
    (items : List γ) (r : ρ) :
    field (items.foldl step r) = latest full (field r) (items.map given) := by
  induction items generalizing r with
  | nil => rfl
  | cons c items ih => rw [List.foldl_cons, ih, h, List.map_cons, latest_cons]

end

/-- The test of the code for token counts. -/
def UsageMetadata.counted (u : UsageMetadata) : Bool := u.totalTokens ≠ 0 ∨ u.promptTokens ≠ 0

def UsageMetadata.nonempty (u : UsageMetadata) : Bool := u ≠ .zero

theorem UsageMetadata.nonempty_of_counted {u : UsageMetadata} (h : u.counted = true) :
    u.nonempty = true := by
  unfold UsageMetadata.nonempty
  rw [decide_eq_true_eq]
  intro hzero
  rw [hzero] at h
  exact absurd h (by decide)

def bytesNonempty (b : Bytes) : Bool := b ≠ []

/-- Every field of an aggregate is what the last chunk says in which the field is not empty. -/
structure KeepsLatest (chunks : List GenerateResponse) (r : GenerateResponse) : Prop where
  usage : r.usage = latest UsageMetadata.nonempty .zero (chunks.map (·.usage))
  modelVersion : r.modelVersion = latest bytesNonempty [] (chunks.map (·.modelVersion))
  responseId : r.responseId = latest bytesNonempty [] (chunks.map (·.responseId))
  promptBlockReason : r.promptBlockReason =
    latest Option.isSome none (chunks.map (·.promptBlockReason))
  finishReason : ∀ c ∈ r.candidates, c.finishReason = latest bytesNonempty []
    ((ownAt c.index (chunks.flatMap (·.candidates))).map (·.finishReason))

theorem mergeAll_usage (chunks : List GenerateResponse) :
    (mergeAll chunks).usage = latest UsageMetadata.counted .zero (chunks.map (·.usage)) := by
  apply foldl_field
  intro r chunk
  unfold GenerateResponse.merge UsageMetadata.counted
  simp only [decide_eq_true_eq]

theorem ite_bytesNonempty (b b' : Bytes) :
    (if b = [] then b' else b) = if bytesNonempty b = true then b else b' := by
  unfold bytesNonempty
  by_cases hb : b = []
  · simp [hb]
  · simp [hb]

theorem finishReason_foldl_absorb (incoming : List Candidate) (c : Candidate) :
    (incoming.foldl Candidate.absorb c).finishReason =
      latest bytesNonempty c.finishReason (incoming.map (·.finishReason)) :=
  foldl_field (fun _ _ => ite_bytesNonempty ..) incoming c

theorem mergeAll_finishReason (chunks : List GenerateResponse) {c : Candidate}
    (hc : c ∈ (mergeAll chunks).candidates) :
    c.finishReason = latest bytesNonempty []
      ((ownAt c.index (chunks.flatMap (·.candidates))).map (·.finishReason)) := by
  rw [mergeAll_candidates, mergeCandidate_eq, KeyedFold.foldl_insert_nil] at hc
  obtain ⟨index, -, rfl⟩ := List.mem_map.mp hc
  have hindex : ((ownAt index (chunks.flatMap (·.candidates))).foldl Candidate.absorb
      (candidateRules.fresh index)).index = index :=
    KeyedFold.slot_foldl_absorb candidateRules _ _
  change ((ownAt index _).foldl Candidate.absorb _).finishReason = latest _ _
    ((ownAt ((ownAt index _).foldl Candidate.absorb _).index _).map _)
  rw [hindex, finishReason_foldl_absorb]
  rfl

/-- An aggregate keeps the latest values, but for token counts: it does so exactly if the last
counts that are not all zero have a total or a count for the prompt. -/
theorem mergeAll_keepsLatest_iff (chunks : List GenerateResponse) :
    KeepsLatest chunks (mergeAll chunks) ↔
      ∀ u, ((chunks.map (·.usage)).filter UsageMetadata.nonempty).getLast? = some u →
        u.totalTokens ≠ 0 ∨ u.promptTokens ≠ 0 := by
  constructor
  · intro h u hu
    have husage := h.usage
    have hu' : latest UsageMetadata.nonempty .zero (chunks.map (·.usage)) = u := by
      rw [latest, hu, Option.getD_some]
    rw [mergeAll_usage, hu'] at husage
    rcases latest_cases UsageMetadata.counted .zero (chunks.map (·.usage)) with
      ⟨-, hzero⟩ | ⟨-, hcounted⟩
    · have hnonempty := (List.mem_filter.mp (List.mem_of_getLast? hu)).2
      rw [husage] at hzero
      rw [hzero] at hnonempty
      exact absurd hnonempty (by decide)
    · rw [husage] at hcounted
      exact of_decide_eq_true hcounted
  · intro h
    refine ⟨?_, ?_, ?_, ?_, fun c hc => mergeAll_finishReason chunks hc⟩
    · rw [mergeAll_usage]
      apply latest_eq_of_imp fun u => UsageMetadata.nonempty_of_counted
      intro u hu
      exact decide_eq_true (h u hu)
    · exact foldl_field (fun _ _ => ite_bytesNonempty ..) chunks GenerateResponse.empty
    · exact foldl_field (fun _ _ => ite_bytesNonempty ..) chunks GenerateResponse.empty
    · have hreason : ∀ r chunk : GenerateResponse, (r.merge chunk).promptBlockReason =
          if chunk.promptBlockReason.isSome then chunk.promptBlockReason
          else r.promptBlockReason := fun _ _ => rfl
      exact foldl_field hreason chunks GenerateResponse.empty

/-- A chunk that counts the tokens of a candidate only. -/
def candidateTokensOnly : GenerateResponse :=
  { GenerateResponse.empty with usage := { UsageMetadata.zero with candidatesTokens := 5 } }

/-- Its counts are dropped. -/
theorem usage_dropped : ¬KeepsLatest [candidateTokensOnly] (mergeAll [candidateTokensOnly]) := by
  intro h
  have husage := h.usage
  exact absurd husage (by decide)

end GeminiCpp
