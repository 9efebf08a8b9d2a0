import GeminiCpp.Lib.KeyedFold
import GeminiCpp.Types

/-! What merging the chunks of a stream does to the candidates. -/
namespace GeminiCpp

/-- The parts of the incoming candidates with an index. -/
def partsAt (index : Int32) (candidates : List Candidate) : List Part :=
  (candidates.filter (·.index = index)).flatMap (·.content.parts)

theorem partsAt_cons_self {index : Int32} {c : Candidate} (h : c.index = index)
    (candidates : List Candidate) :
    partsAt index (c :: candidates) = c.content.parts ++ partsAt index candidates := by
  unfold partsAt
  rw [List.filter_cons_of_pos (by simpa using h), List.flatMap_cons]

theorem partsAt_cons_ne {index : Int32} {c : Candidate} (h : c.index ≠ index)
    (candidates : List Candidate) : partsAt index (c :: candidates) = partsAt index candidates := by
  unfold partsAt
  rw [List.filter_cons_of_neg (by simpa using h)]

theorem partsAt_append (index : Int32) (cs cs' : List Candidate) :
    partsAt index (cs ++ cs') = partsAt index cs ++ partsAt index cs' := by
  unfold partsAt
  rw [List.filter_append, List.flatMap_append]

/-- How incoming candidates go into those of the aggregate. -/
def candidateRules : KeyedFold.Rules Candidate Candidate Int32 where
  key := Candidate.index
  slot := Candidate.index
  fresh index := { content := { role := .model, parts := [] }, finishReason := [], index }
  absorb := Candidate.absorb
  slot_fresh _ := rfl
  slot_absorb _ _ := rfl

theorem mergeCandidate_eq : mergeCandidate = KeyedFold.insert candidateRules := by
  funext candidates incoming
  induction candidates with
  | nil => rfl
  | cons c candidates ih =>
    rw [mergeCandidate, KeyedFold.insert, ih]
    rfl

/-- The incoming candidates with an index. -/
abbrev ownAt (index : Int32) (candidates : List Candidate) : List Candidate :=
  KeyedFold.own candidateRules index candidates

/-- What a candidate becomes when it absorbs some others. -/
theorem parts_foldl_absorb (incoming : List Candidate) (c : Candidate) :
    (incoming.foldl Candidate.absorb c).content.parts =
      (incoming.flatMap (·.content.parts)).foldl appendPart c.content.parts := by
  induction incoming generalizing c with
  | nil => rfl
  | cons i incoming ih =>
    rw [List.foldl_cons, ih, List.flatMap_cons, List.foldl_append]
    rfl

/-- Merging sorts the parts by index: the candidates stand in the order in which their indices
came first, and each has the parts of its index. -/
theorem foldl_mergeCandidate_nil (incoming : List Candidate) :
    (incoming.foldl mergeCandidate []).map (fun c => (c.index, c.content.parts)) =
      (incoming.map (·.index)).eraseDups.map fun index =>
        (index, (partsAt index incoming).foldl appendPart []) := by
  rw [mergeCandidate_eq, KeyedFold.foldl_insert_nil, List.map_map]
  apply List.map_congr_left
  intro index _
  apply Prod.ext
  · exact KeyedFold.slot_foldl_absorb candidateRules (ownAt index incoming) _
  · exact parts_foldl_absorb (ownAt index incoming) _

/-- Merging chunks is merging their candidates, one after the other. -/
theorem mergeAll_candidates (chunks : List GenerateResponse) :
    (mergeAll chunks).candidates = (chunks.flatMap (·.candidates)).foldl mergeCandidate [] := by
  have hfold : ∀ r : GenerateResponse, (chunks.foldl GenerateResponse.merge r).candidates =
      (chunks.flatMap (·.candidates)).foldl mergeCandidate r.candidates := by
    induction chunks with
    | nil => exact fun r => rfl
    | cons chunk chunks ih =>
      intro r
      rw [List.foldl_cons, ih, List.flatMap_cons, List.foldl_append]
      rfl
  exact hfold .empty

/-- The parts of an aggregate, with the index of their candidate. -/
def aggregateParts (chunks : List GenerateResponse) : List (Int32 × List Part) :=
  (mergeAll chunks).candidates.map fun c => (c.index, c.content.parts)

theorem aggregateParts_eq (chunks : List GenerateResponse) :
    aggregateParts chunks =
      ((chunks.flatMap (·.candidates)).map (·.index)).eraseDups.map fun index =>
        (index, (partsAt index (chunks.flatMap (·.candidates))).foldl appendPart []) := by
  unfold aggregateParts
  rw [mergeAll_candidates]
  exact foldl_mergeCandidate_nil _

/-- The first candidate of an aggregate has the parts of the index that came first. -/
theorem mergeAll_first {chunks : List GenerateResponse} {first : Candidate}
    {incoming : List Candidate} (h : chunks.flatMap (·.candidates) = first :: incoming) :
    ∃ c others, (mergeAll chunks).candidates = c :: others ∧
      c.content.parts = (partsAt first.index (first :: incoming)).foldl appendPart [] := by
  have hparts := aggregateParts_eq chunks
  rw [h, List.map_cons, List.eraseDups_cons, List.map_cons] at hparts
  unfold aggregateParts at hparts
  cases hcandidates : (mergeAll chunks).candidates with
  | nil =>
    rw [hcandidates] at hparts
    cases hparts
  | cons c others =>
    rw [hcandidates, List.map_cons] at hparts
    exact ⟨c, others, rfl, (Prod.mk.inj (List.cons.inj hparts).1).2⟩

end GeminiCpp
