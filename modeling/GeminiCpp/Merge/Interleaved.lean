import GeminiCpp.Merge

/-! Streams whose chunks come in another order for different candidates. A candidate does not
depend on it, but the accessors read the candidate that came first. -/
namespace GeminiCpp

namespace GenerateResponse

/-- Whether a chunk has something for the candidate with an index. -/
def carries (index : Int32) (chunk : GenerateResponse) : Bool :=
  chunk.candidates.any (·.index = index)

/-- The candidate of a response with an index. -/
def candidateAt (r : GenerateResponse) (index : Int32) : Option Candidate :=
  r.candidates.find? (·.index = index)

end GenerateResponse

/-- For every index the same chunks come in the same order. -/
def SameByIndex (xs ys : List GenerateResponse) : Prop :=
  ∀ index, xs.filter (·.carries index) = ys.filter (·.carries index)

/-- The index that comes first in a stream. -/
def firstIndex (chunks : List GenerateResponse) : Option Int32 :=
  (chunks.flatMap (·.candidates)).head?.map (·.index)

/-- Chunks that do not carry an index have nothing to say about it. -/
theorem ownAt_flatMap (index : Int32) (chunks : List GenerateResponse) :
    ownAt index (chunks.flatMap (·.candidates)) =
      (chunks.filter (·.carries index)).flatMap fun chunk => ownAt index chunk.candidates := by
  induction chunks with
  | nil => rfl
  | cons chunk chunks ih =>
    have happend : ownAt index (chunk.candidates ++ chunks.flatMap (·.candidates)) =
        ownAt index chunk.candidates ++ ownAt index (chunks.flatMap (·.candidates)) :=
      List.filter_append ..
    rw [List.flatMap_cons, happend, ih]
    by_cases hcarries : chunk.carries index = true
    · rw [List.filter_cons_of_pos hcarries, List.flatMap_cons]
    · have hnone : ownAt index chunk.candidates = [] := by
        apply List.filter_eq_nil_iff.mpr
        intro c hc hindex
        exact hcarries (List.any_eq_true.mpr ⟨c, hc, hindex⟩)
      rw [List.filter_cons_of_neg hcarries, hnone, List.nil_append]

theorem SameByIndex.ownAt_eq {xs ys : List GenerateResponse} (h : SameByIndex xs ys)
    (index : Int32) :
    ownAt index (xs.flatMap (·.candidates)) = ownAt index (ys.flatMap (·.candidates)) := by
  rw [ownAt_flatMap, ownAt_flatMap, h index]

theorem candidateAt_mergeAll (chunks : List GenerateResponse) (index : Int32) :
    (mergeAll chunks).candidateAt index =
      if ownAt index (chunks.flatMap (·.candidates)) = [] then none
      else some ((ownAt index (chunks.flatMap (·.candidates))).foldl Candidate.absorb
        (candidateRules.fresh index)) := by
  unfold GenerateResponse.candidateAt
  rw [mergeAll_candidates, mergeCandidate_eq]
  exact KeyedFold.find_slot candidateRules index _

/-- The candidate that stands first is that of the index that came first. -/
theorem head_mergeAll (chunks : List GenerateResponse) :
    (mergeAll chunks).candidates.head? =
      (firstIndex chunks).bind (mergeAll chunks).candidateAt := by
  unfold firstIndex
  rw [mergeAll_candidates, mergeCandidate_eq, KeyedFold.head_foldl_insert]
  cases hfirst : chunks.flatMap (·.candidates) with
  | nil => rfl
  | cons c candidates =>
    have hown : ownAt c.index (c :: candidates) = c :: ownAt c.index candidates :=
      List.filter_cons_of_pos (decide_eq_true rfl)
    rw [List.head?_cons, Option.map_some, Option.map_some, Option.bind_some, candidateAt_mergeAll,
      hfirst, if_neg]
    · rfl
    · rw [hown]
      exact List.cons_ne_nil _ _

/-- Streams that agree for every index give the same candidate for every index. Of these the
accessors, and the turn that a chat keeps, take the one whose index came first, so they are the
same too if both streams begin with one index. -/
theorem interleaving_keeps_candidates {xs ys : List GenerateResponse} (h : SameByIndex xs ys) :
    (∀ index, (mergeAll xs).candidateAt index = (mergeAll ys).candidateAt index) ∧
      (mergeAll xs).candidates.head? = (firstIndex xs).bind (mergeAll xs).candidateAt ∧
      (mergeAll ys).candidates.head? = (firstIndex ys).bind (mergeAll xs).candidateAt ∧
      (firstIndex xs = firstIndex ys →
        (mergeAll xs).text = (mergeAll ys).text ∧
          (mergeAll xs).functionCalls = (mergeAll ys).functionCalls ∧
          (mergeAll xs).finishReason = (mergeAll ys).finishReason ∧
          (mergeAll xs).candidates.head? = (mergeAll ys).candidates.head?) := by
  have hsame : ∀ index, (mergeAll xs).candidateAt index = (mergeAll ys).candidateAt index := by
    intro index
    rw [candidateAt_mergeAll, candidateAt_mergeAll, h.ownAt_eq]
  have hhead : (mergeAll ys).candidates.head? =
      (firstIndex ys).bind (mergeAll xs).candidateAt := by
    rw [head_mergeAll, funext hsame]
  refine ⟨hsame, head_mergeAll xs, hhead, ?_⟩
  intro hfirst
  have hfront : (mergeAll xs).candidates.head? = (mergeAll ys).candidates.head? := by
    rw [head_mergeAll, hhead, hfirst]
  unfold GenerateResponse.text GenerateResponse.functionCalls GenerateResponse.finishReason
  cases hxs : (mergeAll xs).candidates with
  | nil =>
    rw [hxs] at hfront
    have hys : (mergeAll ys).candidates = [] := List.head?_eq_none_iff.mp hfront.symm
    rw [hys]
    exact ⟨rfl, rfl, rfl, rfl⟩
  | cons c others =>
    rw [hxs, List.head?_cons] at hfront
    obtain ⟨others', hys⟩ := List.head?_eq_some_iff.mp hfront.symm
    rw [hys]
    exact ⟨rfl, rfl, rfl, rfl⟩

/-- A chunk with one fragment of text for a candidate. -/
def textChunk (index : Int32) (t : Bytes) : GenerateResponse :=
  { GenerateResponse.empty with
    candidates :=
      [{ content := { role := .model, parts := [.text t] }, finishReason := [], index }] }

/-- Two candidates, of which either may come first. -/
def zeroFirst : List GenerateResponse :=
  [textChunk 0 (ascii "a"), textChunk 1 (ascii "b"), textChunk 0 (ascii "c")]

def oneFirst : List GenerateResponse :=
  [textChunk 1 (ascii "b"), textChunk 0 (ascii "a"), textChunk 0 (ascii "c")]

def oneLast : List GenerateResponse :=
  [textChunk 0 (ascii "a"), textChunk 0 (ascii "c"), textChunk 1 (ascii "b")]

theorem sameByIndex_zeroFirst : SameByIndex zeroFirst oneFirst ∧ SameByIndex zeroFirst oneLast := by
  have hsplit : ∀ index, zeroFirst.filter (·.carries index) = oneFirst.filter (·.carries index) ∧
      zeroFirst.filter (·.carries index) = oneLast.filter (·.carries index) := by
    intro index
    by_cases hzero : (0 : Int32) = index
    · subst hzero
      simp [zeroFirst, oneFirst, oneLast, textChunk, GenerateResponse.carries]
    · by_cases hone : (1 : Int32) = index
      · subst hone
        simp [zeroFirst, oneFirst, oneLast, textChunk, GenerateResponse.carries]
      · simp [zeroFirst, oneFirst, oneLast, textChunk, GenerateResponse.carries, hzero, hone]
  exact ⟨fun index => (hsplit index).1, fun index => (hsplit index).2⟩

/-- The text depends on which one does. -/
theorem text_depends_on_first :
    SameByIndex zeroFirst oneFirst ∧ (mergeAll zeroFirst).text = ascii "ac" ∧
      (mergeAll oneFirst).text = ascii "b" :=
  ⟨sameByIndex_zeroFirst.1, by decide, by decide⟩

theorem interleaving_keeps_candidates_oneLast :
    (mergeAll zeroFirst).candidateAt 1 = (mergeAll oneLast).candidateAt 1 ∧
      (mergeAll zeroFirst).text = (mergeAll oneLast).text := by
  obtain ⟨hsame, -, -, hfront⟩ := interleaving_keeps_candidates sameByIndex_zeroFirst.2
  exact ⟨hsame 1, (hfront rfl).1⟩

end GeminiCpp
