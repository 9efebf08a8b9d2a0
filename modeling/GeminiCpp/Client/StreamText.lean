import GeminiCpp.Chat.Cancel
import GeminiCpp.Client.Effects
import GeminiCpp.Merge.Pieces

/-! The text of a streamed reply is that of its chunks, if each chunk brings at most one piece of
the candidate that is read, at its front. -/
namespace GeminiCpp
open Traced Traced.Prog

variable {ω : Type}

/-- A chunk whose first candidate is the only one with an index. -/
def GenerateResponse.FrontAt (index : Int32) (chunk : GenerateResponse) : Prop :=
  ∀ front others, chunk.candidates = front :: others →
    front.index = index ∧ ∀ c ∈ others, c.index ≠ index

/-- At its front a chunk has all the text of the index. -/
theorem GenerateResponse.FrontAt.text {index : Int32} {chunk : GenerateResponse}
    (h : chunk.FrontAt index) : textOf false (partsAt index chunk.candidates) = chunk.text := by
  unfold GenerateResponse.text
  cases hcandidates : chunk.candidates with
  | nil => rfl
  | cons front others =>
    obtain ⟨hfront, hothers⟩ := h front others hcandidates
    have hnone : partsAt index others = [] := by
      unfold partsAt
      rw [List.filter_eq_nil_iff.mpr fun c hc => by simpa using hothers c hc, List.flatMap_nil]
    rw [partsAt_cons_self hfront, hnone, List.append_nil]
    exact front.content.text_eq.symm

theorem textOf_append (thought : Bool) (parts parts' : List Part) :
    textOf thought (parts ++ parts') = textOf thought parts ++ textOf thought parts' :=
  List.flatMap_append

/-- The candidate that comes first is at the front of its chunk. -/
theorem exists_front {chunks : List GenerateResponse} {first : Candidate}
    {incoming : List Candidate} (h : chunks.flatMap (·.candidates) = first :: incoming) :
    ∃ chunk ∈ chunks, ∃ others, chunk.candidates = first :: others := by
  induction chunks generalizing incoming with
  | nil => cases h
  | cons chunk chunks ih =>
    rw [List.flatMap_cons] at h
    cases hcandidates : chunk.candidates with
    | nil =>
      rw [hcandidates, List.nil_append] at h
      obtain ⟨later, hmem, hlater⟩ := ih h
      exact ⟨later, List.mem_cons_of_mem _ hmem, hlater⟩
    | cons front others =>
      rw [hcandidates] at h
      obtain ⟨rfl, -⟩ := List.cons.inj h
      exact ⟨chunk, List.mem_cons_self .., others, hcandidates⟩

/-- The aggregate says what its chunks say at their fronts. -/
theorem text_mergeAll {index : Int32} {chunks : List GenerateResponse}
    (h : ∀ chunk ∈ chunks, chunk.FrontAt index) :
    (mergeAll chunks).text = chunks.flatMap (·.text) := by
  have hparts : textOf false (partsAt index (chunks.flatMap (·.candidates))) =
      chunks.flatMap (·.text) := by
    induction chunks with
    | nil => rfl
    | cons chunk chunks ih =>
      have hchunk := h chunk (List.mem_cons_self ..)
      have hchunks := ih fun chunk hmem => h chunk (List.mem_cons_of_mem _ hmem)
      rw [List.flatMap_cons, List.flatMap_cons, partsAt_append, textOf_append, hchunk.text, hchunks]
  cases hall : chunks.flatMap (·.candidates) with
  | nil =>
    have hempty : (mergeAll chunks).candidates = [] := by rw [mergeAll_candidates, hall]; rfl
    rw [← hparts, hall]
    unfold GenerateResponse.text
    rw [hempty]
    rfl
  | cons first incoming =>
    obtain ⟨chunk, hmem, others, hchunk⟩ := exists_front hall
    have hindex : first.index = index := (h chunk hmem first others hchunk).1
    obtain ⟨c, others, hcandidates, hc⟩ := mergeAll_first hall
    rw [hindex, ← hall] at hc
    have htext := (keeps_of_foldl hc).text
    rw [← hparts, ← htext]
    unfold GenerateResponse.text
    rw [hcandidates]

namespace Client
variable (c : Client ω)

/-- The text of a streamed reply is that of the chunks that were handed to the callback. -/
theorem wp_stream_text (request : GenerateRequest) (onChunk : Option (StreamCallback ω)) (w : ω) :
    wp (c.stream request onChunk) w fun es _ r => ∀ reply index, r = .ok (.ok reply) →
      (∀ chunk ∈ chunksOf es, chunk.FrontAt index) →
        reply.text = (chunksOf es).flatMap (·.text) := by
  rcases hvalid : c.validate request with e | ⟨⟩
  · simp only [stream, hvalid, wp_bind, wp_emit, then_ok, wp_pure]
    exact fun reply index h => by cases h
  refine wp_mono (wp_stream c request onChunk w hvalid) fun es _ r h => ?_
  rcases h with ⟨x, -, rfl, -⟩ | ⟨body, -, s, before, after, -, rfl, rfl, hbefore, hafter⟩
  · exact fun reply index h => by cases h
  have spec := wp_iff.mp (wp_streamAttempt c body onChunk s)
  have hchunks : chunksOf (before ++ (c.streamAttempt body onChunk s).events ++ after) =
      chunksOf (c.streamAttempt body onChunk s).events := by
    rw [chunksOf_append, chunksOf_append, chunksOf_of_silent hbefore,
      chunksOf_of_silent fun e he => (hafter e he).silent, List.append_nil, List.nil_append]
  rw [hchunks]
  intro reply index hr hfronts
  rcases hresult : (c.streamAttempt body onChunk s).result with x | (e | agg)
  · rw [hresult] at hr
    cases hr
  · rw [hresult] at hr
    cases hr
  · rw [hresult] at hr
    have hreply : reply = agg := eq_of_checkBlocked (Except.ok.inj hr).symm
    rw [hreply, spec.aggregate agg hresult, text_mergeAll hfronts]

end Client

end GeminiCpp
