import Mathlib.Data.List.Induction
import Mathlib.Tactic.Tauto
import GeminiCpp.Merge

/-! Where the server cuts a text. The aggregate of a stream shows a cut only when the signature
of the text stays on its second fragment and the first one is glued to other signed text. -/
namespace GeminiCpp

/-- Gluing looks at the last part only. -/
theorem appendPart_append {last : List Part} (h : last ≠ []) (parts : List Part)
    (incoming : Part) : appendPart (parts ++ last) incoming = parts ++ appendPart last incoming := by
  unfold appendPart
  rw [List.getLast?_append_of_ne_nil parts h]
  split
  case h_2 => exact List.append_assoc ..
  case h_1 =>
    split
    case h_2 => exact List.append_assoc ..
    case h_1 =>
      rw [List.dropLast_append_of_ne_nil h, List.append_assoc, List.append_assoc]
      split <;> rfl

theorem appendPart_ne_nil (parts : List Part) (incoming : Part) :
    appendPart parts incoming ≠ [] := by
  unfold appendPart
  repeat' split
  all_goals simp

theorem foldl_appendPart_append {last : List Part} (h : last ≠ []) (parts incoming : List Part) :
    incoming.foldl appendPart (parts ++ last) = parts ++ incoming.foldl appendPart last := by
  induction incoming generalizing last with
  | nil => rfl
  | cons p incoming ih =>
    rw [List.foldl_cons, List.foldl_cons, appendPart_append h, ih (appendPart_ne_nil last p)]

/-- A text part. -/
def Part.fragment (t : Bytes) (thought : Bool) (thoughtSignature : Bytes) : Part :=
  { value := .text t, thought, thoughtSignature }

def Part.isText (thought : Bool) (p : Part) : Bool := p.asText.isSome && p.thought == thought

theorem Part.eq_fragment {p : Part} {thought : Bool} (h : p.isText thought = true) :
    ∃ t s, p = .fragment t thought s := by
  obtain ⟨value, kind, s⟩ := p
  obtain ⟨htext, hkind⟩ := Bool.and_eq_true_iff.mp h
  obtain rfl : kind = thought := eq_of_beq hkind
  cases value with
  | text t => exact ⟨t, s, rfl⟩
  | call c => cases htext
  | response r => cases htext

section
variable {t u s s' : Bytes} {thought : Bool}

theorem appendPart_glue (h : s = [] ∨ s' = []) :
    appendPart [.fragment t thought s] (.fragment u thought s') =
      [.fragment (t ++ u) thought (if s = [] then s' else s)] := by
  simp [appendPart, Part.fragment, h]

theorem appendPart_signed (h : s ≠ []) (h' : s' ≠ []) :
    appendPart [.fragment t thought s] (.fragment u thought s') =
      [.fragment t thought s, .fragment u thought s'] := by
  simp [appendPart, Part.fragment, h, h']

theorem appendPart_other {last p : Part}
    (h : ∀ thought, last.isText thought = true → p.isText thought = false) :
    appendPart [last] p = [last, p] := by
  obtain ⟨value, kind, s⟩ := last
  obtain ⟨value', kind', s'⟩ := p
  cases value with
  | call c => cases value' <;> rfl
  | response r => cases value' <;> rfl
  | text t =>
    cases value' with
    | call c => rfl
    | response r => rfl
    | text u =>
      have hkind : kind ≠ kind' := by
        intro heq
        have hother := h kind (by simp [Part.isText, Part.asText])
        simp [Part.isText, Part.asText, heq] at hother
      simp [appendPart, hkind]

end

/-- A part is glued to the one before it, or stands after it. -/
theorem appendPart_singleton (last p : Part) :
    (∃ t u thought s s', last = .fragment t thought s ∧ p = .fragment u thought s' ∧
      (s = [] ∨ s' = []) ∧
      appendPart [last] p = [.fragment (t ++ u) thought (if s = [] then s' else s)]) ∨
    appendPart [last] p = [last, p] ∧ ∀ thought, last.isText thought = true →
      p.isText thought = true → last.thoughtSignature ≠ [] ∧ p.thoughtSignature ≠ [] := by
  by_cases hkind : ∃ thought, last.isText thought = true ∧ p.isText thought = true
  · obtain ⟨thought, hlast, hp⟩ := hkind
    obtain ⟨t, s, rfl⟩ := Part.eq_fragment hlast
    obtain ⟨u, s', rfl⟩ := Part.eq_fragment hp
    by_cases hsigned : s = [] ∨ s' = []
    · exact Or.inl ⟨t, u, thought, s, s', rfl, rfl, hsigned, appendPart_glue hsigned⟩
    · rw [not_or] at hsigned
      exact Or.inr ⟨appendPart_signed hsigned.1 hsigned.2, fun _ _ _ => hsigned⟩
  · have hother : ∀ thought, last.isText thought = true → p.isText thought = false := by
      intro thought hlast
      rw [← Bool.not_eq_true]
      exact fun hp => hkind ⟨thought, hlast, hp⟩
    refine Or.inr ⟨appendPart_other hother, fun thought hlast hp => ?_⟩
    rw [hother thought hlast] at hp
    cases hp

/-- The parts end with signed text of a kind. -/
def EndsSigned (thought : Bool) (parts : List Part) : Prop :=
  ∃ before t s, s ≠ [] ∧ parts = before ++ [.fragment t thought s]

/-- There is a signature in the text at the end of the parts, as far as it is of one kind. -/
def signedText (thought : Bool) (parts : List Part) : Bool :=
  (parts.reverse.takeWhile (Part.isText thought)).any fun p => p.thoughtSignature ≠ []

theorem endsSigned_concat {thought : Bool} {before : List Part} {last : Part} :
    EndsSigned thought (before ++ [last]) ↔
      last.isText thought = true ∧ last.thoughtSignature ≠ [] := by
  constructor
  case mp =>
    intro h
    obtain ⟨before', t, s, hs, heq⟩ := h
    obtain rfl := (List.append_singleton_inj.mp heq).2
    exact ⟨by simp [Part.isText, Part.fragment, Part.asText], hs⟩
  case mpr =>
    intro h
    obtain ⟨htext, hs⟩ := h
    obtain ⟨t, s, rfl⟩ := Part.eq_fragment htext
    exact ⟨before, t, s, hs, rfl⟩

/-- What one part does to the end of the aggregate. -/
theorem endsSigned_appendPart (thought : Bool) (parts : List Part) (p : Part) :
    EndsSigned thought (appendPart parts p) ↔
      p.isText thought = true ∧ (p.thoughtSignature ≠ [] ∨ EndsSigned thought parts) := by
  rcases List.eq_nil_or_concat parts with rfl | ⟨before, last, rfl⟩
  · have hnil : ¬ EndsSigned thought [] := fun ⟨_, _, _, _, h⟩ => by simp at h
    have happend : appendPart [] p = [] ++ [p] := by
      unfold appendPart
      split <;> simp_all
    rw [happend, endsSigned_concat]
    simp [hnil]
  · rw [List.concat_eq_append, appendPart_append (List.cons_ne_nil last []), endsSigned_concat]
    rcases appendPart_singleton last p with
      ⟨t, u, kind, s, s', rfl, rfl, hunsigned, hglue⟩ | ⟨hpush, hsigned⟩
    · rw [hglue, endsSigned_concat]
      have hsigned : (if s = [] then s' else s) ≠ [] ↔ s' ≠ [] ∨ s ≠ [] := by
        by_cases hs : s = []
        · simp [hs]
        · simp [hs]
      change kind == thought ∧ (if s = [] then s' else s) ≠ [] ↔
        kind == thought ∧ (s' ≠ [] ∨ kind == thought ∧ s ≠ [])
      rw [hsigned]
      tauto
    · rw [hpush, List.append_cons, endsSigned_concat]
      constructor
      · exact fun ⟨htext, hs⟩ => ⟨htext, Or.inl hs⟩
      · rintro ⟨htext, hs | ⟨hlast, -⟩⟩
        · exact ⟨htext, hs⟩
        · exact ⟨htext, (hsigned thought hlast htext).2⟩

/-- A signature in the text at the end of what was received is one at the end of the
aggregate. -/
theorem endsSigned_foldl_iff (thought : Bool) (received : List Part) :
    EndsSigned thought (received.foldl appendPart []) ↔ signedText thought received = true := by
  induction received using List.reverseRecOn with
  | nil =>
    constructor
    · intro ⟨_, _, _, _, h⟩
      simp at h
    · intro h
      cases h
  | append_singleton received p ih =>
    rw [List.foldl_append, List.foldl_cons, List.foldl_nil, endsSigned_appendPart, ih]
    unfold signedText
    rw [List.reverse_append, List.reverse_singleton, List.singleton_append, List.takeWhile_cons]
    cases p.isText thought with
    | false => simp
    | true => simp

/-- Fragments of a text are glued back together, unless the first one is glued to signed text
and the second one has a signature of its own. -/
theorem appendPart_fragments (parts : List Part) (t u : Bytes) (thought : Bool) (s s' : Bytes)
    (h : s = [] ∨ s' = []) (hparts : s' = [] ∨ ¬ EndsSigned thought parts) :
    appendPart (appendPart parts (.fragment t thought s)) (.fragment u thought s') =
      appendPart parts (.fragment (t ++ u) thought (if s = [] then s' else s)) := by
  rcases List.eq_nil_or_concat parts with rfl | ⟨before, last, rfl⟩
  · exact appendPart_glue h
  · rw [List.concat_eq_append] at hparts ⊢
    rw [endsSigned_concat] at hparts
    have hne := List.cons_ne_nil last []
    rw [appendPart_append hne, appendPart_append (appendPart_ne_nil _ _), appendPart_append hne]
    congr 1
    cases hlast : last.isText thought with
    | false =>
      have hother : ∀ t s, appendPart [last] (.fragment t thought s) =
          [last] ++ [.fragment t thought s] := by
        intro t s
        apply appendPart_other
        intro kind hkind
        rw [← Bool.not_eq_true]
        intro hfragment
        obtain rfl : thought = kind := eq_of_beq hfragment
        rw [hlast] at hkind
        cases hkind
      rw [hother, hother, appendPart_append (List.cons_ne_nil _ _), appendPart_glue h]
    | true =>
      obtain ⟨v, r, rfl⟩ := Part.eq_fragment hlast
      by_cases hr : r = []
      · subst hr
        rw [appendPart_glue (Or.inl rfl), appendPart_glue (Or.inl rfl), if_pos rfl, if_pos rfl,
          appendPart_glue h, List.append_assoc]
      · have hs' : s' = [] := hparts.resolve_right fun hsigned => hsigned ⟨hlast, hr⟩
        subst hs'
        by_cases hs : s = []
        · subst hs
          rw [appendPart_glue (Or.inr rfl), if_neg hr, appendPart_glue (Or.inr rfl), if_neg hr,
            if_pos rfl, appendPart_glue (Or.inr rfl), if_neg hr, List.append_assoc]
        · rw [if_neg hs, appendPart_signed hr hs, appendPart_signed hr hs]
          change appendPart ([_] ++ [_]) _ = [_] ++ [_]
          rw [appendPart_append (List.cons_ne_nil _ _), appendPart_glue (Or.inr rfl), if_neg hs]

/-- Two fragments of a text in the place of it, with its signature on one of them. -/
theorem foldl_fragments_iff (received rest : List Part) (t u : Bytes) (thought : Bool)
    (s : Bytes) (onSecond : Bool) :
    rest.foldl appendPart (appendPart (appendPart (received.foldl appendPart [])
        (.fragment t thought (if onSecond then [] else s)))
        (.fragment u thought (if onSecond then s else []))) =
      rest.foldl appendPart (appendPart (received.foldl appendPart [])
        (.fragment (t ++ u) thought s)) ↔
    ¬ (onSecond = true ∧ s ≠ [] ∧ t ≠ [] ∧ signedText thought received = true) := by
  rw [← endsSigned_foldl_iff]
  generalize received.foldl appendPart [] = parts
  by_cases hmoved : onSecond = true ∧ s ≠ [] ∧ EndsSigned thought parts
  · obtain ⟨rfl, hs, before, v, r, hr, rfl⟩ := hmoved
    have hsigned : EndsSigned thought (before ++ [.fragment v thought r]) :=
      ⟨before, v, r, hr, rfl⟩
    have hne := List.cons_ne_nil (Part.fragment v thought r) []
    have hcut : appendPart (appendPart (before ++ [.fragment v thought r])
        (.fragment t thought [])) (.fragment u thought s) =
          before ++ [.fragment (v ++ t) thought r] ++ [.fragment u thought s] := by
      rw [appendPart_append hne, appendPart_glue (Or.inr rfl), if_neg hr,
        appendPart_append (List.cons_ne_nil _ _), appendPart_signed hr hs, List.append_assoc]
      rfl
    have hwhole : appendPart (before ++ [.fragment v thought r]) (.fragment (t ++ u) thought s) =
        before ++ [.fragment v thought r] ++ [.fragment (t ++ u) thought s] := by
      rw [appendPart_append hne, appendPart_signed hr hs, List.append_assoc]
      rfl
    rw [if_pos rfl, if_pos rfl, hcut, hwhole, foldl_appendPart_append (List.cons_ne_nil _ _),
      foldl_appendPart_append (List.cons_ne_nil _ _)]
    constructor
    · intro heq hcase
      have hlength : (before ++ [Part.fragment (v ++ t) thought r]).length =
          (before ++ [Part.fragment v thought r]).length := by simp
      have hlast := (List.append_singleton_inj.mp (List.append_inj_left heq hlength)).2
      have htext : v ++ t = v := PartValue.text.inj (Part.mk.inj hlast).1
      exact hcase.2.2.1 (List.append_right_eq_self.mp htext)
    · intro hnot
      have ht : t = [] := by
        by_contra ht
        exact hnot ⟨rfl, hs, ht, hsigned⟩
      subst ht
      rw [List.append_nil, List.nil_append]
  · have hnot : ¬ (onSecond = true ∧ s ≠ [] ∧ t ≠ [] ∧ EndsSigned thought parts) :=
      fun ⟨hsecond, hs, _, hsigned⟩ => hmoved ⟨hsecond, hs, hsigned⟩
    refine iff_of_true ?_ hnot
    rw [appendPart_fragments]
    · cases onSecond with
      | true => rfl
      | false => by_cases hs : s = [] <;> simp [hs]
    · cases onSecond <;> simp
    · cases onSecond with
      | false => exact Or.inl rfl
      | true =>
        by_cases hs : s = []
        · exact Or.inl (by simpa using hs)
        · exact Or.inr fun hsigned => hmoved ⟨rfl, hs, hsigned⟩

def Candidate.withParts (c : Candidate) (parts : List Part) : Candidate :=
  { c with content := { c.content with parts } }

/-- A text part of a stream that is cut in two. The chunk and the candidate it stands in are
given without their own candidates and parts. -/
structure TextCut where
  before : List GenerateResponse
  chunk : GenerateResponse
  candidatesBefore : List Candidate
  candidate : Candidate
  partsBefore : List Part
  first : Bytes
  second : Bytes
  thought : Bool
  signature : Bytes
  /-- The signature stays on the second fragment. -/
  onSecond : Bool
  partsAfter : List Part
  candidatesAfter : List Candidate
  after : List GenerateResponse

namespace TextCut
variable (cut : TextCut)

def index : Int32 := cut.candidate.index

def whole : Part := .fragment (cut.first ++ cut.second) cut.thought cut.signature

def firstFragment : Part :=
  .fragment cut.first cut.thought (if cut.onSecond then [] else cut.signature)

def secondFragment : Part :=
  .fragment cut.second cut.thought (if cut.onSecond then cut.signature else [])

/-- The chunk, with these parts in the candidate. -/
def chunkWith (parts : List Part) : GenerateResponse :=
  { cut.chunk with
    candidates :=
      cut.candidatesBefore ++ cut.candidate.withParts parts :: cut.candidatesAfter }

/-- The stream with the whole text. -/
def uncut : List GenerateResponse :=
  cut.before ++ cut.chunkWith (cut.partsBefore ++ cut.whole :: cut.partsAfter) :: cut.after

/-- The stream with both fragments in the chunk of the text. -/
def inOneChunk : List GenerateResponse :=
  cut.before ++
    cut.chunkWith (cut.partsBefore ++ cut.firstFragment :: cut.secondFragment :: cut.partsAfter) ::
      cut.after

/-- The stream with the second fragment, and what stood behind the text, in a chunk after it. -/
def inTwoChunks (inserted : GenerateResponse) (carrier : Candidate) : List GenerateResponse :=
  cut.before ++ cut.chunkWith (cut.partsBefore ++ [cut.firstFragment]) ::
    { inserted with
      candidates := [{ carrier.withParts (cut.secondFragment :: cut.partsAfter) with
                       index := cut.index }] } :: cut.after

/-- What was received under the index of the candidate before the text. -/
def received : List Part :=
  partsAt cut.index (cut.before.flatMap (·.candidates) ++ cut.candidatesBefore) ++ cut.partsBefore

/-- The first fragment is glued to signed text, and the second has a signature of its own. -/
def Misplaced : Prop :=
  cut.onSecond = true ∧ cut.signature ≠ [] ∧ cut.first ≠ [] ∧
    signedText cut.thought cut.received = true

end TextCut

theorem eraseDups_of_mem {β : Type} [BEq β] [LawfulBEq β] {l : List β} {a : β} (h : a ∈ l)
    (rest : List β) : (l ++ a :: rest).eraseDups = (l ++ rest).eraseDups := by
  rw [List.eraseDups_append, List.eraseDups_append]
  congr 2
  unfold List.removeAll
  exact List.filter_cons_of_neg (by simpa using h)

/-- Two streams that differ in the parts of one index. -/
theorem aggregateParts_eq_iff (index : Int32) {chunks chunks' : List GenerateResponse}
    (hindices : ((chunks.flatMap (·.candidates)).map (·.index)).eraseDups =
      ((chunks'.flatMap (·.candidates)).map (·.index)).eraseDups)
    (hindex : index ∈ (chunks.flatMap (·.candidates)).map (·.index))
    (hother : ∀ i, i ≠ index → partsAt i (chunks.flatMap (·.candidates)) =
      partsAt i (chunks'.flatMap (·.candidates))) :
    aggregateParts chunks = aggregateParts chunks' ↔
      (partsAt index (chunks.flatMap (·.candidates))).foldl appendPart [] =
        (partsAt index (chunks'.flatMap (·.candidates))).foldl appendPart [] := by
  rw [aggregateParts_eq, aggregateParts_eq, ← hindices, List.map_inj_left]
  constructor
  · intro h
    exact (Prod.mk.inj (h index (List.mem_eraseDups.mpr hindex))).2
  · intro h i _
    by_cases hi : i = index
    · rw [hi, h]
    · rw [hother i hi]

namespace TextCut
variable (cut : TextCut)

/-- The candidates of a stream, around the one that is cut. -/
theorem candidates_stream (parts : List Part) (chunks : List GenerateResponse) :
    (cut.before ++ cut.chunkWith parts :: chunks).flatMap (·.candidates) =
      (cut.before.flatMap (·.candidates) ++ cut.candidatesBefore) ++
        cut.candidate.withParts parts :: (cut.candidatesAfter ++ chunks.flatMap (·.candidates)) := by
  simp [chunkWith]

theorem partsAt_stream (parts : List Part) (chunks : List GenerateResponse) :
    partsAt cut.index ((cut.before ++ cut.chunkWith parts :: chunks).flatMap (·.candidates)) =
      partsAt cut.index (cut.before.flatMap (·.candidates) ++ cut.candidatesBefore) ++
        (parts ++ partsAt cut.index (cut.candidatesAfter ++ chunks.flatMap (·.candidates))) := by
  rw [candidates_stream, partsAt_append]
  congr 1
  exact partsAt_cons_self rfl _

theorem partsAt_stream_ne {i : Int32} (hi : i ≠ cut.index) (parts : List Part)
    (chunks : List GenerateResponse) :
    partsAt i ((cut.before ++ cut.chunkWith parts :: chunks).flatMap (·.candidates)) =
      partsAt i (cut.before.flatMap (·.candidates) ++ cut.candidatesBefore) ++
        partsAt i (cut.candidatesAfter ++ chunks.flatMap (·.candidates)) := by
  rw [candidates_stream, partsAt_append, partsAt_cons_ne]
  exact Ne.symm hi

theorem indices_stream (parts : List Part) (chunks : List GenerateResponse) :
    ((cut.before ++ cut.chunkWith parts :: chunks).flatMap (·.candidates)).map (·.index) =
      (cut.before.flatMap (·.candidates) ++ cut.candidatesBefore).map (·.index) ++
        cut.index :: (cut.candidatesAfter ++ chunks.flatMap (·.candidates)).map (·.index) := by
  rw [candidates_stream, List.map_append, List.map_cons]
  rfl

/-- Both fragments after what was received, and then the rest. -/
theorem foldl_received_iff (rest : List Part) :
    (cut.received ++ cut.firstFragment :: cut.secondFragment :: rest).foldl appendPart [] =
        (cut.received ++ cut.whole :: rest).foldl appendPart [] ↔ ¬ cut.Misplaced := by
  rw [List.foldl_append, List.foldl_append]
  exact foldl_fragments_iff cut.received rest cut.first cut.second cut.thought cut.signature
    cut.onSecond

theorem inOneChunk_iff : aggregateParts cut.inOneChunk = aggregateParts cut.uncut ↔
    ¬ cut.Misplaced := by
  unfold inOneChunk uncut
  rw [aggregateParts_eq_iff cut.index]
  · rw [partsAt_stream, partsAt_stream]
    have hiff := cut.foldl_received_iff
      (cut.partsAfter ++ partsAt cut.index (cut.candidatesAfter ++ cut.after.flatMap (·.candidates)))
    unfold received at hiff
    simpa only [List.append_assoc, List.cons_append] using hiff
  · rw [indices_stream, indices_stream]
  · rw [indices_stream]
    exact List.mem_append_right _ (List.mem_cons_self ..)
  · intro i hi
    rw [partsAt_stream_ne cut hi, partsAt_stream_ne cut hi]

theorem inTwoChunks_iff (inserted : GenerateResponse) (carrier : Candidate)
    (hadjacent : partsAt cut.index cut.candidatesAfter = []) :
    aggregateParts (cut.inTwoChunks inserted carrier) = aggregateParts cut.uncut ↔
      ¬ cut.Misplaced := by
  let second : Candidate :=
    { carrier.withParts (cut.secondFragment :: cut.partsAfter) with index := cut.index }
  let chunks : List GenerateResponse := { inserted with candidates := [second] } :: cut.after
  have hchunks : chunks.flatMap (·.candidates) = second :: cut.after.flatMap (·.candidates) := rfl
  change aggregateParts (cut.before ++ cut.chunkWith _ :: chunks) = _ ↔ _
  unfold uncut
  rw [aggregateParts_eq_iff cut.index]
  · have hrest : ∀ candidates, partsAt cut.index (cut.candidatesAfter ++ candidates) =
        partsAt cut.index candidates := by
      intro candidates
      rw [partsAt_append, hadjacent, List.nil_append]
    have hsecond : partsAt cut.index (second :: cut.after.flatMap (·.candidates)) =
        cut.secondFragment :: cut.partsAfter ++ partsAt cut.index
          (cut.after.flatMap (·.candidates)) := partsAt_cons_self rfl _
    rw [partsAt_stream, partsAt_stream, hchunks, hrest, hrest, hsecond]
    have hiff := cut.foldl_received_iff
      (cut.partsAfter ++ partsAt cut.index (cut.after.flatMap (·.candidates)))
    unfold received at hiff
    simpa only [List.append_assoc, List.cons_append, List.nil_append] using hiff
  · have hbefore : cut.index ∈ (cut.before.flatMap (·.candidates) ++
        cut.candidatesBefore).map (·.index) ++ cut.index :: cut.candidatesAfter.map (·.index) :=
      List.mem_append_right _ (List.mem_cons_self ..)
    have hdups := eraseDups_of_mem hbefore ((cut.after.flatMap (·.candidates)).map (·.index))
    have hsecond : second.index = cut.index := rfl
    rw [indices_stream, indices_stream, hchunks]
    simpa only [List.map_append, List.map_cons, List.append_assoc, List.cons_append, hsecond]
      using hdups
  · rw [indices_stream]
    exact List.mem_append_right _ (List.mem_cons_self ..)
  · intro i hi
    have hsecond : partsAt i (second :: cut.after.flatMap (·.candidates)) =
        partsAt i (cut.after.flatMap (·.candidates)) :=
      partsAt_cons_ne (c := second) (Ne.symm hi) _
    rw [partsAt_stream_ne cut hi, partsAt_stream_ne cut hi, hchunks,
      partsAt_append i cut.candidatesAfter, partsAt_append i cut.candidatesAfter, hsecond]

/-- A cut in the same chunk, or before a chunk that is inserted, changes the parts of the aggregate
exactly when the signature ends up on the wrong side of it. The fragments are adjacent if nothing
of the index follows in the chunk. -/
theorem aggregateParts_cut_iff :
    (aggregateParts cut.inOneChunk = aggregateParts cut.uncut ↔ ¬ cut.Misplaced) ∧
      ∀ (inserted : GenerateResponse) (carrier : Candidate),
        partsAt cut.index cut.candidatesAfter = [] →
          (aggregateParts (cut.inTwoChunks inserted carrier) = aggregateParts cut.uncut ↔
            ¬ cut.Misplaced) :=
  ⟨cut.inOneChunk_iff, cut.inTwoChunks_iff⟩

/-- The text "bc" with a signature, after the text "a" with another one. -/
def ofThree : TextCut :=
  { before := [.ofPart (.fragment (ascii "a") false (ascii "x"))]
    chunk := .empty
    candidatesBefore := []
    candidate := { content := { role := .model, parts := [] }, finishReason := [], index := 0 }
    partsBefore := []
    first := ascii "b"
    second := ascii "c"
    thought := false
    signature := ascii "y"
    onSecond := true
    partsAfter := []
    candidatesAfter := []
    after := [] }

/-- The "b" moves over to the other signature. -/
theorem ofThree_moves :
    aggregateParts ofThree.uncut =
        [(0, [.fragment (ascii "a") false (ascii "x"), .fragment (ascii "bc") false (ascii "y")])] ∧
      aggregateParts ofThree.inOneChunk =
        [(0, [.fragment (ascii "ab") false (ascii "x"), .fragment (ascii "c") false (ascii "y")])] ∧
      aggregateParts ofThree.inOneChunk ≠ aggregateParts ofThree.uncut := by
  refine ⟨rfl, rfl, fun h => ?_⟩
  have htexts : ascii "ab" = ascii "a" := by
    have hparts := (Prod.mk.inj (List.cons.inj h).1).2
    exact PartValue.text.inj (Part.mk.inj (List.cons.inj hparts).1).1
  exact absurd htexts (by decide)

end TextCut

end GeminiCpp
