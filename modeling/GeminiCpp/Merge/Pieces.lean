import GeminiCpp.Merge

/-! Merging glues fragments of text together and changes nothing else: what is read of the
parts of an index is the same before and after it. -/
namespace GeminiCpp

variable {α : Type}

/-- A reading of parts that cannot tell two adjacent fragments of one kind from their
concatenation. -/
def IgnoresGluing (f : Part → List α) : Prop :=
  ∀ (t u : Bytes) (thought : Bool) (s s' s'' : Bytes),
    f { value := .text (t ++ u), thought, thoughtSignature := s'' } =
      f { value := .text t, thought, thoughtSignature := s } ++
        f { value := .text u, thought, thoughtSignature := s' }

theorem flatMap_appendPart {f : Part → List α} (hf : IgnoresGluing f) (parts : List Part)
    (incoming : Part) : (appendPart parts incoming).flatMap f = parts.flatMap f ++ f incoming := by
  have hpush : (parts ++ [incoming]).flatMap f = parts.flatMap f ++ f incoming := by simp
  unfold appendPart
  split
  case h_2 => exact hpush
  case h_1 u last hu hlast =>
    obtain ⟨before, rfl⟩ : ∃ before, parts = before ++ [last] :=
      List.getLast?_eq_some_iff.mp hlast
    split
    case h_2 => exact hpush
    case h_1 t ht =>
      by_cases hkind : last.thought = incoming.thought ∧
          (last.thoughtSignature = [] ∨ incoming.thoughtSignature = [])
      · rw [if_pos hkind]
        obtain ⟨value, thought, s⟩ := last
        obtain ⟨value', thought', s'⟩ := incoming
        obtain ⟨rfl, -⟩ : thought = thought' ∧ _ := hkind
        obtain rfl : value = .text t := ht
        obtain rfl : value' = .text u := hu
        have hglue := hf t u thought s s'
        simp [hglue]
      · rw [if_neg hkind]
        exact hpush

theorem flatMap_foldl_appendPart {f : Part → List α} (hf : IgnoresGluing f)
    (parts incoming : List Part) :
    (incoming.foldl appendPart parts).flatMap f = parts.flatMap f ++ incoming.flatMap f := by
  induction incoming generalizing parts with
  | nil => simp
  | cons p incoming ih =>
    rw [List.foldl_cons, ih, flatMap_appendPart hf, List.flatMap_cons, List.append_assoc]

/-- The text of a part of one kind. -/
def Part.textIf (thought : Bool) (p : Part) : Bytes :=
  if p.thought = thought then p.asText.getD [] else []

/-- The text of the parts of one kind. -/
def textOf (thought : Bool) (parts : List Part) : Bytes := parts.flatMap (Part.textIf thought)

theorem Content.text_eq (c : Content) : c.text = textOf false c.parts := by
  unfold Content.text textOf
  induction c.parts with
  | nil => rfl
  | cons p parts ih =>
    rw [List.flatMap_cons, ← ih]
    unfold Part.textIf
    cases hthought : p.thought with
    | true => simp [hthought]
    | false => cases htext : p.asText <;> simp [hthought, htext]

/-- A function call or a function response. -/
def Part.isFunction (p : Part) : Bool := p.asText.isNone

/-- What the parts of a candidate say, one after the other: the bytes of its text with their
kind, and its function parts. -/
inductive Piece
  | byte (b : UInt8) (thought : Bool)
  | function (p : Part)

def Part.pieces (p : Part) : List Piece :=
  match p.value with
  | .text t => t.map fun b => .byte b p.thought
  | _ => [.function p]

theorem ignoresGluing_textIf (thought : Bool) : IgnoresGluing (Part.textIf thought) := by
  intro t u kind s s' s''
  unfold Part.textIf
  by_cases h : kind = thought
  · simp [h, Part.asText]
  · simp [h]

theorem ignoresGluing_isFunction : IgnoresGluing fun p => [p].filter Part.isFunction := by
  intro t u kind s s' s''
  rfl

theorem ignoresGluing_pieces : IgnoresGluing Part.pieces := by
  intro t u kind s s' s''
  exact List.map_append

/-- Some parts and a candidate that has them after a merge. -/
structure Keeps (received : List Part) (candidate : Candidate) : Prop where
  text : candidate.content.text = textOf false received
  thoughts : textOf true candidate.content.parts = textOf true received
  functions : candidate.content.parts.filter Part.isFunction = received.filter Part.isFunction
  /-- No text has moved across a function part or across text of the other kind. -/
  order : candidate.content.parts.flatMap Part.pieces = received.flatMap Part.pieces

theorem keeps_of_foldl {received : List Part} {candidate : Candidate}
    (h : candidate.content.parts = received.foldl appendPart []) : Keeps received candidate := by
  have hfilter : ∀ parts : List Part, parts.filter Part.isFunction =
      parts.flatMap fun p => [p].filter Part.isFunction := by
    intro parts
    induction parts with
    | nil => rfl
    | cons p parts ih =>
      rw [List.flatMap_cons, ← ih, List.filter_cons]
      split_ifs with hp <;> simp [hp]
  constructor
  case text =>
    rw [Content.text_eq, h]
    exact flatMap_foldl_appendPart (ignoresGluing_textIf false) [] received
  case thoughts =>
    rw [h]
    exact flatMap_foldl_appendPart (ignoresGluing_textIf true) [] received
  case functions =>
    rw [h, hfilter, hfilter received]
    exact flatMap_foldl_appendPart ignoresGluing_isFunction [] received
  case order =>
    rw [h]
    exact flatMap_foldl_appendPart ignoresGluing_pieces [] received

theorem textOf_partsAt (thought : Bool) (index : Int32) (candidates : List Candidate) :
    textOf thought (partsAt index candidates) =
      (candidates.filter (·.index = index)).flatMap fun c => textOf thought c.content.parts := by
  unfold textOf partsAt
  exact List.flatMap_assoc

theorem nodup_eraseDups {β : Type} [BEq β] [LawfulBEq β] (l : List β) : l.eraseDups.Nodup := by
  induction hlength : l.length using Nat.strongRecOn generalizing l with
  | ind n ih =>
    cases l with
    | nil => exact List.nodup_nil
    | cons a l =>
      have hle := List.length_filter_le (fun b => !b == a) l
      rw [List.length_cons] at hlength
      rw [List.eraseDups_cons]
      apply List.nodup_cons.mpr
      constructor
      · intro hmem
        have hin := (List.mem_filter.mp (List.mem_eraseDups.mp hmem)).2
        simp at hin
      · exact ih _ (by omega) _ rfl

/-- The candidates of an aggregate have the indices that came in, in the order in which they
came first, and each candidate keeps what came in under its index. -/
theorem mergeAll_keeps (chunks : List GenerateResponse) :
    let incoming := chunks.flatMap (·.candidates)
    let candidates := (mergeAll chunks).candidates
    candidates.map (·.index) = (incoming.map (·.index)).eraseDups ∧
      (candidates.map (·.index)).Nodup ∧
      ∀ c ∈ candidates,
        let own := incoming.filter (·.index = c.index)
        c.content.text = own.flatMap (·.content.text) ∧
          textOf true c.content.parts = own.flatMap (fun i => textOf true i.content.parts) ∧
          c.content.parts.filter Part.isFunction =
            own.flatMap (fun i => i.content.parts.filter Part.isFunction) ∧
          c.content.parts.flatMap Part.pieces =
            own.flatMap fun i => i.content.parts.flatMap Part.pieces := by
  intro incoming candidates
  have hparts : candidates.map (fun c => (c.index, c.content.parts)) = _ := aggregateParts_eq chunks
  have hindices : candidates.map (·.index) = (incoming.map (·.index)).eraseDups := by
    have hfst := congrArg (List.map Prod.fst) hparts
    rw [List.map_map, List.map_map] at hfst
    exact hfst.trans (List.map_id _)
  refine ⟨hindices, ?_, ?_⟩
  · rw [hindices]
    exact nodup_eraseDups _
  · intro c hc own
    have hmem : (c.index, c.content.parts) ∈ candidates.map fun c => (c.index, c.content.parts) :=
      List.mem_map_of_mem hc
    rw [hparts] at hmem
    obtain ⟨index, -, hpair⟩ := List.mem_map.mp hmem
    obtain ⟨rfl, hc⟩ := Prod.mk.inj hpair
    have hkeeps : Keeps (partsAt c.index incoming) c := keeps_of_foldl hc.symm
    refine ⟨?_, ?_, ?_, ?_⟩
    · rw [hkeeps.text, textOf_partsAt]
      exact List.flatMap_congr fun i _ => (Content.text_eq _).symm
    · rw [hkeeps.thoughts, textOf_partsAt]
    · rw [hkeeps.functions]
      exact List.filter_flatMap
    · rw [hkeeps.order]
      exact List.flatMap_assoc

end GeminiCpp
