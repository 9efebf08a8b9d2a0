import GeminiCpp.Sse.RoundTrip

/-! A body of any kind written as one event. It is read back but for a CR at the end of a line,
which the parser takes for a part of the line's end. -/
namespace GeminiCpp

/-- A data line for each of some lines. -/
def dataLines (lines : List (Bytes × LineEnd)) : Bytes :=
  lines.flatMap fun l => ascii "data: " ++ l.1 ++ l.2.mark ++ [lf]

/-- `bytes` are `body` as one event: a data line for each of its lines, and a blank line. -/
def IsEventOf (body bytes : Bytes) : Prop :=
  ∃ (lines : List (Bytes × LineEnd)) (stop : LineEnd),
    lines.map Prod.fst = body.splitOn lf ∧ bytes = dataLines lines ++ stop.mark ++ [lf]

namespace SseParser

/-- What the parser reads of a data line. -/
def dataValue (l : Bytes × LineEnd) : Bytes := stripCr (l.1 ++ l.2.mark)

/-- `payload` is what the parser reads of `body` when it is written as one event. -/
def IsPayloadOf (body payload : Bytes) : Prop :=
  ∃ lines : List (Bytes × LineEnd),
    lines.map Prod.fst = body.splitOn lf ∧ payload = [lf].intercalate (lines.map dataValue)

theorem dataValue_eq (l : Bytes × LineEnd) : dataValue l = l.1 ∨ l.1 = dataValue l ++ [cr] := by
  rcases stripCr_mark l.1 l.2 with hvalue | ⟨line, hline, hvalue⟩
  · exact Or.inl hvalue
  · have hdata : dataValue l = line := hvalue
    rw [hdata]
    exact Or.inr hline

theorem lf_not_mem_dataValue {l : Bytes × LineEnd} (h : lf ∉ l.1) : lf ∉ dataValue l := by
  intro hmem
  rcases dataValue_eq l with hvalue | hline
  · exact h (hvalue ▸ hmem)
  · apply h
    rw [hline]
    exact List.mem_append_left _ hmem

theorem stripCr_append {pre : Bytes} (h : cr ∉ pre) (line : Bytes) :
    stripCr (pre ++ line) = pre ++ stripCr line := by
  rcases List.eq_nil_or_concat line with rfl | ⟨init, last, rfl⟩
  · have hnil : stripCr [] = [] := rfl
    rw [List.append_nil, hnil, List.append_nil, stripCr_of_not_mem h]
  · rw [List.concat_eq_append, ← List.append_assoc]
    unfold stripCr
    rw [List.getLast?_concat, List.getLast?_concat, List.dropLast_concat, List.dropLast_concat]
    split_ifs
    · rfl
    · exact List.append_assoc ..

theorem tokenize_dataLines {p : SseParser} (hp : p.buffer = []) {lines : List (Bytes × LineEnd)}
    (h : ∀ l ∈ lines, lf ∉ l.1) (rest : Bytes) :
    tokenize p (dataLines lines ++ rest) =
      tokenize ((lines.map dataValue).foldl addData p) rest := by
  induction lines generalizing p with
  | nil => rfl
  | cons l lines ih =>
    have hrender : dataLines (l :: lines) ++ rest =
        (ascii "data: " ++ (l.1 ++ l.2.mark)) ++ lf :: (dataLines lines ++ rest) := by
      simp [dataLines]
    have hline : lf ∉ ascii "data: " ++ (l.1 ++ l.2.mark) := by
      intro hmem
      rcases List.mem_append.mp hmem with hmem | hmem
      · exact absurd hmem (by decide)
      · rcases List.mem_append.mp hmem with hmem | hmem
        · exact h l (List.mem_cons_self ..) hmem
        · exact lf_not_mem_mark l.2 hmem
    have hstrip : stripCr (ascii "data: " ++ (l.1 ++ l.2.mark)) = ascii "data: " ++ dataValue l :=
      stripCr_append (by decide) _
    have hnext : (p.addData (dataValue l)).buffer = [] := hp
    rw [hrender, tokenize_line hp hline, hstrip, closeLine_data,
      ih hnext fun l hl => h l (List.mem_cons_of_mem _ hl)]
    rfl

/-- One event is read as one payload, and nothing is left in the parser. -/
theorem tokenize_of_isEventOf {body bytes : Bytes} (h : IsEventOf body bytes) :
    ∃ payload, IsPayloadOf body payload ∧ tokenize .init bytes = (.init, [payload]) := by
  obtain ⟨lines, stop, hlines, rfl⟩ := h
  refine ⟨_, ⟨lines, hlines, rfl⟩, ?_⟩
  have hne : lines.map dataValue ≠ [] := by
    intro hnil
    rw [List.map_eq_nil_iff.mp hnil] at hlines
    exact List.splitOn_ne_nil lf body hlines.symm
  have hlf : ∀ l ∈ lines, lf ∉ l.1 := by
    intro l hl
    have hmem : l.1 ∈ body.splitOn lf := by
      rw [← hlines]
      exact List.mem_map_of_mem hl
    exact (of_mem_splitOn hmem).1
  have hblank : stripCr stop.mark = [] := stripCr_mark_of_not_mem List.not_mem_nil stop
  rw [List.append_assoc, tokenize_dataLines rfl hlf, foldl_addData hne,
    tokenize_line rfl (lf_not_mem_mark stop), hblank]
  rfl

/-- Only two bodies are read as the end mark of a stream. -/
theorem IsPayloadOf.eq_done {body : Bytes} (h : IsPayloadOf body (ascii "[DONE]")) :
    body = ascii "[DONE]" ∨ body = ascii "[DONE]" ++ [cr] := by
  obtain ⟨lines, hlines, hpayload⟩ := h
  have hbody : body = [lf].intercalate (lines.map Prod.fst) := by
    rw [hlines, List.intercalate_splitOn]
  have hsplit : lines.map dataValue = (ascii "[DONE]").splitOn lf := by
    rw [hpayload, List.splitOn_intercalate]
    · intro value hvalue
      obtain ⟨l, hl, rfl⟩ := List.mem_map.mp hvalue
      apply lf_not_mem_dataValue
      have hmem : l.1 ∈ body.splitOn lf := by
        rw [← hlines]
        exact List.mem_map_of_mem hl
      exact (of_mem_splitOn hmem).1
    · intro hnil
      rw [List.map_eq_nil_iff.mp hnil] at hlines
      exact List.splitOn_ne_nil lf body hlines.symm
  have hdone : (ascii "[DONE]").splitOn lf = [ascii "[DONE]"] := by decide
  rw [hdone] at hsplit
  obtain ⟨l, rfl, hvalue⟩ := List.map_eq_singleton_iff.mp hsplit
  rw [List.map_singleton, List.intercalate_singleton] at hbody
  rw [hbody, ← hvalue]
  exact (dataValue_eq l).imp_left Eq.symm

end SseParser

end GeminiCpp
