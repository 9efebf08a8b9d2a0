import GeminiCpp.Eval.Fences

/-! Markdown documents with fenced blocks as they are written. The blocks are found as they were
written. -/
namespace GeminiCpp.Eval
open LineBlocks

/-- A fenced block. What stands in it may look like another fence, as long as it does not close
this one. -/
structure WrittenBlock where
  mark : UInt8
  marks : IsMark mark
  length : ℕ
  long : 3 ≤ length
  indent : ℕ
  indented : indent ≤ 3
  info : Line
  info_head : info.bytes.head? ≠ some mark
  code : List Line
  inside : ∀ line ∈ code, ¬Closes mark length line.bytes
  closing : Line
  closes : Closes mark length closing.bytes

namespace WrittenBlock

def opening (b : WrittenBlock) : Line where
  bytes := List.replicate b.indent 0x20 ++ (List.replicate b.length b.mark ++ b.info.bytes)
  no_lf := by
    have hmark : (0x0A : UInt8) ≠ b.mark := by
      rcases b.marks with h | h <;> rw [h] <;> decide
    rw [List.mem_append, List.mem_append]
    rintro (hindent | hmarks | hinfo)
    · exact absurd (List.eq_of_mem_replicate hindent) (by decide)
    · exact hmark (List.eq_of_mem_replicate hmarks)
    · exact b.info.no_lf hinfo
  no_final_cr := by
    have hmark : b.mark ≠ 0x0D := by
      rcases b.marks with h | h <;> rw [h] <;> decide
    have hlong := b.long
    intro hlast
    rw [List.getLast?_append, List.getLast?_append, List.getLast?_replicate,
      if_neg (by omega)] at hlast
    cases hinfo : b.info.bytes.getLast? with
    | none =>
      rw [hinfo] at hlast
      exact hmark (Option.some.inj hlast)
    | some last =>
      rw [hinfo] at hlast
      exact b.info.no_final_cr (hinfo.trans hlast)

/-- The block as it should be found. -/
def found (b : WrittenBlock) : CodeBlock :=
  { language := languageOf b.info.bytes, code := codeOf (b.code.map Line.bytes)
    terminated := true }

theorem parseFence_opening (b : WrittenBlock) :
    parseFence b.opening.bytes =
      some { ch := b.mark, length := b.length, info := languageOf b.info.bytes } := by
  rw [parseFence_eq_some_iff]
  exact ⟨b.marks, b.long, b.info.bytes, ⟨⟨b.indent, b.indented, rfl⟩, b.info_head⟩, rfl⟩

end WrittenBlock

/-- A part of a document: a line of prose or a block. A line break at the end of the document
is a last line of prose that is empty. -/
inductive Segment
  | prose (line : Line)
    (plain : ∀ mark length rest, IsMark mark → 3 ≤ length →
      ¬FenceLine line.bytes mark length rest)
  | block (b : WrittenBlock)

namespace Segment

def lines : Segment → List Line
  | .prose line _ => [line]
  | .block b => b.opening :: (b.code ++ [b.closing])

def block? : Segment → Option WrittenBlock
  | .prose .. => none
  | .block b => some b

end Segment

/-- Joins lines; `crlf i` says whether the line break after line `i` is CRLF. -/
def joinLines (crlf : ℕ → Bool) : ℕ → List Line → Bytes
  | _, [] => []
  | _, [line] => line.bytes
  | i, line :: lines =>
    line.bytes ++ (if crlf i then [0x0D, 0x0A] else [0x0A]) ++ joinLines crlf (i + 1) lines

theorem documentLines_joinLines (crlf : ℕ → Bool) (i : ℕ) {lines : List Line}
    (hne : lines ≠ []) :
    documentLines (joinLines crlf i lines) = lines.map Line.bytes := by
  induction lines generalizing i with
  | nil => exact absurd rfl hne
  | cons line lines ih =>
    cases lines with
    | nil => exact documentLines_line line
    | cons second lines =>
      have hrest := ih (i + 1) (List.cons_ne_nil second lines)
      rw [joinLines, List.map_cons, ← hrest]
      · split_ifs
        · rw [List.append_assoc, List.cons_append, List.append_cons, List.cons_append,
            documentLines_append, documentLines_cr]
          rfl
        · rw [List.append_assoc, List.cons_append, documentLines_append, documentLines_line]
          rfl
      · exact List.cons_ne_nil second lines

/-- A line of prose changes nothing, and a block is found as it is written. -/
theorem scan_segment (blocks : List (Block Bytes)) (segment : Segment) :
    ∃ more, more.map codeBlockOf = segment.block?.toList.map WrittenBlock.found ∧
      fenceRule.scan { blocks, current := none } (segment.lines.map Line.bytes) =
        { blocks := blocks ++ more, current := none } := by
  cases segment with
  | prose line plain =>
    refine ⟨[], rfl, ?_⟩
    rw [List.append_nil]
    exact Rule.step_text (parseFence_eq_none_iff.mpr plain)
  | block b =>
    have hcloses : ∀ line : Bytes, isClosing line
        { ch := b.mark, length := b.length, info := languageOf b.info.bytes } = true ↔
        Closes b.mark b.length line := by
      have hlong := b.long
      exact fun line => isClosing_iff b.marks (by dsimp only; omega)
    refine ⟨[{ opening := b.opening.bytes, lines := b.code.map Line.bytes, closed := true }],
      ?_, ?_⟩
    · have hlanguage : languageAt b.opening.bytes = languageOf b.info.bytes := by
        rw [languageAt, b.parseFence_opening]
        rfl
      simp [Segment.block?, codeBlockOf, hlanguage, WrittenBlock.found]
    · rw [Segment.lines, List.map_cons, List.map_append]
      apply Rule.scan_block blocks b.parseFence_opening
      · intro line hline
        obtain ⟨l, hl, rfl⟩ := List.mem_map.mp hline
        rw [← Bool.not_eq_true]
        exact fun hclosing => b.inside l hl ((hcloses l.bytes).mp hclosing)
      · exact (hcloses _).mpr b.closes

/-- All segments. -/
theorem scan_segments (blocks : List (Block Bytes)) (segments : List Segment) :
    ∃ more, more.map codeBlockOf =
        (segments.filterMap Segment.block?).map WrittenBlock.found ∧
      fenceRule.scan { blocks, current := none }
          ((segments.flatMap Segment.lines).map Line.bytes) =
        { blocks := blocks ++ more, current := none } := by
  induction segments generalizing blocks with
  | nil => exact ⟨[], rfl, by rw [List.append_nil]; rfl⟩
  | cons segment segments ih =>
    obtain ⟨first, hfirst, hscan⟩ := scan_segment blocks segment
    obtain ⟨rest, hrest, hscans⟩ := ih (blocks ++ first)
    refine ⟨first ++ rest, ?_, ?_⟩
    · rw [List.map_append, hfirst, hrest, ← List.map_append]
      cases segment <;> rfl
    · rw [List.flatMap_cons, List.map_append, Rule.scan_append, hscan, hscans,
        List.append_assoc]

/-- The blocks of a document are found in order, and no line of code is lost, duplicated or
moved. -/
theorem fenced_blocks_recovered (segments : List Segment) (crlf : ℕ → Bool) :
    findCodeBlocks (joinLines crlf 0 (segments.flatMap Segment.lines)) =
      (segments.filterMap Segment.block?).map WrittenBlock.found := by
  cases segments with
  | nil => rfl
  | cons segment segments =>
    have hne : (segment :: segments).flatMap Segment.lines ≠ [] := by
      rw [List.flatMap_cons]
      intro hnil
      have hlines : segment.lines = [] := (List.append_eq_nil_iff.mp hnil).1
      cases segment <;> cases hlines
    obtain ⟨blocks, hblocks, hscan⟩ := scan_segments [] (segment :: segments)
    rw [findCodeBlocks_eq, documentLines_joinLines crlf 0 hne, Rule.blocks]
    change List.map codeBlockOf (fenceRule.scan { blocks := [], current := none } _).all = _
    rw [hscan]
    exact hblocks

/-- A block in tildes that quotes a fence of backquotes and a shorter fence of its own. -/
def quotingBlock : WrittenBlock where
  mark := 0x7E
  marks := .inr rfl
  length := 4
  long := by decide
  indent := 1
  indented := by decide
  info := { bytes := ascii " Cpp main", no_lf := by decide, no_final_cr := by decide }
  info_head := by decide
  code := [{ bytes := ascii "```cpp", no_lf := by decide, no_final_cr := by decide },
    { bytes := ascii "~~~", no_lf := by decide, no_final_cr := by decide }]
  inside := by
    intro line hline hcloses
    have hclosing : isClosing line.bytes { ch := 0x7E, length := 4, info := [] } = true :=
      (isClosing_iff (.inr rfl) (by decide)).mpr hcloses
    rcases List.mem_pair.mp hline with rfl | rfl <;> exact absurd hclosing (by decide)
  closing := { bytes := ascii "~~~~~ ", no_lf := by decide, no_final_cr := by decide }
  closes := by
    have hclosing : isClosing (ascii "~~~~~ ") { ch := 0x7E, length := 4, info := [] } = true := by
      decide
    exact (isClosing_iff (.inr rfl) (by decide)).mp hclosing

theorem fenced_blocks_recovered_quoting :
    findCodeBlocks (ascii "So:\r\n ~~~~ Cpp main\n```cpp\r\n~~~\n~~~~~ \r\nDone.") =
      [{ language := ascii "cpp", code := ascii "```cpp\n~~~\n", terminated := true }] :=
  fenced_blocks_recovered
    [.prose { bytes := ascii "So:", no_lf := by decide, no_final_cr := by decide }
      (parseFence_eq_none_iff.mp (by decide)),
    .block quotingBlock,
    .prose { bytes := ascii "Done.", no_lf := by decide, no_final_cr := by decide }
      (parseFence_eq_none_iff.mp (by decide))]
    (fun i => i % 2 = 0)

end GeminiCpp.Eval
