import Mathlib.Data.List.TakeWhile
import GeminiCpp.Lib.LineBlocks
import GeminiCpp.Eval.CodeExtract

/-! The lines that `find_code_blocks` takes for fences, and its scan as a line automaton. -/
namespace GeminiCpp.Eval
open LineBlocks

/-- At most three spaces, then exactly `length` times `ch`, then `rest`. -/
structure FenceLine (line : Bytes) (ch : UInt8) (length : ℕ) (rest : Bytes) : Prop where
  shape : ∃ indent, indent ≤ 3 ∧
    line = List.replicate indent 0x20 ++ (List.replicate length ch ++ rest)
  ends : rest.head? ≠ some ch

/-- The characters that a fence is made of. -/
def IsMark (ch : UInt8) : Prop := ch = 0x60 ∨ ch = 0x7E

theorem IsMark.ne_space {ch : UInt8} (h : IsMark ch) : ch ≠ 0x20 := by
  rcases h with rfl | rfl <;> decide

/-- The first word of an info string, in lower case. -/
def languageOf (info : Bytes) : Bytes :=
  ((info.dropWhile isSpace).takeWhile fun b => !(ascii " \t\x7b").contains b).map toLower

theorem run_iff {l rest : Bytes} {ch : UInt8} {n : ℕ} :
    l = List.replicate n ch ++ rest ∧ rest.head? ≠ some ch ↔
      (l.takeWhile (· = ch)).length = n ∧ l.dropWhile (· = ch) = rest := by
  constructor
  · intro h
    obtain ⟨rfl, hends⟩ := h
    have hstop : rest.takeWhile (· = ch) = [] ∧ rest.dropWhile (· = ch) = rest := by
      cases rest with
      | nil => exact ⟨rfl, rfl⟩
      | cons b rest =>
        have hb : ¬b = ch := fun hb => hends (congrArg some hb)
        simp [hb]
    have hall : ∀ b ∈ List.replicate n ch, decide (b = ch) = true := by
      intro b hb
      exact decide_eq_true (List.eq_of_mem_replicate hb)
    rw [List.takeWhile_append_of_pos hall, List.dropWhile_append_of_pos hall, hstop.1, hstop.2,
      List.append_nil, List.length_replicate]
    exact ⟨rfl, rfl⟩
  · intro h
    obtain ⟨rfl, rfl⟩ := h
    have hrun : l.takeWhile (· = ch) = List.replicate (l.takeWhile (· = ch)).length ch := by
      rw [List.eq_replicate_iff]
      refine ⟨rfl, ?_⟩
      intro b hb
      have htrue := List.mem_takeWhile_imp (p := fun b => decide (b = ch)) hb
      exact of_decide_eq_true htrue
    refine ⟨?_, ?_⟩
    · rw [← hrun, List.takeWhile_append_dropWhile]
    · intro hhead
      have hnot := List.head?_dropWhile_not (p := (· = ch)) l
      rw [hhead] at hnot
      simp at hnot

theorem skipIndent_eq_cons_iff {line rest : Bytes} {ch : UInt8} (hch : ch ≠ 0x20) :
    skipIndent line = ch :: rest ↔
      ∃ indent, indent ≤ 3 ∧ line = List.replicate indent 0x20 ++ ch :: rest := by
  unfold skipIndent
  constructor
  · intro h
    have hsplit : line = List.replicate (line.takeWhile (· = 0x20)).length 0x20 ++
        line.dropWhile (· = 0x20) ∧ (line.dropWhile (· = 0x20)).head? ≠ some 0x20 :=
      run_iff.mpr ⟨rfl, rfl⟩
    generalize (line.takeWhile (· = 0x20)).length = indent at h hsplit
    have htake : line.take (min 3 indent) = List.replicate (min 3 indent) 0x20 := by
      have hle : min 3 indent ≤ (List.replicate indent (0x20 : UInt8)).length := by
        rw [List.length_replicate]
        omega
      rw [hsplit.1, List.take_append_of_le_length hle, List.take_replicate]
      congr 1
      omega
    refine ⟨min 3 indent, Nat.min_le_left .., ?_⟩
    rw [← h, ← htake, List.take_append_drop]
  · intro h
    obtain ⟨indent, hindent, rfl⟩ := h
    have hends : (ch :: rest).head? ≠ some 0x20 := fun hhead => hch (Option.some.inj hhead)
    rw [(run_iff.mp ⟨rfl, hends⟩).1, Nat.min_eq_right hindent]
    exact List.drop_left' List.length_replicate

theorem fenceLine_iff {line rest : Bytes} {ch : UInt8} {n : ℕ} (hch : ch ≠ 0x20) (hn : 0 < n) :
    FenceLine line ch n rest ↔
      ((skipIndent line).takeWhile (· = ch)).length = n ∧
        (skipIndent line).dropWhile (· = ch) = rest := by
  rw [← run_iff]
  obtain ⟨m, rfl⟩ := Nat.exists_eq_succ_of_ne_zero (Nat.pos_iff_ne_zero.mp hn)
  rw [List.replicate_succ, List.cons_append, skipIndent_eq_cons_iff hch]
  constructor
  · exact fun h => ⟨h.shape, h.ends⟩
  · exact fun h => ⟨h.1, h.2⟩

/-- A line opens a block if and only if it is a fence of at least three marks. -/
theorem parseFence_eq_some_iff {line : Bytes} {fence : Fence} :
    parseFence line = some fence ↔
      IsMark fence.ch ∧ 3 ≤ fence.length ∧
        ∃ rest, FenceLine line fence.ch fence.length rest ∧ fence.info = languageOf rest := by
  constructor
  · intro h
    unfold parseFence at h
    cases hskip : skipIndent line with
    | nil => rw [hskip] at h; cases h
    | cons ch rest =>
      rw [hskip] at h
      dsimp only at h
      split_ifs at h with hmark hlength
      cases h
      have hch : IsMark ch := by
        unfold IsMark
        by_contra hnot
        exact hmark (not_or.mp hnot)
      refine ⟨hch, by dsimp only; omega, (ch :: rest).dropWhile (· = ch), ?_, rfl⟩
      rw [fenceLine_iff hch.ne_space (by dsimp only; omega), hskip]
      exact ⟨rfl, rfl⟩
  · intro h
    obtain ⟨ch, length, info⟩ := fence
    obtain ⟨hch, hlength, rest, hline, rfl⟩ := h
    dsimp only at hch hlength hline
    rw [fenceLine_iff hch.ne_space (by omega)] at hline
    obtain ⟨hrun, hrest⟩ := hline
    unfold parseFence
    cases hskip : skipIndent line with
    | nil =>
      rw [hskip] at hrun
      change 0 = length at hrun
      omega
    | cons first tail =>
      rw [hskip] at hrun hrest
      have hfirst : first = ch := by
        by_contra hne
        rw [List.takeWhile_cons_of_neg (by simp [hne]), List.length_nil] at hrun
        omega
      subst first
      have hmark : ¬(ch ≠ 0x60 ∧ ch ≠ 0x7E) := fun hnot => hch.elim hnot.1 hnot.2
      have hlong : ¬length < 3 := by omega
      dsimp only
      rw [if_neg hmark, hrun, if_neg hlong, hrest]
      rfl

theorem parseFence_eq_none_iff {line : Bytes} :
    parseFence line = none ↔ ∀ mark length rest, IsMark mark → 3 ≤ length →
      ¬FenceLine line mark length rest := by
  rw [Option.eq_none_iff_forall_ne_some]
  constructor
  · intro hnone mark length rest hmark hlong hline
    exact hnone { ch := mark, length := length, info := languageOf rest }
      (parseFence_eq_some_iff.mpr ⟨hmark, hlong, rest, hline, rfl⟩)
  · intro hplain fence hfence
    obtain ⟨hmark, hlong, rest, hline, -⟩ := parseFence_eq_some_iff.mp hfence
    exact hplain _ _ _ hmark hlong hline

/-- At most three spaces, then at least `length` times `mark`, then only white space. -/
def Closes (mark : UInt8) (length : ℕ) (line : Bytes) : Prop :=
  ∃ n rest, FenceLine line mark n rest ∧ length ≤ n ∧ ∀ b ∈ rest, isSpace b = true

theorem isClosing_iff {line : Bytes} {fence : Fence} (hch : IsMark fence.ch)
    (hlength : 0 < fence.length) :
    isClosing line fence = true ↔ Closes fence.ch fence.length line := by
  unfold isClosing Closes
  dsimp only
  rw [Bool.and_eq_true, decide_eq_true_eq, List.isEmpty_iff, List.dropWhile_eq_nil_iff]
  constructor
  · intro h
    obtain ⟨hrun, hspace⟩ := h
    refine ⟨_, _, ?_, hrun, hspace⟩
    rw [fenceLine_iff hch.ne_space (by omega)]
    exact ⟨rfl, rfl⟩
  · intro h
    obtain ⟨n, rest, hline, hn, hspace⟩ := h
    rw [fenceLine_iff hch.ne_space (by omega)] at hline
    obtain ⟨rfl, rfl⟩ := hline
    exact ⟨hn, hspace⟩

/-- The fences of the code as a rule for lines. -/
def fenceRule : Rule Bytes Fence :=
  { opens := parseFence, closes := fun f line => isClosing line f }

/-- The lines of a reply, without LF and without the CR before it. -/
def documentLines (markdown : Bytes) : List Bytes := (markdown.splitOn 0x0A).map dropCr

/-- A line as it stands between line breaks. -/
structure Line where
  bytes : Bytes
  no_lf : 0x0A ∉ bytes
  no_final_cr : bytes.getLast? ≠ some 0x0D

theorem documentLines_append (s t : Bytes) :
    documentLines (s ++ 0x0A :: t) = documentLines s ++ documentLines t := by
  unfold documentLines
  rw [List.splitOn_append_cons_self, List.map_append]

theorem documentLines_line (line : Line) : documentLines line.bytes = [line.bytes] := by
  unfold documentLines dropCr
  rw [List.splitOn_eq_singleton line.no_lf, List.map_singleton, if_neg line.no_final_cr]

theorem documentLines_cr (line : Line) : documentLines (line.bytes ++ [0x0D]) = [line.bytes] := by
  have hlf : (0x0A : UInt8) ∉ line.bytes ++ [0x0D] := by
    rw [List.mem_append, List.mem_singleton]
    exact not_or.mpr ⟨line.no_lf, by decide⟩
  unfold documentLines dropCr
  rw [List.splitOn_eq_singleton hlf, List.map_singleton,
    if_pos (by rw [List.getLast?_concat]), List.dropLast_concat]

/-- The lines of a text without CR. -/
theorem documentLines_of_no_cr {s : Bytes} (h : 0x0D ∉ s) : documentLines s = s.splitOn 0x0A := by
  unfold documentLines
  rw [List.map_congr_left (g := id), List.map_id]
  intro line hline
  have hcr : line.getLast? ≠ some 0x0D :=
    fun hlast => h ((of_mem_splitOn hline).2 _ (List.mem_of_getLast? hlast))
  exact if_neg hcr

/-- The code of a block, each line with its LF. -/
def codeOf (lines : List Bytes) : Bytes := lines.flatMap fun line => line ++ [0x0A]

theorem codeOf_append (lines more : List Bytes) :
    codeOf (lines ++ more) = codeOf lines ++ codeOf more := List.flatMap_append

/-- The lines of a text, each with its LF, are the text and one more LF. -/
theorem codeOf_splitOn (s : Bytes) : codeOf (s.splitOn 0x0A) = s ++ [0x0A] := by
  have hlines : ∀ lines : List Bytes, lines ≠ [] →
      codeOf lines = [(0x0A : UInt8)].intercalate lines ++ [0x0A] := by
    intro lines hne
    induction lines with
    | nil => exact absurd rfl hne
    | cons line lines ih =>
      cases lines with
      | nil => simp [codeOf]
      | cons second lines =>
        have hrest := ih (List.cons_ne_nil second lines)
        rw [List.intercalate_cons_cons, List.append_assoc, List.append_assoc, ← hrest]
        simp [codeOf]
  rw [hlines _ (List.splitOn_ne_nil _ _), List.intercalate_splitOn]

/-- The info string of an opening line. -/
def languageAt (opening : Bytes) : Bytes := ((parseFence opening).map Fence.info).getD []

def codeBlockOf (block : Block Bytes) : CodeBlock :=
  { language := languageAt block.opening, code := codeOf block.lines, terminated := block.closed }

/-- A state of the scan of the code and one of the line automaton that have found the same. -/
structure Scans (s : BlockScan) (t : Scan Bytes Fence) : Prop where
  blocks : s.blocks = t.blocks.map codeBlockOf
  fence : s.fence = t.fence
  current : ∀ f opening lines, t.current = some (f, opening, lines) →
    s.current = codeBlockOf { opening, lines, closed := true }

theorem Scans.line {s : BlockScan} {t : Scan Bytes Fence} (h : Scans s t) (line : Bytes) :
    Scans (s.line line) (fenceRule.step t line) := by
  obtain ⟨hblocks, hfence, hcurrent⟩ := h
  obtain ⟨blocks, current⟩ := t
  cases current with
  | none =>
    have hnone : s.fence = none := hfence
    unfold BlockScan.line
    rw [hnone]
    cases hopens : parseFence line with
    | none =>
      rw [Rule.step_text hopens]
      exact ⟨hblocks, hfence, hcurrent⟩
    | some f =>
      have hstep : fenceRule.step { blocks, current := none } line =
          { blocks, current := some (f, line, []) } := by
        simp [Rule.step, fenceRule, hopens]
      rw [hstep]
      refine ⟨hblocks, rfl, ?_⟩
      intro f' opening lines hfound
      cases hfound
      simp [codeBlockOf, languageAt, hopens, codeOf]
  | some c =>
    obtain ⟨f, opening, lines⟩ := c
    have hsome : s.fence = some f := hfence
    have hcode := hcurrent f opening lines rfl
    unfold BlockScan.line
    rw [hsome]
    by_cases hcloses : isClosing line f = true
    · have hstep : fenceRule.step { blocks, current := some (f, opening, lines) } line =
          { blocks := blocks ++ [{ opening, lines, closed := true }], current := none } := by
        simp [Rule.step, fenceRule, hcloses]
      rw [hstep]
      dsimp only
      rw [if_pos hcloses, hcode]
      refine ⟨?_, rfl, ?_⟩
      · rw [hblocks, List.map_append]
        rfl
      · intro _ _ _ hfound
        cases hfound
    · have hstep : fenceRule.step { blocks, current := some (f, opening, lines) } line =
          { blocks, current := some (f, opening, lines ++ [line]) } := by
        simp [Rule.step, fenceRule, hcloses]
      rw [hstep]
      dsimp only
      rw [if_neg hcloses, hcode]
      refine ⟨hblocks, rfl, ?_⟩
      intro f' opening' lines' hfound
      cases hfound
      simp [codeBlockOf, codeOf]

theorem Scans.lines {s : BlockScan} {t : Scan Bytes Fence} (h : Scans s t) (lines : List Bytes) :
    Scans (lines.foldl BlockScan.line s) (fenceRule.scan t lines) := by
  induction lines generalizing s t with
  | nil => exact h
  | cons line lines ih => exact ih (h.line line)

/-- `find_code_blocks` finds the blocks of the line automaton. -/
theorem findCodeBlocks_eq (markdown : Bytes) :
    findCodeBlocks markdown =
      (fenceRule.blocks (documentLines markdown)).map codeBlockOf := by
  have hinit : Scans .init .init := ⟨rfl, rfl, fun _ _ _ hfound => by cases hfound⟩
  obtain ⟨hblocks, hfence, hcurrent⟩ := hinit.lines (documentLines markdown)
  unfold findCodeBlocks Rule.blocks
  unfold documentLines at hblocks hfence hcurrent ⊢
  generalize fenceRule.scan .init ((markdown.splitOn 0x0A).map dropCr) = t
    at hblocks hfence hcurrent ⊢
  dsimp only
  rw [hfence, hblocks]
  obtain ⟨blocks, current⟩ := t
  cases current with
  | none => rfl
  | some c =>
    obtain ⟨f, opening, lines⟩ := c
    change _ ++ _ = (blocks ++ _).map codeBlockOf
    rw [hcurrent f opening lines rfl, List.map_append]
    rfl

end GeminiCpp.Eval
