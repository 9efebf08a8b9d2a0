import GeminiCpp.Eval.Fences

/-! Replies that are cut off after a line. What `find_code_blocks` keeps of them. -/
namespace GeminiCpp.Eval
open LineBlocks

/-- The state of the scan after the lines of `s`. -/
def scanned (s : Bytes) : Scan Bytes Fence := fenceRule.scan .init (documentLines s)

/-- The blocks that are closed in the lines of `s`. -/
def closedBlocks (s : Bytes) : List CodeBlock := (scanned s).blocks.map codeBlockOf

/-- The block that is open after the lines of `s`, with the lines of it that have been received. -/
def openBlock (s : Bytes) : Option CodeBlock :=
  (scanned s).current.map fun c =>
    codeBlockOf { opening := c.2.1, lines := c.2.2, closed := false }

/-- A fence that closes the block that is open. -/
def closingFence (s : Bytes) : Bytes :=
  match (scanned s).fence with
  | none => []
  | some fence => List.replicate fence.length fence.ch

theorem next_fence {fence : Option Fence} (line : Bytes)
    (h : ∀ f, fence = some f → IsMark f.ch ∧ 3 ≤ f.length) (f : Fence)
    (hnext : fenceRule.next fence line = some f) : IsMark f.ch ∧ 3 ≤ f.length := by
  cases fence with
  | none =>
    obtain ⟨hch, hn, -⟩ := parseFence_eq_some_iff.mp hnext
    exact ⟨hch, hn⟩
  | some current =>
    change (if isClosing line current then none else some current) = some f at hnext
    split_ifs at hnext
    exact h f hnext

/-- The fence of the block that is open has at least three marks. -/
theorem run_fence (lines : List Bytes) {fence : Option Fence}
    (h : ∀ f, fence = some f → IsMark f.ch ∧ 3 ≤ f.length) :
    ∀ f, fenceRule.run fence lines = some f → IsMark f.ch ∧ 3 ≤ f.length := by
  induction lines generalizing fence with
  | nil => exact h
  | cons line lines ih => exact ih (next_fence line h)

theorem scanned_fence {s : Bytes} {f : Fence} (h : (scanned s).fence = some f) :
    IsMark f.ch ∧ 3 ≤ f.length := by
  unfold scanned at h
  rw [Rule.scan_fence] at h
  exact run_fence _ (fun _ hnone => by cases hnone) f h

theorem isClosing_nil {fence : Fence} (h : 3 ≤ fence.length) : isClosing [] fence = false := by
  unfold isClosing
  have hnot : ¬fence.length ≤ 0 := by omega
  simp [skipIndent, hnot]

theorem isClosing_replicate {fence : Fence} (hch : IsMark fence.ch) (h : 3 ≤ fence.length) :
    isClosing (List.replicate fence.length fence.ch) fence = true := by
  rw [isClosing_iff hch (by omega)]
  refine ⟨fence.length, [], ⟨⟨0, by omega, ?_⟩, by simp⟩, Nat.le_refl _, ?_⟩
  · simp
  · exact fun b hb => absurd hb List.not_mem_nil

/-- What is found once the line that follows `s` has been read. -/
theorem findCodeBlocks_append_line (s : Bytes) {line : Bytes} (hlf : 0x0A ∉ line)
    (hcr : line.getLast? ≠ some 0x0D) :
    findCodeBlocks (s ++ 0x0A :: line) =
      (fenceRule.step (scanned s) line).all.map codeBlockOf := by
  rw [findCodeBlocks_eq, documentLines_append, documentLines_line ⟨line, hlf, hcr⟩, Rule.blocks,
    Rule.scan_append]
  rfl

/-- The empty line after the last line break adds a line to the block that is open. -/
theorem findCodeBlocks_cut (s : Bytes) :
    findCodeBlocks (s ++ [0x0A]) = closedBlocks s ++
      ((openBlock s).map fun block => { block with code := block.code ++ [0x0A] }).toList := by
  rw [findCodeBlocks_append_line s List.not_mem_nil (by simp)]
  unfold closedBlocks openBlock
  have hfence : ∀ f, (scanned s).fence = some f → 3 ≤ f.length := fun f h => (scanned_fence h).2
  generalize scanned s = t at hfence ⊢
  obtain ⟨blocks, current⟩ := t
  cases current with
  | none =>
    rw [Rule.step_text (r := fenceRule) rfl]
    simp [Scan.all]
  | some c =>
    obtain ⟨f, opening, lines⟩ := c
    have hopen : isClosing [] f = false := isClosing_nil (hfence f rfl)
    simp [Rule.step, fenceRule, hopen, Scan.all, codeBlockOf, codeOf]

/-- The closing fence closes the block that is open. -/
theorem findCodeBlocks_closed (s : Bytes) :
    findCodeBlocks (s ++ 0x0A :: closingFence s) = closedBlocks s ++
      ((openBlock s).map fun block => { block with terminated := true }).toList := by
  have hfence : ∀ f, (scanned s).fence = some f → IsMark f.ch ∧ 3 ≤ f.length :=
    fun f h => scanned_fence h
  have hline : 0x0A ∉ closingFence s ∧ (closingFence s).getLast? ≠ some 0x0D := by
    have hmarks : ∀ b ∈ closingFence s, IsMark b := by
      intro b hb
      unfold closingFence at hb
      cases hf : (scanned s).fence with
      | none =>
        rw [hf] at hb
        exact absurd hb List.not_mem_nil
      | some f =>
        rw [hf] at hb
        rw [List.eq_of_mem_replicate hb]
        exact (hfence f hf).1
    constructor
    · intro hmem
      exact absurd (hmarks _ hmem) (by unfold IsMark; decide)
    · intro hlast
      exact absurd (hmarks _ (List.mem_of_getLast? hlast)) (by unfold IsMark; decide)
  rw [findCodeBlocks_append_line s hline.1 hline.2]
  unfold closedBlocks openBlock closingFence
  generalize scanned s = t at hfence ⊢
  obtain ⟨blocks, current⟩ := t
  cases current with
  | none =>
    change List.map codeBlockOf (fenceRule.step { blocks, current := none } []).all = _
    rw [Rule.step_text (r := fenceRule) rfl]
    simp [Scan.all]
  | some c =>
    obtain ⟨f, opening, lines⟩ := c
    obtain ⟨hch, hn⟩ := hfence f rfl
    have hcloses := isClosing_replicate hch hn
    change List.map codeBlockOf (fenceRule.step { blocks, current := some (f, opening, lines) }
      (List.replicate f.length f.ch)).all = _
    simp [Rule.step, fenceRule, hcloses, Scan.all, codeBlockOf]

/-- What is received before the cut is kept as it is: the blocks that are closed, and the code of
the one that is open, which is the code that it has if it is closed at the cut. -/
structure KeepsReceived (s rest : Bytes) : Prop where
  found : findCodeBlocks (s ++ [0x0A]) = closedBlocks s ++ (openBlock s).toList
  unchanged : closedBlocks s <+: findCodeBlocks (s ++ 0x0A :: rest)
  code : (findCodeBlocks (s ++ [0x0A])).map CodeBlock.code =
    (findCodeBlocks (s ++ 0x0A :: closingFence s)).map CodeBlock.code

/-- A block that is closed before the cut is one of the whole reply. -/
theorem closedBlocks_prefix (s rest : Bytes) :
    closedBlocks s <+: findCodeBlocks (s ++ 0x0A :: rest) := by
  rw [findCodeBlocks_eq, documentLines_append, Rule.blocks, Rule.scan_append]
  apply List.IsPrefix.map
  exact (Rule.blocks_prefix_scan ..).trans (Rule.blocks_prefix_all _)

/-- For every cut of a reply just after a line break, what was received is kept exactly if and only
if no block is open there. -/
theorem cut_keeps_received_iff (s rest : Bytes) :
    KeepsReceived s rest ↔ openBlock s = none := by
  constructor
  · intro h
    have hfound := h.found
    rw [findCodeBlocks_cut] at hfound
    cases hopen : openBlock s with
    | none => rfl
    | some block =>
      rw [hopen] at hfound
      have hcode := congrArg CodeBlock.code
        (List.cons.inj (List.append_cancel_left hfound)).1
      exact absurd (List.append_right_eq_self.mp hcode) (List.cons_ne_nil _ _)
  · intro h
    have hfound := findCodeBlocks_cut s
    have hclosed := findCodeBlocks_closed s
    rw [h] at hfound hclosed
    refine ⟨?_, closedBlocks_prefix s rest, ?_⟩
    · rw [hfound, h]
      rfl
    · rw [hfound, hclosed]
      rfl

theorem cut_keeps_received_open :
    ¬KeepsReceived (ascii "```cpp\nint f() \x7b") (ascii "  return 1;\n\x7d\n```\n") ∧
      findCodeBlocks (ascii "```cpp\nint f() \x7b\n") =
        [{ language := ascii "cpp", code := ascii "int f() \x7b\n\n", terminated := false }] := by
  refine ⟨?_, by decide +kernel⟩
  intro h
  have hcode := h.code
  revert hcode
  decide +kernel

end GeminiCpp.Eval
