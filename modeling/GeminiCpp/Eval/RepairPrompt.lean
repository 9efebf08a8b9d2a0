import GeminiCpp.Eval.CommonMark
import GeminiCpp.Eval.Runner

/-! The prompt that asks for a repair, as `find_code_blocks` reads it. -/
namespace GeminiCpp.Eval
open LineBlocks Runner

/-- The line before the fence. -/
def failureLine (outcome : Outcome) : Line where
  bytes := ascii "Your solution " ++ what outcome ++ ascii ". Output:"
  no_lf := by cases outcome <;> decide
  no_final_cr := by cases outcome <;> decide

def textFence : Line where
  bytes := ascii "```text"
  no_lf := by decide
  no_final_cr := by decide

def closeFence : Line where
  bytes := ascii "```"
  no_lf := by decide
  no_final_cr := by decide

/-- The sentence that asks for the corrected solution. -/
def requestLine : Line where
  bytes := ascii "Fix the problem and reply with the complete corrected solution.hpp in a " ++
    ascii "single ```cpp block."
  no_lf := by decide
  no_final_cr := by decide

/-- The log of the attempt is the first block of the prompt, and the sentence that asks for the
corrected solution is outside all blocks. -/
structure CarriesLog (a : Attempt) : Prop where
  log : (findCodeBlocks (buildRepairPrompt a)).head? =
    some { language := ascii "text", code := a.detail ++ [0x0A], terminated := true }
  request : (lineKinds (buildRepairPrompt a)).getLast? = some .text

theorem buildRepairPrompt_eq (a : Attempt) :
    buildRepairPrompt a = (failureLine a.outcome).bytes ++ 0x0A :: (textFence.bytes ++ 0x0A ::
      (a.detail ++ 0x0A :: (closeFence.bytes ++ 0x0A :: requestLine.bytes))) := by
  have hopen : ascii ". Output:\n```text\n" =
      ascii ". Output:" ++ 0x0A :: (textFence.bytes ++ [0x0A]) := by decide
  have hclose :
      ascii "\n```\nFix the problem and reply with the complete corrected solution.hpp in a " =
        0x0A :: (closeFence.bytes ++ 0x0A ::
          ascii "Fix the problem and reply with the complete corrected solution.hpp in a ") :=
    ascii_append "\n```\n"
      "Fix the problem and reply with the complete corrected solution.hpp in a "
  unfold buildRepairPrompt
  rw [hopen, hclose]
  unfold failureLine requestLine
  simp only [List.append_assoc, List.cons_append, List.nil_append]

/-- The lines of the prompt. -/
theorem documentLines_buildRepairPrompt {a : Attempt} (hcr : 0x0D ∉ a.detail) :
    documentLines (buildRepairPrompt a) =
      (failureLine a.outcome).bytes :: textFence.bytes ::
        (a.detail.splitOn 0x0A ++ [closeFence.bytes, requestLine.bytes]) := by
  rw [buildRepairPrompt_eq, documentLines_append, documentLines_append, documentLines_append,
    documentLines_append, documentLines_line, documentLines_line, documentLines_line,
    documentLines_line, documentLines_of_no_cr hcr]
  rfl

theorem parseFence_failureLine (outcome : Outcome) :
    parseFence (failureLine outcome).bytes = none := by
  cases outcome <;> rfl

theorem parseFence_requestLine : parseFence requestLine.bytes = none := rfl

theorem scan_requestLine (blocks : List (Block Bytes)) :
    fenceRule.scan { blocks, current := none } [requestLine.bytes] =
      { blocks, current := none } := by
  change fenceRule.step { blocks, current := none } requestLine.bytes = _
  exact Rule.step_text (r := fenceRule) parseFence_requestLine

/-- The fence around the log. -/
def logFence : Fence := { ch := 0x60, length := 3, info := ascii "text" }

theorem isClosing_logFence {line : Bytes} :
    isClosing line logFence = true ↔ Closes 0x60 3 line :=
  isClosing_iff (Or.inl rfl) (by decide)

/-- The first two lines open the block. -/
theorem scan_logFence (outcome : Outcome) (lines : List Bytes) :
    fenceRule.scan .init ((failureLine outcome).bytes :: textFence.bytes :: lines) =
      fenceRule.scan { blocks := [], current := some (logFence, textFence.bytes, []) } lines := by
  have hfirst : fenceRule.step .init (failureLine outcome).bytes = .init :=
    Rule.step_text (r := fenceRule) (parseFence_failureLine outcome)
  change fenceRule.scan (fenceRule.step (fenceRule.step .init _) _) _ = _
  rw [hfirst]
  rfl

/-- A log without a closing line is kept as it is. -/
theorem carriesLog_of_not_closes {a : Attempt} (hcr : 0x0D ∉ a.detail)
    (h : ∀ line ∈ a.detail.splitOn 0x0A, ¬Closes 0x60 3 line) : CarriesLog a := by
  have hcode : ∀ line ∈ a.detail.splitOn 0x0A, isClosing line logFence = false := by
    intro line hline
    rw [← Bool.not_eq_true, isClosing_logFence]
    exact h line hline
  -- all lines but the last one
  have hscan : fenceRule.scan .init ((failureLine a.outcome).bytes :: textFence.bytes ::
      (a.detail.splitOn 0x0A ++ [closeFence.bytes])) =
        { blocks :=
            [{ opening := textFence.bytes, lines := a.detail.splitOn 0x0A, closed := true }]
          current := none } := by
    rw [scan_logFence, Rule.scan_close [] hcode rfl]
    rfl
  have hlines : documentLines (buildRepairPrompt a) =
      ((failureLine a.outcome).bytes :: textFence.bytes ::
        (a.detail.splitOn 0x0A ++ [closeFence.bytes])) ++ [requestLine.bytes] := by
    rw [documentLines_buildRepairPrompt hcr, List.cons_append, List.cons_append,
      List.append_assoc]
    rfl
  constructor
  · rw [findCodeBlocks_eq, hlines, Rule.blocks, Rule.scan_append, hscan, scan_requestLine]
    change some (codeBlockOf _) = _
    rw [codeBlockOf, codeOf_splitOn]
    rfl
  · have hkinds : lineKinds (buildRepairPrompt a) =
        fenceRule.kinds none (documentLines (buildRepairPrompt a)) := kinds_eq ..
    have hrun := Rule.scan_fence (r := fenceRule) .init ((failureLine a.outcome).bytes ::
      textFence.bytes :: (a.detail.splitOn 0x0A ++ [closeFence.bytes]))
    rw [hscan] at hrun
    change none = fenceRule.run none _ at hrun
    have hopens : fenceRule.opens requestLine.bytes = none := parseFence_requestLine
    rw [hkinds, hlines, Rule.kinds_append_singleton, List.getLast?_concat, ← hrun, Rule.kind,
      hopens]
    rfl

/-- A line that closes the fence ends the first block there. -/
theorem not_carriesLog_of_closes {a : Attempt} (hcr : 0x0D ∉ a.detail)
    (h : ∃ line ∈ a.detail.splitOn 0x0A, Closes 0x60 3 line) : ¬CarriesLog a := by
  have hcloses : ∃ line ∈ a.detail.splitOn 0x0A, fenceRule.closes logFence line = true := by
    obtain ⟨line, hline, hclosing⟩ := h
    exact ⟨line, hline, isClosing_logFence.mpr hclosing⟩
  obtain ⟨before, line, after, hdetail, hcode, hclosing⟩ := Rule.exists_first_close hcloses
  have hfirst : [{ opening := textFence.bytes, lines := before, closed := true }] <+:
      fenceRule.blocks (documentLines (buildRepairPrompt a)) := by
    have hsplit : a.detail.splitOn 0x0A ++ [closeFence.bytes, requestLine.bytes] =
        before ++ line :: (after ++ [closeFence.bytes, requestLine.bytes]) := by
      rw [hdetail, List.append_assoc, List.cons_append]
    rw [documentLines_buildRepairPrompt hcr, Rule.blocks, scan_logFence, hsplit,
      Rule.scan_close [] hcode hclosing, List.nil_append]
    apply List.IsPrefix.trans ?_ (Rule.blocks_prefix_all _)
    exact Rule.blocks_prefix_scan (r := fenceRule) { blocks := _, current := none } _
  intro hcarries
  obtain ⟨rest, hrest⟩ := hfirst
  have hlog := hcarries.log
  rw [findCodeBlocks_eq, ← hrest] at hlog
  have hsame : codeOf before = a.detail ++ [0x0A] :=
    congrArg CodeBlock.code (Option.some.inj hlog)
  -- the line itself is missing
  rw [← codeOf_splitOn, hdetail, codeOf_append] at hsame
  have hnil := List.self_eq_append_right.mp hsame
  simp [codeOf] at hnil

/-- The repair prompt carries the whole log if and only if no line of it closes the fence that is
put around it. -/
theorem carries_log_iff (a : Attempt) (hcr : 0x0D ∉ a.detail) :
    CarriesLog a ↔ ∀ line ∈ a.detail.splitOn 0x0A, ¬Closes 0x60 3 line := by
  constructor
  · intro hcarries line hline hcloses
    exact not_carriesLog_of_closes hcr ⟨line, hline, hcloses⟩ hcarries
  · exact carriesLog_of_not_closes hcr

/-- An answer without C++ code, as its attempt quotes it. -/
def quotedAttempt (text : Bytes) : Attempt :=
  { round := 0, outcome := .noCode, detail := ascii "finish_reason=STOP\n" ++ text, source := []
    compileTime := 0, runTime := 0 }

theorem carries_log_plain : CarriesLog (quotedAttempt (ascii "Use ```std::mutex``` here.")) := by
  have hopen : ((quotedAttempt (ascii "Use ```std::mutex``` here.")).detail.splitOn 0x0A).all
      (fun line => !isClosing line logFence) = true := by decide
  apply (carries_log_iff (quotedAttempt (ascii "Use ```std::mutex``` here.")) (by decide)).mpr
  intro line hline
  have hnot := List.all_eq_true.mp hopen line hline
  rw [← isClosing_logFence, Bool.not_eq_true]
  rw [Bool.not_eq_true'] at hnot
  exact hnot

theorem carries_log_fenced :
    ¬CarriesLog (quotedAttempt (ascii "```python\nprint(1)\n```")) := by
  have hcloses : ((quotedAttempt (ascii "```python\nprint(1)\n```")).detail.splitOn 0x0A).any
      (isClosing · logFence) = true := by decide
  obtain ⟨line, hline, hclosing⟩ := List.any_eq_true.mp hcloses
  exact not_carriesLog_of_closes (by decide) ⟨line, hline, isClosing_logFence.mp hclosing⟩

end GeminiCpp.Eval
