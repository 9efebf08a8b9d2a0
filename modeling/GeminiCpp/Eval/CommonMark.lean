import GeminiCpp.Eval.Fences

/-! Fenced blocks as Markdown defines them, and the replies in which `find_code_blocks` takes the
same lines for fences. -/
namespace GeminiCpp.Eval
open LineBlocks

/-- A space or a tab. -/
def isBlank (b : UInt8) : Bool := b = 0x20 || b = 0x09

/-- The rule of CommonMark. What is open is known by its mark and its length. -/
def commonMark : Rule Bytes (UInt8 × ℕ) where
  opens line :=
    match skipIndent line with
    | [] => none
    | ch :: tail =>
      let length := ((ch :: tail).takeWhile (· = ch)).length
      let rest := (ch :: tail).dropWhile (· = ch)
      -- backticks with another backtick after them are a code span
      if (ch = 0x60 ∨ ch = 0x7E) ∧ 3 ≤ length ∧ ¬(ch = 0x60 ∧ 0x60 ∈ rest) then some (ch, length)
      else none
  closes f line :=
    f.2 ≤ ((skipIndent line).takeWhile (· = f.1)).length &&
      ((skipIndent line).dropWhile (· = f.1)).all isBlank

theorem FenceLine.unique {line rest rest' : Bytes} {ch ch' : UInt8} {n n' : ℕ}
    (h : FenceLine line ch n rest) (h' : FenceLine line ch' n' rest') (hch : IsMark ch)
    (hch' : IsMark ch') (hn : 0 < n) (hn' : 0 < n') : ch = ch' ∧ n = n' ∧ rest = rest' := by
  have hsame : ch = ch' := by
    obtain ⟨m, rfl⟩ := Nat.exists_eq_succ_of_ne_zero (Nat.pos_iff_ne_zero.mp hn)
    obtain ⟨m', rfl⟩ := Nat.exists_eq_succ_of_ne_zero (Nat.pos_iff_ne_zero.mp hn')
    have hhead := (skipIndent_eq_cons_iff hch.ne_space).mpr h.shape
    have hhead' := (skipIndent_eq_cons_iff hch'.ne_space).mpr h'.shape
    exact (List.cons.inj (hhead.symm.trans hhead')).1
  subst ch'
  rw [fenceLine_iff hch.ne_space hn] at h
  rw [fenceLine_iff hch.ne_space hn'] at h'
  exact ⟨rfl, h.1.symm.trans h'.1, h.2.symm.trans h'.2⟩

/-- An opening line: at most three spaces, at least three equal marks, and no backtick in the rest
of a line of backticks. -/
theorem commonMark_opens_iff {line : Bytes} {ch : UInt8} {n : ℕ} :
    commonMark.opens line = some (ch, n) ↔
      IsMark ch ∧ 3 ≤ n ∧ ∃ rest, FenceLine line ch n rest ∧ (ch = 0x60 → 0x60 ∉ rest) := by
  unfold commonMark
  dsimp only
  cases hskip : skipIndent line with
  | nil =>
    constructor
    · intro h
      cases h
    · intro h
      obtain ⟨hch, hn, rest, hline, -⟩ := h
      rw [fenceLine_iff hch.ne_space (by omega), hskip] at hline
      have hzero : 0 = n := hline.1
      omega
  | cons first tail =>
    constructor
    · intro h
      dsimp only at h
      split_ifs at h with hfence
      cases h
      obtain ⟨hch, hn, hspan⟩ := hfence
      refine ⟨hch, hn, _, ?_, fun htick hmem => hspan ⟨htick, hmem⟩⟩
      rw [fenceLine_iff (IsMark.ne_space hch) (by omega), hskip]
      exact ⟨rfl, rfl⟩
    · intro h
      obtain ⟨hch, hn, rest, hline, hspan⟩ := h
      rw [fenceLine_iff hch.ne_space (by omega), hskip] at hline
      obtain ⟨hrun, hrest⟩ := hline
      have hfirst : first = ch := by
        by_contra hne
        rw [List.takeWhile_cons_of_neg (by simp [hne]), List.length_nil] at hrun
        omega
      subst first
      dsimp only
      rw [hrun, hrest, if_pos ⟨hch, hn, fun hnot => hspan hnot.1 hnot.2⟩]

/-- A closing line: the same mark, at least as often, and then only blanks. -/
theorem commonMark_closes_iff {line : Bytes} {ch : UInt8} {length : ℕ} (hch : IsMark ch)
    (hlength : 0 < length) :
    commonMark.closes (ch, length) line = true ↔
      ∃ n rest, FenceLine line ch n rest ∧ length ≤ n ∧ ∀ b ∈ rest, isBlank b = true := by
  unfold commonMark
  dsimp only
  rw [Bool.and_eq_true, decide_eq_true_eq, List.all_eq_true]
  constructor
  · intro h
    obtain ⟨hrun, hblank⟩ := h
    refine ⟨_, _, ?_, hrun, hblank⟩
    rw [fenceLine_iff hch.ne_space (by omega)]
    exact ⟨rfl, rfl⟩
  · intro h
    obtain ⟨n, rest, hline, hn, hblank⟩ := h
    rw [fenceLine_iff hch.ne_space (by omega)] at hline
    obtain ⟨rfl, rfl⟩ := hline
    exact ⟨hn, hblank⟩

/-- What `find_code_blocks` does with a line. -/
def BlockScan.kind (s : BlockScan) (line : Bytes) : Kind :=
  match s.fence, (s.line line).fence with
  | none, none => .text
  | none, some _ => .opens
  | some _, some _ => .code
  | some _, none => .closes

def BlockScan.kinds : BlockScan → List Bytes → List Kind
  | _, [] => []
  | s, line :: lines => s.kind line :: (s.line line).kinds lines

/-- What `find_code_blocks` does with each line of a reply. -/
def lineKinds (reply : Bytes) : List Kind := BlockScan.init.kinds (documentLines reply)

theorem line_fence (s : BlockScan) (line : Bytes) :
    (s.line line).fence = fenceRule.next s.fence line := by
  unfold BlockScan.line
  cases hfence : s.fence with
  | none =>
    cases hparse : parseFence line with
    | none => exact hfence.trans hparse.symm
    | some f => exact hparse.symm
  | some f =>
    by_cases hcloses : isClosing line f = true
    · simp [hcloses, Rule.next, fenceRule]
    · simp [hcloses, Rule.next, fenceRule]

theorem kind_eq (s : BlockScan) (line : Bytes) :
    s.kind line = fenceRule.kind s.fence line := by
  unfold BlockScan.kind
  rw [line_fence]
  cases s.fence with
  | none => cases hparse : parseFence line <;> simp [Rule.next, Rule.kind, fenceRule, hparse]
  | some f =>
    by_cases hcloses : isClosing line f = true
    · simp [hcloses, Rule.next, Rule.kind, fenceRule]
    · simp [hcloses, Rule.next, Rule.kind, fenceRule]

theorem kinds_eq (s : BlockScan) (lines : List Bytes) :
    s.kinds lines = fenceRule.kinds s.fence lines := by
  induction lines generalizing s with
  | nil => rfl
  | cons line lines ih => rw [BlockScan.kinds, Rule.kinds, kind_eq, ih, line_fence]

/-- A line that the code takes for a fence although it is none: a code span, or a line with white
space after the marks that is not blank. -/
def Misread : Option (UInt8 × ℕ) → Bytes → Prop
  | none, line => ∃ n rest, 3 ≤ n ∧ FenceLine line 0x60 n rest ∧ 0x60 ∈ rest
  | some (ch, length), line => ∃ n rest, length ≤ n ∧ FenceLine line ch n rest ∧
    (∀ b ∈ rest, isSpace b = true) ∧ ∃ b ∈ rest, isBlank b = false

theorem isSpace_of_isBlank {b : UInt8} (h : isBlank b = true) : isSpace b = true := by
  unfold isBlank at h
  rw [Bool.or_eq_true, decide_eq_true_eq, decide_eq_true_eq] at h
  rcases h with rfl | rfl <;> decide

/-- The same block is open, or none. -/
structure SameFence (f : Option Fence) (g : Option (UInt8 × ℕ)) : Prop where
  eq : f.map (fun fence => (fence.ch, fence.length)) = g
  fence : ∀ fence, f = some fence → IsMark fence.ch ∧ 3 ≤ fence.length

/-- A code span opens a block in the code only. -/
theorem opens_of_misread {line : Bytes} (h : Misread none line) :
    (parseFence line).isSome = true ∧ commonMark.opens line = none := by
  obtain ⟨n, rest, hn, hline, htick⟩ := h
  constructor
  · have hparse : parseFence line =
        some { ch := 0x60, length := n, info := languageOf rest } := by
      rw [parseFence_eq_some_iff]
      exact ⟨Or.inl rfl, hn, rest, hline, rfl⟩
    rw [hparse]
    rfl
  · rw [Option.eq_none_iff_forall_ne_some]
    intro fence hfence
    obtain ⟨ch, m⟩ := fence
    obtain ⟨hch, hm, rest', hline', hspan⟩ := commonMark_opens_iff.mp hfence
    obtain ⟨rfl, -, rfl⟩ := hline.unique hline' (Or.inl rfl) hch (by omega) (by omega)
    exact hspan rfl htick

/-- Outside a block. -/
theorem opens_agree (line : Bytes) :
    (parseFence line).map (fun fence => (fence.ch, fence.length)) = commonMark.opens line ↔
      ¬Misread none line := by
  constructor
  · intro h hmisread
    obtain ⟨hsome, hnone⟩ := opens_of_misread hmisread
    rw [hnone, Option.map_eq_none_iff] at h
    rw [h] at hsome
    cases hsome
  · intro h
    cases hparse : parseFence line with
    | none =>
      rw [Option.map_none, eq_comm, Option.eq_none_iff_forall_ne_some]
      intro fence hfence
      obtain ⟨ch, n⟩ := fence
      obtain ⟨hch, hn, rest, hline, -⟩ := commonMark_opens_iff.mp hfence
      have hsome : parseFence line = some { ch, length := n, info := languageOf rest } := by
        rw [parseFence_eq_some_iff]
        exact ⟨hch, hn, rest, hline, rfl⟩
      rw [hparse] at hsome
      cases hsome
    | some fence =>
      obtain ⟨hch, hn, rest, hline, -⟩ := parseFence_eq_some_iff.mp hparse
      rw [Option.map_some, eq_comm, commonMark_opens_iff]
      refine ⟨hch, hn, rest, hline, ?_⟩
      intro htick hmem
      rw [htick] at hline
      exact h ⟨_, rest, hn, hline, hmem⟩

/-- In a block. -/
theorem closes_agree {fence : Fence} (hch : IsMark fence.ch) (hn : 3 ≤ fence.length)
    (line : Bytes) :
    isClosing line fence = commonMark.closes (fence.ch, fence.length) line ↔
      ¬Misread (some (fence.ch, fence.length)) line := by
  have hcode : isClosing line fence = true ↔ Closes fence.ch fence.length line :=
    isClosing_iff hch (by omega)
  have hmark : commonMark.closes (fence.ch, fence.length) line = true ↔
      ∃ n rest, FenceLine line fence.ch n rest ∧ fence.length ≤ n ∧
        ∀ b ∈ rest, isBlank b = true := commonMark_closes_iff hch (by omega)
  rw [Bool.eq_iff_iff, hcode, hmark]
  constructor
  · intro h hmisread
    obtain ⟨n, rest, hlong, hline, hspace, b, hb, hblank⟩ := hmisread
    obtain ⟨n', rest', hline', hlong', hall⟩ := h.mp ⟨n, rest, hline, hlong, hspace⟩
    obtain ⟨-, -, rfl⟩ := hline.unique hline' hch hch (by omega) (by omega)
    rw [hall b hb] at hblank
    cases hblank
  · intro h
    constructor
    · intro hcloses
      obtain ⟨n, rest, hline, hlong, hspace⟩ := hcloses
      refine ⟨n, rest, hline, hlong, ?_⟩
      intro b hb
      by_contra hblank
      exact h ⟨n, rest, hlong, hline, hspace, b, hb, by rw [← Bool.not_eq_true]; exact hblank⟩
    · intro hcloses
      obtain ⟨n, rest, hline, hlong, hall⟩ := hcloses
      exact ⟨n, rest, hline, hlong, fun b hb => isSpace_of_isBlank (hall b hb)⟩

theorem kind_agrees_iff (f : Option Fence) (g : Option (UInt8 × ℕ)) (line : Bytes)
    (h : SameFence f g) :
    fenceRule.kind f line = commonMark.kind g line ↔ ¬Misread g line := by
  obtain ⟨rfl, hfence⟩ := h
  cases f with
  | none =>
    change (if (parseFence line).isSome then Kind.opens else .text) =
      (if (commonMark.opens line).isSome then Kind.opens else .text) ↔ ¬Misread none line
    constructor
    · intro hkind hmisread
      obtain ⟨hsome, hnone⟩ := opens_of_misread hmisread
      rw [hsome, hnone] at hkind
      cases hkind
    · intro hreads
      rw [← (opens_agree line).mpr hreads, Option.isSome_map]
  | some fence =>
    obtain ⟨hch, hn⟩ := hfence fence rfl
    change (if isClosing line fence then Kind.closes else .code) =
      (if commonMark.closes (fence.ch, fence.length) line then Kind.closes else .code) ↔
        ¬Misread (some (fence.ch, fence.length)) line
    rw [← closes_agree hch hn]
    constructor
    · intro hkind
      cases hcode : isClosing line fence <;>
        cases hmark : commonMark.closes (fence.ch, fence.length) line <;>
        simp [hcode, hmark] at hkind <;> rfl
    · intro hcloses
      rw [hcloses]

theorem sameFence_next (f : Option Fence) (g : Option (UInt8 × ℕ)) (line : Bytes)
    (h : SameFence f g) (hreads : ¬Misread g line) :
    SameFence (fenceRule.next f line) (commonMark.next g line) := by
  obtain ⟨rfl, hfence⟩ := h
  cases f with
  | none =>
    refine ⟨(opens_agree line).mpr hreads, ?_⟩
    intro fence hopens
    obtain ⟨hch, hn, -⟩ := parseFence_eq_some_iff.mp hopens
    exact ⟨hch, hn⟩
  | some fence =>
    obtain ⟨hch, hn⟩ := hfence fence rfl
    have hcloses := (closes_agree hch hn line).mpr hreads
    change SameFence (if isClosing line fence then none else some fence)
      (if commonMark.closes (fence.ch, fence.length) line then none
        else some (fence.ch, fence.length))
    rw [← hcloses]
    split_ifs
    · exact ⟨rfl, fun _ hnone => by cases hnone⟩
    · exact ⟨rfl, hfence⟩

/-- The source among the blocks that have been found. -/
def sourceFrom (reply : Bytes) (blocks : List CodeBlock) : Option Bytes :=
  match blocks.foldl choose (none, none) with
  | (some block, _) => some block.code
  | (none, some block) => some block.code
  | (none, none) =>
    if blocks.isEmpty && looksLikeCode reply then some (trim reply ++ ascii "\n") else none

/-- The lines of a reply that open and close blocks are those of CommonMark, so the source is taken
from the blocks of CommonMark. -/
structure ReadsAsMarkdown (reply : Bytes) : Prop where
  kinds : lineKinds reply = commonMark.kinds none (documentLines reply)
  source : extractCppSource reply =
    sourceFrom reply ((commonMark.blocks (documentLines reply)).map codeBlockOf)

theorem fences_follow_markdown_iff (reply : Bytes) :
    ReadsAsMarkdown reply ↔
      ∀ before line after, documentLines reply = before ++ line :: after →
        ¬Misread (commonMark.run none before) line := by
  have hinit : SameFence none none := ⟨rfl, fun fence h => by cases h⟩
  have hagree := Rule.kinds_eq_iff kind_agrees_iff sameFence_next hinit (documentLines reply)
  rw [Rule.always_iff] at hagree
  have hkinds : lineKinds reply = fenceRule.kinds none (documentLines reply) := kinds_eq ..
  rw [← hagree, ← hkinds]
  constructor
  · exact fun h => h.kinds
  · intro h
    refine ⟨h, ?_⟩
    rw [hkinds] at h
    change sourceFrom reply (findCodeBlocks reply) = _
    rw [findCodeBlocks_eq, Rule.blocks_eq_of_kinds h]

/-- A reply in which a code span hides the block after it. -/
def spanReply : Bytes := ascii "```x``` is a span:\n```cpp\nint a;\n```\n"

theorem fences_follow_markdown_span :
    ¬ReadsAsMarkdown spanReply ∧ extractCppSource spanReply = none ∧
      sourceFrom spanReply ((commonMark.blocks (documentLines spanReply)).map codeBlockOf) =
        some (ascii "int a;\n") := by
  refine ⟨?_, by decide +kernel, by decide +kernel⟩
  intro h
  have hkinds := h.kinds
  revert hkinds
  decide +kernel

end GeminiCpp.Eval
