import Mathlib.Data.List.DropRight
import Mathlib.Data.List.TakeWhile
import GeminiCpp.Eval.CodeExtract

/-! Which block of a reply `extract_cpp_source` takes. -/
namespace GeminiCpp.Eval

/-- A byte that is not white space stands in `s`. -/
def HasText (s : Bytes) : Prop := ∃ b ∈ s, isSpace b = false

theorem trim_eq_nil_iff {s : Bytes} : trim s = [] ↔ ¬HasText s := by
  have hspace : trim s = [] ↔ ∀ b ∈ s, isSpace b = true := by
    unfold trim
    rw [List.reverse_eq_nil_iff, List.dropWhile_eq_nil_iff]
    simp only [List.mem_reverse]
    rw [← List.dropWhile_eq_nil_iff, List.dropWhile_idempotent, List.dropWhile_eq_nil_iff]
  rw [hspace, HasText]
  simp

/-- Trimming keeps what is not white space. -/
theorem hasText_trim {s : Bytes} (h : HasText s) : HasText (trim s) := by
  obtain ⟨b, hb, hspace⟩ := h
  have hkeep : ∀ t : Bytes, b ∈ t → b ∈ t.dropWhile isSpace := by
    intro t hmem
    rw [← List.takeWhile_append_dropWhile (p := isSpace) (l := t), List.mem_append] at hmem
    rcases hmem with htake | hdrop
    · have htrue := List.mem_takeWhile_imp htake
      rw [hspace] at htrue
      exact absurd htrue Bool.false_ne_true
    · exact hdrop
  refine ⟨b, ?_, hspace⟩
  unfold trim
  rw [List.mem_reverse]
  apply hkeep
  rw [List.mem_reverse]
  exact hkeep s hb

theorem hasText_append {s t : Bytes} (h : HasText s) : HasText (s ++ t) := by
  obtain ⟨b, hb, hspace⟩ := h
  exact ⟨b, List.mem_append_left t hb, hspace⟩

theorem mem_of_contains {s needle : Bytes} (h : contains s needle = true) {b : UInt8}
    (hb : b ∈ needle) : b ∈ s := by
  obtain ⟨i, hi⟩ := Option.isSome_iff_exists.mp h
  have hfound := List.find?_some hi
  rw [Bool.and_eq_true] at hfound
  have hpre : needle <+: s.drop i := List.isPrefixOf_iff_prefix.mp hfound.2
  exact List.mem_of_mem_drop (hpre.subset hb)

theorem hasText_of_looksLikeCode {text : Bytes} (h : looksLikeCode text = true) :
    HasText text := by
  unfold looksLikeCode at h
  rw [Bool.or_eq_true, Bool.or_eq_true, Bool.or_eq_true] at h
  rcases h with ((hinclude | hpragma) | htemplate) | htemplate
  · exact ⟨0x23, mem_of_contains hinclude (by decide), by decide⟩
  · exact ⟨0x23, mem_of_contains hpragma (by decide), by decide⟩
  · exact ⟨0x74, mem_of_contains htemplate (by decide), by decide⟩
  · exact ⟨0x74, mem_of_contains htemplate (by decide), by decide⟩

/-- `best` is the first one of greatest length. -/
structure FirstLongest (blocks : List CodeBlock) (best : CodeBlock) : Prop where
  split : ∃ before after, blocks = before ++ best :: after ∧
    (∀ block ∈ before, block.code.length < best.code.length) ∧
    ∀ block ∈ after, block.code.length ≤ best.code.length

theorem FirstLongest.mem {blocks : List CodeBlock} {best : CodeBlock}
    (h : FirstLongest blocks best) : best ∈ blocks := by
  obtain ⟨before, after, rfl, -, -⟩ := h.split
  exact List.mem_append_right before List.mem_cons_self

theorem FirstLongest.length_le {blocks : List CodeBlock} {best block : CodeBlock}
    (h : FirstLongest blocks best) (hmem : block ∈ blocks) :
    block.code.length ≤ best.code.length := by
  obtain ⟨before, after, rfl, hbefore, hafter⟩ := h.split
  rcases List.mem_append.mp hmem with hfirst | hrest
  · exact Nat.le_of_lt (hbefore block hfirst)
  · rcases List.mem_cons.mp hrest with rfl | hlater
    · exact Nat.le_refl _
    · exact hafter block hlater

/-- One more block: it is the best one only if it is longer than all before it. -/
theorem FirstLongest.step {blocks : List CodeBlock} {best : CodeBlock}
    (h : FirstLongest blocks best) (block : CodeBlock) :
    ∃ next, longer (some best) block = some next ∧ FirstLongest (blocks ++ [block]) next := by
  by_cases hlonger : block.code.length > best.code.length
  · refine ⟨block, if_pos hlonger, ⟨blocks, [], rfl, ?_, ?_⟩⟩
    · intro other hmem
      have hle := h.length_le hmem
      omega
    · intro other hmem
      exact absurd hmem List.not_mem_nil
  · obtain ⟨before, after, hblocks, hbefore, hafter⟩ := h.split
    refine ⟨best, if_neg hlonger, ⟨before, after ++ [block], ?_, hbefore, ?_⟩⟩
    · rw [hblocks, List.append_assoc, List.cons_append]
    · intro other hmem
      rcases List.mem_append.mp hmem with hold | hnew
      · exact hafter other hold
      · rw [List.mem_singleton.mp hnew]
        omega

/-- The running maximum of `extract_cpp_source`. -/
theorem foldl_longer {blocks : List CodeBlock} (hne : blocks ≠ []) :
    ∃ best, blocks.foldl longer none = some best ∧ FirstLongest blocks best := by
  induction blocks using List.reverseRecOn with
  | nil => exact absurd rfl hne
  | append_singleton blocks block ih =>
    rw [List.foldl_append, List.foldl_cons, List.foldl_nil]
    by_cases hempty : blocks = []
    · rw [hempty]
      refine ⟨block, rfl, ⟨[], [], rfl, ?_, ?_⟩⟩
      · exact fun other hmem => absurd hmem List.not_mem_nil
      · exact fun other hmem => absurd hmem List.not_mem_nil
    · obtain ⟨best, hbest, hfirst⟩ := ih hempty
      rw [hbest]
      exact hfirst.step block

/-- The blocks tagged as C++ that are not blank. -/
def cppBlocks (blocks : List CodeBlock) : List CodeBlock :=
  blocks.filter fun block => trim block.code ≠ [] && isCppLanguage block.language

/-- The blocks without a tag that are not blank. -/
def untaggedBlocks (blocks : List CodeBlock) : List CodeBlock :=
  blocks.filter fun block => trim block.code ≠ [] && block.language = []

theorem mem_cppBlocks {blocks : List CodeBlock} {block : CodeBlock} :
    block ∈ cppBlocks blocks ↔
      block ∈ blocks ∧ HasText block.code ∧ isCppLanguage block.language = true := by
  unfold cppBlocks
  rw [List.mem_filter, Bool.and_eq_true, decide_eq_true_eq, Ne, trim_eq_nil_iff, not_not]

theorem mem_untaggedBlocks {blocks : List CodeBlock} {block : CodeBlock} :
    block ∈ untaggedBlocks blocks ↔
      block ∈ blocks ∧ HasText block.code ∧ block.language = [] := by
  unfold untaggedBlocks
  rw [List.mem_filter, Bool.and_eq_true, decide_eq_true_eq, decide_eq_true_eq, Ne,
    trim_eq_nil_iff, not_not]

theorem ne_nil_iff {blocks : List CodeBlock} : blocks ≠ [] ↔ ∃ block, block ∈ blocks := by
  constructor
  · exact List.exists_mem_of_ne_nil blocks
  · exact fun h => List.ne_nil_of_mem h.choose_spec

theorem exists_cpp_iff {blocks : List CodeBlock} :
    (∃ block ∈ blocks, HasText block.code ∧ isCppLanguage block.language = true) ↔
      cppBlocks blocks ≠ [] := by
  rw [ne_nil_iff]
  simp only [mem_cppBlocks]

theorem exists_untagged_iff {blocks : List CodeBlock} :
    (∃ block ∈ blocks, HasText block.code ∧ block.language = []) ↔ untaggedBlocks blocks ≠ [] := by
  rw [ne_nil_iff]
  simp only [mem_untaggedBlocks]

/-- The one pass keeps the two maxima apart. -/
theorem foldl_choose (blocks : List CodeBlock) (best : Option CodeBlock × Option CodeBlock) :
    blocks.foldl choose best =
      ((cppBlocks blocks).foldl longer best.1, (untaggedBlocks blocks).foldl longer best.2) := by
  induction blocks generalizing best with
  | nil => rfl
  | cons block blocks ih =>
    rw [List.foldl_cons, ih]
    unfold choose cppBlocks untaggedBlocks
    rw [List.filter_cons, List.filter_cons]
    by_cases hblank : trim block.code = []
    · simp [hblank]
    · by_cases hcpp : isCppLanguage block.language = true
      · -- the C++ tags are not empty
        have htag : block.language ≠ [] := by
          intro hnil
          rw [hnil] at hcpp
          exact absurd hcpp (by decide)
        simp [hblank, hcpp, htag]
      · rw [Bool.not_eq_true] at hcpp
        by_cases htag : block.language = []
        · rw [htag] at hcpp
          simp [hblank, hcpp, htag]
        · simp [hblank, hcpp, htag]

/-- The source among some blocks. Without any block the reply itself may be one. -/
inductive Selects (reply : Bytes) (blocks : List CodeBlock) : Option Bytes → Prop
  | cpp {best : CodeBlock} (h : FirstLongest (cppBlocks blocks) best) :
    Selects reply blocks (some best.code)
  | untagged {best : CodeBlock} (hcpp : cppBlocks blocks = [])
    (h : FirstLongest (untaggedBlocks blocks) best) : Selects reply blocks (some best.code)
  | reply (hblocks : blocks = []) (hcode : looksLikeCode reply = true) :
    Selects reply blocks (some (trim reply ++ ascii "\n"))
  | nothing (hcpp : cppBlocks blocks = []) (huntagged : untaggedBlocks blocks = [])
    (hreply : ¬(blocks = [] ∧ looksLikeCode reply = true)) : Selects reply blocks none

theorem selects_extractCppSource (reply : Bytes) :
    Selects reply (findCodeBlocks reply) (extractCppSource reply) := by
  unfold extractCppSource
  dsimp only
  rw [foldl_choose]
  by_cases hcpp : cppBlocks (findCodeBlocks reply) = []
  · rw [hcpp, List.foldl_nil]
    by_cases huntagged : untaggedBlocks (findCodeBlocks reply) = []
    · rw [huntagged, List.foldl_nil]
      dsimp only
      split_ifs with hreply
      · rw [Bool.and_eq_true, List.isEmpty_iff] at hreply
        exact .reply hreply.1 hreply.2
      · rw [Bool.and_eq_true, List.isEmpty_iff] at hreply
        exact .nothing hcpp huntagged hreply
    · obtain ⟨best, hbest, hfirst⟩ := foldl_longer huntagged
      rw [hbest]
      exact .untagged hcpp hfirst
  · obtain ⟨best, hbest, hfirst⟩ := foldl_longer hcpp
    rw [hbest]
    exact .cpp hfirst

/-- What is selected has text in it and comes from no block with another tag. -/
theorem Selects.hasText {reply source : Bytes} {blocks : List CodeBlock}
    (h : Selects reply blocks (some source)) :
    HasText source ∧ ((∃ block ∈ blocks, source = block.code ∧
        (isCppLanguage block.language = true ∨ block.language = [])) ∨
      blocks = [] ∧ source = trim reply ++ ascii "\n") := by
  cases h with
  | cpp hfirst =>
    obtain ⟨hmem, htext, hlanguage⟩ := mem_cppBlocks.mp hfirst.mem
    exact ⟨htext, Or.inl ⟨_, hmem, rfl, Or.inl hlanguage⟩⟩
  | untagged hcpp hfirst =>
    obtain ⟨hmem, htext, hlanguage⟩ := mem_untaggedBlocks.mp hfirst.mem
    exact ⟨htext, Or.inl ⟨_, hmem, rfl, Or.inr hlanguage⟩⟩
  | reply hblocks hcode =>
    exact ⟨hasText_append (hasText_trim (hasText_of_looksLikeCode hcode)),
      Or.inr ⟨hblocks, rfl⟩⟩

/-- The first longest C++ block that is not blank is taken, else the first longest block without
a tag, else a reply that is all code, else nothing. -/
theorem source_selection_maximal (reply : Bytes) :
    let blocks := findCodeBlocks reply
    ((∃ block ∈ blocks, HasText block.code ∧ isCppLanguage block.language = true) →
      ∃ best, FirstLongest (cppBlocks blocks) best ∧ extractCppSource reply = some best.code) ∧
    ((¬∃ block ∈ blocks, HasText block.code ∧ isCppLanguage block.language = true) →
      (∃ block ∈ blocks, HasText block.code ∧ block.language = []) →
      ∃ best, FirstLongest (untaggedBlocks blocks) best ∧
        extractCppSource reply = some best.code) ∧
    (blocks = [] → looksLikeCode reply = true →
      extractCppSource reply = some (trim reply ++ ascii "\n")) ∧
    ((¬∃ block ∈ blocks, HasText block.code ∧
        (isCppLanguage block.language = true ∨ block.language = [])) →
      ¬(blocks = [] ∧ looksLikeCode reply = true) → extractCppSource reply = none) ∧
    ∀ source, extractCppSource reply = some source →
      HasText source ∧ ((∃ block ∈ blocks, source = block.code ∧
          (isCppLanguage block.language = true ∨ block.language = [])) ∨
        blocks = [] ∧ source = trim reply ++ ascii "\n") := by
  intro blocks
  have hselects : Selects reply blocks (extractCppSource reply) := selects_extractCppSource reply
  rw [exists_cpp_iff, exists_untagged_iff]
  refine ⟨?_, ?_, ?_, ?_, ?_⟩
  · intro hcpp
    generalize extractCppSource reply = source at hselects ⊢
    cases hselects with
    | cpp h => exact ⟨_, h, rfl⟩
    | untagged hnil => exact absurd hnil hcpp
    | reply hblocks => exact absurd (congrArg cppBlocks hblocks) hcpp
    | nothing hnil => exact absurd hnil hcpp
  · intro hcpp huntagged
    generalize extractCppSource reply = source at hselects ⊢
    cases hselects with
    | cpp h => exact absurd (List.ne_nil_of_mem h.mem) hcpp
    | untagged hnil h => exact ⟨_, h, rfl⟩
    | reply hblocks => exact absurd (congrArg untaggedBlocks hblocks) huntagged
    | nothing _ hnil => exact absurd hnil huntagged
  · intro hblocks hcode
    generalize extractCppSource reply = source at hselects ⊢
    rw [hblocks] at hselects
    cases hselects with
    | cpp h => exact absurd h.mem List.not_mem_nil
    | untagged _ h => exact absurd h.mem List.not_mem_nil
    | reply => rfl
    | nothing _ _ hreply => exact absurd ⟨rfl, hcode⟩ hreply
  · intro hnone hreply
    generalize extractCppSource reply = source at hselects ⊢
    cases hselects with
    | cpp h =>
      obtain ⟨hmem, htext, hlanguage⟩ := mem_cppBlocks.mp h.mem
      exact absurd ⟨_, hmem, htext, Or.inl hlanguage⟩ hnone
    | untagged _ h =>
      obtain ⟨hmem, htext, hlanguage⟩ := mem_untaggedBlocks.mp h.mem
      exact absurd ⟨_, hmem, htext, Or.inr hlanguage⟩ hnone
    | reply hblocks hcode => exact absurd ⟨hblocks, hcode⟩ hreply
    | nothing => rfl
  · intro source hsource
    rw [hsource] at hselects
    exact hselects.hasText

end GeminiCpp.Eval
