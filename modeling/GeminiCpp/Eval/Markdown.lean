import GeminiCpp.Eval.Repair
import GeminiCpp.Eval.RunTask
import GeminiCpp.Lib.TextLines

/-! The report of an evaluation run as a Markdown document (`report.cpp`). -/
namespace GeminiCpp.Eval

def pipe : UInt8 := 0x7C
def backtick : UInt8 := 0x60

/-- A line that says what went wrong. -/
def informative (line : Bytes) : Bool :=
  contains line (ascii "error:") || contains line (ascii "CHECK") ||
    contains line (ascii "Sanitizer")

/-- The scan of the lines of a log, with the first line so far that is not empty. -/
def scanLog (first : Bytes) : List Bytes → Bytes
  | [] => first
  | candidate :: candidates =>
    let first := if first = [] ∧ candidate ≠ [] then candidate else first
    if informative candidate then candidate else scanLog first candidates

/-- `…` -/
def ellipsis : Bytes := [0xE2, 0x80, 0xA6]

/-- What stands for a byte in a cell of a table. -/
def cellByte (c : UInt8) : UInt8 :=
  if c = pipe then 0x2F else if c = backtick then 0x27 else c

/-- The most informative line of a failure log, for a cell of a table. -/
def summaryLine (text : Bytes) (max : ℕ) : Bytes :=
  let line := scanLog [] (text.splitOn lf)
  let line := if max < line.length then line.take max ++ ellipsis else line
  line.map cellByte

/-- The share in percent. The quotient is formatted by the C library. -/
def percent (formatPercent : ℕ → ℕ → Bytes) (part whole : ℕ) : Bytes :=
  if whole = 0 then ascii "n/a" else formatPercent part whole

/-- The log of the first attempt that failed, with the outcome of the attempt. -/
def firstFailure (r : TaskResult) : Option Attempt := r.attempts.find? fun a => a.outcome ≠ .pass

def failureCell (r : TaskResult) : Bytes :=
  match firstFailure r with
  | some a => a.outcome.toString ++ ascii ": " ++ summaryLine a.detail 100
  | none => []

/-- `✅ ` or `❌ ` -/
def mark (passed : Bool) : Bytes :=
  (if passed then [0xE2, 0x9C, 0x85] else [0xE2, 0x9D, 0x8C]) ++ [space]

/-- A row of the results table, without its line feed. -/
def resultRow (r : TaskResult) : Bytes :=
  ascii "| `" ++ r.taskId ++ ascii "` | " ++ mark r.passed ++ r.outcome.toString ++ ascii " | " ++
    toDecimal r.attempts.length ++ ascii " | " ++ failureCell r ++ ascii " |"

def tableHeader : Bytes := ascii "| Task | Outcome | Attempts | First failure |"

def tableRule : Bytes := ascii "|---|---|---|---|"

namespace Report
variable (formatPercent : ℕ → ℕ → Bytes) (report : Report)

def share (part : ℕ) : Bytes :=
  toDecimal part ++ ascii "/" ++ toDecimal report.results.length ++ ascii " (" ++
    percent formatPercent part report.results.length ++ ascii ") |\n"

/-- The document before the table of the results. -/
def summarySection : Bytes :=
  ascii "# gemini-cpp eval report\n\n" ++
  (ascii "- **Model:** `" ++ report.model ++ ascii "`\n") ++
  (ascii "- **Started:** " ++ report.startedAt ++ ascii "\n") ++
  (ascii "- **Wall time:** " ++ toDecimal report.wallTime ++ ascii " ms\n") ++
  (ascii "- **Compiler:** `" ++ report.options.compiler ++ ascii " " ++ report.options.stdFlag ++
    ascii "`" ++ (if report.options.sanitize then ascii " with ASan+UBSan" else []) ++
    ascii "\n") ++
  (ascii "- **Repair rounds:** " ++ toDecimal report.options.repairRounds ++ ascii "\n\n") ++
  ascii "| Metric | Value |\n|---|---|\n" ++
  (ascii "| pass@1 | " ++ report.share formatPercent report.passedFirstTry) ++
  (ascii "| pass after repair | " ++ report.share formatPercent report.passed) ++
  (ascii "| prompt tokens | " ++ toDecimal report.totalUsage.promptTokens.toInt ++
    ascii " |\n") ++
  (ascii "| output tokens | " ++ toDecimal report.totalUsage.candidatesTokens.toInt ++
    ascii " |\n\n")

def resultsTable : Bytes :=
  (([tableHeader, tableRule] ++ report.results.map resultRow).map (· ++ [lf])).flatten

def toMarkdown : Bytes := report.summarySection formatPercent ++ report.resultsTable

end Report

/-! The line that is shown for a log. -/

/-- The first line that says what went wrong, or else the first one that is not empty. -/
def chosenLine (text : Bytes) : Bytes :=
  ((text.splitOn lf).find? informative).getD (((text.splitOn lf).find? (· ≠ [])).getD [])

theorem scanLog_eq (first : Bytes) (candidates : List Bytes) :
    scanLog first candidates = (candidates.find? informative).getD
      (if first = [] then (candidates.find? (· ≠ [])).getD [] else first) := by
  induction candidates generalizing first with
  | nil =>
    by_cases hfirst : first = [] <;> simp [scanLog, hfirst]
  | cons candidate candidates ih =>
    rw [scanLog]
    by_cases hinf : informative candidate = true
    · rw [if_pos hinf, List.find?_cons_of_pos hinf, Option.getD_some]
    · rw [if_neg hinf, List.find?_cons_of_neg hinf, ih]
      by_cases hfirst : first = [] <;> by_cases hcandidate : candidate = [] <;>
        simp [hfirst, hcandidate]

theorem scanLog_splitOn (text : Bytes) : scanLog [] (text.splitOn lf) = chosenLine text := by
  rw [scanLog_eq, if_pos rfl, chosenLine]

theorem chosenLine_mem (text : Bytes) :
    chosenLine text = [] ∨ chosenLine text ∈ text.splitOn lf := by
  unfold chosenLine
  cases hinf : (text.splitOn lf).find? informative with
  | some line => exact .inr (List.mem_of_find?_eq_some hinf)
  | none =>
    cases hfirst : (text.splitOn lf).find? (· ≠ []) with
    | some line => exact .inr (List.mem_of_find?_eq_some hfirst)
    | none => exact .inl rfl

theorem lf_notMem_chosenLine (text : Bytes) : lf ∉ chosenLine text := by
  rcases chosenLine_mem text with h | h
  · simp [h]
  · exact (of_mem_splitOn h).1

theorem valid_chosenLine {text : Bytes} (h : Utf8.valid text = true) :
    Utf8.valid (chosenLine text) = true := by
  rcases chosenLine_mem text with hline | hline
  · rw [hline]
    rfl
  · exact valid_splitOn (by decide) h _ hline

/-- The text of a cell before the bytes that Markdown would read are replaced. -/
theorem summaryLine_eq (text : Bytes) (max : ℕ) : summaryLine text max =
    ((chosenLine text).take max ++
      if max < (chosenLine text).length then ellipsis else []).map cellByte := by
  unfold summaryLine
  rw [scanLog_splitOn]
  dsimp only
  split_ifs with hlong
  · rfl
  · rw [List.take_of_length_le (by omega), List.append_nil]

theorem cellByte_cases (c : UInt8) :
    cellByte c = c ∧ c ≠ pipe ∨ cellByte c = 0x2F ∧ c = pipe ∨ cellByte c = 0x27 ∧ c = backtick := by
  unfold cellByte
  split_ifs with hpipe htick
  · exact .inr (.inl ⟨rfl, hpipe⟩)
  · exact .inr (.inr ⟨rfl, htick⟩)
  · exact .inl ⟨rfl, hpipe⟩

theorem pipe_notMem_summaryLine (text : Bytes) (max : ℕ) : pipe ∉ summaryLine text max := by
  unfold summaryLine
  intro h
  obtain ⟨c, -, hc⟩ := List.mem_map.mp h
  rcases cellByte_cases c with ⟨heq, hne⟩ | ⟨heq, -⟩ | ⟨heq, -⟩
  · exact hne (heq ▸ hc)
  · rw [heq] at hc
    exact absurd hc (by decide)
  · rw [heq] at hc
    exact absurd hc (by decide)

theorem mem_map_cellByte {b : UInt8} (hb : b ≠ pipe ∧ b ≠ backtick ∧ b ≠ 0x2F ∧ b ≠ 0x27)
    (s : Bytes) : b ∈ s.map cellByte ↔ b ∈ s := by
  obtain ⟨hpipe, htick, hslash, hquote⟩ := hb
  constructor
  · intro h
    obtain ⟨c, hmem, hc⟩ := List.mem_map.mp h
    rcases cellByte_cases c with ⟨heq, -⟩ | ⟨heq, -⟩ | ⟨heq, -⟩
    · rwa [← hc, heq]
    · exact absurd (heq ▸ hc).symm hslash
    · exact absurd (heq ▸ hc).symm hquote
  · intro h
    exact List.mem_map.mpr ⟨b, h, by rw [cellByte, if_neg hpipe, if_neg htick]⟩

/-- Only the bytes that are shown matter for the ends of lines. -/
theorem plain_summaryLine_iff (text : Bytes) (max : ℕ) :
    TextLines.Plain (summaryLine text max) ↔ cr ∉ (chosenLine text).take max := by
  have hellipsis : ∀ b : UInt8, b = lf ∨ b = cr →
      b ∉ (if max < (chosenLine text).length then ellipsis else []) := by
    intro b hb
    rcases hb with rfl | rfl <;> split_ifs <;> decide
  have hlf : lf ∉ (chosenLine text).take max :=
    fun h => lf_notMem_chosenLine text (List.mem_of_mem_take h)
  unfold TextLines.Plain
  rw [summaryLine_eq]
  change lf ∉ _ ∧ cr ∉ _ ↔ _
  rw [mem_map_cellByte (by decide), mem_map_cellByte (by decide), List.mem_append,
    List.mem_append]
  constructor
  · exact fun h hmem => h.2 (.inl hmem)
  · intro h
    exact ⟨fun hmem => hmem.elim hlf (hellipsis lf (.inl rfl)),
      fun hmem => hmem.elim h (hellipsis cr (.inr rfl))⟩

theorem run_map_cellByte (q : Utf8.State) (s : Bytes) :
    Utf8.run q (s.map cellByte) = Utf8.run q s := by
  induction s generalizing q with
  | nil => rfl
  | cons c s ih =>
    have hstep : Utf8.step q (cellByte c) = Utf8.step q c := by
      rcases cellByte_cases c with ⟨heq, -⟩ | ⟨heq, rfl⟩ | ⟨heq, rfl⟩
      · rw [heq]
      · rw [heq]
        cases q <;> decide
      · rw [heq]
        cases q <;> decide
    rw [List.map_cons, Utf8.run, Utf8.run, hstep]
    exact congrArg _ (funext ih)

/-- A line is shown as valid UTF-8 if and only if its cut is between two characters. -/
theorem valid_summaryLine_iff {text : Bytes} (h : Utf8.valid text = true) (max : ℕ) :
    Utf8.valid (summaryLine text max) = true ↔ Utf8.Boundary (chosenLine text) max := by
  rw [summaryLine_eq, Utf8.valid_iff, run_map_cellByte, ← Utf8.valid_iff,
    ← Utf8.valid_take_iff (valid_chosenLine h)]
  split_ifs with hlong
  · have happend := Utf8.valid_append_append (s := (chosenLine text).take max) (t := [])
      (m := ellipsis) (by decide) (by decide)
    rw [List.append_nil] at happend
    rw [happend, and_iff_left Utf8.valid_nil]
  · rw [List.append_nil]

/-! The table of the results. -/

/-- A row of four cells, of which the first one has the id of the task. -/
def IsRowOf (r : TaskResult) (row : Bytes) : Prop :=
  ∃ outcome attempts failure,
    row.splitOn pipe = [[], ascii " `" ++ r.taskId ++ ascii "` ", outcome, attempts, failure, []]

namespace Report
variable (formatPercent : ℕ → ℕ → Bytes) (report : Report)

/-- The lines after the header of the results table are rows, one for each result. -/
def TableWellFormed : Prop :=
  ∃ rows, TextLines.lines (report.toMarkdown formatPercent) =
      TextLines.lines (report.summarySection formatPercent) ++ tableHeader :: tableRule :: rows ∧
    List.Forall₂ IsRowOf report.results rows

/-- The report of valid strings is valid UTF-8. -/
def Utf8Kept : Prop :=
  (∀ s ∈ report.strings, Utf8.valid s = true) →
    Utf8.valid (report.toMarkdown formatPercent) = true

/-- Every log of which a line is shown. -/
def shownLogs : List Bytes := report.results.filterMap fun r => (firstFailure r).map Attempt.detail

end Report

theorem plain_outcome (outcome : Outcome) : pipe ∉ outcome.toString ∧
    TextLines.Plain outcome.toString := by
  cases outcome <;> exact ⟨by decide, by decide, by decide⟩

theorem plain_toDecimal (n : ℤ) : pipe ∉ toDecimal n ∧ TextLines.Plain (toDecimal n) := by
  have hout : ∀ b : UInt8, b < 0x2D ∨ 0x39 < b → b ∉ toDecimal n := by
    intro b hb hmem
    obtain ⟨hlo, hhi⟩ := of_mem_toDecimal hmem
    rw [UInt8.le_iff_toNat_le] at hlo hhi
    rw [UInt8.lt_iff_toNat_lt, UInt8.lt_iff_toNat_lt] at hb
    omega
  exact ⟨hout _ (by decide), hout _ (by decide), hout _ (by decide)⟩

theorem plain_resultRow_iff {r : TaskResult} (hid : TextLines.Plain r.taskId) :
    TextLines.Plain (resultRow r) ↔
      ∀ a, firstFailure r = some a → cr ∉ (chosenLine a.detail).take 100 := by
  have hopen : TextLines.Plain (ascii "| `") := ⟨by decide, by decide⟩
  have hafter : TextLines.Plain (ascii "` | ") := ⟨by decide, by decide⟩
  have hsep : TextLines.Plain (ascii " | ") := ⟨by decide, by decide⟩
  have hclose : TextLines.Plain (ascii " |") := ⟨by decide, by decide⟩
  have hcolon : TextLines.Plain (ascii ": ") := ⟨by decide, by decide⟩
  have hmark : TextLines.Plain (mark r.passed) := by
    cases r.passed <;> exact ⟨by decide, by decide⟩
  have hrow : TextLines.Plain (resultRow r) ↔ TextLines.Plain (failureCell r) := by
    simp only [resultRow, TextLines.plain_append, hopen, hid, hafter, hmark,
      (plain_outcome r.outcome).2, hsep, (plain_toDecimal _).2, hclose, true_and, and_true]
  rw [hrow, failureCell]
  cases firstFailure r with
  | none =>
    constructor
    · intro _ a ha
      cases ha
    · exact fun _ => ⟨List.not_mem_nil, List.not_mem_nil⟩
  | some a =>
    simp only [TextLines.plain_append, (plain_outcome a.outcome).2, hcolon, true_and,
      plain_summaryLine_iff, Option.some.injEq, forall_eq']

theorem getLast?_resultRow (r : TaskResult) : (resultRow r).getLast? ≠ some TextLines.cr := by
  have hlast : (resultRow r).getLast? = some pipe := by
    rw [resultRow, List.getLast?_append]
    rfl
  rw [hlast]
  decide

theorem isRowOf_resultRow {r : TaskResult} (hid : pipe ∉ r.taskId) : IsRowOf r (resultRow r) := by
  have hmark : pipe ∉ mark r.passed := by cases r.passed <;> decide
  have hfailure : pipe ∉ failureCell r := by
    unfold failureCell
    cases firstFailure r with
    | none => exact List.not_mem_nil
    | some a =>
      simp only [List.mem_append, (plain_outcome a.outcome).1, pipe_notMem_summaryLine, or_false,
        false_or]
      decide
  have hshape : resultRow r = [] ++ pipe :: ((ascii " `" ++ r.taskId ++ ascii "` ") ++ pipe ::
      (([space] ++ mark r.passed ++ r.outcome.toString ++ [space]) ++ pipe ::
        (([space] ++ toDecimal r.attempts.length ++ [space]) ++ pipe ::
          (([space] ++ failureCell r ++ [space]) ++ pipe :: [])))) := by
    have hopen : ascii "| `" = pipe :: ascii " `" := rfl
    have hafter : ascii "` | " = ascii "` " ++ pipe :: [space] := rfl
    have hsep : ascii " | " = [space] ++ pipe :: [space] := rfl
    have hclose : ascii " |" = [space] ++ [pipe] := rfl
    rw [resultRow, hopen, hafter, hsep, hclose]
    simp only [List.append_assoc, List.cons_append, List.nil_append]
  have htask : pipe ∉ ascii " `" ++ r.taskId ++ ascii "` " := by
    simp only [List.mem_append, hid, or_false]
    decide
  have houtcome : pipe ∉ [space] ++ mark r.passed ++ r.outcome.toString ++ [space] := by
    simp only [List.mem_append, hmark, (plain_outcome r.outcome).1, or_false]
    decide
  have hattempts : pipe ∉ [space] ++ toDecimal r.attempts.length ++ [space] := by
    simp only [List.mem_append, (plain_toDecimal _).1, or_false]
    decide
  have hfirst : pipe ∉ [space] ++ failureCell r ++ [space] := by
    simp only [List.mem_append, hfailure, or_false]
    decide
  refine ⟨[space] ++ mark r.passed ++ r.outcome.toString ++ [space],
    [space] ++ toDecimal r.attempts.length ++ [space], [space] ++ failureCell r ++ [space], ?_⟩
  rw [hshape]
  simp only [List.splitOn_append_cons_self, List.splitOn_nil, List.splitOn_eq_singleton htask,
    List.splitOn_eq_singleton houtcome, List.splitOn_eq_singleton hattempts,
    List.splitOn_eq_singleton hfirst]
  rfl

namespace Report
variable (formatPercent : ℕ → ℕ → Bytes) (report : Report)

theorem lines_resultsTable : TextLines.lines report.resultsTable =
    tableHeader :: tableRule :: (report.results.map resultRow).flatMap
      fun row => TextLines.lines (row ++ [TextLines.lf]) := by
  unfold resultsTable
  change TextLines.lines ((([tableHeader, tableRule] ++ report.results.map resultRow).map
    (· ++ [TextLines.lf])).flatten) = _
  rw [TextLines.lines_flatten, List.flatMap_append]
  rfl

theorem lines_toMarkdown : TextLines.lines (report.toMarkdown formatPercent) =
    TextLines.lines (report.summarySection formatPercent) ++
      TextLines.lines report.resultsTable := by
  have hend : (report.summarySection formatPercent).getLast? = some TextLines.lf := by
    rw [summarySection, List.getLast?_append, List.getLast?_append]
    rfl
  obtain ⟨s, hs⟩ := List.getLast?_eq_some_iff.mp hend
  rw [toMarkdown, hs, List.append_assoc, List.singleton_append, TextLines.lines_append_lf]

theorem tableWellFormed_iff (hids : ∀ r ∈ report.results, pipe ∉ r.taskId ∧
    TextLines.Plain r.taskId) : report.TableWellFormed formatPercent ↔
      ∀ text ∈ report.shownLogs, cr ∉ (chosenLine text).take 100 := by
  have hlast : ∀ row ∈ report.results.map resultRow, row.getLast? ≠ some TextLines.cr := by
    intro row hrow
    obtain ⟨r, -, rfl⟩ := List.mem_map.mp hrow
    exact getLast?_resultRow r
  have hplain : (∀ row ∈ report.results.map resultRow, TextLines.Plain row) ↔
      ∀ text ∈ report.shownLogs, cr ∉ (chosenLine text).take 100 := by
    unfold shownLogs
    rw [List.forall_mem_map]
    constructor
    · intro h text htext
      obtain ⟨r, hr, hshown⟩ := List.mem_filterMap.mp htext
      obtain ⟨a, ha, rfl⟩ := Option.map_eq_some_iff.mp hshown
      exact (plain_resultRow_iff (hids r hr).2).mp (h r hr) a ha
    · intro h r hr
      apply (plain_resultRow_iff (hids r hr).2).mpr
      intro a ha
      apply h
      exact List.mem_filterMap.mpr ⟨r, hr, by rw [ha]; rfl⟩
  rw [← hplain, ← TextLines.length_flatMap_lines_iff hlast]
  unfold TableWellFormed
  rw [lines_toMarkdown, lines_resultsTable]
  constructor
  · rintro ⟨rows, hlines, hrows⟩
    have hsame := List.append_cancel_left hlines
    rw [List.cons.injEq, List.cons.injEq] at hsame
    rw [hsame.2.2, ← hrows.length_eq, List.length_map]
  · intro h
    have hall := (TextLines.length_flatMap_lines_iff hlast).mp h
    refine ⟨report.results.map resultRow, ?_, ?_⟩
    · have hrows : ((report.results.map resultRow).flatMap fun row =>
          TextLines.lines (row ++ [TextLines.lf])) = report.results.map resultRow := by
        rw [List.flatMap_congr fun row hrow => TextLines.lines_plain (hall row hrow),
          List.flatMap_singleton']
      rw [hrows]
    · rw [List.forall₂_map_right_iff, List.forall₂_same]
      exact fun r hr => isRowOf_resultRow (hids r hr).1

theorem valid_resultRow_iff {r : TaskResult} (hid : Utf8.valid r.taskId = true) :
    Utf8.valid (resultRow r) = true ↔ Utf8.valid (failureCell r) = true := by
  have hmark : Utf8.valid (mark r.passed) = true := by cases r.passed <;> rfl
  have hclose := Utf8.valid_append_append (s := failureCell r) (t := []) (m := ascii " |")
    (by decide) (by decide)
  rw [List.append_nil] at hclose
  unfold resultRow
  simp only [List.append_assoc]
  rw [Utf8.valid_append (valid_ascii (by decide)), Utf8.valid_append hid,
    Utf8.valid_append (valid_ascii (by decide)), Utf8.valid_append hmark,
    Utf8.valid_append (valid_outcome _), Utf8.valid_append (valid_ascii (by decide)),
    Utf8.valid_append (valid_toDecimal _), Utf8.valid_append (valid_ascii (by decide)), hclose,
    and_iff_left Utf8.valid_nil]

theorem valid_failureCell_iff {r : TaskResult}
    (h : ∀ a ∈ r.attempts, Utf8.valid a.detail = true) :
    Utf8.valid (failureCell r) = true ↔
      ∀ a, firstFailure r = some a → Utf8.Boundary (chosenLine a.detail) 100 := by
  unfold failureCell
  cases hfirst : firstFailure r with
  | none =>
    constructor
    · intro _ a ha
      cases ha
    · exact fun _ => rfl
  | some a =>
    have ha : Utf8.valid a.detail = true := h a (List.mem_of_find?_eq_some hfirst)
    dsimp only
    rw [List.append_assoc, Utf8.valid_append (valid_outcome _),
      Utf8.valid_append (valid_ascii (by decide)), valid_summaryLine_iff ha]
    simp

theorem valid_flatten_lines_iff (texts : List Bytes) :
    Utf8.valid ((texts.map (· ++ [lf])).flatten) = true ↔
      ∀ s ∈ texts, Utf8.valid s = true := by
  induction texts with
  | nil => simp
  | cons s texts ih =>
    rw [List.map_cons, List.flatten_cons, List.append_assoc, List.forall_mem_cons,
      Utf8.valid_append_append (by simp) (by decide), ih]

theorem valid_share (hpercent : ∀ part whole, Utf8.valid (formatPercent part whole) = true)
    (part : ℕ) : Utf8.valid (report.share formatPercent part) = true := by
  have hshare : Utf8.valid (percent formatPercent part report.results.length) = true := by
    unfold percent
    split_ifs
    · exact valid_ascii (by decide)
    · exact hpercent _ _
  unfold share
  repeat' with_reducible apply Utf8.valid_append_of_valid
  all_goals first
    | with_reducible assumption
    | with_reducible exact valid_toDecimal _
    | exact valid_ascii (by decide)

theorem valid_summarySection
    (hpercent : ∀ part whole, Utf8.valid (formatPercent part whole) = true)
    (h : ∀ s ∈ report.strings, Utf8.valid s = true) :
    Utf8.valid (report.summarySection formatPercent) = true := by
  have hmodel := h report.model (by simp [strings])
  have hstarted := h report.startedAt (by simp [strings])
  have hcompiler := h report.options.compiler (by simp [strings])
  have hstd := h report.options.stdFlag (by simp [strings])
  have hsanitize : Utf8.valid
      (if report.options.sanitize then ascii " with ASan+UBSan" else []) = true := by
    split_ifs
    · exact valid_ascii (by decide)
    · rfl
  unfold summarySection
  repeat' with_reducible apply Utf8.valid_append_of_valid
  all_goals first
    | with_reducible assumption
    | with_reducible exact valid_toDecimal _
    | with_reducible exact valid_share formatPercent report hpercent _
    | exact valid_ascii (by decide)

theorem utf8Kept_iff (hpercent : ∀ part whole, Utf8.valid (formatPercent part whole) = true) :
    report.Utf8Kept formatPercent ↔ ((∀ s ∈ report.strings, Utf8.valid s = true) →
      ∀ text ∈ report.shownLogs, Utf8.Boundary (chosenLine text) 100) := by
  apply imp_congr_right
  intro h
  have hids : ∀ r ∈ report.results, Utf8.valid r.taskId = true := by
    intro r hr
    exact h _ (List.mem_append_right _ (List.mem_flatMap.mpr ⟨r, hr, List.mem_cons_self ..⟩))
  have hdetails : ∀ r ∈ report.results, ∀ a ∈ r.attempts, Utf8.valid a.detail = true := by
    intro r hr a ha
    apply h _ (List.mem_append_right _ (List.mem_flatMap.mpr ⟨r, hr, List.mem_cons_of_mem _ ?_⟩))
    exact List.mem_flatMap.mpr ⟨a, ha, List.mem_cons_self ..⟩
  have hheader : Utf8.valid tableHeader = true ∧ Utf8.valid tableRule = true :=
    ⟨valid_ascii (by decide), valid_ascii (by decide)⟩
  unfold toMarkdown resultsTable shownLogs
  rw [Utf8.valid_append (valid_summarySection formatPercent report hpercent h),
    valid_flatten_lines_iff]
  simp only [List.cons_append, List.nil_append, List.forall_mem_cons, List.forall_mem_map, hheader,
    true_and]
  constructor
  · intro hrows text htext
    obtain ⟨r, hr, hshown⟩ := List.mem_filterMap.mp htext
    obtain ⟨a, ha, rfl⟩ := Option.map_eq_some_iff.mp hshown
    have hcell := (valid_resultRow_iff (hids r hr)).mp (hrows r hr)
    exact (valid_failureCell_iff (hdetails r hr)).mp hcell a ha
  · intro hcuts r hr
    rw [valid_resultRow_iff (hids r hr), valid_failureCell_iff (hdetails r hr)]
    intro a ha
    apply hcuts
    exact List.mem_filterMap.mpr ⟨r, hr, by rw [ha]; rfl⟩

/-- The results table is well formed and the document is valid UTF-8 if and only if no shown line
has a CR among its first 100 bytes and each cut is between two characters. -/
theorem toMarkdown_wellFormed_iff
    (hpercent : ∀ part whole, Utf8.valid (formatPercent part whole) = true)
    (hids : ∀ r ∈ report.results, pipe ∉ r.taskId ∧ TextLines.Plain r.taskId) :
    (report.TableWellFormed formatPercent ∧ report.Utf8Kept formatPercent) ↔
      (∀ text ∈ report.shownLogs, cr ∉ (chosenLine text).take 100) ∧
        ((∀ s ∈ report.strings, Utf8.valid s = true) →
          ∀ text ∈ report.shownLogs, Utf8.Boundary (chosenLine text) 100) := by
  rw [tableWellFormed_iff formatPercent report hids, utf8Kept_iff formatPercent report hpercent]

/-- The report of one task that failed with a log. -/
def ofLog (log : Bytes) : Report :=
  { model := ascii "gemini"
    startedAt := ascii "now"
    wallTime := 5
    options := .limited 4096
    results := [.ofAttempts ⟨ascii "lru-cache", [], 0, [], none⟩
      [.failed 0 .compileError log] .zero 0] }

/-- A share that is a whole number of percents. -/
def wholePercent (part whole : ℕ) : Bytes :=
  toDecimal (100 * part / whole : ℕ) ++ ascii ".0%"

theorem valid_wholePercent (part whole : ℕ) : Utf8.valid (wholePercent part whole) = true :=
  Utf8.valid_append_of_valid (valid_toDecimal _) (valid_ascii (by decide))

theorem toMarkdown_wellFormed_pipes :
    (ofLog (ascii "make\na.cpp:1: error: a | b `c`\n")).TableWellFormed wholePercent ∧
      (ofLog (ascii "make\na.cpp:1: error: a | b `c`\n")).Utf8Kept wholePercent := by
  apply (toMarkdown_wellFormed_iff wholePercent _ valid_wholePercent ?_).mpr
  · exact ⟨by decide, fun _ => by decide⟩
  · intro r hr
    rw [List.mem_singleton.mp hr]
    exact ⟨by decide, by decide, by decide⟩

theorem toMarkdown_wellFormed_crlf : ¬ ∀ (formatPercent : ℕ → ℕ → Bytes) (report : Report),
    (∀ part whole, Utf8.valid (formatPercent part whole) = true) →
    (pipe ∉ report.model ∧ TextLines.Plain report.model) →
    (∀ r ∈ report.results, pipe ∉ r.taskId ∧ TextLines.Plain r.taskId) →
    report.TableWellFormed formatPercent ∧ report.Utf8Kept formatPercent := by
  intro h
  let report := ofLog (ascii "a.cpp:1: error: x\x0d\n")
  have hids : ∀ r ∈ report.results, pipe ∉ r.taskId ∧ TextLines.Plain r.taskId := by
    intro r hr
    rw [List.mem_singleton.mp hr]
    exact ⟨by decide, by decide, by decide⟩
  have htable := (h wholePercent report valid_wholePercent ⟨by decide, by decide, by decide⟩
    hids).1
  have hcr := (tableWellFormed_iff wholePercent report hids).mp htable
  exact absurd hcr (by decide)

end Report

end GeminiCpp.Eval
