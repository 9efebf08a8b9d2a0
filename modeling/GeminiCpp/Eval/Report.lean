import Mathlib.Data.UInt
import GeminiCpp.Eval.Runner

/-! The report of an evaluation run (`report.cpp`), as JSON. -/
namespace GeminiCpp.Eval

structure Report where
  model : Bytes
  startedAt : Bytes
  wallTime : Millis
  options : RunnerOptions
  results : List TaskResult

def TaskResult.passedFirstTry (r : TaskResult) : Bool :=
  match r.attempts with
  | [] => false
  | a :: _ => a.outcome = .pass

namespace Report
variable (report : Report)

def count (outcome : Outcome) : ℕ := report.results.countP fun r => r.outcome = outcome

def passed : ℕ := report.count .pass

def passedFirstTry : ℕ := report.results.countP TaskResult.passedFirstTry

def totalUsage : UsageMetadata := report.results.foldl (fun total r => total.add r.usage) .zero

end Report

def allOutcomes : List Outcome :=
  [.pass, .compileError, .testFailure, .timeout, .crash, .noCode, .apiError, .harnessError]

/-- A `std::size_t` in JSON. -/
def sizeToJson (n : ℕ) : Json := .uint (.ofNat n)

def millisToJson (ms : Millis) : Json := .int (.ofInt ms)

def attemptToJson (a : Attempt) : Json :=
  Json.object [(ascii "round", .int (.ofNat a.round)), (ascii "outcome", .str a.outcome.toString),
    (ascii "compile_ms", millisToJson a.compileTime), (ascii "run_ms", millisToJson a.runTime),
    (ascii "detail", .str a.detail), (ascii "source", .str a.source)]

def resultToJson (r : TaskResult) : Json :=
  Json.object [(ascii "task", .str r.taskId), (ascii "outcome", .str r.outcome.toString),
    (ascii "passed_first_try", .bool r.passedFirstTry),
    (ascii "model_latency_ms", millisToJson r.modelLatency),
    (ascii "prompt_tokens", .int r.usage.promptTokens),
    (ascii "output_tokens", .int r.usage.candidatesTokens),
    (ascii "attempts", .arr (r.attempts.map attemptToJson))]

def optionsToJson (o : RunnerOptions) : Json :=
  Json.object [(ascii "compiler", .str o.compiler), (ascii "std", .str o.stdFlag),
    (ascii "sanitize", .bool o.sanitize), (ascii "repair_rounds", .int (.ofInt o.repairRounds)),
    (ascii "jobs", .int (.ofInt o.jobs))]

def summaryToJson (report : Report) : Json :=
  let outcomes := Json.object
    (allOutcomes.map fun outcome => (outcome.toString, sizeToJson (report.count outcome)))
  let usage := report.totalUsage
  Json.object [(ascii "tasks", sizeToJson report.results.length),
    (ascii "passed", sizeToJson report.passed),
    (ascii "passed_first_try", sizeToJson report.passedFirstTry), (ascii "outcomes", outcomes),
    (ascii "prompt_tokens", .int usage.promptTokens),
    (ascii "output_tokens", .int usage.candidatesTokens),
    (ascii "thinking_tokens", .int usage.thoughtsTokens)]

def reportToJson (report : Report) : Json :=
  Json.object [(ascii "model", .str report.model), (ascii "started_at", .str report.startedAt),
    (ascii "wall_time_ms", millisToJson report.wallTime),
    (ascii "options", optionsToJson report.options), (ascii "summary", summaryToJson report),
    (ascii "results", .arr (report.results.map resultToJson))]

def Attempt.strings (a : Attempt) : List Bytes := [a.detail, a.source]

/-- The strings of a report that are not fixed in advance. -/
def Report.strings (report : Report) : List Bytes :=
  [report.model, report.startedAt, report.options.compiler, report.options.stdFlag] ++
    report.results.flatMap fun r => r.taskId :: r.attempts.flatMap Attempt.strings

theorem valid_outcome (outcome : Outcome) : Utf8.valid outcome.toString = true := by
  cases outcome <;> exact valid_ascii (by decide)

theorem wellEncoded_attemptToJson {a : Attempt} (h : ∀ s ∈ a.strings, Utf8.valid s = true) :
    (attemptToJson a).wellEncoded = true := by
  apply Json.wellEncoded_object
  intro kv hkv
  simp only [List.mem_cons, List.not_mem_nil, or_false] at hkv
  rcases hkv with rfl | rfl | rfl | rfl | rfl | rfl <;> refine ⟨valid_ascii (by decide), ?_⟩
  · rfl
  · exact valid_outcome a.outcome
  · rfl
  · rfl
  · exact h a.detail (by simp [Attempt.strings])
  · exact h a.source (by simp [Attempt.strings])

theorem wellEncoded_resultToJson {r : TaskResult} (hid : Utf8.valid r.taskId = true)
    (h : ∀ s ∈ r.attempts.flatMap Attempt.strings, Utf8.valid s = true) :
    (resultToJson r).wellEncoded = true := by
  apply Json.wellEncoded_object
  intro kv hkv
  simp only [List.mem_cons, List.not_mem_nil, or_false] at hkv
  rcases hkv with rfl | rfl | rfl | rfl | rfl | rfl | rfl <;> refine ⟨valid_ascii (by decide), ?_⟩
  · exact hid
  · exact valid_outcome r.outcome
  · rfl
  · rfl
  · rfl
  · rfl
  · apply Wire.wellEncoded_arr_map
    intro a ha
    apply wellEncoded_attemptToJson
    exact fun s hs => h s (List.mem_flatMap.mpr ⟨a, ha, hs⟩)

theorem wellEncoded_optionsToJson {o : RunnerOptions} (hcompiler : Utf8.valid o.compiler = true)
    (hstd : Utf8.valid o.stdFlag = true) : (optionsToJson o).wellEncoded = true := by
  apply Json.wellEncoded_object
  intro kv hkv
  simp only [List.mem_cons, List.not_mem_nil, or_false] at hkv
  rcases hkv with rfl | rfl | rfl | rfl | rfl <;> refine ⟨valid_ascii (by decide), ?_⟩
  · exact hcompiler
  · exact hstd
  · rfl
  · rfl
  · rfl

theorem wellEncoded_summaryToJson (report : Report) :
    (summaryToJson report).wellEncoded = true := by
  have houtcomes : (Json.object (allOutcomes.map fun outcome =>
      (outcome.toString, sizeToJson (report.count outcome)))).wellEncoded = true := by
    apply Json.wellEncoded_object
    intro kv hkv
    obtain ⟨outcome, -, rfl⟩ := List.mem_map.mp hkv
    exact ⟨valid_outcome outcome, rfl⟩
  apply Json.wellEncoded_object
  intro kv hkv
  simp only [List.mem_cons, List.not_mem_nil, or_false] at hkv
  rcases hkv with rfl | rfl | rfl | rfl | rfl | rfl | rfl <;> refine ⟨valid_ascii (by decide), ?_⟩
  · rfl
  · rfl
  · rfl
  · exact houtcomes
  · rfl
  · rfl
  · rfl

/-- A report can be printed when its strings can. -/
theorem wellEncoded_reportToJson {report : Report}
    (h : ∀ s ∈ report.strings, Utf8.valid s = true) : (reportToJson report).wellEncoded = true := by
  unfold Report.strings at h
  apply Json.wellEncoded_object
  intro kv hkv
  simp only [List.mem_cons, List.not_mem_nil, or_false] at hkv
  rcases hkv with rfl | rfl | rfl | rfl | rfl | rfl <;> refine ⟨valid_ascii (by decide), ?_⟩
  · exact h report.model (by simp)
  · exact h report.startedAt (by simp)
  · rfl
  · exact wellEncoded_optionsToJson (h _ (by simp)) (h _ (by simp))
  · exact wellEncoded_summaryToJson report
  · apply Wire.wellEncoded_arr_map
    intro r hr
    have hresult : ∀ s ∈ r.taskId :: r.attempts.flatMap Attempt.strings, Utf8.valid s = true :=
      fun s hs => h s (List.mem_append_right _ (List.mem_flatMap.mpr ⟨r, hr, hs⟩))
    apply wellEncoded_resultToJson
    · exact hresult _ (List.mem_cons_self ..)
    · exact fun s hs => hresult s (List.mem_cons_of_mem _ hs)

end GeminiCpp.Eval
