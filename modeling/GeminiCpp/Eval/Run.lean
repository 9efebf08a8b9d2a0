import GeminiCpp.Eval.RunTask
import GeminiCpp.Lib.WorkerPool

/-! An evaluation run: a pool of workers that share the tasks, and the report of their results
(`Runner::run`). -/
namespace GeminiCpp.Eval
open WorkerPool Traced Traced.Prog

variable {ω : Type}

/-- A result that has not been written. -/
def TaskResult.blank : TaskResult :=
  { taskId := [], outcome := .harnessError, attempts := [], usage := .zero, modelLatency := 0 }

namespace Runner
variable (host : RunnerHost ω) (o : RunnerOptions) (client : Option (ChatClient ω))
  (text : JsonText)

/-- `run_task` can return a result for a task. Other tasks are run at the same time, so the
outside world is in any state. -/
def CanReturn (task : Task) (r : TaskResult) : Prop :=
  ∃ w, (runTask host o task client text w).result = .ok r

/-- The number of workers: the calling thread, or a pool. -/
def poolSize (tasks : List Task) : ℕ :=
  let jobs := min o.jobs.toNat tasks.length
  if jobs ≤ 1 then 1 else jobs

/-- The states of a `run`, with or without a callback. -/
def Runs (tasks : List Task) (onResult : Bool) (s : State TaskResult) : Prop :=
  Reachable tasks.length
    (fun i r => ∃ task, tasks[i]? = some task ∧ CanReturn host o client text task r)
    onResult (poolSize o tasks) .blank s

/-- All workers have left their loops, and the pool is joined. -/
def Returned (s : State TaskResult) : Prop := ∀ p ∈ s.workers, p = .done

/-- The report that `run` builds from its results. -/
def reportOf (model startedAt : Bytes) (wallTime : Millis) (s : State TaskResult) : Report :=
  { model, startedAt, wallTime, options := o, results := s.results }

theorem poolSize_pos (tasks : List Task) : 0 < poolSize o tasks := by
  unfold poolSize
  dsimp only
  split_ifs <;> omega

/-- No two calls of the callback overlap. When `run` returns, every task was run exactly once,
its result is stored at its place, and the callback was called exactly once with that result. -/
theorem run_handles_every_task (tasks : List Task) (onResult : Bool) :
    (∀ s, Runs host (create host o) client text tasks onResult s →
      s.workers.countP Phase.isCalling ≤ 1) ∧
    ∀ s, Runs host (create host o) client text tasks onResult s → Returned s →
      s.results.length = tasks.length ∧ (∀ p ∈ s.ran, p.1 < tasks.length) ∧
      ∀ (i : ℕ) (task : Task), tasks[i]? = some task →
        ∃ r, CanReturn host (create host o) client text task r ∧ Handled onResult s i r := by
  constructor
  · exact fun s hs => hs.calling_le
  · intro s hs hreturned
    refine ⟨hs.invariant.length, fun p hp => hs.ran_lt hp, fun i task htask => ?_⟩
    have hi : i < tasks.length := (List.getElem?_eq_some_iff.mp htask).1
    obtain ⟨r, ⟨task', htask', hr⟩, hhandled⟩ := hs.handled (poolSize_pos _ tasks) hreturned hi
    obtain rfl : task = task' := Option.some.inj (htask.symm.trans htask')
    exact ⟨r, hr, hhandled⟩

/-- A machine on which every source compiles, and the tests fail if `fails`. -/
def compilingMachine (fails : Bool) : Machine :=
  let built : ProcessResult := { ProcessResult.init with exitCode := 0, duration := 900 }
  { writeFile := fun _ _ => true
    runProcess := fun options =>
      if options.startMarker = [] then .ok built
      else if fails then
        .ok { built with exitCode := 1, output := ascii "1 check(s) failed", duration := 7 }
      else .ok { built with duration := 5 }
    strsignal := fun _ => none }

/-- A host on which the tests pass from the clock's time 30 on. -/
def secondTryHost : RunnerHost (Script ℕ) where
  tempDirectory := ascii "/tmp"
  clock w := (w.2, w.1, w.2 + 10)
  uniqueSuffix w := (ascii "7f", w)
  createDirectories _ w := ({ isSet := false, message := [] }, w)
  removeAll _ w := w
  machine w := (compilingMachine (w.2 < 30), w)

/-- Two workers, and one repair round. -/
def twoJobs : RunnerOptions :=
  { compiler := ascii "g++", stdFlag := ascii "-std=c++20", extraFlags := [], sanitize := false
    repairRounds := 1, jobs := 2, workRoot := [], keepWorkdirs := false, useReference := false
    compileTimeout := 60000, startupGrace := 0, maxLogBytes := 4000, generation := .unset }

def taskNamed (id : Bytes) : Task :=
  { id, prompt := ascii "Write it.", timeout := 10000, testSource := ascii "int main() \x7b\x7d"
    referenceSource := none }

/-- The first program fails its tests, and the second one passes. -/
def secondTry (id : Bytes) : TaskResult :=
  { taskId := id
    outcome := .pass
    attempts :=
      [{ round := 0, outcome := .testFailure, detail := ascii "exit code 1\n1 check(s) failed"
         source := ascii "int a;\n", compileTime := 900, runTime := 7 },
      { round := 1, outcome := .pass, detail := [], source := ascii "int b;\n"
        compileTime := 900, runTime := 5 }]
    usage := .zero
    modelLatency := 20 }

theorem canReturn_secondTry (id : Bytes) :
    CanReturn secondTryHost (create secondTryHost twoJobs) (some .scripted) (.known [] [])
      (taskNamed id) (secondTry id) := by
  let reply : ℕ → Result GenerateResponse := fun n =>
    textReply (if n = 0 then ascii "```cpp\nint a;\n```" else ascii "```cpp\nint b;\n```")
  refine ⟨(reply, 0), ?_⟩
  rfl

def twoTasks : List Task := [taskNamed (ascii "a"), taskNamed (ascii "b")]

/-- The end of a run in which the second task is ready first. -/
def bothDone : State TaskResult :=
  let first := secondTry (ascii "a")
  let second := secondTry (ascii "b")
  { next := 4, results := [first, second], locked := false, workers := [.done, .done]
    ran := [(1, second), (0, first)], called := [(1, second), (0, first)] }

theorem runs_bothDone :
    Runs secondTryHost (create secondTryHost twoJobs) (some .scripted) (.known [] []) twoTasks true
      bothDone := by
  have hfirst := canReturn_secondTry (ascii "a")
  have hsecond := canReturn_secondTry (ascii "b")
  exact Relation.ReflTransGen.refl
    |>.tail (@Step.take _ _ _ _ _ [] [.fetching] rfl (by decide))
    |>.tail (@Step.take _ _ _ _ _ [.running 0] [] rfl (by decide))
    |>.tail (@Step.write _ _ _ _ _ [.running 0] [] 1 _ rfl ⟨_, rfl, hsecond⟩)
    |>.tail (@Step.write _ _ _ _ _ [] [.waiting 1] 0 _ rfl ⟨_, rfl, hfirst⟩)
    |>.tail (@Step.lock _ _ _ _ _ [.waiting 0] [] 1 _ rfl rfl rfl)
    |>.tail (@Step.unlock _ _ _ _ _ [.waiting 0] [] 1 rfl)
    |>.tail (@Step.lock _ _ _ _ _ [] [.fetching] 0 _ rfl rfl rfl)
    |>.tail (@Step.unlock _ _ _ _ _ [] [.fetching] 0 rfl)
    |>.tail (@Step.stop _ _ _ _ _ [] [.fetching] rfl (by decide))
    |>.tail (@Step.stop _ _ _ _ _ [.done] [] rfl (by decide))

theorem returned_bothDone : Returned bothDone := by
  unfold Returned
  decide

theorem run_handles_every_task_bothDone :
    bothDone.workers.countP Phase.isCalling ≤ 1 ∧ bothDone.results.length = 2 ∧
      ∃ r, CanReturn secondTryHost (create secondTryHost twoJobs) (some .scripted) (.known [] [])
        (taskNamed (ascii "b")) r ∧ Handled true bothDone 1 r := by
  have hhandled := run_handles_every_task secondTryHost twoJobs (some .scripted) (.known [] [])
    twoTasks true
  obtain ⟨hlength, -, hall⟩ := hhandled.2 bothDone runs_bothDone returned_bothDone
  exact ⟨hhandled.1 bothDone runs_bothDone, hlength, hall 1 _ rfl⟩

end Runner

/-- Every result has exactly one outcome. -/
theorem sum_count_outcomes (report : Report) :
    (allOutcomes.map report.count).sum = report.results.length := by
  unfold Report.count
  induction report.results with
  | nil => rfl
  | cons r results ih =>
    rw [List.length_cons, ← ih]
    cases hr : r.outcome <;>
      simp only [allOutcomes, List.map_cons, List.map_nil, List.sum_cons, List.sum_nil,
        List.countP_cons, hr, decide_true, reduceCtorEq, decide_false, Bool.false_eq_true, if_true,
        if_false] <;> omega

/-- The number that an entry of the summary holds. -/
def sizeOfJson : Json → UInt64
  | .uint n => n
  | _ => 0

/-- The `outcomes` of the summary of a report. -/
def summaryOutcomes (report : Report) : Option Json :=
  ((reportToJson report).find (ascii "summary")).bind fun j => j.find (ascii "outcomes")

/-- The counts of a summary, in the order of their keys. -/
theorem summaryOutcomes_eq (report : Report) :
    summaryOutcomes report = some (.obj
      ([.apiError, .compileError, .crash, .harnessError, .noCode, .pass, .testFailure,
        .timeout].map fun outcome : Outcome =>
          (outcome.toString, sizeToJson (report.count outcome)))) := rfl

theorem sum_summaryOutcomes (report : Report) :
    ∃ fields, summaryOutcomes report = some (.obj fields) ∧
      (fields.map fun entry => sizeOfJson entry.2).sum = .ofNat report.results.length := by
  refine ⟨_, summaryOutcomes_eq report, ?_⟩
  have hcount := congrArg UInt64.ofNat (sum_count_outcomes report)
  rw [← hcount]
  simp only [allOutcomes, List.map_cons, List.map_nil, List.sum_cons, List.sum_nil, sizeToJson,
    sizeOfJson, UInt64.ofNat_add]
  ac_rfl

/-- What the figures of a report say about each other. -/
structure Report.Consistent (report : Report) : Prop where
  passedFirstTry_le : report.passedFirstTry ≤ report.passed
  passed_le : report.passed ≤ report.results.length
  outcomes : ∃ fields, summaryOutcomes report = some (.obj fields) ∧
    (fields.map fun entry => sizeOfJson entry.2).sum = .ofNat report.results.length

theorem Report.consistent_of_results {report : Report} (repairRounds : ℤ)
    (h : ∀ r ∈ report.results, r.Consistent repairRounds) : report.Consistent where
  passedFirstTry_le :=
    List.countP_mono_left fun r hr hfirst => (h r hr).passedFirstTry hfirst
  passed_le := List.countP_le_length
  outcomes := sum_summaryOutcomes report

/-- Every result of `run_task` is consistent, and so is every report that `run` builds. -/
theorem Runner.results_consistent (host : RunnerHost ω) (o : RunnerOptions)
    (client : Option (ChatClient ω)) (text : JsonText) :
    (∀ task r, CanReturn host (create host o) client text task r → r.Consistent o.repairRounds) ∧
    ∀ (tasks : List Task) (onResult : Bool) (s : State TaskResult)
      (model startedAt : Bytes) (wallTime : Millis),
      Runs host (create host o) client text tasks onResult s → Returned s →
        (reportOf (create host o) model startedAt wallTime s).Consistent := by
  have hresult : ∀ task r, CanReturn host (create host o) client text task r →
      r.Consistent o.repairRounds := by
    rintro task r ⟨w, hr⟩
    exact wp_iff.mp (runTask_consistent host o client text task w) r hr
  constructor
  · exact hresult
  · intro tasks onResult s model startedAt wallTime hs hreturned
    apply Report.consistent_of_results o.repairRounds
    intro r hr
    obtain ⟨i, hi⟩ := List.mem_iff_getElem?.mp hr
    have hlt : i < tasks.length := by
      have hlen := (List.getElem?_eq_some_iff.mp hi).1
      rwa [show (reportOf (create host o) model startedAt wallTime s).results.length = tasks.length
        from hs.invariant.length] at hlen
    obtain ⟨r', ⟨task, -, hr'⟩, hhandled⟩ := hs.handled (poolSize_pos _ tasks) hreturned hlt
    obtain rfl : r' = r := Option.some.inj (hhandled.result.symm.trans hi)
    exact hresult task r' hr'

theorem Runner.results_consistent_bothDone :
    (secondTry (ascii "a")).Consistent 1 ∧
      (reportOf (create secondTryHost twoJobs) (ascii "gemini-2.5-flash") (ascii "2025-06-01") 40
        bothDone).Consistent := by
  have hconsistent := results_consistent secondTryHost twoJobs (some .scripted) (.known [] [])
  exact ⟨hconsistent.1 _ _ (canReturn_secondTry (ascii "a")),
    hconsistent.2 twoTasks true bothDone _ _ _ runs_bothDone returned_bothDone⟩

end GeminiCpp.Eval
