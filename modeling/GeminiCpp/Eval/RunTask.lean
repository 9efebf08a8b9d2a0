import GeminiCpp.Eval.CodeExtract
import GeminiCpp.Eval.Report

/-! One task of an evaluation run: the attempts of the model, or of the reference solution, and
the result they make (`Runner::run_task`). -/
namespace GeminiCpp.Eval
open Traced Traced.Prog

variable {ω : Type}

structure ErrorCode where
  isSet : Bool
  message : Bytes

/-- What the runner uses of the machine it runs on. -/
structure RunnerHost (ω : Type) where
  tempDirectory : Bytes
  clock : ω → Millis × ω
  uniqueSuffix : ω → Bytes × ω
  createDirectories : Bytes → ω → ErrorCode × ω
  removeAll : Bytes → ω → ω
  /-- The machine as the next evaluation finds it. -/
  machine : ω → Machine × ω

/-- The assertion helpers that the tests of a task include. -/
def checkHeader : Bytes :=
  ascii "#pragma once\n" ++
  ascii "// Assertion helpers injected by the gemini-cpp eval harness.\n" ++
  ascii "#include <cstdio>\n" ++
  ascii "#include <exception>\n" ++
  ascii "#include <ostream>\n" ++
  ascii "#include <sstream>\n" ++
  ascii "#include <string>\n" ++
  ascii "\n" ++
  ascii "namespace check \x7b\n" ++
  ascii "inline int& failures() \x7b static int count = 0; return count; \x7d\n" ++
  ascii "\n" ++
  ascii "namespace detail \x7b\n" ++
  ascii "// Tells the harness the binary has started (see kStartMarker in runner.cpp).\n" ++
  ascii "inline const bool started = [] \x7b\n" ++
  ascii "  std::fputs(\"\\x1egemini-cpp:started\\n\", stderr);\n" ++
  ascii "  std::fflush(stderr);\n" ++
  ascii "  return true;\n" ++
  ascii "\x7d();\n" ++
  ascii "\n" ++
  ascii "template <typename T>\n" ++
  ascii "std::string show(const T& value) \x7b\n" ++
  ascii "  if constexpr (requires(std::ostream& os) \x7b os << value; \x7d) \x7b\n" ++
  ascii "    std::ostringstream os;\n" ++
  ascii "    os << value;\n" ++
  ascii "    return os.str();\n" ++
  ascii "  \x7d else \x7b\n" ++
  ascii "    return \"<unprintable>\";\n" ++
  ascii "  \x7d\n" ++
  ascii "\x7d\n" ++
  ascii "\x7d  // namespace detail\n" ++
  ascii "\n" ++
  ascii "inline int report() \x7b\n" ++
  ascii "  if (failures() == 0) \x7b\n" ++
  ascii "    std::puts(\"ALL TESTS PASSED\");\n" ++
  ascii "    return 0;\n" ++
  ascii "  \x7d\n" ++
  ascii "  std::fprintf(stderr, \"%d check(s) failed\\n\", failures());\n" ++
  ascii "  return 1;\n" ++
  ascii "\x7d\n" ++
  ascii "\x7d  // namespace check\n" ++
  ascii "\n" ++
  ascii "#define CHECK(cond)                                                                   \\\n" ++
  ascii "  do \x7b                                                                                \\\n" ++
  ascii "    if (!(cond)) \x7b                                                                    \\\n" ++
  ascii "      std::fprintf(stderr, \"%s:%d: CHECK failed: %s\\n\", __FILE__, __LINE__, #cond);   \\\n" ++
  ascii "      ++::check::failures();                                                          \\\n" ++
  ascii "    \x7d                                                                                 \\\n" ++
  ascii "  \x7d while (0)\n" ++
  ascii "\n" ++
  ascii "#define CHECK_EQ(a, b)                                                                \\\n" ++
  ascii "  do \x7b                                                                                \\\n" ++
  ascii "    const auto& check_a_ = (a);                                                       \\\n" ++
  ascii "    const auto& check_b_ = (b);                                                       \\\n" ++
  ascii "    if (!(check_a_ == check_b_)) \x7b                                                    \\\n" ++
  ascii "      std::fprintf(stderr, \"%s:%d: CHECK_EQ failed: %s == %s (got %s vs %s)\\n\",       \\\n" ++
  ascii "                   __FILE__, __LINE__, #a, #b,                                        \\\n" ++
  ascii "                   ::check::detail::show(check_a_).c_str(),                           \\\n" ++
  ascii "                   ::check::detail::show(check_b_).c_str());                          \\\n" ++
  ascii "      ++::check::failures();                                                          \\\n" ++
  ascii "    \x7d                                                                                 \\\n" ++
  ascii "  \x7d while (0)\n" ++
  ascii "\n" ++
  ascii "#define CHECK_THROWS(expr)                                                            \\\n" ++
  ascii "  do \x7b                                                                                \\\n" ++
  ascii "    bool check_threw_ = false;                                                        \\\n" ++
  ascii "    try \x7b (void)(expr); \x7d catch (...) \x7b check_threw_ = true; \x7d                        \\\n" ++
  ascii "    if (!check_threw_) \x7b                                                              \\\n" ++
  ascii "      std::fprintf(stderr, \"%s:%d: CHECK_THROWS failed: %s\\n\", __FILE__, __LINE__, #expr); \\\n" ++
  ascii "      ++::check::failures();                                                          \\\n" ++
  ascii "    \x7d                                                                                 \\\n" ++
  ascii "  \x7d while (0)\n"

/-- An attempt that evaluated nothing. -/
def Attempt.failed (round : ℕ) (outcome : Outcome) (detail : Bytes) : Attempt :=
  { round, outcome, detail, source := [], compileTime := 0, runTime := 0 }

/-- The outcome of a task is that of its last attempt. -/
def TaskResult.ofAttempts (task : Task) (attempts : List Attempt) (usage : UsageMetadata)
    (modelLatency : Millis) : TaskResult :=
  { taskId := task.id
    outcome := match attempts.getLast? with
      | some last => last.outcome
      | none => .harnessError
    attempts, usage, modelLatency }

namespace Runner

/-- The options as the constructor normalises them. -/
def create (host : RunnerHost ω) (o : RunnerOptions) : RunnerOptions :=
  { o with
    workRoot := if o.workRoot = [] then joinPath host.tempDirectory (ascii "gemini-cpp-eval")
      else o.workRoot
    jobs := if o.jobs < 1 then 1 else o.jobs
    repairRounds := if o.repairRounds < 0 then 0 else o.repairRounds }

/-- Writes the tests of a task. -/
def writeTests (m : Machine) (task : Task) (workdir : Bytes) : Bool :=
  m.writeFile (joinPath workdir (ascii "tests.cpp")) task.testSource &&
    m.writeFile (joinPath workdir (ascii "check.hpp")) checkHeader

variable (host : RunnerHost ω) (o : RunnerOptions) (task : Task) (workdir : Bytes)

/-- The rounds of `run_task`, of which `left` are allowed: the attempts and the latency. -/
def repairLoop (s : ChatSession ω) :
    (left round : ℕ) → (message : Bytes) → Program (ChatState × ω) (List Attempt × Millis)
  | 0, _, _ => return ([], 0)
  | left + 1, round, message => do
    let start ← Prog.lift (Prog.ask host.clock)
    let reply ← s.send message none
    let now ← Prog.lift (Prog.ask host.clock)
    match reply with
    | .error e => return ([.failed round .apiError e.describe], now - start)
    | .ok reply =>
      let m ← Prog.lift (Prog.ask host.machine)
      let attempt := attemptOf m o task workdir round reply (extractCppSource reply.text)
      if attempt.outcome = .pass ∨ attempt.outcome = .harnessError then
        return ([attempt], now - start)
      else
        let (attempts, latency) ← repairLoop s left (round + 1) (buildRepairPrompt attempt)
        return (attempt :: attempts, now - start + latency)

/-- The attempts at a task whose tests are written, with the usage and the latency of the model.
The client may be missing if the reference solution is evaluated. -/
def attempts (client : Option (ChatClient ω)) (text : JsonText) :
    Program ω (List Attempt × UsageMetadata × Millis) :=
  if o.useReference then
    match task.referenceSource with
    | none =>
      return ([.failed 0 .harnessError (ascii "task has no reference.hpp")], .zero, 0)
    | some source => do
      let m ← Prog.ask host.machine
      return ([evaluate m o task source workdir 0], .zero, 0)
  else
    match client with
    | none =>
      return ([.failed 0 .harnessError (ascii "no model client configured")], .zero, 0)
    | some client => Prog.withLocals .init do
      let (attempts, latency) ← repairLoop host o task workdir (chat o client text)
        (o.repairRounds + 1).toNat 0 (buildPrompt task)
      let s ← Prog.get
      return (attempts, s.1.usage, latency)

def removeWorkdir : Program ω Unit :=
  if o.keepWorkdirs then return () else Prog.modify (host.removeAll workdir)

def runTask (client : Option (ChatClient ω)) (text : JsonText) : Program ω TaskResult := do
  let suffix ← Prog.ask host.uniqueSuffix
  let workdir := joinPath o.workRoot (task.id ++ ascii "-" ++ suffix)
  let ec ← Prog.ask (host.createDirectories workdir)
  let m ← Prog.ask host.machine
  if ec.isSet || !writeTests m task workdir then
    let detail := ascii "cannot prepare " ++ workdir ++ ascii ": " ++ ec.message
    return .ofAttempts task [.failed 0 .harnessError detail] .zero 0
  else
    let (attempts, usage, latency) ← attempts host o task workdir client text
    removeWorkdir host o workdir
    return .ofAttempts task attempts usage latency

end Runner

/-- Failures that are sent back to the model. -/
def Outcome.repairable : Outcome → Bool
  | .compileError | .testFailure | .timeout | .crash | .noCode => true
  | .pass | .apiError | .harnessError => false

def TaskResult.passed (r : TaskResult) : Bool := r.outcome = .pass

/-- Attempts of consecutive rounds from `round` on, at most `left` of them. Only a failure that
is sent back to the model is followed by another one. -/
structure AttemptRun (left round : ℕ) (attempts : List Attempt) : Prop where
  length_le : attempts.length ≤ left
  nonempty : left ≠ 0 → attempts ≠ []
  rounds : ∀ k a, attempts[k]? = some a → a.round = round + k
  repairable : ∀ a ∈ attempts.dropLast, a.outcome.repairable = true

theorem AttemptRun.single {left round : ℕ} {a : Attempt} (h : a.round = round) :
    AttemptRun (left + 1) round [a] where
  length_le := by simp
  nonempty _ := List.cons_ne_nil _ _
  rounds k b hk := by
    obtain ⟨rfl, rfl⟩ : k = 0 ∧ a = b := by simpa [List.getElem?_singleton] using hk
    exact h
  repairable b hb := by simp at hb

theorem AttemptRun.cons {left round : ℕ} {a : Attempt} {attempts : List Attempt}
    (hround : a.round = round) (ha : a.outcome.repairable = true)
    (h : AttemptRun left (round + 1) attempts) : AttemptRun (left + 1) round (a :: attempts) := by
  constructor
  case length_le =>
    have hle := h.length_le
    rw [List.length_cons]
    omega
  case nonempty => exact fun _ => List.cons_ne_nil _ _
  case rounds =>
    intro k b hk
    cases k with
    | zero =>
      obtain rfl : a = b := Option.some.inj hk
      exact hround
    | succ k =>
      have hb := h.rounds k b hk
      omega
  case repairable =>
    intro b hb
    cases attempts with
    | nil => simp at hb
    | cons a' attempts =>
      rw [List.dropLast_cons_cons] at hb
      rcases List.mem_cons.mp hb with rfl | hb
      · exact ha
      · exact h.repairable b hb

namespace Runner

theorem outcomeOf_ne_apiError (ran : ProcessResult) : outcomeOf ran ≠ .apiError := by
  unfold outcomeOf
  split_ifs <;> simp

/-- An evaluation is numbered as its round, and does not blame the model. -/
theorem evaluate_spec (m : Machine) (o : RunnerOptions) (task : Task) (source workdir : Bytes)
    (round : ℕ) :
    (evaluate m o task source workdir round).round = round ∧
      (evaluate m o task source workdir round).outcome ≠ .apiError := by
  unfold evaluate
  dsimp only
  split_ifs with hwrite
  · exact ⟨rfl, by simp⟩
  · cases m.runProcess (compileOptions o workdir round) with
    | error e => exact ⟨rfl, by simp⟩
    | ok built =>
      dsimp only
      split_ifs with hmissing hbuilt
      · exact ⟨rfl, by simp⟩
      · exact ⟨rfl, by simp⟩
      · cases m.runProcess (runOptions o task workdir round) with
        | error e => exact ⟨rfl, by simp⟩
        | ok ran =>
          dsimp only
          have hran := outcomeOf_ne_apiError ran
          split_ifs with hpass
          · exact ⟨rfl, hran⟩
          · exact ⟨rfl, hran⟩

theorem attemptOf_round (m : Machine) (o : RunnerOptions) (task : Task) (workdir : Bytes)
    (round : ℕ) (reply : GenerateResponse) (source : Option Bytes) :
    (attemptOf m o task workdir round reply source).round = round := by
  cases source with
  | none => rfl
  | some source => exact (evaluate_spec ..).1

/-- An attempt after which the loop goes on can be repaired. -/
theorem attemptOf_repairable {m : Machine} {o : RunnerOptions} {task : Task} {workdir : Bytes}
    {round : ℕ} {reply : GenerateResponse} {source : Option Bytes}
    (h : ¬ ((attemptOf m o task workdir round reply source).outcome = .pass ∨
      (attemptOf m o task workdir round reply source).outcome = .harnessError)) :
    (attemptOf m o task workdir round reply source).outcome.repairable = true := by
  have hne : (attemptOf m o task workdir round reply source).outcome ≠ .apiError := by
    cases source with
    | none => exact fun h => by cases h
    | some source => exact (evaluate_spec m o task source workdir round).2
  revert h hne
  cases (attemptOf m o task workdir round reply source).outcome <;> simp [Outcome.repairable]

variable (host : RunnerHost ω) (o : RunnerOptions) (task : Task) (workdir : Bytes)

theorem wp_repairLoop (s : ChatSession ω) (left round : ℕ) (message : Bytes)
    (σ : ChatState × ω) :
    wp (repairLoop host o task workdir s left round message) σ fun _ _ r =>
      ∀ attempts latency, r = .ok (attempts, latency) → AttemptRun left round attempts := by
  induction left generalizing round message σ with
  | zero =>
    rw [repairLoop, wp_pure]
    rintro attempts latency h
    cases h
    exact ⟨le_refl 0, fun h => absurd rfl h, by simp, by simp⟩
  | succ left ih =>
    simp only [repairLoop, wp_bind, wp_lift, wp_ask, then_ok]
    rw [wp_iff]
    rcases (s.send message none (σ.1, (host.clock σ.2).2)).result with x | (e | reply)
    · simp
    · simp only [then_ok, wp_bind, wp_lift, wp_ask, wp_pure]
      rintro attempts latency h
      cases h
      exact .single rfl
    · simp only [then_ok, wp_bind, wp_lift, wp_ask]
      generalize hm : host.machine _ = m
      split_ifs with hdone
      · rw [wp_pure]
        rintro attempts latency h
        cases h
        exact .single (attemptOf_round ..)
      · rw [wp_bind]
        refine wp_mono (ih (round + 1) _ _) fun _ _ r h => ?_
        rcases r with x | ⟨attempts, latency⟩
        · simp
        · rw [then_ok, wp_pure]
          rintro attempts' latency' h'
          cases h'
          exact .cons (attemptOf_round ..) (attemptOf_repairable hdone) (h attempts latency rfl)

theorem wp_attempts (client : Option (ChatClient ω)) (text : JsonText) (w : ω)
    (hrounds : 0 ≤ o.repairRounds) :
    wp (attempts host o task workdir client text) w fun _ _ r =>
      ∀ found usage latency, r = .ok (found, usage, latency) →
        AttemptRun (o.repairRounds + 1).toNat 0 found := by
  obtain ⟨left, hleft⟩ : ∃ left, (o.repairRounds + 1).toNat = left + 1 :=
    ⟨o.repairRounds.toNat, by omega⟩
  unfold attempts
  rw [hleft]
  split_ifs with hreference
  · cases task.referenceSource with
    | none =>
      rw [wp_pure]
      rintro found usage latency h
      cases h
      exact .single rfl
    | some source =>
      simp only [wp_bind, wp_ask, then_ok, wp_pure]
      rintro found usage latency h
      cases h
      exact .single (evaluate_spec ..).1
  · cases client with
    | none =>
      rw [wp_pure]
      rintro found usage latency h
      cases h
      exact .single rfl
    | some client =>
      simp only [wp_withLocals, wp_bind]
      refine wp_mono (wp_repairLoop host o task workdir (chat o client text) (left + 1) 0
        (buildPrompt task) (.init, w)) fun _ s r h => ?_
      rcases r with x | ⟨found, latency⟩
      · simp
      · simp only [then_ok, wp_bind, wp_get, wp_pure]
        rintro found' usage latency' h'
        cases h'
        exact h found latency rfl

end Runner

/-- What a task's result says about its attempts. -/
structure TaskResult.Consistent (repairRounds : ℤ) (r : TaskResult) : Prop where
  nonempty : r.attempts ≠ []
  length_le : (r.attempts.length : ℤ) ≤ max 0 repairRounds + 1
  rounds : ∀ (k : ℕ) (a : Attempt), r.attempts[k]? = some a → a.round = k
  outcome : ∀ last, r.attempts.getLast? = some last → r.outcome = last.outcome
  repairable : ∀ a ∈ r.attempts.dropLast, a.outcome.repairable = true
  passed_iff : r.passed = true ↔ ∃ a ∈ r.attempts, a.outcome = .pass
  passedFirstTry : r.passedFirstTry = true → r.passed = true

theorem TaskResult.ofAttempts_consistent {left : ℕ} {found : List Attempt}
    (h : AttemptRun (left + 1) 0 found) (task : Task) (usage : UsageMetadata) (latency : Millis) :
    (TaskResult.ofAttempts task found usage latency).Consistent left := by
  obtain ⟨init, last, rfl⟩ : ∃ init last, found = init ++ [last] := by
    rcases List.eq_nil_or_concat found with hnil | ⟨init, last, hconcat⟩
    · exact absurd hnil (h.nonempty (Nat.succ_ne_zero left))
    · exact ⟨init, last, by rw [hconcat, List.concat_eq_append]⟩
  have houtcome : (TaskResult.ofAttempts task (init ++ [last]) usage latency).outcome =
      last.outcome := by simp [TaskResult.ofAttempts]
  have hpassed : (TaskResult.ofAttempts task (init ++ [last]) usage latency).passed = true ↔
      last.outcome = .pass := by simp [TaskResult.passed, houtcome]
  -- an attempt that passed is not followed by another one
  have hlast : ∀ a ∈ init ++ [last], a.outcome = .pass → last.outcome = .pass := by
    intro a ha hpass
    rcases List.mem_append.mp ha with ha | ha
    · have hrepairable := h.repairable a (by rwa [List.dropLast_concat])
      rw [hpass] at hrepairable
      cases hrepairable
    · rwa [List.mem_singleton.mp ha] at hpass
  constructor
  case nonempty => exact List.append_ne_nil_of_right_ne_nil _ (List.cons_ne_nil _ _)
  case length_le =>
    have hle := h.length_le
    change ((init ++ [last]).length : ℤ) ≤ _
    omega
  case rounds =>
    intro k a hk
    rw [h.rounds k a hk, Nat.zero_add]
  case outcome =>
    intro a ha
    have ha : (init ++ [last]).getLast? = some a := ha
    rw [List.getLast?_concat] at ha
    obtain rfl := Option.some.inj ha
    exact houtcome
  case repairable => exact h.repairable
  case passed_iff =>
    rw [hpassed]
    constructor
    · exact fun hpass => ⟨last, List.mem_append_right _ (List.mem_singleton.mpr rfl), hpass⟩
    · exact fun ⟨a, ha, hpass⟩ => hlast a ha hpass
  case passedFirstTry =>
    intro hfirst
    rw [hpassed]
    unfold TaskResult.ofAttempts TaskResult.passedFirstTry at hfirst
    cases hfound : init ++ [last] with
    | nil => simp at hfound
    | cons a rest =>
      rw [hfound] at hfirst
      refine hlast a ?_ (of_decide_eq_true hfirst)
      rw [hfound]
      exact List.mem_cons_self ..

/-- Every result of a task is consistent, for every behaviour of the model and the machine. -/
theorem Runner.runTask_consistent (host : RunnerHost ω) (o : RunnerOptions)
    (client : Option (ChatClient ω)) (text : JsonText) (task : Task) (w : ω) :
    wp (runTask host (create host o) task client text) w fun _ _ r =>
      ∀ result, r = .ok result → result.Consistent o.repairRounds := by
  have hrounds : (create host o).repairRounds = max 0 o.repairRounds := by
    unfold create
    dsimp only
    omega
  obtain ⟨left, hleft⟩ : ∃ left : ℕ, max 0 o.repairRounds = left :=
    ⟨(max 0 o.repairRounds).toNat, by omega⟩
  have hmax : ∀ result : TaskResult, result.Consistent left → result.Consistent o.repairRounds := by
    intro result h
    refine { h with length_le := ?_ }
    have hle := h.length_le
    omega
  unfold runTask
  simp only [wp_bind, wp_ask, then_ok]
  split_ifs with hprepared
  · rw [wp_pure]
    rintro result h
    cases h
    refine hmax _ (TaskResult.ofAttempts_consistent ?_ task .zero 0)
    exact .single rfl
  · rw [wp_bind]
    have hleft' : ((create host o).repairRounds + 1).toNat = left + 1 := by omega
    refine wp_mono (wp_attempts host (create host o) task _ client text _ (by omega))
      fun _ s r h => ?_
    rw [hleft'] at h
    rcases r with x | ⟨found, usage, latency⟩
    · simp
    · rw [then_ok, wp_bind]
      have hremoved : ∀ workdir, wp (removeWorkdir host (create host o) workdir) s
          fun _ _ r => r = .ok () := by
        intro workdir
        unfold removeWorkdir
        split_ifs
        · rfl
        · rfl
      refine wp_mono (hremoved _) ?_
      rintro _ s' _ rfl
      rw [then_ok, wp_pure]
      rintro result hresult
      cases hresult
      exact hmax _ (TaskResult.ofAttempts_consistent (h found usage latency rfl) task usage latency)

end GeminiCpp.Eval
