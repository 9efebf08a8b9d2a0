import GeminiCpp.Eval.Report

/-! When a failure can be sent back to the model and reported. A log is cut at byte offsets,
and JSON text is made of whole characters. -/
namespace GeminiCpp.Eval

open Runner

/-- The log is kept whole, or neither cut falls inside a character. -/
def CutsBetweenCharacters (log : Bytes) (maxBytes : ℕ) : Prop :=
  log.length ≤ maxBytes ∨
    Utf8.Boundary log (maxBytes - maxBytes / 4) ∧ Utf8.Boundary log (log.length - maxBytes / 4)

theorem valid_truncateLog_iff {log : Bytes} (h : Utf8.valid log = true) (maxBytes : ℕ) :
    Utf8.valid (truncateLog log maxBytes) = true ↔ CutsBetweenCharacters log maxBytes := by
  unfold truncateLog CutsBetweenCharacters
  by_cases hfits : log.length ≤ maxBytes
  · rw [if_pos hfits]
    exact ⟨fun _ => Or.inl hfits, fun _ => h⟩
  · have hmark : ∀ n : ℕ, Utf8.valid (ascii "\n... [" ++ toDecimal n ++
        ascii " bytes truncated] ...\n") = true := by
      intro n
      have hopen : Utf8.valid (ascii "\n... [") = true := valid_ascii (by decide)
      rw [List.append_assoc, Utf8.valid_append hopen, Utf8.valid_append (valid_toDecimal n)]
      exact valid_ascii (by decide)
    have hne : ∀ n : ℕ, ascii "\n... [" ++ toDecimal n ++ ascii " bytes truncated] ...\n" ≠ [] :=
      fun n hnil => absurd (List.append_eq_nil_iff.mp hnil).2 (by decide)
    rw [if_neg hfits, List.append_assoc, Utf8.valid_append_append (hne _) (hmark _),
      Utf8.valid_take_iff h, Utf8.valid_drop_iff h]
    exact ⟨Or.inr, fun hcuts => hcuts.resolve_left hfits⟩

theorem valid_what (outcome : Outcome) : Utf8.valid (what outcome) = true := by
  cases outcome <;> exact valid_ascii (by decide)

/-- The text around the detail changes nothing. -/
theorem valid_buildRepairPrompt_iff (a : Attempt) :
    Utf8.valid (buildRepairPrompt a) = true ↔ Utf8.valid a.detail = true := by
  have hstart : Utf8.valid (ascii "Your solution ") = true := valid_ascii (by decide)
  have houtput : Utf8.valid (ascii ". Output:\n```text\n") = true := valid_ascii (by decide)
  have hend : Utf8.valid
      (ascii "\n```\nFix the problem and reply with the complete corrected solution.hpp in a " ++
        ascii "single ```cpp block.") = true := by
    rw [Utf8.valid_append (valid_ascii (by decide))]
    exact valid_ascii (by decide)
  have hsplit := Utf8.valid_append_append (s := a.detail) (t := []) (by decide) hend
  unfold buildRepairPrompt
  rw [List.append_assoc, List.append_assoc, List.append_assoc, Utf8.valid_append hstart,
    Utf8.valid_append (valid_what _), Utf8.valid_append houtput]
  rw [List.append_nil] at hsplit
  exact hsplit.trans (and_iff_left rfl)

/-- The text of an attempt can be put into a prompt, a request and a report. -/
structure Sendable (o : RunnerOptions) (a : Attempt) : Prop where
  detail : Utf8.valid a.detail = true
  prompt : Utf8.valid (buildRepairPrompt a) = true
  /-- The request of the next round, if the turns before it can be printed. -/
  request : ∀ {ω : Type} (client : ChatClient ω) (text : JsonText) (history : List Content),
    (∀ c ∈ history, (Wire.contentToJson c).wellEncoded = true) →
    (Wire.configToJson o.generation).wellEncoded = true →
    ∃ body, text.dump (Wire.requestToJson ((chat o client text).buildRequest
      (history ++ [.user (buildRepairPrompt a)]))) = .ok body
  /-- A report, if its other strings can be printed. -/
  report : ∀ (text : JsonText) (report : Report),
    (∀ s ∈ report.strings, s = a.detail ∨ Utf8.valid s = true) →
    ∃ printed, text.dump (reportToJson report) = .ok printed

theorem valid_systemPrompt : Utf8.valid systemPrompt = true := by
  unfold systemPrompt
  simp only [List.append_assoc]
  iterate 4 rw [Utf8.valid_append (valid_ascii (by decide))]
  exact valid_ascii (by decide)

theorem sendable_iff (o : RunnerOptions) (a : Attempt) :
    Sendable o a ↔ Utf8.valid a.detail = true := by
  constructor
  case mp => exact fun h => h.detail
  case mpr =>
    intro hdetail
    have hprompt := (valid_buildRepairPrompt_iff a).mpr hdetail
    constructor
    case detail => exact hdetail
    case prompt => exact hprompt
    case request =>
      intro ω client text history hhistory hconfig
      refine ⟨_, text.dump_of_wellEncoded (Wire.wellEncoded_requestToJson ?_ ?_ ?_ hconfig ?_)⟩
      · intro c hc
        rcases List.mem_append.mp hc with hc | hc
        · exact hhistory c hc
        · rw [List.mem_singleton.mp hc]
          exact (Wire.wellEncoded_user_iff _).mpr hprompt
      · intro c hc part hpart
        obtain rfl : Content.user systemPrompt = c := Option.some.inj hc
        rw [List.mem_singleton.mp hpart]
        exact Wire.wellEncoded_text valid_systemPrompt
      · exact fun d hd => by cases hd
      · exact fun s hs => by cases hs
    case report =>
      intro text report hstrings
      refine ⟨_, text.dump_of_wellEncoded (wellEncoded_reportToJson fun s hs => ?_)⟩
      rcases hstrings s hs with rfl | hs
      · exact hdetail
      · exact hs

/-- A request with the prompt for a detail that is not valid UTF-8 is never sent. -/
theorem dump_repair_request {ω : Type} {a : Attempt} (h : Utf8.valid a.detail = false)
    (s : ChatSession ω) (text : JsonText) (history : List Content) :
    text.dump (Wire.requestToJson (s.buildRequest (history ++ [.user (buildRepairPrompt a)]))) =
      .error Json.typeError316 := by
  unfold JsonText.dump
  apply if_neg
  intro hprinted
  have hprompt := Wire.wellEncoded_of_request hprinted
    (List.mem_append_right history (List.mem_singleton.mpr rfl))
  rw [Wire.wellEncoded_user_iff, valid_buildRepairPrompt_iff, h] at hprompt
  cases hprompt

/-- The log that `attemptOf` shortens. -/
def failureLog (m : Machine) (o : RunnerOptions) (task : Task) (workdir : Bytes) (round : ℕ)
    (reply : GenerateResponse) : Option Bytes → Option Bytes
  | none => some (noCodeLog reply)
  | some source =>
    if !m.writeFile (joinPath workdir (ascii "solution.hpp")) source then none
    else
      match m.runProcess (compileOptions o workdir round) with
      | .error _ => none
      | .ok built =>
        if compilerMissing built then none
        else if !built.ok then some (buildLog m built)
        else
          match m.runProcess (runOptions o task workdir round) with
          | .error _ => none
          | .ok ran => if outcomeOf ran = .pass then none else some (runLog m ran)

/-- What comes from outside is valid UTF-8: the output of processes, the names of signals and
the strings of the reply. -/
structure ValidInputs (m : Machine) (reply : GenerateResponse) : Prop where
  output : ∀ options result, m.runProcess options = .ok result → Utf8.valid result.output = true
  strsignal : ∀ signal name, m.strsignal signal = some name → Utf8.valid name = true
  text : Utf8.valid reply.text = true
  finishReason : Utf8.valid reply.finishReason = true

section
variable {m : Machine} {o : RunnerOptions} {task : Task} {workdir : Bytes} {round : ℕ}
  {reply : GenerateResponse} {source : Option Bytes} {log : Bytes}

/-- The log of an evaluation is that of the compiler or that of the tests. -/
theorem failureLog_source {source : Bytes}
    (h : failureLog m o task workdir round reply (some source) = some log) :
    (evaluate m o task source workdir round).detail = truncateLog log o.maxLogBytes ∧
      ((∃ built, m.runProcess (compileOptions o workdir round) = .ok built ∧
          log = buildLog m built) ∨
        ∃ ran, m.runProcess (runOptions o task workdir round) = .ok ran ∧ log = runLog m ran) := by
  unfold failureLog at h
  unfold evaluate
  cases hwrite : m.writeFile (joinPath workdir (ascii "solution.hpp")) source with
  | false => simp [hwrite] at h
  | true =>
    cases hbuilt : m.runProcess (compileOptions o workdir round) with
    | error e => simp [hwrite, hbuilt] at h
    | ok built =>
      cases hmissing : compilerMissing built with
      | true => simp [hwrite, hbuilt, hmissing] at h
      | false =>
        cases hok : built.ok with
        | false =>
          simp only [hwrite, hbuilt, hmissing, hok, Bool.not_true, Bool.not_false,
            Bool.false_eq_true, if_false, if_true] at h ⊢
          obtain rfl := Option.some.inj h
          exact ⟨rfl, Or.inl ⟨built, rfl, rfl⟩⟩
        | true =>
          cases hran : m.runProcess (runOptions o task workdir round) with
          | error e => simp [hwrite, hbuilt, hmissing, hok, hran] at h
          | ok ran =>
            by_cases hpass : outcomeOf ran = .pass
            · simp [hwrite, hbuilt, hmissing, hok, hran, hpass] at h
            · simp only [hwrite, hbuilt, hmissing, hok, hran, hpass, Bool.not_true,
                Bool.false_eq_true, if_false] at h ⊢
              obtain rfl := Option.some.inj h
              exact ⟨rfl, Or.inr ⟨ran, rfl, rfl⟩⟩

theorem attemptOf_detail (h : failureLog m o task workdir round reply source = some log) :
    (attemptOf m o task workdir round reply source).detail = truncateLog log o.maxLogBytes := by
  cases source with
  | none =>
    obtain rfl := Option.some.inj h
    rfl
  | some source => exact (failureLog_source h).1

theorem ValidInputs.valid_statusString (hinputs : ValidInputs m reply) (r : ProcessResult) :
    Utf8.valid (r.statusString m.strsignal) = true := by
  unfold ProcessResult.statusString
  split_ifs
  · rw [List.append_assoc, Utf8.valid_append (valid_ascii (by decide)),
      Utf8.valid_append (valid_toDecimal _)]
    exact valid_ascii (by decide)
  · rw [List.append_assoc, Utf8.valid_append (valid_ascii (by decide)),
      Utf8.valid_append (valid_toDecimal _)]
    cases hname : m.strsignal r.termSignal with
    | none => rfl
    | some name =>
      dsimp only
      rw [List.append_assoc, Utf8.valid_append (valid_ascii (by decide)),
        Utf8.valid_append (hinputs.strsignal _ name hname)]
      exact valid_ascii (by decide)
  · rw [Utf8.valid_append (valid_ascii (by decide))]
    exact valid_toDecimal _

theorem ValidInputs.valid_failureLog (hinputs : ValidInputs m reply)
    (h : failureLog m o task workdir round reply source = some log) :
    Utf8.valid log = true := by
  have hstatus := hinputs.valid_statusString
  have hnewline : Utf8.valid (ascii "\n") = true := valid_ascii (by decide)
  cases source with
  | none =>
    obtain rfl := Option.some.inj h
    unfold noCodeLog
    rw [List.append_assoc, List.append_assoc, Utf8.valid_append (valid_ascii (by decide)),
      Utf8.valid_append hinputs.finishReason, Utf8.valid_append hnewline]
    exact hinputs.text
  | some source =>
    rcases (failureLog_source h).2 with ⟨built, hbuilt, rfl⟩ | ⟨ran, hran, rfl⟩
    · have houtput := hinputs.output _ built hbuilt
      unfold buildLog
      split_ifs
      · rw [List.append_assoc, List.append_assoc, Utf8.valid_append (valid_ascii (by decide)),
          Utf8.valid_append (hstatus built), Utf8.valid_append hnewline]
        exact houtput
      · exact houtput
    · unfold runLog
      rw [List.append_assoc, Utf8.valid_append (hstatus ran), Utf8.valid_append hnewline]
      exact hinputs.output _ ran hran

/-- A failure can be sent and reported exactly when its log is kept whole or cut between two
characters. -/
theorem attempt_sendable_iff (hinputs : ValidInputs m reply)
    (h : failureLog m o task workdir round reply source = some log) :
    Sendable o (attemptOf m o task workdir round reply source) ↔
      CutsBetweenCharacters log o.maxLogBytes := by
  rw [sendable_iff, attemptOf_detail h]
  exact valid_truncateLog_iff (hinputs.valid_failureLog h) o.maxLogBytes

end

/-- A compiler error with the quotes that compilers print. -/
def quotedError : Bytes :=
  [0xE2, 0x80, 0x98] ++ ascii "c" ++ [0xE2, 0x80, 0x99] ++ ascii " was not declared"

/-- A machine on which every process fails with that error. -/
def failingMachine : Machine :=
  { writeFile := fun _ _ => true
    runProcess := fun _ => .ok { ProcessResult.init with exitCode := 1, output := quotedError }
    strsignal := fun _ => none }

/-- Default options with a limit on the log. -/
def RunnerOptions.limited (maxLogBytes : ℕ) : RunnerOptions :=
  { compiler := ascii "c++", stdFlag := ascii "-std=c++20", extraFlags := [], sanitize := false
    repairRounds := 1, jobs := 1, workRoot := ascii "/tmp/gemini-cpp-eval", keepWorkdirs := false
    useReference := false, compileTimeout := 120000, startupGrace := 60000, maxLogBytes
    generation := .unset }

def addTask : Task :=
  { id := ascii "add", prompt := ascii "Implement `int add(int a, int b)`.", timeout := 5000
    testSource := ascii "int main() {}\n", referenceSource := none }

/-- An attempt at a task that does not compile. -/
def failedAttempt (maxLogBytes : ℕ) : Attempt :=
  attemptOf failingMachine (.limited maxLogBytes) addTask (ascii "/tmp/add") 0 .empty
    (some (ascii "int add(int a, int b) { return a + c; }\n"))

/-- With a limit of eight bytes the head ends inside the second quote, and no request with the
repair prompt can be printed. -/
theorem failedAttempt_not_sendable :
    Utf8.valid quotedError = true ∧ ¬ Sendable (.limited 8) (failedAttempt 8) ∧
      ∀ (client : ChatClient Unit) (text : JsonText) (history : List Content),
        text.dump (Wire.requestToJson ((chat (.limited 8) client text).buildRequest
          (history ++ [.user (buildRepairPrompt (failedAttempt 8))]))) =
            .error Json.typeError316 := by
  have hdetail : Utf8.valid (failedAttempt 8).detail = false := by decide +kernel
  refine ⟨by decide +kernel, fun hsendable => ?_, fun client text history => ?_⟩
  · rw [hsendable.detail] at hdetail
    cases hdetail
  · exact dump_repair_request hdetail _ text history

/-- With a limit of twelve bytes both cuts are between characters. -/
theorem failedAttempt_sendable : Sendable (.limited 12) (failedAttempt 12) := by
  have hlog : failureLog failingMachine (.limited 12) addTask (ascii "/tmp/add") 0 .empty
      (some (ascii "int add(int a, int b) { return a + c; }\n")) = some quotedError := rfl
  have hinputs : ValidInputs failingMachine .empty :=
    { output := fun _ result h => by
        obtain rfl := Except.ok.inj h
        decide +kernel
      strsignal := fun _ name h => by cases h
      text := rfl
      finishReason := rfl }
  exact (attempt_sendable_iff hinputs hlog).mpr (Or.inr (by decide +kernel))

end GeminiCpp.Eval
