import GeminiCpp.Chat.Basic
import GeminiCpp.Eval.Process

/-! The runner of the evaluation harness (`runner.hpp`, `runner.cpp`): it compiles and tests a
solution, and turns a failure into a prompt for the next round. -/
namespace GeminiCpp.Eval

inductive Outcome
  | pass
  | compileError
  | testFailure
  | timeout
  /-- A signal or a report of a sanitizer. -/
  | crash
  | noCode
  | apiError
  | harnessError
deriving DecidableEq

def Outcome.toString : Outcome → Bytes
  | .pass => ascii "pass"
  | .compileError => ascii "compile_error"
  | .testFailure => ascii "test_failure"
  | .timeout => ascii "timeout"
  | .crash => ascii "crash"
  | .noCode => ascii "no_code"
  | .apiError => ascii "api_error"
  | .harnessError => ascii "harness_error"

structure Attempt where
  round : ℕ
  outcome : Outcome
  /-- The shortened output of the compiler or the tests, or an error message. -/
  detail : Bytes
  source : Bytes
  compileTime : Millis
  runTime : Millis

structure TaskResult where
  taskId : Bytes
  outcome : Outcome
  attempts : List Attempt
  usage : UsageMetadata
  modelLatency : Millis

structure RunnerOptions where
  compiler : Bytes
  stdFlag : Bytes
  extraFlags : List Bytes
  sanitize : Bool
  repairRounds : ℤ
  jobs : ℤ
  workRoot : Bytes
  keepWorkdirs : Bool
  /-- Evaluates the reference solution instead of calling the model. -/
  useReference : Bool
  compileTimeout : Millis
  startupGrace : Millis
  maxLogBytes : ℕ
  generation : GenerationConfig

structure Task where
  id : Bytes
  prompt : Bytes
  timeout : Millis
  testSource : Bytes
  referenceSource : Option Bytes

/-- What one evaluation uses of the machine it runs on. -/
structure Machine where
  /-- Writes a file; false if that fails. -/
  writeFile : Bytes → Bytes → Bool
  runProcess : ProcessOptions → Result ProcessResult
  strsignal : ℤ → Option Bytes

def startMarker : Bytes := 0x1E :: ascii "gemini-cpp:started\n"

/-- `dir / name` of a path and a plain file name. -/
def joinPath (dir name : Bytes) : Bytes :=
  if dir = [] ∨ dir.getLast? = some 0x2F then dir ++ name else dir ++ ascii "/" ++ name

/-- Keeps the head of a log, where the first errors are, and a bit of the tail. -/
def truncateLog (text : Bytes) (maxBytes : ℕ) : Bytes :=
  if text.length ≤ maxBytes then text
  else
    let tail := maxBytes / 4
    let head := maxBytes - tail
    text.take head ++ (ascii "\n... [" ++ toDecimal (text.length - maxBytes : ℕ) ++
      ascii " bytes truncated] ...\n") ++ text.drop (text.length - tail)

def mentionsSanitizer (output : Bytes) : Bool :=
  contains output (ascii "AddressSanitizer") ||
    contains output (ascii "UndefinedBehaviorSanitizer") ||
    contains output (ascii "runtime error:") || contains output (ascii "LeakSanitizer")

namespace Runner

def systemPrompt : Bytes :=
  ascii "You are an expert C++ engineer. You write correct, portable, standards-conforming C++20 " ++
  ascii "that compiles cleanly with GCC and Clang. When asked to implement something, reply with " ++
  ascii "exactly one ```cpp fenced code block containing the complete contents of solution.hpp " ++
  ascii "(with #pragma once and every #include it needs). Do not write a main() function and do " ++
  ascii "not include test code."

def buildPrompt (task : Task) : Bytes :=
  task.prompt ++
  ascii "\n\nDeliverable: the complete contents of `solution.hpp` in a single ```cpp block. " ++
  ascii "It will be compiled with `-std=c++20 -Wall -pthread` and exercised by hidden tests " ++
  ascii "that `#include \"solution.hpp\"`."

/-- What a repair prompt says about a failure. -/
def what : Outcome → Bytes
  | .compileError => ascii "did not compile"
  | .testFailure => ascii "compiled but failed the hidden tests"
  | .timeout => ascii "timed out (possible deadlock, infinite loop or poor complexity)"
  | .crash => ascii "crashed or triggered a sanitizer error"
  | .noCode => ascii "did not contain a ```cpp code block"
  | _ => ascii "failed"

def buildRepairPrompt (failed : Attempt) : Bytes :=
  ascii "Your solution " ++ what failed.outcome ++ ascii ". Output:\n```text\n" ++ failed.detail ++
    (ascii "\n```\nFix the problem and reply with the complete corrected solution.hpp in a " ++
      ascii "single ```cpp block.")

variable (m : Machine) (o : RunnerOptions)

def compileOptions (workdir : Bytes) (round : ℕ) : ProcessOptions :=
  { argv :=
      [o.compiler, o.stdFlag, ascii "-O1", ascii "-g", ascii "-Wall", ascii "-pthread",
        ascii "-I."] ++
      (if o.sanitize then
        [ascii "-fsanitize=address,undefined", ascii "-fno-omit-frame-pointer",
          ascii "-fno-sanitize-recover=undefined"]
      else []) ++ o.extraFlags ++
      [ascii "tests.cpp", ascii "-o", ascii "test_bin_r" ++ toDecimal round]
    cwd := workdir, timeout := o.compileTimeout, maxOutputBytes := 2 ^ 20
    memoryLimitBytes := none, startMarker := [], startupGrace := 0 }

def runOptions (task : Task) (workdir : Bytes) (round : ℕ) : ProcessOptions :=
  { argv := [joinPath workdir (ascii "test_bin_r" ++ toDecimal round)]
    cwd := workdir, timeout := task.timeout, maxOutputBytes := 2 ^ 20
    -- an address sanitizer needs a huge address space
    memoryLimitBytes := if o.sanitize then none else some (2 * 2 ^ 30)
    startMarker, startupGrace := o.startupGrace }

/-- The compiler could not be run. -/
def compilerMissing (built : ProcessResult) : Bool :=
  built.exitCode = 127 && startsWith built.output (ascii "exec failed")

def buildLog (built : ProcessResult) : Bytes :=
  (if built.timedOut then ascii "compiler " ++ built.statusString m.strsignal ++ ascii "\n"
    else []) ++ built.output

def runLog (ran : ProcessResult) : Bytes :=
  ran.statusString m.strsignal ++ ascii "\n" ++ ran.output

def outcomeOf (ran : ProcessResult) : Outcome :=
  if ran.ok then .pass
  else if ran.timedOut then .timeout
  else if ran.termSignal ≠ 0 ∨ mentionsSanitizer ran.output then .crash
  else .testFailure

/-- Compiles `source` against the tests of a task and runs them. -/
def evaluate (task : Task) (source workdir : Bytes) (round : ℕ) : Attempt :=
  let attempt : Attempt :=
    { round, outcome := .harnessError, detail := [], source, compileTime := 0, runTime := 0 }
  if !m.writeFile (joinPath workdir (ascii "solution.hpp")) source then
    { attempt with detail := ascii "cannot write solution.hpp in " ++ workdir }
  else
    match m.runProcess (compileOptions o workdir round) with
    | .error e => { attempt with detail := e.describe }
    | .ok built =>
      let attempt := { attempt with compileTime := built.duration }
      if compilerMissing built then
        { attempt with detail := ascii "compiler not found: " ++ o.compiler }
      else if !built.ok then
        { attempt with
          outcome := .compileError
          detail := truncateLog (buildLog m built) o.maxLogBytes }
      else
        match m.runProcess (runOptions o task workdir round) with
        | .error e => { attempt with detail := e.describe }
        | .ok ran =>
          let attempt :=
            { attempt with
              outcome := outcomeOf ran
              runTime := ran.duration - ran.startup.getD 0 }
          if attempt.outcome = .pass then attempt
          else { attempt with detail := truncateLog (runLog m ran) o.maxLogBytes }

def noCodeLog (reply : GenerateResponse) : Bytes :=
  ascii "finish_reason=" ++ reply.finishReason ++ ascii "\n" ++ reply.text

/-- The attempt of one round of `run_task`; `source` is what was extracted from the reply. -/
def attemptOf (task : Task) (workdir : Bytes) (round : ℕ) (reply : GenerateResponse)
    (source : Option Bytes) : Attempt :=
  match source with
  | some source => evaluate m o task source workdir round
  | none =>
    { round, outcome := .noCode, detail := truncateLog (noCodeLog reply) o.maxLogBytes
      source := [], compileTime := 0, runTime := 0 }

/-- The session in which `run_task` talks to the model. -/
def chat {ω : Type} (client : ChatClient ω) (text : JsonText) : ChatSession ω :=
  { client
    options := { systemInstruction := some systemPrompt, config := o.generation, maxToolRounds := 8 }
    tools := none, toolObserver := none, text }

end Runner

end GeminiCpp.Eval
