import GeminiCpp.Error
import GeminiCpp.Lib.Schedule

/-! Running a child process (`process.hpp`, `process.cpp`): the loop that captures its output.
Each step of the loop reads the clock, polls the pipe or reads from it once. What these calls
return is a schedule, so the child and the clock may do anything. -/
namespace GeminiCpp.Eval

structure ProcessOptions where
  argv : List Bytes
  cwd : Bytes
  timeout : Millis
  /-- Output beyond this is discarded. -/
  maxOutputBytes : ℕ
  memoryLimitBytes : Option ℕ
  /-- If not empty, `timeout` starts to count when the child prints it. -/
  startMarker : Bytes
  startupGrace : Millis

structure ProcessResult where
  exitCode : ℤ
  termSignal : ℤ
  timedOut : Bool
  outputTruncated : Bool
  output : Bytes
  duration : Millis
  startup : Option Millis

namespace ProcessResult

def init : ProcessResult :=
  { exitCode := -1, termSignal := 0, timedOut := false, outputTruncated := false, output := []
    duration := 0, startup := none }

def ok (r : ProcessResult) : Bool := !r.timedOut && r.termSignal = 0 && r.exitCode = 0

/-- `status_string`; `strsignal` is the one of the C library. -/
def statusString (strsignal : ℤ → Option Bytes) (r : ProcessResult) : Bytes :=
  if r.timedOut then ascii "timed out after " ++ toDecimal r.duration ++ ascii " ms"
  else if r.termSignal ≠ 0 then
    ascii "killed by signal " ++ toDecimal r.termSignal ++
      match strsignal r.termSignal with
      | some name => ascii " (" ++ name ++ ascii ")"
      | none => []
  else ascii "exit code " ++ toDecimal r.exitCode

end ProcessResult

/-- A point in time of the steady clock, in nanoseconds. -/
abbrev TimePoint := ℤ

/-- `duration_cast<milliseconds>`, which rounds towards zero. -/
def toMillis (nanoseconds : ℤ) : Millis := nanoseconds.tdiv 1000000

def afterMillis (t : TimePoint) (ms : Millis) : TimePoint := t + ms * 1000000

/-- `remaining_ms`, with the time that `Clock::now` returns. -/
def remainingMs (deadline now : TimePoint) : ℤ :=
  let left := toMillis (deadline - now)
  if left ≤ 0 then 0 else min left 1000000

/-- Bytes that one `read` returns. -/
structure Chunk where
  bytes : Bytes
  nonempty : bytes ≠ []
  fits : bytes.length ≤ 16 * 1024

inductive PollResult
  | ready
  | timeout
  | interrupted
  | failed
deriving DecidableEq

inductive ReadResult
  | data (chunk : Chunk)
  | endOfFile
  | interrupted
  /-- There is nothing to read now, or an error. -/
  | failed

/-- What the calls of one step return. -/
structure Moment where
  now : TimePoint
  poll : PollResult
  read : ReadResult

/-- Why the loop has ended. -/
inductive Ending
  | killed
  | endOfFile
  | pollFailed
deriving DecidableEq

inductive Phase
  /-- At the head of the outer loop. -/
  | check
  | poll (wait : ℤ)
  /-- In the inner loop. -/
  | drain
  | finished (ending : Ending)
deriving DecidableEq

/-- The local variables of the loop. -/
structure Capture where
  phase : Phase
  deadline : TimePoint
  result : ProcessResult

namespace Capture

def init (o : ProcessOptions) (start : TimePoint) : Capture :=
  let deadline := afterMillis start o.timeout
  { phase := .check
    deadline := if o.startMarker = [] then deadline else afterMillis deadline o.startupGrace
    result := .init }

/-- Appends what fits of a chunk. -/
def append (o : ProcessOptions) (r : ProcessResult) (bytes : Bytes) : ProcessResult :=
  let room := o.maxOutputBytes - min o.maxOutputBytes r.output.length
  let take := min room bytes.length
  { r with
    output := r.output ++ bytes.take take
    outputTruncated := r.outputTruncated || take < bytes.length }

/-- Looks for the marker near the end of the output, which was `before` bytes long. -/
def findMarker (o : ProcessOptions) (start now : TimePoint) (before : ℕ) (c : Capture) : Capture :=
  if o.startMarker = [] ∨ c.result.startup.isSome then c
  else
    match findFrom c.result.output o.startMarker (before - o.startMarker.length) with
    | none => c
    | some found =>
      { c with
        deadline := afterMillis now o.timeout
        result := { c.result with
          startup := some (toMillis (now - start))
          output := c.result.output.take found ++
            c.result.output.drop (found + o.startMarker.length) } }

theorem findMarker_phase {o : ProcessOptions} {start : TimePoint} (now : TimePoint) (before : ℕ)
    (c : Capture) : (findMarker o start now before c).phase = c.phase := by
  unfold findMarker
  split_ifs
  · rfl
  · split <;> rfl

def step (o : ProcessOptions) (start : TimePoint) (c : Capture) (m : Moment) : Capture :=
  match c.phase with
  | .check =>
    let wait := remainingMs c.deadline m.now
    if wait = 0 then
      { c with phase := .finished .killed, result := { c.result with timedOut := true } }
    else { c with phase := .poll wait }
  | .poll _ =>
    match m.poll with
    | .ready => { c with phase := .drain }
    | .timeout | .interrupted => { c with phase := .check }
    | .failed => { c with phase := .finished .pollFailed }
  | .drain =>
    match m.read with
    | .data chunk =>
      findMarker o start m.now c.result.output.length
        { c with result := append o c.result chunk.bytes }
    | .interrupted => c
    | .endOfFile => { c with phase := .finished .endOfFile }
    | .failed => { c with phase := .check }
  | .finished _ => c

end Capture

/-- The capture loop after some steps. -/
def capture (o : ProcessOptions) (start : TimePoint) (moments : ℕ → Moment) : ℕ → Capture :=
  Schedule.run (Capture.step o start) (.init o start) moments

end GeminiCpp.Eval
