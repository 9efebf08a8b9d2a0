import Mathlib.Order.Bounds.Defs
import GeminiCpp.Client.Calls
import GeminiCpp.Lib.Interleaving

/-! Which attempts the retry loop makes, with which delays between them, and what that adds to
the metrics. -/
namespace GeminiCpp
open Traced Traced.Prog

variable {ω τ α : Type}

/-- The delay of `delay_for`, and the machine after it. -/
def Host.delay (h : Host ω) (policy : RetryPolicy) (i : ℕ) (e : Error) (w : ω) : Millis × ω :=
  match e.retryAfter with
  | some hint => (min hint policy.maxBackoff, w)
  | none => h.backoff policy i w

theorem Host.delayFor_run (h : Host ω) (policy : RetryPolicy) (i : ℕ) (e : Error) (w : ω) :
    h.delayFor policy i e w =
      ⟨[], (h.delay policy i e w).2, .ok (h.delay policy i e w).1⟩ := by
  unfold Host.delayFor Host.delay
  cases e.retryAfter <;> rfl

namespace Client
variable (c : Client ω) (attempt : Program (τ × ω) (Result α)) (canRetry : τ → Bool)

/-- The error of an attempt that failed. -/
def errorOf (o : Outcome Event Exn (τ × ω) (Result α)) : Option Error :=
  match o.result with
  | .ok (.error e) => some e
  | _ => none

/-- The delay after attempt number `i` (from 0), which is run from `s`. -/
def delayAfter (i : ℕ) (s : τ × ω) : Millis × ω :=
  match errorOf (attempt s) with
  | some e => c.host.delay c.options.retry i e (attempt s).state.2
  | none => (0, (attempt s).state.2)

/-- The state in which attempt number `i + 1` is run, if it is. -/
def afterDelay (i : ℕ) (s : τ × ω) : τ × ω :=
  ((attempt s).state.1, c.host.sleeper (c.delayAfter attempt i s).1 (c.delayAfter attempt i s).2)

/-- The state in which the attempt `j` places after attempt number `i` is run, if it is. -/
def attemptState (i : ℕ) (s : τ × ω) : ℕ → τ × ω
  | 0 => s
  | j + 1 => attemptState (i + 1) (c.afterDelay attempt i s) j

/-- The loop may go on after an attempt that is run from `s`. -/
def GoesOn (s : τ × ω) : Prop :=
  ∃ e, errorOf (attempt s) = some e ∧ e.retryable = true ∧ canRetry (attempt s).state.1 = true

/-- The events of `n` attempts, the first of which has number `i`. -/
def attemptEvents (i : ℕ) (s : τ × ω) : ℕ → List Event
  | 0 => []
  | 1 => .metric .attempts 1 :: (attempt s).events
  | n + 2 =>
    .metric .attempts 1 :: (attempt s).events ++
      .metric .retries 1 :: .sleep (c.delayAfter attempt i s).1 ::
        attemptEvents (i + 1) (c.afterDelay attempt i s) (n + 1)

/-- What the loop does when it may make `left + 1` attempts from attempt number `i` on: it makes
`n` of them. -/
structure Retried (left i : ℕ) (s : τ × ω) (o : Outcome Event Exn (τ × ω) (Result α)) (n : ℕ) :
    Prop where
  pos : 1 ≤ n
  le : n ≤ left + 1
  goes_on : ∀ j, j + 1 < n → GoesOn attempt canRetry (c.attemptState attempt i s j)
  stops : n = left + 1 ∨ ¬ GoesOn attempt canRetry (c.attemptState attempt i s (n - 1))
  result : o.result = (attempt (c.attemptState attempt i s (n - 1))).result
  events : o.events = c.attemptEvents attempt i s n

variable {attempt canRetry}

theorem Retried.one {left i : ℕ} {s : τ × ω} {o : Outcome Event Exn (τ × ω) (Result α)}
    (hstops : left = 0 ∨ ¬ GoesOn attempt canRetry s) (hresult : o.result = (attempt s).result)
    (hevents : o.events = .metric .attempts 1 :: (attempt s).events) :
    c.Retried attempt canRetry left i s o 1 where
  pos := le_refl 1
  le := by omega
  goes_on j hj := by omega
  stops := hstops.imp_left (by omega)
  result := hresult
  events := hevents

theorem Retried.cons {left i n : ℕ} {s : τ × ω} {o o' : Outcome Event Exn (τ × ω) (Result α)}
    (hgoes : GoesOn attempt canRetry s)
    (h : c.Retried attempt canRetry left (i + 1) (c.afterDelay attempt i s) o n)
    (hresult : o'.result = o.result)
    (hevents : o'.events = .metric .attempts 1 :: (attempt s).events ++
      .metric .retries 1 :: .sleep (c.delayAfter attempt i s).1 :: o.events) :
    c.Retried attempt canRetry (left + 1) i s o' (n + 1) := by
  obtain ⟨m, rfl⟩ : ∃ m, n = m + 1 := ⟨n - 1, by have := h.pos; omega⟩
  constructor
  case pos => omega
  case le =>
    have hle := h.le
    omega
  case goes_on =>
    intro j hj
    cases j with
    | zero => exact hgoes
    | succ j => exact h.goes_on j (by omega)
  case stops => exact h.stops.imp_left (by omega)
  case result => exact hresult.trans h.result
  case events => rw [hevents, h.events, attemptEvents]

theorem errorOf_eq_some {o : Outcome Event Exn (τ × ω) (Result α)} {e : Error} :
    errorOf o = some e ↔ o.result = .ok (.error e) := by
  unfold errorOf
  rcases o.result with x | (e' | a) <;> simp

/-- The loop returns what an attempt did after which it may not go on. -/
theorem retryFrom_stops {left : ℕ} {s : τ × ω} (i : ℕ)
    (hstops : left = 0 ∨ ¬ GoesOn attempt canRetry s) :
    retryFrom c attempt canRetry left i s =
      ⟨.metric .attempts 1 :: (attempt s).events, (attempt s).state, (attempt s).result⟩ := by
  cases left with
  | zero => rfl
  | succ left =>
    have hnot : ¬ GoesOn attempt canRetry s := hstops.resolve_left (by omega)
    rw [run_eq_iff]
    simp only [retryFrom, countedAttempt, wp_bind, wp_emit, then_ok]
    rw [wp_iff]
    rcases hr : (attempt s).result with x | (e | a)
    · rfl
    · have hretry : ¬ (e.retryable && canRetry (attempt s).state.1) = true := by
        intro h
        obtain ⟨hretryable, hcan⟩ := Bool.and_eq_true_iff.mp h
        exact hnot ⟨e, errorOf_eq_some.mpr hr, hretryable, hcan⟩
      simp only [then_ok, wp_bind, wp_get, hretry, Bool.false_eq_true, if_false, wp_pure,
        List.append_nil]
      rfl
    · simp only [then_ok, wp_pure, List.append_nil]
      rfl

/-- After an attempt that may be followed by another one, the loop sleeps and starts again. -/
theorem retryFrom_goesOn {left i : ℕ} {s : τ × ω} (hgoes : GoesOn attempt canRetry s)
    {o : Outcome Event Exn (τ × ω) (Result α)}
    (ho : retryFrom c attempt canRetry left (i + 1) (c.afterDelay attempt i s) = o) :
    retryFrom c attempt canRetry (left + 1) i s =
      ⟨.metric .attempts 1 :: (attempt s).events ++ .metric .retries 1 ::
        .sleep (c.delayAfter attempt i s).1 :: o.events, o.state, o.result⟩ := by
  obtain ⟨e, herror, hretryable, hcan⟩ := hgoes
  have hr : (attempt s).result = .ok (.error e) := errorOf_eq_some.mp herror
  have hdelay : c.host.delay c.options.retry i e (attempt s).state.2 =
      c.delayAfter attempt i s := by
    simp only [delayAfter, herror]
  rw [run_eq_iff]
  simp only [retryFrom, countedAttempt, wp_bind, wp_emit, then_ok]
  rw [wp_iff, hr]
  simp only [then_ok, wp_bind, wp_get, hretryable, hcan, Bool.and_self, if_true, wp_lift]
  rw [wp_iff, c.host.delayFor_run, hdelay]
  simp only [then_ok, wp_bind, wp_emit, wp_lift, wp_modify]
  rw [afterDelay] at ho
  rw [wp_iff, ho]
  simp

theorem wp_retryFrom_retried (left i : ℕ) (s : τ × ω) :
    wp (retryFrom c attempt canRetry left i) s fun es s' r =>
      ∃ n, c.Retried attempt canRetry left i s ⟨es, s', r⟩ n := by
  induction left generalizing i s with
  | zero =>
    rw [wp_iff, retryFrom_stops c i (Or.inl rfl)]
    exact ⟨1, .one c (Or.inl rfl) rfl rfl⟩
  | succ left ih =>
    rw [wp_iff]
    by_cases hgoes : GoesOn attempt canRetry s
    · rw [retryFrom_goesOn c hgoes rfl]
      obtain ⟨n, hn⟩ := ih (i + 1) (c.afterDelay attempt i s)
      exact ⟨n + 1, .cons c hgoes hn rfl rfl⟩
    · rw [retryFrom_stops c i (Or.inr hgoes)]
      exact ⟨1, .one c (Or.inr hgoes) rfl rfl⟩

/-- A run of the loop whose last attempt comes after `n` others. -/
theorem retryFrom_after {n left i : ℕ} {s : τ × ω}
    (hgoes : ∀ j < n, GoesOn attempt canRetry (c.attemptState attempt i s j)) (hle : n ≤ left)
    (hstops : n = left ∨ ¬ GoesOn attempt canRetry (c.attemptState attempt i s n)) :
    retryFrom c attempt canRetry left i s =
      ⟨c.attemptEvents attempt i s (n + 1), (attempt (c.attemptState attempt i s n)).state,
        (attempt (c.attemptState attempt i s n)).result⟩ := by
  induction n generalizing left i s with
  | zero => exact retryFrom_stops c i (hstops.imp_left Eq.symm)
  | succ n ih =>
    obtain ⟨left, rfl⟩ : ∃ m, left = m + 1 := ⟨left - 1, by omega⟩
    have hrest := ih (fun j hj => hgoes (j + 1) (by omega)) (Nat.le_of_succ_le_succ hle)
      (hstops.imp_left Nat.succ.inj)
    exact retryFrom_goesOn c (hgoes 0 (by omega)) hrest

end Client

end GeminiCpp
