import GeminiCpp.Client.Attempts
import GeminiCpp.Client.Stream

/-! The retry loop makes exactly the attempts it should, and the metrics of a client count them,
in whatever order its calls take turns. -/
namespace GeminiCpp
open Traced Traced.Prog

variable {ω τ α : Type}

/-- Events that the retry loop and the calls emit themselves, around their attempts. -/
def Event.ofLoop : Event → Prop
  | .metric .. | .sleep _ => True
  | _ => False

theorem Event.ofAnswer.not_ofLoop {e : Event} (h : e.ofAnswer) : ¬ e.ofLoop := by
  cases e <;> first | exact id | exact h.elim

theorem Event.added_of_not_ofLoop {e : Event} (h : ¬ e.ofLoop) (field : Metric) :
    e.added field = 0 := by
  cases e with
  | metric f amount => exact absurd trivial h
  | _ => rfl

theorem added_of_not_ofLoop {es : List Event} (h : ∀ e ∈ es, ¬ e.ofLoop) (field : Metric) :
    added field es = 0 := by
  induction es with
  | nil => rfl
  | cons e es ih =>
    have he := Event.added_of_not_ofLoop (h e (by simp)) field
    have hes := ih fun e he => h e (List.mem_cons_of_mem _ he)
    rw [added_cons, he, hes, add_zero]

/-- The delays the sleeper is called with. -/
def sleeps (es : List Event) : List Millis :=
  es.filterMap fun
    | .sleep delay => some delay
    | _ => none

theorem sleeps_append (es es' : List Event) : sleeps (es ++ es') = sleeps es ++ sleeps es' :=
  List.filterMap_append

@[simp] theorem sleeps_metric (field : Metric) (amount : UInt64) (es : List Event) :
    sleeps (.metric field amount :: es) = sleeps es := rfl

@[simp] theorem sleeps_sleep (delay : Millis) (es : List Event) :
    sleeps (.sleep delay :: es) = delay :: sleeps es := rfl

theorem sleeps_of_not_ofLoop {es : List Event} (h : ∀ e ∈ es, ¬ e.ofLoop) : sleeps es = [] := by
  refine List.filterMap_eq_nil_iff.mpr fun e he => ?_
  cases e with
  | sleep delay => exact absurd trivial (h _ he)
  | _ => rfl

namespace Client
variable (c : Client ω) (attempt : Program (τ × ω) (Result α)) (canRetry : τ → Bool)

/-- The attempts leave the metrics and the sleeper to the loop. -/
def Quiet : Prop := ∀ s, ∀ e ∈ (attempt s).events, ¬ e.ofLoop

/-- What attempt number `k` (from 1) does, if it is made. -/
def outcome (s : τ × ω) (k : ℕ) : Outcome Event Exn (τ × ω) (Result α) :=
  attempt (c.attemptState attempt 0 s (k - 1))

/-- The loop stops after attempt number `k`, if it is made. -/
inductive StopsAt (s : τ × ω) (k : ℕ) : Prop
  | throws {x : Exn} (h : (c.outcome attempt s k).result = .error x)
  | success {a : α} (h : (c.outcome attempt s k).result = .ok (.ok a))
  | notRetryable {e : Error} (h : (c.outcome attempt s k).result = .ok (.error e))
    (he : e.retryable = false)
  | last (h : (k : ℤ) = max 1 c.options.retry.maxAttempts)
  | cannotRetry (h : canRetry (c.outcome attempt s k).state.1 = false)

/-- A run `o` of the loop makes exactly `n` attempts. -/
structure MakesExactly (s : τ × ω) (o : Outcome Event Exn (τ × ω) (Result α)) (n : ℕ) :
    Prop where
  least : IsLeast {k | 1 ≤ k ∧ c.StopsAt attempt canRetry s k} n
  result : o.result = (c.outcome attempt s n).result
  /-- The attempts, with a retry counted and a sleep between any two of them. -/
  events : o.events = c.attemptEvents attempt 0 s n
  attempts : Quiet attempt → added .attempts o.events = .ofNat n
  retries : Quiet attempt → added .retries o.events = .ofNat (n - 1)
  sleeps : Quiet attempt → (sleeps o.events).length = n - 1
  delays : Quiet attempt → ∀ j, 1 ≤ j → (hj : j < n) →
    ∃ e, (c.outcome attempt s j).result = .ok (.error e) ∧
      (GeminiCpp.sleeps o.events)[j - 1]? =
        some (c.host.delay c.options.retry (j - 1) e (c.outcome attempt s j).state.2).1

variable {attempt canRetry}

theorem StopsAt.of_stops {s : τ × ω} {k : ℕ}
    (h : (k : ℤ) = max 1 c.options.retry.maxAttempts ∨
      ¬ GoesOn attempt canRetry (c.attemptState attempt 0 s (k - 1))) :
    c.StopsAt attempt canRetry s k := by
  rcases h with hlast | hstops
  · exact .last hlast
  rcases hr : (c.outcome attempt s k).result with x | (e | a)
  · exact .throws hr
  · have herror : errorOf (c.outcome attempt s k) = some e := by simp [errorOf, hr]
    by_cases he : e.retryable = true
    · apply StopsAt.cannotRetry
      by_contra hcan
      exact hstops ⟨e, herror, he, Bool.eq_true_of_not_eq_false hcan⟩
    · exact .notRetryable hr (Bool.eq_false_of_not_eq_true he)
  · exact .success hr

theorem GoesOn.not_stopsAt {s : τ × ω} {k : ℕ}
    (h : GoesOn attempt canRetry (c.attemptState attempt 0 s (k - 1)))
    (hk : (k : ℤ) < max 1 c.options.retry.maxAttempts) :
    ¬ c.StopsAt attempt canRetry s k := by
  obtain ⟨e, herror, hretryable, hcan⟩ := h
  have hr : (c.outcome attempt s k).result = .ok (.error e) := errorOf_eq_some.mp herror
  intro hstops
  cases hstops with
  | throws h => simp [hr] at h
  | success h => simp [hr] at h
  | notRetryable h he =>
    obtain rfl : e = _ := Except.error.inj (Except.ok.inj (hr.symm.trans h))
    simp [hretryable] at he
  | last h => omega
  | cannotRetry h =>
    unfold outcome at h
    simp [hcan] at h

/-- The metrics of `n + 1` quiet attempts. -/
theorem added_attemptEvents (hquiet : Quiet attempt) (field : Metric) (n i : ℕ) (s : τ × ω) :
    added field (c.attemptEvents attempt i s (n + 1)) =
      added field [.metric .attempts (.ofNat (n + 1)), .metric .retries (.ofNat n)] := by
  induction n generalizing i s with
  | zero =>
    have hattempt := added_of_not_ofLoop (hquiet s) field
    cases field <;> simp [attemptEvents, hattempt, Event.added]
  | succ n ih =>
    have hattempt := added_of_not_ofLoop (hquiet s) field
    rw [attemptEvents]
    simp only [List.cons_append, added_cons, added_append, hattempt, ih]
    have hsucc : ∀ m : ℕ, UInt64.ofNat (m + 1) = 1 + UInt64.ofNat m := by
      intro m
      rw [UInt64.ofNat_add, add_comm]
      rfl
    cases field <;> simp [Event.added, hsucc (n + 1), hsucc n]

theorem sleeps_attemptEvents (hquiet : Quiet attempt) (n i : ℕ) (s : τ × ω) :
    sleeps (c.attemptEvents attempt i s (n + 1)) =
      (List.range n).map fun j =>
        (c.delayAfter attempt (i + j) (c.attemptState attempt i s j)).1 := by
  induction n generalizing i s with
  | zero =>
    rw [attemptEvents, sleeps_metric, sleeps_of_not_ofLoop (hquiet s)]
    rfl
  | succ n ih =>
    rw [attemptEvents, List.cons_append, sleeps_metric, sleeps_append,
      sleeps_of_not_ofLoop (hquiet s), List.nil_append, sleeps_metric, sleeps_sleep, ih,
      List.range_succ_eq_map, List.map_cons, List.map_map]
    have htail : ∀ j, i + 1 + j = i + (j + 1) := fun j => by omega
    simp only [htail]
    rfl

/-- What is known of the loop from attempt 0 on is that it makes exactly `n` attempts. -/
theorem Retried.makesExactly {s : τ × ω} {o : Outcome Event Exn (τ × ω) (Result α)} {n : ℕ}
    (h : c.Retried attempt canRetry (max 1 c.options.retry.maxAttempts - 1).toNat 0 s o n) :
    c.MakesExactly attempt canRetry s o n := by
  obtain ⟨m, rfl⟩ : ∃ m, n = m + 1 := ⟨n - 1, by have := h.pos; omega⟩
  have hlower : c.StopsAt attempt canRetry s (m + 1) := by
    apply StopsAt.of_stops
    exact h.stops.imp_left (by omega)
  constructor
  case least =>
    constructor
    · exact ⟨h.pos, hlower⟩
    · rintro k ⟨hk, hstops⟩
      by_contra hlt
      have hle := h.le
      have hgoes := h.goes_on (k - 1) (by omega)
      exact hgoes.not_stopsAt c (by omega) hstops
  case result => exact h.result
  case events => exact h.events
  case attempts =>
    intro hquiet
    rw [h.events, added_attemptEvents c hquiet]
    simp [Event.added]
  case retries =>
    intro hquiet
    rw [h.events, added_attemptEvents c hquiet]
    simp [Event.added]
  case sleeps =>
    intro hquiet
    rw [h.events, sleeps_attemptEvents c hquiet]
    simp
  case delays =>
    intro hquiet j hj hlt
    obtain ⟨i, rfl⟩ : ∃ i, j = i + 1 := ⟨j - 1, by omega⟩
    obtain ⟨e, herror, -⟩ := h.goes_on i hlt
    refine ⟨e, errorOf_eq_some.mp herror, ?_⟩
    rw [h.events, sleeps_attemptEvents c hquiet]
    have hi : i < m := by omega
    simp [hi, delayAfter, herror, outcome]

theorem withRetry_makesExactly (attempt : Program (τ × ω) (Result α)) (canRetry : τ → Bool)
    (s : τ × ω) :
    ∃ n, c.MakesExactly attempt canRetry s (c.withRetry attempt canRetry s) n := by
  have h : wp (c.withRetry attempt canRetry) s fun es s' r => ∃ n,
      c.Retried attempt canRetry (max 1 c.options.retry.maxAttempts - 1).toNat 0 s ⟨es, s', r⟩ n :=
    c.wp_retryFrom_retried _ 0 s
  obtain ⟨n, hn⟩ := h
  exact ⟨n, hn.makesExactly⟩

end Client
end GeminiCpp
