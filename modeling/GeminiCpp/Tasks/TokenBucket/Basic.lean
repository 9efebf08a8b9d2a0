import GeminiCpp.Lib.Answers
import GeminiCpp.Lib.Reservoir
import Mathlib.Data.Rat.Floor

/-! The reference solution of the task `token-bucket`. The calls are serialised by its mutex, and
each reads the clock once. A `double` is a rational number, and what it holds is exact. -/
namespace GeminiCpp.TokenBucket

/-- How long a duration can be: without bounds, or as the code has it. -/
inductive Durations
  | unbounded
  | int64

def Durations.Fits (ns : ℤ) : Durations → Prop
  | .unbounded => True
  | .int64 => -2 ^ 63 ≤ ns ∧ ns < 2 ^ 63

instance (d : Durations) (ns : ℤ) : Decidable (d.Fits ns) :=
  match d with
  | .unbounded => inferInstanceAs (Decidable True)
  | .int64 => inferInstanceAs (Decidable (_ ∧ _))

/-- A duration in nanoseconds, or undefined behaviour. -/
def Durations.of (d : Durations) (ns : ℤ) : Option ℤ := if d.Fits ns then some ns else none

/-- `std::chrono::nanoseconds::max()`. -/
def nanosecondsMax : ℤ := 2 ^ 63 - 1

def nanosPerSecond : ℚ := 10 ^ 9

structure State where
  rate_ : ℚ
  burst_ : ℚ
  tokens_ : ℚ
  /-- The reading of the clock at the last refill, in nanoseconds. -/
  last_ : ℤ
deriving DecidableEq

/-- The constructor, with its reading of the clock. -/
def init (rate_per_second burst : ℚ) (now : ℤ) : State :=
  { rate_ := rate_per_second
    burst_ := burst
    tokens_ := burst
    last_ := now }

variable (d : Durations)

def refill (now : ℤ) (s : State) : Option State :=
  if now ≤ s.last_ then some s
  else do
    let elapsed ← d.of (now - s.last_)
    let seconds := elapsed / nanosPerSecond
    return { s with tokens_ := min s.burst_ (s.tokens_ + seconds * s.rate_), last_ := now }

def try_acquire (tokens : ℚ) (now : ℤ) (s : State) : Option (State × Bool) := do
  let s ← refill d now s
  if tokens > s.tokens_ then return (s, false)
  else return ({ s with tokens_ := s.tokens_ - tokens }, true)

def available (now : ℤ) (s : State) : Option (State × ℚ) := do
  let s ← refill d now s
  return (s, s.tokens_)

def time_until_available (tokens : ℚ) (now : ℤ) (s : State) : Option (State × ℤ) := do
  let s ← refill d now s
  if tokens ≤ s.tokens_ then return (s, 0)
  else if tokens > s.burst_ ∨ s.rate_ ≤ 0 then return (s, nanosecondsMax)
  else
    let ns := ⌈(tokens - s.tokens_) / s.rate_ * nanosPerSecond⌉
    return (s, ← d.of ns)

inductive Op
  | try_acquire (tokens : ℚ)
  | available
  | time_until_available (tokens : ℚ)

/-- A call, with its reading of the clock. -/
structure Call where
  op : Op
  now : ℤ

inductive Answer
  | acquired (granted : Bool)
  | tokens (tokens : ℚ)
  | wait (ns : ℤ)
deriving DecidableEq

def step (s : State) (call : Call) : Option (State × Answer) :=
  match call.op with
  | .try_acquire tokens =>
    (try_acquire d tokens call.now s).map fun next => (next.1, .acquired next.2)
  | .available => (available d call.now s).map fun next => (next.1, .tokens next.2)
  | .time_until_available tokens =>
    (time_until_available d tokens call.now s).map fun next => (next.1, .wait next.2)

/-! What a refill does. -/

/-- The tokens at some reading of the clock. -/
def level (now : ℤ) (s : State) : ℚ :=
  if now ≤ s.last_ then s.tokens_
  else Reservoir.fill s.burst_ s.rate_ s.tokens_ ((now - s.last_ : ℤ) / nanosPerSecond)

def refilled (now : ℤ) (s : State) : State :=
  { s with tokens_ := level now s, last_ := max s.last_ now }

/-- The nanoseconds in which the missing tokens are refilled. -/
def missing (tokens : ℚ) (now : ℤ) (s : State) : ℤ :=
  ⌈(tokens - level now s) / s.rate_ * nanosPerSecond⌉

/-- The time since the last refill can be measured. -/
def Measured (now : ℤ) (s : State) : Prop := now ≤ s.last_ ∨ d.Fits (now - s.last_)

variable {d} {s s' r : State} {now : ℤ} {tokens : ℚ}

theorem refill_eq_some_iff : refill d now s = some r ↔ Measured d now s ∧ r = refilled now s := by
  unfold refill Measured refilled level
  by_cases hback : now ≤ s.last_
  · rw [if_pos hback, if_pos hback, max_eq_left hback, Option.some_inj]
    exact ⟨fun h => ⟨.inl hback, h.symm⟩, fun h => h.2.symm⟩
  · have hmax : max s.last_ now = now := max_eq_right (by omega)
    rw [if_neg hback, if_neg hback, hmax, Durations.of]
    by_cases hfits : d.Fits (now - s.last_)
    · rw [if_pos hfits]
      refine ⟨fun h => ⟨.inr hfits, ?_⟩, fun h => ?_⟩
      · exact (Option.some.inj h).symm
      · rw [h.2]
        rfl
    · rw [if_neg hfits]
      refine ⟨fun h => (by cases h), fun h => ?_⟩
      exact absurd (h.1.resolve_left hback) hfits

theorem refill_of_measured (h : Measured d now s) : refill d now s = some (refilled now s) :=
  refill_eq_some_iff.mpr ⟨h, rfl⟩

/-- Every call begins with a refill. -/
theorem refill_bind_eq_some_iff {α : Type} {f : State → Option α} {a : α} :
    (refill d now s).bind f = some a ↔ Measured d now s ∧ f (refilled now s) = some a := by
  rw [Option.bind_eq_some_iff]
  constructor
  · rintro ⟨r, hrefill, h⟩
    obtain ⟨hmeasured, rfl⟩ := refill_eq_some_iff.mp hrefill
    exact ⟨hmeasured, h⟩
  · rintro ⟨hmeasured, h⟩
    exact ⟨_, refill_of_measured hmeasured, h⟩

theorem measured_unbounded (now : ℤ) (s : State) : Measured .unbounded now s := .inr trivial

theorem level_of_le (h : now ≤ s.last_) : level now s = s.tokens_ := if_pos h

theorem level_of_lt (h : s.last_ < now) : level now s =
    Reservoir.fill s.burst_ s.rate_ s.tokens_ ((now - s.last_ : ℤ) / nanosPerSecond) :=
  if_neg (not_le.mpr h)

theorem nanosPerSecond_pos : 0 < nanosPerSecond := by
  unfold nanosPerSecond
  norm_num

/-- Whether a call is granted its tokens is decided by the level. -/
theorem try_acquire_eq_some_iff {granted : Bool} :
    try_acquire d tokens now s = some (s', granted) ↔ Measured d now s ∧
      if tokens ≤ level now s then
        granted = true ∧ s' = { refilled now s with tokens_ := level now s - tokens }
      else granted = false ∧ s' = refilled now s := by
  have hcall := @refill_bind_eq_some_iff d s now _
    (fun r => if tokens > r.tokens_ then some (r, false)
      else some ({ r with tokens_ := r.tokens_ - tokens }, true)) (s', granted)
  refine hcall.trans (and_congr_right fun _ => ?_)
  by_cases hcovered : tokens ≤ level now s
  · have hnot : ¬tokens > (refilled now s).tokens_ := not_lt.mpr hcovered
    rw [if_neg hnot, if_pos hcovered, Option.some_inj, Prod.mk.injEq]
    exact ⟨fun h => ⟨h.2.symm, h.1.symm⟩, fun h => ⟨h.2.symm, h.1.symm⟩⟩
  · have hshort : tokens > (refilled now s).tokens_ := not_le.mp hcovered
    rw [if_pos hshort, if_neg hcovered, Option.some_inj, Prod.mk.injEq]
    exact ⟨fun h => ⟨h.2.symm, h.1.symm⟩, fun h => ⟨h.2.symm, h.1.symm⟩⟩

theorem exists_try_acquire (h : Measured d now s) (tokens : ℚ) :
    ∃ next, try_acquire d tokens now s = some (next, decide (tokens ≤ level now s)) := by
  by_cases hcovered : tokens ≤ level now s
  · refine ⟨{ refilled now s with tokens_ := level now s - tokens }, ?_⟩
    rw [try_acquire_eq_some_iff, if_pos hcovered, decide_eq_true hcovered]
    exact ⟨h, rfl, rfl⟩
  · refine ⟨refilled now s, ?_⟩
    rw [try_acquire_eq_some_iff, if_neg hcovered, decide_eq_false hcovered]
    exact ⟨h, rfl, rfl⟩

theorem of_eq_some_iff {n ns : ℤ} : d.of n = some ns ↔ d.Fits n ∧ ns = n := by
  unfold Durations.of
  by_cases hfits : d.Fits n
  · rw [if_pos hfits, Option.some_inj]
    exact ⟨fun h => ⟨hfits, h.symm⟩, fun h => h.2.symm⟩
  · rw [if_neg hfits]
    exact ⟨fun h => (by cases h), fun h => absurd h.1 hfits⟩

theorem time_until_available_eq_some_iff {ns : ℤ} :
    time_until_available d tokens now s = some (s', ns) ↔ Measured d now s ∧
      s' = refilled now s ∧
      if tokens ≤ level now s then ns = 0
      else if tokens > s.burst_ ∨ s.rate_ ≤ 0 then ns = nanosecondsMax
      else d.Fits (missing tokens now s) ∧ ns = missing tokens now s := by
  have hcall := @refill_bind_eq_some_iff d s now _
    (fun r => if tokens ≤ r.tokens_ then some (r, 0)
      else if tokens > r.burst_ ∨ r.rate_ ≤ 0 then some (r, nanosecondsMax)
      else (d.of ⌈(tokens - r.tokens_) / r.rate_ * nanosPerSecond⌉).bind fun ns => some (r, ns))
    (s', ns)
  refine hcall.trans (and_congr_right fun _ => ?_)
  have hpair : ∀ x : ℤ, some (refilled now s, x) = some (s', ns) ↔
      s' = refilled now s ∧ ns = x := by
    intro x
    rw [Option.some_inj, Prod.mk.injEq]
    exact ⟨fun h => ⟨h.1.symm, h.2.symm⟩, fun h => ⟨h.1.symm, h.2.symm⟩⟩
  by_cases hcovered : tokens ≤ level now s
  · have hthere : tokens ≤ (refilled now s).tokens_ := hcovered
    rw [if_pos hthere, if_pos hcovered, hpair]
  have hshort : ¬tokens ≤ (refilled now s).tokens_ := hcovered
  rw [if_neg hshort, if_neg hcovered]
  by_cases hnever : tokens > s.burst_ ∨ s.rate_ ≤ 0
  · have hnone : tokens > (refilled now s).burst_ ∨ (refilled now s).rate_ ≤ 0 := hnever
    rw [if_pos hnone, if_pos hnever, hpair]
  · have hsome : ¬(tokens > (refilled now s).burst_ ∨ (refilled now s).rate_ ≤ 0) := hnever
    rw [if_neg hsome, if_neg hnever, Option.bind_eq_some_iff]
    constructor
    · rintro ⟨x, hx, h⟩
      obtain ⟨hfits, rfl⟩ := of_eq_some_iff.mp hx
      obtain ⟨hs', hns⟩ := (hpair _).mp h
      exact ⟨hs', hfits, hns⟩
    · rintro ⟨hs', hfits, hns⟩
      exact ⟨_, of_eq_some_iff.mpr ⟨hfits, rfl⟩, (hpair _).mpr ⟨hs', hns⟩⟩

end GeminiCpp.TokenBucket
