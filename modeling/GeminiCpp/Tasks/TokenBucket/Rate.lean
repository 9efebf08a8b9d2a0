import GeminiCpp.Tasks.TokenBucket.Basic

/-! What a token bucket grants over any part of a run. -/
namespace GeminiCpp.TokenBucket
open Answers Reservoir

def Op.NonNegative : Op → Prop
  | .try_acquire tokens => 0 ≤ tokens
  | _ => True

/-- The tokens that a call was granted. -/
def granted (call : Call) : Answer → ℚ
  | .acquired true =>
    match call.op with
    | .try_acquire tokens => tokens
    | _ => 0
  | _ => 0

def spent (calls : List Call) (answers : List Answer) : ℚ :=
  (List.zipWith granted calls answers).sum

/-- The latest reading of the clock, which may go backwards. -/
def latest (start : ℤ) (calls : List Call) : ℤ :=
  calls.foldl (fun reading call => max reading call.now) start

structure WellFormed (s : State) : Prop where
  rate : 0 ≤ s.rate_
  tokens : 0 ≤ s.tokens_
  burst : s.tokens_ ≤ s.burst_

variable {d : Durations} {s s' : State} {call : Call} {answer : Answer} {calls : List Call}
  {answers : List Answer}

/-- What a call does. -/
inductive Step (s : State) (call : Call) : Answer → State → Prop
  | acquired {tokens : ℚ} (hop : call.op = .try_acquire tokens)
    (hcovered : tokens ≤ level call.now s) :
    Step s call (.acquired true)
      { refilled call.now s with tokens_ := level call.now s - tokens }
  | unchanged {answer : Answer} (hanswer : answer ≠ .acquired true) :
    Step s call answer (refilled call.now s)

theorem step_cases (h : step d s call = some (s', answer)) : Step s call answer s' := by
  obtain ⟨op, now⟩ := call
  cases op with
  | try_acquire tokens =>
    obtain ⟨⟨next, success⟩, hcall, hlast⟩ := Option.map_eq_some_iff.mp h
    obtain ⟨-, hnext⟩ := try_acquire_eq_some_iff.mp hcall
    cases hlast
    by_cases hcovered : tokens ≤ level now s
    · rw [if_pos hcovered] at hnext
      rw [hnext.1, hnext.2]
      exact .acquired rfl hcovered
    · rw [if_neg hcovered] at hnext
      rw [hnext.1, hnext.2]
      exact .unchanged (by simp)
  | available =>
    obtain ⟨⟨next, tokens⟩, hcall, hlast⟩ := Option.map_eq_some_iff.mp h
    obtain ⟨-, hnext⟩ := refill_bind_eq_some_iff.mp hcall
    cases hnext
    cases hlast
    exact .unchanged (by simp)
  | time_until_available tokens =>
    obtain ⟨⟨next, ns⟩, hcall, hlast⟩ := Option.map_eq_some_iff.mp h
    obtain ⟨-, hnext, -⟩ := time_until_available_eq_some_iff.mp hcall
    cases hlast
    rw [hnext]
    exact .unchanged (by simp)

theorem Step.keeps (h : Step s call answer s') : s'.rate_ = s.rate_ ∧ s'.burst_ = s.burst_ := by
  cases h with
  | acquired => exact ⟨rfl, rfl⟩
  | unchanged => exact ⟨rfl, rfl⟩

theorem run_keeps (h : tryRun (step d) s calls = some (s', answers)) :
    s'.rate_ = s.rate_ ∧ s'.burst_ = s.burst_ := by
  apply tryRun_invariant (P := fun _ s' => s'.rate_ = s.rate_ ∧ s'.burst_ = s.burst_)
    ⟨rfl, rfl⟩ _ h
  rintro _ s' call next answer ⟨hrate, hburst⟩ hstep
  have hkeeps := (step_cases hstep).keeps
  exact ⟨hkeeps.1.trans hrate, hkeeps.2.trans hburst⟩

/-- The seconds since the last refill, none where the clock went backwards. -/
def elapsed (now : ℤ) (s : State) : ℚ := (max s.last_ now - s.last_ : ℤ) / nanosPerSecond

theorem elapsed_nonneg (now : ℤ) (s : State) : 0 ≤ elapsed now s := by
  have hlater : (0 : ℤ) ≤ max s.last_ now - s.last_ := sub_nonneg.mpr (le_max_left ..)
  exact div_nonneg (by exact_mod_cast hlater) nanosPerSecond_pos.le

theorem level_eq_fill (h : WellFormed s) (now : ℤ) :
    level now s = fill s.burst_ s.rate_ s.tokens_ (elapsed now s) := by
  unfold elapsed
  rcases le_or_gt now s.last_ with hback | hlater
  · rw [level_of_le hback, max_eq_left hback, sub_self, Int.cast_zero, zero_div,
      fill_zero h.burst]
  · rw [level_of_lt hlater, max_eq_right hlater.le]

/-- What a call does to the abstract level. -/
theorem Step.draw (h : Step s call answer s') (hs : WellFormed s) (hop : call.op.NonNegative) :
    0 ≤ granted call answer ∧ granted call answer ≤ level call.now s ∧
      s' = { refilled call.now s with tokens_ := level call.now s - granted call answer } := by
  have hlevel : 0 ≤ level call.now s := by
    rw [level_eq_fill hs]
    exact hs.tokens.trans (le_fill hs.rate (elapsed_nonneg call.now s) hs.burst)
  cases h with
  | @acquired tokens hop' hcovered =>
    have hgranted : granted call (.acquired true) = tokens := by
      unfold granted
      rw [hop']
    rw [hop'] at hop
    rw [hgranted]
    exact ⟨hop, hcovered, rfl⟩
  | unchanged hanswer =>
    have hgranted : granted call answer = 0 := by
      unfold granted
      split
      · exact absurd rfl hanswer
      · rfl
    rw [hgranted, sub_zero]
    exact ⟨le_refl 0, hlevel, rfl⟩

theorem Step.wellFormed (h : Step s call answer s') (hs : WellFormed s)
    (hop : call.op.NonNegative) : WellFormed s' := by
  obtain ⟨hamount, hcovered, rfl⟩ := h.draw hs hop
  have hlevel : level call.now s ≤ s.burst_ := by
    rw [level_eq_fill hs]
    exact fill_le_cap ..
  constructor
  case rate => exact hs.rate
  case tokens => exact sub_nonneg.mpr hcovered
  case burst => exact (sub_le_self _ hamount).trans hlevel

/-- What a run does to the bucket: it is a run of draws from the abstract level, over the time by
which the latest reading of the clock goes up. -/
structure Follows (calls : List Call) (answers : List Answer) (s s' : State)
    (draws : List (ℚ × ℚ)) : Prop where
  run : Draws s.burst_ s.rate_ s.tokens_ draws s'.tokens_
  total : amounts draws = spent calls answers
  time : times draws = (s'.last_ - s.last_ : ℤ) / nanosPerSecond
  last : s'.last_ = latest s.last_ calls
  rate : s'.rate_ = s.rate_
  burst : s'.burst_ = s.burst_

theorem exists_follows (h : tryRun (step d) s calls = some (s', answers)) (hs : WellFormed s)
    (hops : ∀ call ∈ calls, call.op.NonNegative) :
    WellFormed s' ∧ ∃ draws, Follows calls answers s s' draws := by
  induction calls generalizing s answers with
  | nil =>
    cases h
    refine ⟨hs, [], ?_⟩
    constructor
    case run => exact .nil _
    case total => rfl
    case time => rw [sub_self, Int.cast_zero, zero_div]; rfl
    case last => rfl
    case rate => rfl
    case burst => rfl
  | cons call calls ih =>
    obtain ⟨next, answer, rest, hcall, hrest, rfl⟩ := tryRun_cons_eq_some_iff.mp h
    obtain ⟨hop, hops⟩ := List.forall_mem_cons.mp hops
    have hstep := step_cases hcall
    obtain ⟨hs', draws, hfollows⟩ := ih hrest (hstep.wellFormed hs hop) hops
    obtain ⟨hamount, hcovered, rfl⟩ := hstep.draw hs hop
    refine ⟨hs', (elapsed call.now s, granted call answer) :: draws, ?_⟩
    constructor
    case run =>
      apply Draws.cons (elapsed_nonneg call.now s) hamount (by rwa [← level_eq_fill hs])
      rw [← level_eq_fill hs]
      exact hfollows.run
    case total =>
      have hrest := hfollows.total
      unfold amounts spent at hrest ⊢
      rw [List.map_cons, List.sum_cons, List.zipWith_cons_cons, List.sum_cons, hrest]
    case time =>
      have hrest := hfollows.time
      have hlast : (refilled call.now s).last_ = max s.last_ call.now := rfl
      unfold times at hrest ⊢
      rw [List.map_cons, List.sum_cons, hrest, hlast, elapsed, ← add_div]
      push_cast
      ring
    case last => exact hfollows.last
    case rate => exact hfollows.rate
    case burst => exact hfollows.burst

theorem wellFormed_init {rate burst : ℚ} (hrate : 0 ≤ rate) (hburst : 0 ≤ burst) (start : ℤ) :
    WellFormed (init rate burst start) := ⟨hrate, hburst, le_refl burst⟩

theorem latest_append (start : ℤ) (calls calls' : List Call) :
    latest start (calls ++ calls') = latest (latest start calls) calls' := List.foldl_append

/-- With exact durations every call returns. -/
theorem isSome_step (s : State) (call : Call) : (step .unbounded s call).isSome := by
  have hmeasured := measured_unbounded call.now s
  have hreturns : ∀ {α : Type} {f : State → Option α}, (f (refilled call.now s)).isSome →
      ((refill .unbounded call.now s).bind f).isSome := by
    intro α f hf
    rw [refill_of_measured hmeasured]
    exact hf
  unfold step
  cases call.op with
  | try_acquire tokens =>
    rw [Option.isSome_map]
    refine hreturns ?_
    split <;> rfl
  | available =>
    rw [Option.isSome_map]
    exact hreturns rfl
  | time_until_available tokens =>
    rw [Option.isSome_map]
    refine hreturns ?_
    split
    · rfl
    split <;> rfl

/-- In every part of a run no more is granted than the burst and what the rate allows for the time
by which the latest reading of the clock has gone up. -/
theorem enforces_rate {rate burst : ℚ} (hrate : 0 ≤ rate) (hburst : 0 ≤ burst) (start : ℤ)
    {calls calls' : List Call} (hops : ∀ call ∈ calls ++ calls', call.op.NonNegative) :
    ∃ s answers s' answers',
      tryRun (step .unbounded) (init rate burst start) calls = some (s, answers) ∧
      tryRun (step .unbounded) s calls' = some (s', answers') ∧
      0 ≤ s'.tokens_ ∧ s'.tokens_ ≤ burst ∧
      (∀ tokens now next, step .unbounded s' ⟨.try_acquire tokens, now⟩ =
        some (next, .acquired false) → refill .unbounded now s' = some next) ∧
      spent calls' answers' ≤ burst +
        rate * ((latest start (calls ++ calls') - latest start calls : ℤ) / nanosPerSecond) := by
  obtain ⟨s, answers, hrun⟩ := exists_tryRun isSome_step (init rate burst start) calls
  obtain ⟨s', answers', hrun'⟩ := exists_tryRun isSome_step s calls'
  obtain ⟨hops, hops'⟩ := List.forall_mem_append.mp hops
  obtain ⟨hs, _, hfollows⟩ := exists_follows hrun (wellFormed_init hrate hburst start) hops
  obtain ⟨hs', draws, hfollows'⟩ := exists_follows hrun' hs hops'
  have hrate' : s.rate_ = rate := hfollows.rate
  have hburst' : s.burst_ = burst := hfollows.burst
  have hlast : s.last_ = latest start calls := hfollows.last
  have hlast' : s'.last_ = latest start (calls ++ calls') := by
    rw [latest_append, ← hlast]
    exact hfollows'.last
  refine ⟨s, answers, s', answers', hrun, hrun', hs'.tokens, ?_, ?_, ?_⟩
  · rw [← hburst', ← hfollows'.burst]
    exact hs'.burst
  · intro tokens now next hcall
    have hnext : next = refilled now s' := by
      generalize hanswer : Answer.acquired false = answer at hcall
      cases step_cases hcall with
      | acquired => cases hanswer
      | unchanged => rfl
    rw [hnext]
    exact refill_of_measured (measured_unbounded now s')
  · have hdrawn := hfollows'.run.amounts_le hs.tokens hs.burst
    rw [hfollows'.total, hfollows'.time, hlast', hlast, hrate', hburst', mul_comm] at hdrawn
    exact hdrawn

theorem enforces_rate_burst : ∃ s answers s' answers',
    tryRun (step .unbounded) (init 2 10 0) [⟨.available, 0⟩] = some (s, answers) ∧
    tryRun (step .unbounded) s [⟨.try_acquire 10, 0⟩, ⟨.try_acquire 4, 2 * 10 ^ 9⟩] =
      some (s', answers') ∧
    spent [⟨.try_acquire 10, 0⟩, ⟨.try_acquire 4, 2 * 10 ^ 9⟩] answers' ≤ 14 := by
  have hops : ∀ call ∈ [⟨.available, 0⟩] ++
      [Call.mk (.try_acquire 10) 0, ⟨.try_acquire 4, 2 * 10 ^ 9⟩], call.op.NonNegative := by
    simp [Op.NonNegative]
  obtain ⟨s, answers, s', answers', hrun, hrun', -, -, -, hspent⟩ :=
    enforces_rate (show (0 : ℚ) ≤ 2 by decide) (show (0 : ℚ) ≤ 10 by decide) 0 hops
  refine ⟨s, answers, s', answers', hrun, hrun', hspent.trans ?_⟩
  have hlatest : latest 0 ([⟨.available, 0⟩] ++
      [Call.mk (.try_acquire 10) 0, ⟨.try_acquire 4, 2 * 10 ^ 9⟩]) - latest 0 [⟨.available, 0⟩] =
        2 * 10 ^ 9 := by decide
  rw [hlatest, nanosPerSecond]
  norm_num

end GeminiCpp.TokenBucket
