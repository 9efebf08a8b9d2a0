import Mathlib.Data.Finset.Card
import Mathlib.Data.List.ReduceOption
import GeminiCpp.Tasks.ThreadPool

/-! The condition variables of the thread pool: threads that are blocked, and the notifications
that wake them. A notification comes after its mutex is released, so it is a step of its own, and
a thread may wake up without one. -/
namespace GeminiCpp.ThreadPool.Condition

structure State where
  pool : ThreadPool.State
  /-- The workers that are blocked in `work_cv_.wait`. -/
  asleep : Finset ℕ
  /-- The calls of `submit` from outside that have left the mutex and not notified. -/
  submitting : ℕ
  /-- The workers whose job is at that place of `submit`. -/
  nesting : Finset ℕ
  /-- The destructor has set its flag and not notified. -/
  notifying : Bool
  /-- The calls of `wait_idle` that are about to check the predicate. -/
  checking : ℕ
  /-- The calls of `wait_idle` that are blocked. -/
  blocked : ℕ

/-- Whose step is next. `notify_one` wakes one of the blocked workers, if there is one. -/
inductive Turn (R : Type)
  | submit
  | notify_one (wakes : Option ℕ)
  | nested (worker : ℕ)
  | notify_nested (worker : ℕ) (wakes : Option ℕ)
  | destroy
  | notify_all
  | worker (worker : ℕ)
  | finish (worker : ℕ) (outcome : R)
  /-- A thread outside the pool calls `wait_idle`. -/
  | wait_idle
  | check_idle
  /-- A blocked thread wakes up without a notification. -/
  | wake (worker : ℕ)
  | wake_idle

/-- The steps that need no call from outside and no wake-up out of nowhere. The destructor is
called once; then it goes on by itself. -/
def Turn.internal {R : Type} (s : State) : Turn R → Bool
  | .notify_one _ | .notify_nested .. | .notify_all | .worker _ | .finish .. | .check_idle => true
  | .destroy => s.pool.joined.isSome
  | _ => false

variable {R : Type}

def init (threads : ℕ) : State :=
  { pool := ThreadPool.init threads, asleep := ∅, submitting := 0, nesting := ∅
    notifying := false, checking := 0, blocked := 0 }

/-- The workers that stay blocked. -/
def notifyOne (wakes : Option ℕ) (asleep : Finset ℕ) : Option (Finset ℕ) :=
  match wakes with
  | some i => if i ∈ asleep then some (asleep.erase i) else none
  | none => if asleep = ∅ then some ∅ else none

/-- `idle_cv_.notify_all`, which a worker calls when it leaves the pool idle. -/
def notifyIdle (s : State) : State :=
  if s.pool.queue_ = [] ∧ s.pool.active_ = 0 then
    { s with checking := s.checking + s.blocked, blocked := 0 }
  else s

def submit (s : State) : Option (State × Option (Event R)) :=
  (ThreadPool.step s.pool .submit).map fun (pool, e) =>
    ({ s with pool, submitting := s.submitting + 1 }, some e)

def notify_one (wakes : Option ℕ) (s : State) : Option (State × Option (Event R)) :=
  if 0 < s.submitting then
    (notifyOne wakes s.asleep).map fun asleep =>
      ({ s with asleep, submitting := s.submitting - 1 }, none)
  else none

def nested (i : ℕ) (s : State) : Option (State × Option (Event R)) :=
  if i ∈ s.nesting then none
  else
    (ThreadPool.step s.pool (.nested i)).map fun (pool, e) =>
      ({ s with pool, nesting := insert i s.nesting }, some e)

def notify_nested (i : ℕ) (wakes : Option ℕ) (s : State) : Option (State × Option (Event R)) :=
  if i ∈ s.nesting then
    (notifyOne wakes s.asleep).map fun asleep =>
      ({ s with asleep, nesting := s.nesting.erase i }, none)
  else none

/-- No other thread uses the pool from outside when its destructor starts. The destructor notifies
before it joins. -/
def destroy (s : State) : Option (State × Option (Event R)) :=
  if s.pool.joined = none then
    if s.submitting = 0 ∧ s.checking = 0 ∧ s.blocked = 0 then
      (ThreadPool.step s.pool .destroy).map fun (pool, e) =>
        ({ s with pool, notifying := true }, some e)
    else none
  else if s.notifying then none
  else (ThreadPool.step s.pool .destroy).map fun (pool, e) => ({ s with pool }, some e)

def notify_all (s : State) : Option (State × Option (Event R)) :=
  if s.notifying then some ({ s with asleep := ∅, notifying := false }, none) else none

/-- A worker that finds its predicate false goes to sleep before it gives the mutex back. -/
def worker (i : ℕ) (s : State) : Option (State × Option (Event R)) :=
  if i ∈ s.asleep then none
  else if s.pool.workers_[i]? = some .waiting ∧ s.pool.stopping_ = false ∧ s.pool.queue_ = [] then
    some ({ s with asleep := insert i s.asleep }, none)
  else
    let retires := s.pool.workers_[i]? = some .retiring
    (ThreadPool.step s.pool (.worker i)).map fun (pool, e) =>
      (if retires then notifyIdle { s with pool } else { s with pool }, some e)

def finish (i : ℕ) (outcome : R) (s : State) : Option (State × Option (Event R)) :=
  if i ∈ s.nesting then none
  else
    (ThreadPool.step s.pool (.finish i outcome)).map fun (pool, e) => ({ s with pool }, some e)

def check_idle (s : State) : Option (State × Option (Event R)) :=
  if 0 < s.checking then
    match ThreadPool.step s.pool .wait_idle with
    | some (pool, e) => some ({ s with pool, checking := s.checking - 1 }, some e)
    | none => some ({ s with checking := s.checking - 1, blocked := s.blocked + 1 }, none)
  else none

def step (s : State) : Turn R → Option (State × Option (Event R))
  | .submit => submit s
  | .notify_one wakes => notify_one wakes s
  | .nested i => nested i s
  | .notify_nested i wakes => notify_nested i wakes s
  | .destroy => destroy s
  | .notify_all => notify_all s
  | .worker i => worker i s
  | .finish i outcome => finish i outcome s
  | .wait_idle =>
    if s.pool.joined = none then some ({ s with checking := s.checking + 1 }, none) else none
  | .check_idle => check_idle s
  | .wake i => if i ∈ s.asleep then some ({ s with asleep := s.asleep.erase i }, none) else none
  | .wake_idle =>
    if 0 < s.blocked then
      some ({ s with checking := s.checking + 1, blocked := s.blocked - 1 }, none)
    else none

def Runs (threads : ℕ) (turns : List (Turn R)) (s : State) (events : List (Option (Event R))) :
    Prop :=
  Answers.tryRun step (init threads) turns = some (s, events)

/-! What a step does. -/

/-- The workers that are blocked before and after a `notify_one`. -/
inductive Notified (asleep : Finset ℕ) : Finset ℕ → Prop
  | one {i : ℕ} (h : i ∈ asleep) : Notified asleep (asleep.erase i)
  | none (h : asleep = ∅) : Notified asleep ∅

inductive Step (s : State) : Option (Event R) → State → Prop
  | submit (hjoined : s.pool.joined = none) :
    Step s (some (.submitted s.pool.submitted))
      { s with pool := (ThreadPool.submit (R := R) s.pool).1, submitting := s.submitting + 1 }
  | notify_one {asleep : Finset ℕ} (hpos : 0 < s.submitting) (h : Notified s.asleep asleep) :
    Step s none { s with asleep, submitting := s.submitting - 1 }
  | nested {i job : ℕ} (hnew : i ∉ s.nesting)
    (hworker : s.pool.workers_[i]? = some (.running job)) :
    Step s (some (.submitted s.pool.submitted))
      { s with pool := (ThreadPool.submit (R := R) s.pool).1, nesting := insert i s.nesting }
  | notify_nested {i : ℕ} {asleep : Finset ℕ} (hmem : i ∈ s.nesting)
    (h : Notified s.asleep asleep) :
    Step s none { s with asleep, nesting := s.nesting.erase i }
  | stop (hjoined : s.pool.joined = none) (hsubmitting : s.submitting = 0)
    (hchecking : s.checking = 0) (hblocked : s.blocked = 0) :
    Step s (some .stopping)
      { s with pool := { s.pool with stopping_ := true, joined := some 0 }, notifying := true }
  | join {n : ℕ} (hjoined : s.pool.joined = some n) (hnotified : s.notifying = false)
    (hworker : s.pool.workers_[n]? = some .exited) :
    Step s (some (.joined n)) { s with pool := { s.pool with joined := some (n + 1) } }
  | notify_all (h : s.notifying = true) : Step s none { s with asleep := ∅, notifying := false }
  | sleep {i : ℕ} (hworker : s.pool.workers_[i]? = some .waiting)
    (hstopping : s.pool.stopping_ = false) (hqueue : s.pool.queue_ = []) :
    Step s none { s with asleep := insert i s.asleep }
  | take {i job : ℕ} {queue : List ℕ} (hawake : i ∉ s.asleep)
    (hworker : s.pool.workers_[i]? = some .waiting) (hqueue : s.pool.queue_ = job :: queue) :
    Step s (some (.took i job))
      { s with pool := { s.pool with
          queue_ := queue
          active_ := s.pool.active_ + 1
          workers_ := s.pool.workers_.set i (.running job) } }
  | exit {i : ℕ} (hawake : i ∉ s.asleep) (hworker : s.pool.workers_[i]? = some .waiting)
    (hqueue : s.pool.queue_ = []) (hstopping : s.pool.stopping_ = true) :
    Step s (some (.exited i))
      { s with pool := { s.pool with workers_ := s.pool.workers_.set i .exited } }
  | retire {i : ℕ} (hawake : i ∉ s.asleep) (hworker : s.pool.workers_[i]? = some .retiring) :
    Step s (some (.retired i))
      (notifyIdle { s with pool := { s.pool with
        active_ := s.pool.active_ - 1
        workers_ := s.pool.workers_.set i .waiting } })
  | finish {i job : ℕ} (outcome : R) (hdone : i ∉ s.nesting)
    (hworker : s.pool.workers_[i]? = some (.running job)) :
    Step s (some (.executed i job outcome))
      { s with pool := { s.pool with workers_ := s.pool.workers_.set i .retiring } }
  | wait_idle (hjoined : s.pool.joined = none) :
    Step s none { s with checking := s.checking + 1 }
  | idle (hpos : 0 < s.checking) (hjoined : s.pool.joined = none) (hqueue : s.pool.queue_ = [])
    (hactive : s.pool.active_ = 0) :
    Step s (some .idle) { s with checking := s.checking - 1 }
  | block (hpos : 0 < s.checking)
    (hbusy : s.pool.joined = none → ¬ (s.pool.queue_ = [] ∧ s.pool.active_ = 0)) :
    Step s none { s with checking := s.checking - 1, blocked := s.blocked + 1 }
  | wake {i : ℕ} (h : i ∈ s.asleep) : Step s none { s with asleep := s.asleep.erase i }
  | wake_idle (hpos : 0 < s.blocked) :
    Step s none { s with checking := s.checking + 1, blocked := s.blocked - 1 }

variable {threads : ℕ} {turns : List (Turn R)} {s s' : State} {e : Option (Event R)}
  {events : List (Option (Event R))}

theorem notified_of_notifyOne {wakes : Option ℕ} {asleep asleep' : Finset ℕ}
    (h : notifyOne wakes asleep = some asleep') : Notified asleep asleep' := by
  cases wakes with
  | none =>
    by_cases hnone : asleep = ∅
    · rw [notifyOne, if_pos hnone] at h
      cases h
      exact .none hnone
    · rw [notifyOne, if_neg hnone] at h
      cases h
  | some i =>
    by_cases hmem : i ∈ asleep
    · rw [notifyOne, if_pos hmem] at h
      cases h
      exact .one hmem
    · rw [notifyOne, if_neg hmem] at h
      cases h

theorem step_of_submit (h : submit s = some (s', e)) : Step s e s' := by
  unfold submit at h
  obtain ⟨⟨pool, e₀⟩, hpool, heq⟩ := Option.map_eq_some_iff.mp h
  by_cases hjoined : s.pool.joined = none
  · rw [ThreadPool.step, if_pos hjoined] at hpool
    cases hpool
    cases heq
    exact .submit hjoined
  · rw [ThreadPool.step, if_neg hjoined] at hpool
    cases hpool

theorem step_of_nested {i : ℕ} (h : nested i s = some (s', e)) : Step s e s' := by
  unfold nested at h
  by_cases hnew : i ∈ s.nesting
  · rw [if_pos hnew] at h
    cases h
  · rw [if_neg hnew] at h
    obtain ⟨⟨pool, e₀⟩, hpool, heq⟩ := Option.map_eq_some_iff.mp h
    rw [ThreadPool.step, ThreadPool.nested] at hpool
    rcases hworker : s.pool.workers_[i]? with _ | w
    · rw [hworker] at hpool
      cases hpool
    · rw [hworker] at hpool
      cases w with
      | running job =>
        cases hpool
        cases heq
        exact .nested hnew hworker
      | _ => cases hpool

theorem step_of_destroy (h : destroy s = some (s', e)) : Step s e s' := by
  unfold destroy at h
  rcases hjoined : s.pool.joined with _ | n
  · rw [if_pos hjoined] at h
    by_cases houtside : s.submitting = 0 ∧ s.checking = 0 ∧ s.blocked = 0
    · rw [if_pos houtside] at h
      obtain ⟨⟨pool, e₀⟩, hpool, heq⟩ := Option.map_eq_some_iff.mp h
      rw [ThreadPool.step, ThreadPool.destroy, hjoined] at hpool
      cases hpool
      cases heq
      exact .stop hjoined houtside.1 houtside.2.1 houtside.2.2
    · rw [if_neg houtside] at h
      cases h
  · rw [if_neg (by rw [hjoined]; exact Option.some_ne_none n)] at h
    cases hnotifying : s.notifying with
    | true =>
      rw [if_pos hnotifying] at h
      cases h
    | false =>
      rw [if_neg (by rw [hnotifying]; exact Bool.false_ne_true)] at h
      obtain ⟨⟨pool, e₀⟩, hpool, heq⟩ := Option.map_eq_some_iff.mp h
      rw [ThreadPool.step, ThreadPool.destroy, hjoined] at hpool
      rcases hworker : s.pool.workers_[n]? with _ | w
      · simp only [hworker] at hpool
        cases hpool
      · simp only [hworker] at hpool
        cases w with
        | exited =>
          cases hpool
          cases heq
          exact .join hjoined hnotifying hworker
        | _ => cases hpool

theorem step_of_worker {i : ℕ} (h : worker i s = some (s', e)) : Step s e s' := by
  unfold worker at h
  by_cases hasleep : i ∈ s.asleep
  · rw [if_pos hasleep] at h
    cases h
  rw [if_neg hasleep] at h
  by_cases hsleep : s.pool.workers_[i]? = some .waiting ∧ s.pool.stopping_ = false ∧
      s.pool.queue_ = []
  · rw [if_pos hsleep] at h
    cases h
    exact .sleep hsleep.1 hsleep.2.1 hsleep.2.2
  rw [if_neg hsleep] at h
  obtain ⟨⟨pool, e₀⟩, hpool, heq⟩ := Option.map_eq_some_iff.mp h
  rw [ThreadPool.step, worker_loop] at hpool
  rcases hworker : s.pool.workers_[i]? with _ | w
  · simp only [hworker] at hpool
    cases hpool
  simp only [hworker] at hpool heq
  cases w with
  | waiting =>
    simp only [Option.some.injEq, reduceCtorEq, if_false] at heq
    rcases hqueue : s.pool.queue_ with _ | ⟨job, queue⟩
    · have hstopping : s.pool.stopping_ = true := by
        by_contra hfalse
        exact hsleep ⟨hworker, by simpa using hfalse, hqueue⟩
      have hready : s.pool.stopping_ = true ∨ s.pool.queue_ ≠ [] := Or.inl hstopping
      simp only [if_pos hready] at hpool
      simp only [hqueue] at hpool
      cases hpool
      cases heq
      rw [← hqueue]
      exact .exit hasleep hworker hqueue hstopping
    · have hready : s.pool.stopping_ = true ∨ s.pool.queue_ ≠ [] := Or.inr (by simp [hqueue])
      simp only [if_pos hready] at hpool
      simp only [hqueue] at hpool
      cases hpool
      cases heq
      exact .take hasleep hworker hqueue
  | retiring =>
    cases hpool
    cases heq
    exact .retire hasleep hworker
  | _ => cases hpool

theorem step_of_finish {i : ℕ} {outcome : R} (h : finish i outcome s = some (s', e)) :
    Step s e s' := by
  unfold finish at h
  by_cases hdone : i ∈ s.nesting
  · rw [if_pos hdone] at h
    cases h
  · rw [if_neg hdone] at h
    obtain ⟨⟨pool, e₀⟩, hpool, heq⟩ := Option.map_eq_some_iff.mp h
    rw [ThreadPool.step, ThreadPool.finish] at hpool
    rcases hworker : s.pool.workers_[i]? with _ | w
    · rw [hworker] at hpool
      cases hpool
    · rw [hworker] at hpool
      cases w with
      | running job =>
        cases hpool
        cases heq
        exact .finish outcome hdone hworker
      | _ => cases hpool

theorem step_of_check_idle (h : check_idle s = some (s', e)) : Step s e s' := by
  unfold check_idle at h
  by_cases hpos : 0 < s.checking
  · rw [if_pos hpos] at h
    by_cases hidle : s.pool.joined = none ∧ s.pool.queue_ = [] ∧ s.pool.active_ = 0
    · obtain ⟨hjoined, hidle⟩ := hidle
      rw [ThreadPool.step, if_pos hjoined, ThreadPool.wait_idle, if_pos hidle] at h
      cases h
      exact .idle hpos hjoined hidle.1 hidle.2
    · have hnone : ThreadPool.step s.pool (.wait_idle : ThreadPool.Turn R) = none := by
        rw [ThreadPool.step]
        by_cases hjoined : s.pool.joined = none
        · rw [if_pos hjoined, ThreadPool.wait_idle, if_neg fun h => hidle ⟨hjoined, h⟩]
        · rw [if_neg hjoined]
      rw [hnone] at h
      cases h
      exact .block hpos fun hjoined h => hidle ⟨hjoined, h⟩
  · rw [if_neg hpos] at h
    cases h

theorem step_cases {turn : Turn R} (h : step s turn = some (s', e)) : Step s e s' := by
  cases turn with
  | submit => exact step_of_submit h
  | notify_one wakes =>
    rw [step, notify_one] at h
    split_ifs at h with hpos
    obtain ⟨asleep, hnotify, heq⟩ := Option.map_eq_some_iff.mp h
    cases heq
    exact .notify_one hpos (notified_of_notifyOne hnotify)
  | nested i => exact step_of_nested h
  | notify_nested i wakes =>
    rw [step, notify_nested] at h
    split_ifs at h with hmem
    obtain ⟨asleep, hnotify, heq⟩ := Option.map_eq_some_iff.mp h
    cases heq
    exact .notify_nested hmem (notified_of_notifyOne hnotify)
  | destroy => exact step_of_destroy h
  | notify_all =>
    rw [step, notify_all] at h
    split_ifs at h with hnotifying
    cases h
    exact .notify_all hnotifying
  | worker i => exact step_of_worker h
  | finish i outcome => exact step_of_finish h
  | wait_idle =>
    rw [step] at h
    split_ifs at h with hjoined
    cases h
    exact .wait_idle hjoined
  | check_idle => exact step_of_check_idle h
  | wake i =>
    rw [step] at h
    split_ifs at h with hmem
    cases h
    exact .wake hmem
  | wake_idle =>
    rw [step] at h
    split_ifs at h with hpos
    cases h
    exact .wake_idle hpos

/-! The pool under its condition variables does what the pool without them does. -/

/-- What a step does to the pool itself: nothing, or a step of it that shows the same. -/
theorem pool_of_step (h : Step s e s') :
    e = none ∧ s'.pool = s.pool ∨
    ∃ (turn : ThreadPool.Turn R) (e₀ : Event R), e = some e₀ ∧
      ThreadPool.step s.pool turn = some (s'.pool, e₀) := by
  cases h with
  | submit hjoined =>
    refine Or.inr ⟨.submit, _, rfl, ?_⟩
    rw [ThreadPool.step, if_pos hjoined]
    rfl
  | @nested i job _ hworker =>
    refine Or.inr ⟨.nested i, _, rfl, ?_⟩
    rw [ThreadPool.step, ThreadPool.nested, hworker]
    rfl
  | stop hjoined _ _ _ =>
    refine Or.inr ⟨.destroy, _, rfl, ?_⟩
    rw [ThreadPool.step, ThreadPool.destroy, hjoined]
  | join hjoined _ hworker =>
    refine Or.inr ⟨.destroy, _, rfl, ?_⟩
    simp only [ThreadPool.step, ThreadPool.destroy, hjoined, hworker]
  | @take i job queue _ hworker hqueue =>
    refine Or.inr ⟨.worker i, _, rfl, ?_⟩
    simp [ThreadPool.step, worker_loop, hworker, hqueue]
  | @exit i _ hworker hqueue hstopping =>
    refine Or.inr ⟨.worker i, _, rfl, ?_⟩
    simp [ThreadPool.step, worker_loop, hworker, hqueue, hstopping]
  | @retire i _ hworker =>
    refine Or.inr ⟨.worker i, _, rfl, ?_⟩
    simp only [ThreadPool.step, worker_loop, hworker, notifyIdle]
    split_ifs <;> rfl
  | @finish i job outcome _ hworker =>
    refine Or.inr ⟨.finish i outcome, _, rfl, ?_⟩
    simp only [ThreadPool.step, ThreadPool.finish, hworker]
  | idle _ hjoined hqueue hactive =>
    refine Or.inr ⟨.wait_idle, _, rfl, ?_⟩
    rw [ThreadPool.step, if_pos hjoined, ThreadPool.wait_idle, if_pos ⟨hqueue, hactive⟩]
  | _ => exact Or.inl ⟨rfl, rfl⟩

/-- Every run is a run of the pool without condition variables that shows the same. -/
theorem Runs.pool (h : Runs threads turns s events) :
    ∃ turns' : List (ThreadPool.Turn R), ThreadPool.Runs threads turns' s.pool
      events.reduceOption := by
  have hinit : ∃ turns' : List (ThreadPool.Turn R), ThreadPool.Runs threads turns'
      (init threads).pool ([] : List (Option (Event R))).reduceOption := ⟨[], rfl⟩
  refine Answers.tryRun_invariant (P := fun events s => ∃ turns' : List (ThreadPool.Turn R),
    ThreadPool.Runs threads turns' s.pool events.reduceOption) hinit ?_ h
  intro events s turn s' e hrun hstep
  obtain ⟨turns', hrun⟩ := hrun
  rcases pool_of_step (step_cases hstep) with ⟨rfl, hpool⟩ | ⟨turn', e₀, rfl, hpool⟩
  · refine ⟨turns', ?_⟩
    rw [hpool, List.reduceOption_append, List.reduceOption_singleton, Option.toList_none,
      List.append_nil]
    exact hrun
  · refine ⟨turns' ++ [turn'], ?_⟩
    rw [List.reduceOption_append, List.reduceOption_singleton, Option.toList_some]
    have hlast : Answers.tryRun ThreadPool.step s.pool [turn'] = some (s'.pool, [e₀]) :=
      Answers.tryRun_cons_eq_some_iff.mpr ⟨_, _, [], hpool, rfl, rfl⟩
    exact Answers.tryRun_append hrun hlast

/-- The condition variables change nothing that is seen of the pool: every job is still executed at
most once, and all of them before the pool is destroyed. -/
theorem runs_refine (h : Runs threads turns s events) :
    (∃ turns' : List (ThreadPool.Turn R), ThreadPool.Runs threads turns' s.pool
      events.reduceOption) ∧
    (executed events.reduceOption).Nodup ∧
    (s.pool.joined = some s.pool.workers_.length →
      (executed events.reduceOption).Perm (submitted events.reduceOption)) := by
  obtain ⟨turns', hrun⟩ := h.pool
  have hinvariant := hrun.invariant
  exact ⟨⟨turns', hrun⟩, hinvariant.ledger.finished_nodup, hinvariant.all_executed⟩

/-- A job that submits another one while the pool is being destroyed. -/
theorem runs_refine_nested : ∃ s : State,
    (∃ turns' : List (ThreadPool.Turn Unit), ThreadPool.Runs 1 turns' s.pool
      [.submitted 0, .took 0 0, .stopping, .submitted 1, .executed 0 0 (), .retired 0, .took 0 1,
        .executed 0 1 (), .retired 0, .exited 0, .joined 0]) ∧
    (executed [.submitted 0, .took 0 0, .stopping, .submitted 1, .executed 0 0 (), .retired 0,
      .took 0 1, .executed 0 1 (), .retired 0, .exited 0, Event.joined 0]).Nodup ∧
    (s.pool.joined = some s.pool.workers_.length →
      (executed [.submitted 0, .took 0 0, .stopping, .submitted 1, .executed 0 0 (), .retired 0,
        .took 0 1, .executed 0 1 (), .retired 0, .exited 0, Event.joined 0]).Perm
      (submitted [.submitted 0, .took 0 0, .stopping, .submitted 1, .executed 0 0 (), .retired 0,
        .took 0 1, .executed 0 1 (), .retired 0, .exited 0, Event.joined 0])) := by
  have hrun : Runs 1 [.worker 0, .submit, .notify_one (some 0), .worker 0, .destroy, .nested 0,
      .notify_nested 0 none, .finish 0 (), .worker 0, .worker 0, .notify_all, .finish 0 (),
      .worker 0, .worker 0, .destroy]
      ⟨⟨[], [.exited], 0, true, 2, some 1⟩, ∅, 0, ∅, false, 0, 0⟩
      [none, some (.submitted 0), none, some (.took 0 0), some .stopping, some (.submitted 1),
        none, some (.executed 0 0 ()), some (.retired 0), some (.took 0 1), none,
        some (.executed 0 1 ()), some (.retired 0), some (.exited 0), some (.joined 0)] := rfl
  exact ⟨_, runs_refine hrun⟩

end GeminiCpp.ThreadPool.Condition
