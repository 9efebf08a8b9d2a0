import GeminiCpp.Lib.Answers
import GeminiCpp.Lib.TaskLedger

/-! The reference solution of the task `thread-pool`, under any interleaving of its threads: each
section under the mutex, and each return of a job, is one step. A waiting thread goes on whenever
its predicate holds, so the notifications do nothing. -/
namespace GeminiCpp.ThreadPool
open TaskLedger

/-- Where a worker is in `worker_loop`. -/
inductive Worker
  /-- At the head of the loop. -/
  | waiting
  | running (job : ℕ)
  /-- The job has returned. -/
  | retiring
  | exited
deriving DecidableEq

/-- A worker that has taken a job and not retired it. -/
def Worker.busy : Worker → Bool
  | .running _ | .retiring => true
  | _ => false

def Worker.job : Worker → Option ℕ
  | .running job => some job
  | _ => none

/-- A job is known by its number in the order of the calls of `submit`. -/
structure State where
  queue_ : List ℕ
  workers_ : List Worker
  active_ : ℕ
  stopping_ : Bool
  submitted : ℕ
  /-- The number of workers that the destructor has joined, once it has started. -/
  joined : Option ℕ

/-- What a step shows. -/
inductive Event (R : Type)
  | submitted (job : ℕ)
  | idle
  | stopping
  | joined (worker : ℕ)
  | took (worker job : ℕ)
  | exited (worker : ℕ)
  /-- The job left a value or an exception in its future. -/
  | executed (worker job : ℕ) (outcome : R)
  | retired (worker : ℕ)
deriving DecidableEq

/-- Whose step is next. -/
inductive Turn (R : Type)
  /-- A thread outside the pool submits a job. -/
  | submit
  /-- A thread outside the pool is in `wait_idle`. -/
  | wait_idle
  | destroy
  | worker (worker : ℕ)
  /-- The job of the worker submits a job. -/
  | nested (worker : ℕ)
  /-- The job of the worker returns. -/
  | finish (worker : ℕ) (outcome : R)

variable {R : Type}

/-- The constructor. -/
def init (threads : ℕ) : State :=
  { queue_ := []
    workers_ := List.replicate (if threads = 0 then 1 else threads) .waiting
    active_ := 0
    stopping_ := false
    submitted := 0
    joined := none }

def submit (s : State) : State × Event R :=
  ({ s with queue_ := s.queue_ ++ [s.submitted], submitted := s.submitted + 1 },
    .submitted s.submitted)

def wait_idle (s : State) : Option (State × Event R) :=
  if s.queue_ = [] ∧ s.active_ = 0 then some (s, .idle) else none

/-- The destructor sets the flag, and then joins one worker after the other. -/
def destroy (s : State) : Option (State × Event R) :=
  match s.joined with
  | none => some ({ s with stopping_ := true, joined := some 0 }, .stopping)
  | some n =>
    match s.workers_[n]? with
    | some .exited => some ({ s with joined := some (n + 1) }, .joined n)
    | _ => none

def worker_loop (i : ℕ) (s : State) : Option (State × Event R) :=
  match s.workers_[i]? with
  | some .waiting =>
    if s.stopping_ = true ∨ s.queue_ ≠ [] then
      match s.queue_ with
      | [] => some ({ s with workers_ := s.workers_.set i .exited }, .exited i)
      | job :: queue =>
        some ({ s with
          queue_ := queue
          active_ := s.active_ + 1
          workers_ := s.workers_.set i (.running job) }, .took i job)
    else none
  | some .retiring =>
    some ({ s with active_ := s.active_ - 1, workers_ := s.workers_.set i .waiting }, .retired i)
  | _ => none

/-- A job that throws returns as well: the exception is in its future. -/
def finish (i : ℕ) (outcome : R) (s : State) : Option (State × Event R) :=
  match s.workers_[i]? with
  | some (.running job) =>
    some ({ s with workers_ := s.workers_.set i .retiring }, .executed i job outcome)
  | _ => none

def nested (i : ℕ) (s : State) : Option (State × Event R) :=
  match s.workers_[i]? with
  | some (.running _) => some (submit s)
  | _ => none

/-- From outside, the pool is used only before its destructor starts. -/
def step (s : State) : Turn R → Option (State × Event R)
  | .submit => if s.joined = none then some (submit s) else none
  | .wait_idle => if s.joined = none then wait_idle s else none
  | .destroy => destroy s
  | .worker i => worker_loop i s
  | .nested i => nested i s
  | .finish i outcome => finish i outcome s

def Runs (threads : ℕ) (turns : List (Turn R)) (s : State) (events : List (Event R)) : Prop :=
  Answers.tryRun step (init threads) turns = some (s, events)

/-! What a step does. -/

inductive Step (s : State) : Event R → State → Prop
  | submit (hallowed : s.joined = none ∨ ∃ i job : ℕ, s.workers_[i]? = some (.running job)) :
    Step s (.submitted s.submitted)
      { s with queue_ := s.queue_ ++ [s.submitted], submitted := s.submitted + 1 }
  | idle (hqueue : s.queue_ = []) (hactive : s.active_ = 0) : Step s .idle s
  | stop (hjoined : s.joined = none) :
    Step s .stopping { s with stopping_ := true, joined := some 0 }
  | join {n : ℕ} (hjoined : s.joined = some n) (hworker : s.workers_[n]? = some .exited) :
    Step s (.joined n) { s with joined := some (n + 1) }
  | take {i job : ℕ} {queue : List ℕ} (hworker : s.workers_[i]? = some .waiting)
    (hqueue : s.queue_ = job :: queue) :
    Step s (.took i job)
      { s with
        queue_ := queue
        active_ := s.active_ + 1
        workers_ := s.workers_.set i (.running job) }
  | exit {i : ℕ} (hworker : s.workers_[i]? = some .waiting) (hqueue : s.queue_ = [])
    (hstopping : s.stopping_ = true) :
    Step s (.exited i) { s with workers_ := s.workers_.set i .exited }
  | finish {i job : ℕ} (outcome : R) (hworker : s.workers_[i]? = some (.running job)) :
    Step s (.executed i job outcome) { s with workers_ := s.workers_.set i .retiring }
  | retire {i : ℕ} (hworker : s.workers_[i]? = some .retiring) :
    Step s (.retired i)
      { s with active_ := s.active_ - 1, workers_ := s.workers_.set i .waiting }

variable {threads : ℕ} {turns : List (Turn R)} {s s' : State} {e : Event R}
  {events : List (Event R)}

theorem step_of_destroy (h : destroy s = some (s', e)) : Step s e s' := by
  unfold destroy at h
  cases hjoined : s.joined with
  | none =>
    rw [hjoined] at h
    cases h
    exact .stop hjoined
  | some n =>
    rw [hjoined] at h
    rcases hworker : s.workers_[n]? with _ | worker
    · simp only [hworker] at h
      cases h
    · simp only [hworker] at h
      cases worker with
      | exited =>
        cases h
        exact .join hjoined hworker
      | _ => cases h

theorem step_of_worker_loop {i : ℕ} (h : worker_loop i s = some (s', e)) : Step s e s' := by
  unfold worker_loop at h
  rcases hworker : s.workers_[i]? with _ | worker
  · simp only [hworker] at h
    cases h
  · simp only [hworker] at h
    cases worker with
    | waiting =>
      by_cases hready : s.stopping_ = true ∨ s.queue_ ≠ []
      · simp only [if_pos hready] at h
        cases hqueue : s.queue_ with
        | nil =>
          simp only [hqueue] at h
          cases h
          rw [← hqueue]
          exact .exit hworker hqueue (hready.resolve_right fun hne => hne hqueue)
        | cons job queue =>
          simp only [hqueue] at h
          cases h
          exact .take hworker hqueue
      · simp only [if_neg hready] at h
        cases h
    | retiring =>
      cases h
      exact .retire hworker
    | _ => cases h

theorem step_of_finish {i : ℕ} {outcome : R} (h : finish i outcome s = some (s', e)) :
    Step s e s' := by
  unfold finish at h
  rcases hworker : s.workers_[i]? with _ | worker
  · simp only [hworker] at h
    cases h
  · simp only [hworker] at h
    cases worker with
    | running job =>
      cases h
      exact .finish outcome hworker
    | _ => cases h

theorem step_of_nested {i : ℕ} (h : nested i s = some (s', e)) : Step s e s' := by
  unfold nested at h
  rcases hworker : s.workers_[i]? with _ | worker
  · simp only [hworker] at h
    cases h
  · simp only [hworker] at h
    cases worker with
    | running job =>
      cases h
      exact .submit (.inr ⟨i, job, hworker⟩)
    | _ => cases h

theorem step_of_wait_idle (h : wait_idle s = some (s', e)) : Step s e s' := by
  unfold wait_idle at h
  by_cases hidle : s.queue_ = [] ∧ s.active_ = 0
  · rw [if_pos hidle] at h
    cases h
    exact .idle hidle.1 hidle.2
  · rw [if_neg hidle] at h
    cases h

theorem step_cases {turn : Turn R} (h : step s turn = some (s', e)) : Step s e s' := by
  cases turn with
  | submit =>
    by_cases hjoined : s.joined = none
    · rw [step, if_pos hjoined] at h
      cases h
      exact .submit (.inl hjoined)
    · rw [step, if_neg hjoined] at h
      cases h
  | wait_idle =>
    by_cases hjoined : s.joined = none
    · rw [step, if_pos hjoined] at h
      exact step_of_wait_idle h
    · rw [step, if_neg hjoined] at h
      cases h
  | destroy => exact step_of_destroy h
  | worker i => exact step_of_worker_loop h
  | nested i => exact step_of_nested h
  | finish i outcome => exact step_of_finish h

/-! What the workers hold. -/

/-- The jobs that are being executed. -/
def jobs (workers : List Worker) : Multiset ℕ := workers.filterMap Worker.job

/-- The number of the workers that have taken a job and not retired it. -/
def busy (workers : List Worker) : ℕ := workers.countP Worker.busy

theorem exists_place {workers : List Worker} {i : ℕ} {w : Worker} (h : workers[i]? = some w) :
    ∃ before after, workers = before ++ w :: after ∧
      ∀ w', workers.set i w' = before ++ w' :: after := by
  obtain ⟨hi, rfl⟩ := List.getElem?_eq_some_iff.mp h
  refine ⟨workers.take i, workers.drop (i + 1), ?_, fun w' => ?_⟩
  · rw [List.cons_getElem_drop_succ, List.take_append_drop]
  · rw [List.set_eq_take_append_cons_drop, if_pos hi]

theorem jobs_set {workers : List Worker} {i : ℕ} {w : Worker} (h : workers[i]? = some w)
    (w' : Worker) : jobs (workers.set i w') + (w.job.toList : Multiset ℕ) =
      jobs workers + (w'.job.toList : Multiset ℕ) := by
  obtain ⟨before, after, hworkers, hset⟩ := exists_place h
  have hjobs : ∀ w, jobs (before ++ w :: after) =
      before.filterMap Worker.job + after.filterMap Worker.job + (w.job.toList : Multiset ℕ) := by
    intro w
    have hcons : (w :: after).filterMap Worker.job =
        w.job.toList ++ after.filterMap Worker.job := by
      cases hjob : w.job <;> simp [hjob]
    unfold jobs
    rw [List.filterMap_append, hcons, ← Multiset.coe_add, ← Multiset.coe_add, add_assoc,
      add_comm (w.job.toList : Multiset ℕ)]
  rw [hset, hworkers, hjobs, hjobs, add_right_comm]

theorem jobs_running {workers : List Worker} {i : ℕ} {w : Worker} (h : workers[i]? = some w)
    (hjob : w.job = none) (job : ℕ) :
    jobs (workers.set i (.running job)) = job ::ₘ jobs workers := by
  have hset := jobs_set h (.running job)
  have hone : ((Worker.running job).job.toList : Multiset ℕ) = {job} := rfl
  rwa [hjob, Option.toList_none, Multiset.coe_nil, add_zero, hone, add_comm,
    Multiset.singleton_add] at hset

theorem jobs_returned {workers : List Worker} {i job : ℕ}
    (h : workers[i]? = some (.running job)) {w' : Worker} (hjob' : w'.job = none) :
    jobs workers = job ::ₘ jobs (workers.set i w') := by
  have hset := jobs_set h w'
  have hone : ((Worker.running job).job.toList : Multiset ℕ) = {job} := rfl
  rw [hjob', Option.toList_none, Multiset.coe_nil, add_zero, hone, add_comm,
    Multiset.singleton_add] at hset
  exact hset.symm

/-- A worker that holds no job does not change what is executed. -/
theorem jobs_eq {workers : List Worker} {i : ℕ} {w w' : Worker} (h : workers[i]? = some w)
    (hjob : w.job = none) (hjob' : w'.job = none) : jobs (workers.set i w') = jobs workers := by
  have hset := jobs_set h w'
  rwa [hjob, hjob', Option.toList_none, Multiset.coe_nil, add_zero, add_zero] at hset

theorem busy_set {workers : List Worker} {i : ℕ} {w : Worker} (h : workers[i]? = some w)
    (w' : Worker) : busy (workers.set i w') + w.busy.toNat = busy workers + w'.busy.toNat := by
  obtain ⟨before, after, hworkers, hset⟩ := exists_place h
  have hbusy : ∀ w, busy (before ++ w :: after) =
      before.countP Worker.busy + after.countP Worker.busy + w.busy.toNat := by
    intro w
    unfold busy
    cases hbusy : w.busy <;> simp [hbusy, Nat.add_assoc]
  rw [hset, hworkers, hbusy, hbusy, Nat.add_right_comm]

/-! What happens to the jobs. -/

def Event.op : Event R → Option Op
  | .submitted job => some (.submit job)
  | .took _ job => some (.take job)
  | .executed _ job _ => some (.finish job)
  | _ => none

def history (events : List (Event R)) : List Op := events.filterMap Event.op

/-- The jobs that were submitted, from outside or by other jobs. -/
def submitted (events : List (Event R)) : List ℕ := TaskLedger.submitted (history events)

/-- The jobs that a worker has begun. -/
def started (events : List (Event R)) : List ℕ := TaskLedger.taken (history events)

/-- The jobs that have returned. -/
def executed (events : List (Event R)) : List ℕ := TaskLedger.finished (history events)

theorem history_concat (events : List (Event R)) (e : Event R) :
    history (events ++ [e]) = history events ++ e.op.toList := by
  unfold history
  cases h : e.op <;> simp [h]

structure Invariant (events : List (Event R)) (s : State) : Prop where
  ledger : Accepts (history events) ⟨s.submitted, s.queue_, jobs s.workers_⟩
  active : s.active_ = busy s.workers_
  nonempty : s.workers_ ≠ []
  stopping : s.stopping_ = s.joined.isSome
  exited : .exited ∈ s.workers_ → s.stopping_ = true
  /-- Some worker is there for what is in the queue. -/
  drained : (∀ w ∈ s.workers_, w = .exited) → s.queue_ = []
  joined : ∀ n, s.joined = some n → ∀ i < n, s.workers_[i]? = some .exited

theorem invariant_init (threads : ℕ) : Invariant ([] : List (Event R)) (init threads) := by
  have hwaiting : ∀ w ∈ (init threads).workers_, w = .waiting :=
    fun w hw => (List.mem_replicate.mp hw).2
  constructor
  case ledger =>
    have hjobs : jobs (init threads).workers_ = 0 := by
      unfold jobs
      rw [List.filterMap_eq_nil_iff.mpr fun w hw => by rw [hwaiting w hw]; rfl]
      rfl
    rw [hjobs]
    exact .start
  case active =>
    refine (List.countP_eq_zero.mpr fun w hw => ?_).symm
    rw [hwaiting w hw]
    exact Bool.false_ne_true
  case nonempty =>
    intro hnil
    have hlength := congrArg List.length hnil
    simp only [init, List.length_replicate, List.length_nil] at hlength
    by_cases hzero : threads = 0
    · rw [if_pos hzero] at hlength
      omega
    · rw [if_neg hzero] at hlength
      exact hzero hlength
  case stopping => rfl
  case exited => exact fun hmem => nomatch hwaiting _ hmem
  case drained => exact fun _ => rfl
  case joined => exact fun n hn => nomatch hn

namespace Invariant

theorem ledger_silent (h : Invariant events s) (he : e.op = none) :
    Accepts (history (events ++ [e])) ⟨s.submitted, s.queue_, jobs s.workers_⟩ := by
  rw [history_concat, he, Option.toList_none, List.append_nil]
  exact h.ledger

/-- One worker goes on to another place in its loop. -/
theorem move (h : Invariant events s) {i : ℕ} {w w' : Worker} (hworker : s.workers_[i]? = some w)
    (hne : w ≠ .exited) (hworkers : s'.workers_ = s.workers_.set i w')
    (hjoined : s'.joined = s.joined) (hstopping : s'.stopping_ = s.stopping_)
    (hactive : s'.active_ + w.busy.toNat = s.active_ + w'.busy.toNat)
    (hledger : Accepts (history (events ++ [e])) ⟨s'.submitted, s'.queue_, jobs s'.workers_⟩)
    (hexit : w' = .exited → s.stopping_ = true ∧ s'.queue_ = []) :
    Invariant (events ++ [e]) s' := by
  have hi := (List.getElem?_eq_some_iff.mp hworker).1
  constructor
  case ledger => exact hledger
  case active =>
    have hbusy := busy_set hworker w'
    have hbefore := h.active
    rw [hworkers]
    omega
  case nonempty =>
    rw [hworkers]
    exact fun hnil => h.nonempty (by simpa using hnil)
  case stopping => rw [hstopping, hjoined, h.stopping]
  case exited =>
    rw [hworkers, hstopping]
    intro hmem
    rcases List.mem_or_eq_of_mem_set hmem with hmem | heq
    · exact h.exited hmem
    · exact (hexit heq.symm).1
  case drained =>
    rw [hworkers]
    exact fun hall => (hexit (hall w' (List.mem_set hi w'))).2
  case joined =>
    intro n hn j hj
    rw [hjoined] at hn
    have hexited := h.joined n hn j hj
    have hother : i ≠ j := by
      rintro rfl
      rw [hworker] at hexited
      exact hne (Option.some.inj hexited)
    rw [hworkers, List.getElem?_set_ne hother]
    exact hexited

theorem submit (h : Invariant events s)
    (hallowed : s.joined = none ∨ ∃ i job : ℕ, s.workers_[i]? = some (.running job)) :
    Invariant (events ++ [Event.submitted s.submitted])
      { s with queue_ := s.queue_ ++ [s.submitted], submitted := s.submitted + 1 } := by
  -- a worker that can take the job
  have hsome : ∃ w ∈ s.workers_, w ≠ .exited := by
    rcases hallowed with hnone | ⟨i, job, hworker⟩
    · obtain ⟨w, hw⟩ := List.exists_mem_of_ne_nil _ h.nonempty
      refine ⟨w, hw, ?_⟩
      rintro rfl
      have hstopping := h.exited hw
      rw [h.stopping, hnone] at hstopping
      cases hstopping
    · exact ⟨.running job, List.mem_of_getElem? hworker, by simp⟩
  constructor
  case ledger =>
    rw [history_concat]
    exact .submit h.ledger
  case active => exact h.active
  case nonempty => exact h.nonempty
  case stopping => exact h.stopping
  case exited => exact h.exited
  case drained =>
    intro hall
    obtain ⟨w, hw, hne⟩ := hsome
    exact absurd (hall w hw) hne
  case joined => exact h.joined

theorem take (h : Invariant events s) {i job : ℕ} {queue : List ℕ}
    (hworker : s.workers_[i]? = some .waiting) (hqueue : s.queue_ = job :: queue) :
    Invariant (events ++ [Event.took i job])
      { s with
        queue_ := queue
        active_ := s.active_ + 1
        workers_ := s.workers_.set i (.running job) } := by
  refine h.move hworker (by simp) rfl rfl rfl rfl ?_ fun hexit => by cases hexit
  have hledger := h.ledger
  rw [hqueue] at hledger
  rw [history_concat, jobs_running hworker rfl]
  exact .take hledger

theorem finish (h : Invariant events s) {i job : ℕ} (outcome : R)
    (hworker : s.workers_[i]? = some (.running job)) :
    Invariant (events ++ [Event.executed i job outcome])
      { s with workers_ := s.workers_.set i .retiring } := by
  refine h.move hworker (by simp) rfl rfl rfl rfl ?_ fun hexit => by cases hexit
  have hledger := h.ledger
  rw [jobs_returned hworker (rfl : Worker.retiring.job = none)] at hledger
  rw [history_concat]
  exact .finish hledger

theorem step (h : Invariant events s) (hstep : Step s e s') : Invariant (events ++ [e]) s' := by
  cases hstep with
  | submit hallowed => exact h.submit hallowed
  | idle _ _ =>
    exact ⟨h.ledger_silent rfl, h.active, h.nonempty, h.stopping, h.exited, h.drained, h.joined⟩
  | stop hjoined =>
    constructor
    case ledger => exact h.ledger_silent rfl
    case active => exact h.active
    case nonempty => exact h.nonempty
    case stopping => rfl
    case exited => exact fun _ => rfl
    case drained => exact h.drained
    case joined =>
      intro n hn i hi
      cases hn
      exact absurd hi (Nat.not_lt_zero i)
  | @join n hjoined hworker =>
    constructor
    case ledger => exact h.ledger_silent rfl
    case active => exact h.active
    case nonempty => exact h.nonempty
    case stopping => exact h.stopping.trans (by rw [hjoined]; rfl)
    case exited => exact h.exited
    case drained => exact h.drained
    case joined =>
      intro n' hn' i hi
      cases hn'
      rcases Nat.lt_succ_iff_lt_or_eq.mp hi with hlt | rfl
      · exact h.joined n hjoined i hlt
      · exact hworker
  | take hworker hqueue => exact h.take hworker hqueue
  | exit hworker hqueue hstopping =>
    refine h.move hworker (by simp) rfl rfl rfl rfl ?_ fun _ => ⟨hstopping, hqueue⟩
    rw [jobs_eq hworker rfl rfl]
    exact h.ledger_silent rfl
  | finish outcome hworker => exact h.finish outcome hworker
  | @retire i hworker =>
    -- the worker itself is one of the busy ones
    have hactive : s.active_ - 1 + 1 = s.active_ := by
      have hbusy := busy_set hworker .waiting
      have hbefore := h.active
      have hone : busy (s.workers_.set i .waiting) + 1 = busy s.workers_ := hbusy
      omega
    refine h.move hworker (by simp) rfl rfl rfl hactive ?_ fun hexit => by cases hexit
    rw [jobs_eq hworker rfl rfl]
    exact h.ledger_silent rfl

end Invariant

theorem Runs.invariant (h : Runs threads turns s events) : Invariant events s :=
  Answers.tryRun_invariant (invariant_init threads)
    (fun _ _ _ _ _ hinvariant hstep => hinvariant.step (step_cases hstep)) h

namespace Invariant

/-- When the destructor has joined all workers, nothing is left to do. -/
theorem all_executed (h : Invariant events s) (hjoined : s.joined = some s.workers_.length) :
    (executed events).Perm (submitted events) := by
  have hexited : ∀ w ∈ s.workers_, w = .exited := by
    intro w hw
    obtain ⟨i, hi, rfl⟩ := List.mem_iff_getElem.mp hw
    have hworker := h.joined _ hjoined i hi
    rw [List.getElem?_eq_getElem hi] at hworker
    exact Option.some.inj hworker
  have hjobs : jobs s.workers_ = 0 := by
    unfold jobs
    rw [List.filterMap_eq_nil_iff.mpr fun w hw => by rw [hexited w hw]; rfl]
    rfl
  have hledger := h.ledger
  rw [h.drained hexited, hjobs] at hledger
  exact hledger.finished_perm

/-- The destructor never gets stuck: as long as it waits for a worker, some thread can go on. -/
theorem exists_turn (h : Invariant events s) (outcome : R) {n : ℕ} (hjoined : s.joined = some n)
    (hn : n < s.workers_.length) : ∃ turn : Turn R, (ThreadPool.step s turn).isSome := by
  have hworker := List.getElem?_eq_getElem hn
  have hstopping : s.stopping_ = true := by rw [h.stopping, hjoined]; rfl
  cases hphase : s.workers_[n] with
  | waiting =>
    refine ⟨.worker n, ?_⟩
    rw [hphase] at hworker
    simp only [ThreadPool.step, worker_loop, hworker, hstopping, true_or, if_true]
    cases s.queue_ <;> rfl
  | running job =>
    refine ⟨.finish n outcome, ?_⟩
    rw [hphase] at hworker
    simp only [ThreadPool.step, ThreadPool.finish, hworker]
    rfl
  | retiring =>
    refine ⟨.worker n, ?_⟩
    rw [hphase] at hworker
    simp only [ThreadPool.step, worker_loop, hworker]
    rfl
  | exited =>
    refine ⟨.destroy, ?_⟩
    rw [hphase] at hworker
    simp only [ThreadPool.step, destroy, hjoined, hworker]
    rfl

end Invariant

/-- Every job is executed once, and all of them before the pool is destroyed. -/
theorem every_task_once (h : Runs threads turns s events) :
    (started events).Nodup ∧ (executed events).Nodup ∧
    (∀ (turn : Turn R) s' i, step s turn = some (s', .exited i) →
      s.stopping_ = true ∧ s.queue_ = []) ∧
    (s.joined = some s.workers_.length → (executed events).Perm (submitted events)) ∧
    (∀ (turn : Turn R) s', step s turn = some (s', .idle) → s.queue_ = [] ∧ s.active_ = 0) ∧
    s.active_ = busy s.workers_ := by
  have hinvariant := h.invariant
  refine ⟨hinvariant.ledger.taken_nodup, hinvariant.ledger.finished_nodup, ?_,
    hinvariant.all_executed, ?_, hinvariant.active⟩
  · intro turn s' i hstep
    cases step_cases hstep with
    | exit _ hqueue hstopping => exact ⟨hstopping, hqueue⟩
  · intro turn s' hstep
    cases step_cases hstep with
    | idle hqueue hactive => exact ⟨hqueue, hactive⟩

/-- A job that is submitted by another job while the pool is being destroyed. -/
theorem every_task_once_nested : ∃ s : State,
    Runs 1 [.submit, .worker 0, .destroy, .nested 0, .finish 0 (), .worker 0, .worker 0,
        .finish 0 (), .worker 0, .worker 0, .destroy] s
      [.submitted 0, .took 0 0, .stopping, .submitted 1, .executed 0 0 (), .retired 0, .took 0 1,
        .executed 0 1 (), .retired 0, .exited 0, .joined 0] ∧
      s.joined = some s.workers_.length ∧
      (executed [.submitted 0, .took 0 0, .stopping, .submitted 1, .executed 0 0 (), .retired 0,
        .took 0 1, .executed 0 1 (), .retired 0, .exited 0, Event.joined 0]).Perm
      (submitted [.submitted 0, .took 0 0, .stopping, .submitted 1, .executed 0 0 (), .retired 0,
        .took 0 1, .executed 0 1 (), .retired 0, .exited 0, Event.joined 0]) := by
  have hrun : Runs 1 [.submit, .worker 0, .destroy, .nested 0, .finish 0 (), .worker 0,
      .worker 0, .finish 0 (), .worker 0, .worker 0, .destroy] ⟨[], [.exited], 0, true, 2, some 1⟩
      [.submitted 0, .took 0 0, .stopping, .submitted 1, .executed 0 0 (), .retired 0, .took 0 1,
        .executed 0 1 (), .retired 0, .exited 0, .joined 0] := rfl
  exact ⟨_, hrun, rfl, (every_task_once hrun).2.2.2.1 rfl⟩

end GeminiCpp.ThreadPool
