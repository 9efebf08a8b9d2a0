import GeminiCpp.Tasks.ThreadPool.Condition

/-! No thread of the pool sleeps through what it waits for, and none of them waits for ever. -/
namespace GeminiCpp.ThreadPool.Condition

variable {R : Type} {threads : ℕ} {turns : List (Turn R)} {s s' : State} {e : Option (Event R)}
  {events : List (Option (Event R))}

/-- The workers that wait without being blocked: they will look at the queue. -/
def awake (s : State) : Finset ℕ :=
  (Finset.range s.pool.workers_.length).filter fun i =>
    s.pool.workers_[i]? = some .waiting ∧ i ∉ s.asleep

theorem mem_awake {i : ℕ} :
    i ∈ awake s ↔ s.pool.workers_[i]? = some .waiting ∧ i ∉ s.asleep := by
  rw [awake, Finset.mem_filter, Finset.mem_range]
  constructor
  · exact And.right
  · intro h
    exact ⟨(List.getElem?_eq_some_iff.mp h.1).1, h⟩

structure Invariant (s : State) : Prop where
  asleep : ∀ i ∈ s.asleep, s.pool.workers_[i]? = some .waiting
  nesting : ∀ i ∈ s.nesting, ∃ job, s.pool.workers_[i]? = some (.running job)
  /-- While a worker is blocked, each job in the queue has a notification under way or a worker
  that will look at the queue. -/
  woken : s.asleep ≠ ∅ →
    s.pool.queue_.length ≤ s.submitting + s.nesting.card + (awake s).card
  /-- No worker stays blocked after the destructor has notified. -/
  stopping : s.asleep ≠ ∅ → s.pool.stopping_ = true → s.notifying = true
  /-- No thread is blocked in `wait_idle` while the pool is idle. -/
  busy : 0 < s.blocked → ¬ (s.pool.queue_ = [] ∧ s.pool.active_ = 0)
  outside : s.pool.joined ≠ none → s.submitting = 0 ∧ s.checking = 0 ∧ s.blocked = 0

theorem invariant_init (threads : ℕ) : Invariant (init threads) where
  asleep i hi := absurd hi (Finset.notMem_empty i)
  nesting i hi := absurd hi (Finset.notMem_empty i)
  woken h := absurd rfl h
  stopping h := absurd rfl h
  busy h := absurd h (Nat.lt_irrefl 0)
  outside h := absurd rfl h

/-- A worker that was not awake may go anywhere. -/
theorem card_awake_set {i : ℕ} {w : Worker} (hworker : s.pool.workers_[i]? = some w)
    (hw : w ≠ .waiting) (w' : Worker) (hworkers : s'.pool.workers_ = s.pool.workers_.set i w')
    (hasleep : s'.asleep = s.asleep) : (awake s).card ≤ (awake s').card := by
  apply Finset.card_le_card
  intro j hj
  obtain ⟨hwaiting, hj⟩ := mem_awake.mp hj
  have hne : i ≠ j := by
    rintro rfl
    rw [hworker] at hwaiting
    exact hw (Option.some.inj hwaiting)
  rw [mem_awake, hworkers, hasleep, List.getElem?_set_ne hne]
  exact ⟨hwaiting, hj⟩

/-- One worker less is awake. -/
theorem card_awake_taken {i : ℕ} {w w' : Worker} (hworker : s.pool.workers_[i]? = some w)
    (hw' : w' ≠ .waiting) (hworkers : s'.pool.workers_ = s.pool.workers_.set i w')
    (hasleep : s'.asleep = s.asleep) : (awake s).card ≤ (awake s').card + 1 := by
  have hnot : i ∉ awake s' := by
    intro hi
    have hwaiting := (mem_awake.mp hi).1
    rw [hworkers, List.getElem?_set_self (List.getElem?_eq_some_iff.mp hworker).1] at hwaiting
    exact hw' (Option.some.inj hwaiting)
  rw [← Finset.card_insert_of_notMem hnot]
  apply Finset.card_le_card
  intro j hj
  obtain ⟨hwaiting, hj⟩ := mem_awake.mp hj
  by_cases hne : i = j
  · exact Finset.mem_insert.mpr (Or.inl hne.symm)
  · apply Finset.mem_insert_of_mem
    rw [mem_awake, hworkers, hasleep, List.getElem?_set_ne hne]
    exact ⟨hwaiting, hj⟩

namespace Invariant

/-- One worker that is not blocked goes on to another place in its loop. -/
theorem asleep_set (h : Invariant s) {i : ℕ} (hawake : i ∉ s.asleep) (w : Worker) :
    ∀ j ∈ s.asleep, (s.pool.workers_.set i w)[j]? = some .waiting := by
  intro j hj
  have hne : i ≠ j := by
    rintro rfl
    exact hawake hj
  rw [List.getElem?_set_ne hne]
  exact h.asleep j hj

theorem nesting_set (h : Invariant s) {i : ℕ} (hdone : i ∉ s.nesting) (w : Worker) :
    ∀ j ∈ s.nesting, ∃ job, (s.pool.workers_.set i w)[j]? = some (.running job) := by
  intro j hj
  have hne : i ≠ j := by
    rintro rfl
    exact hdone hj
  rw [List.getElem?_set_ne hne]
  exact h.nesting j hj

/-- A worker that runs no job is not at a nested `submit`. -/
theorem notMem_nesting (h : Invariant s) {i : ℕ} {w : Worker}
    (hworker : s.pool.workers_[i]? = some w) (hw : ∀ job, w ≠ .running job) : i ∉ s.nesting := by
  intro hi
  obtain ⟨job, hrunning⟩ := h.nesting i hi
  rw [hworker] at hrunning
  exact hw job (Option.some.inj hrunning)

/-- A worker that does anything but wait is not blocked. -/
theorem notMem_asleep (h : Invariant s) {i : ℕ} {w : Worker}
    (hworker : s.pool.workers_[i]? = some w) (hw : w ≠ .waiting) : i ∉ s.asleep := by
  intro hi
  have hwaiting := h.asleep i hi
  rw [hworker] at hwaiting
  exact hw (Option.some.inj hwaiting)

/-- A worker that wakes up looks at the queue. -/
theorem card_awake_erase (h : Invariant s) {i : ℕ} (hi : i ∈ s.asleep)
    (hpool : s'.pool = s.pool) (hasleep : s'.asleep = s.asleep.erase i) :
    (awake s).card + 1 ≤ (awake s').card := by
  have hnot : i ∉ awake s := fun hmem => (mem_awake.mp hmem).2 hi
  rw [← Finset.card_insert_of_notMem hnot]
  apply Finset.card_le_card
  intro j hj
  rw [mem_awake, hpool, hasleep]
  rcases Finset.mem_insert.mp hj with rfl | hj
  · exact ⟨h.asleep j hi, Finset.notMem_erase j s.asleep⟩
  · obtain ⟨hwaiting, hawake⟩ := mem_awake.mp hj
    exact ⟨hwaiting, fun hmem => hawake (Finset.mem_of_mem_erase hmem)⟩

/-- A notification that is due wakes a worker for the job it stands for. -/
theorem notified (h : Invariant s) (hnotified : Notified s.asleep s'.asleep)
    (hpool : s'.pool = s.pool) (hne : s'.asleep ≠ ∅) :
    s.pool.queue_.length + 1 ≤ s.submitting + s.nesting.card + (awake s').card := by
  obtain ⟨i, hi, herase⟩ : ∃ i ∈ s.asleep, s'.asleep = s.asleep.erase i := by
    generalize s'.asleep = asleep at hnotified hne
    cases hnotified with
    | one hi => exact ⟨_, hi, rfl⟩
    | none hnone => exact absurd rfl hne
  have hwoken := h.woken (Finset.ne_empty_of_mem hi)
  have hcard := h.card_awake_erase hi hpool herase
  omega

theorem subset_of_notified {asleep asleep' : Finset ℕ} (h : Notified asleep asleep') :
    asleep' ⊆ asleep := by
  cases h with
  | one hi => exact Finset.erase_subset _ _
  | none hnone => exact Finset.empty_subset _

/-- Fewer blocked workers keep what does not count notifications. -/
theorem ne_empty_of_subset {asleep asleep' : Finset ℕ} (h : asleep' ⊆ asleep)
    (hne : asleep' ≠ ∅) : asleep ≠ ∅ := by
  rintro rfl
  exact hne (Finset.subset_empty.mp h)

/-- Fewer blocked workers, and as many fewer notifications under way. -/
theorem of_notified (h : Invariant s) (hnotified : Notified s.asleep s'.asleep)
    (hpool : s'.pool = s.pool) (hnesting : s'.nesting ⊆ s.nesting)
    (hdue : s.submitting + s.nesting.card ≤ s'.submitting + s'.nesting.card + 1)
    (hsubmitting : s'.submitting ≤ s.submitting) (hnotifying : s'.notifying = s.notifying)
    (hchecking : s'.checking = s.checking) (hblocked : s'.blocked = s.blocked) : Invariant s' := by
  have hsubset := subset_of_notified hnotified
  constructor
  case asleep =>
    rw [hpool]
    exact fun i hi => h.asleep i (hsubset hi)
  case nesting =>
    rw [hpool]
    exact fun i hi => h.nesting i (hnesting hi)
  case woken =>
    intro hne
    have hwoken := h.notified hnotified hpool hne
    rw [hpool]
    omega
  case stopping =>
    rw [hpool, hnotifying]
    exact fun hne => h.stopping (ne_empty_of_subset hsubset hne)
  case busy =>
    rw [hpool, hblocked]
    exact h.busy
  case outside =>
    rw [hpool, hchecking, hblocked]
    intro hjoined
    obtain ⟨hnone, hothers⟩ := h.outside hjoined
    exact ⟨by omega, hothers⟩

/-- A worker that has retired will look at the queue. -/
theorem of_retired (h : Invariant s) {i : ℕ} (hawake : i ∉ s.asleep)
    (hworker : s.pool.workers_[i]? = some .retiring)
    (hpool : s'.pool = { s.pool with
      active_ := s.pool.active_ - 1
      workers_ := s.pool.workers_.set i .waiting })
    (hasleep : s'.asleep = s.asleep) (hnesting : s'.nesting = s.nesting)
    (hsubmitting : s'.submitting = s.submitting) (hnotifying : s'.notifying = s.notifying)
    (hbusy : 0 < s'.blocked → ¬ (s'.pool.queue_ = [] ∧ s'.pool.active_ = 0))
    (houtside : s.pool.joined ≠ none → s'.checking = 0 ∧ s'.blocked = 0) : Invariant s' := by
  constructor
  case asleep =>
    rw [hpool, hasleep]
    exact h.asleep_set hawake .waiting
  case nesting =>
    rw [hpool, hnesting]
    exact h.nesting_set (h.notMem_nesting hworker (by simp)) .waiting
  case woken =>
    rw [hasleep]
    intro hne
    have hwoken := h.woken hne
    have hcard : (awake s).card ≤ (awake s').card :=
      card_awake_set hworker (by simp) .waiting (by rw [hpool]) hasleep
    rw [hpool, hnesting, hsubmitting]
    exact hwoken.trans (Nat.add_le_add_left hcard _)
  case stopping =>
    rw [hpool, hasleep, hnotifying]
    exact h.stopping
  case busy => exact hbusy
  case outside =>
    rw [hpool, hsubmitting]
    exact fun hjoined => ⟨(h.outside hjoined).1, houtside hjoined⟩

theorem step (h : Invariant s) (hstep : Step s e s') : Invariant s' := by
  cases hstep with
  | submit hjoined =>
    constructor
    case asleep => exact h.asleep
    case nesting => exact h.nesting
    case woken =>
      intro hne
      have hwoken := h.woken hne
      have hlength : (s.pool.queue_ ++ [s.pool.submitted]).length = s.pool.queue_.length + 1 :=
        List.length_append
      change (s.pool.queue_ ++ [s.pool.submitted]).length ≤
        s.submitting + 1 + s.nesting.card + (awake s).card
      omega
    case stopping => exact h.stopping
    case busy => exact fun _ hidle => List.append_ne_nil_of_right_ne_nil _ (by simp) hidle.1
    case outside => exact fun hne => absurd hjoined hne
  | @nested i job hnew hworker =>
    constructor
    case asleep => exact h.asleep
    case nesting =>
      intro j hj
      rcases Finset.mem_insert.mp hj with rfl | hj
      · exact ⟨job, hworker⟩
      · exact h.nesting j hj
    case woken =>
      intro hne
      have hwoken := h.woken hne
      have hlength : (s.pool.queue_ ++ [s.pool.submitted]).length = s.pool.queue_.length + 1 :=
        List.length_append
      have hcard := Finset.card_insert_of_notMem hnew
      change (s.pool.queue_ ++ [s.pool.submitted]).length ≤
        s.submitting + (insert i s.nesting).card + (awake s).card
      omega
    case stopping => exact h.stopping
    case busy => exact fun _ hidle => List.append_ne_nil_of_right_ne_nil _ (by simp) hidle.1
    case outside => exact h.outside
  | notify_one hpos hnotified =>
    refine h.of_notified hnotified rfl (Finset.Subset.refl _) ?_ (Nat.sub_le ..) rfl rfl rfl
    dsimp only
    omega
  | @notify_nested i asleep hmem hnotified =>
    have hcard := Finset.card_erase_add_one hmem
    refine h.of_notified hnotified rfl (Finset.erase_subset ..) ?_ (Nat.le_refl _) rfl rfl rfl
    dsimp only
    omega
  | stop hjoined hsubmitting hchecking hblocked =>
    constructor
    case asleep => exact h.asleep
    case nesting => exact h.nesting
    case woken => exact h.woken
    case stopping => exact fun _ _ => rfl
    case busy => exact h.busy
    case outside => exact fun _ => ⟨hsubmitting, hchecking, hblocked⟩
  | join hjoined hnotified hworker =>
    have hsome : s.pool.joined ≠ none := by
      rw [hjoined]
      exact Option.some_ne_none _
    exact ⟨h.asleep, h.nesting, h.woken, h.stopping, h.busy, fun _ => h.outside hsome⟩
  | notify_all hnotifying =>
    constructor
    case asleep => exact fun i hi => absurd hi (Finset.notMem_empty i)
    case nesting => exact h.nesting
    case woken => exact fun hne => absurd rfl hne
    case stopping => exact fun hne => absurd rfl hne
    case busy => exact h.busy
    case outside => exact h.outside
  | @sleep i hworker hstopping hqueue =>
    constructor
    case asleep =>
      intro j hj
      rcases Finset.mem_insert.mp hj with rfl | hj
      · exact hworker
      · exact h.asleep j hj
    case nesting => exact h.nesting
    case woken =>
      dsimp only
      rw [hqueue]
      exact fun _ => Nat.zero_le _
    case stopping =>
      dsimp only
      rw [hstopping]
      exact fun _ htrue => nomatch htrue
    case busy => exact h.busy
    case outside => exact h.outside
  | @take i job queue hawake hworker hqueue =>
    constructor
    case asleep => exact h.asleep_set hawake _
    case nesting => exact h.nesting_set (h.notMem_nesting hworker (by simp)) _
    case woken =>
      intro hne
      have hwoken := h.woken hne
      rw [hqueue, List.length_cons] at hwoken
      have hcard : (awake s).card ≤ (awake { s with pool := { s.pool with
          queue_ := queue
          active_ := s.pool.active_ + 1
          workers_ := s.pool.workers_.set i (.running job) } }).card + 1 :=
        card_awake_taken hworker (by simp) rfl rfl
      dsimp only at hcard ⊢
      omega
    case stopping => exact h.stopping
    case busy => exact fun _ hidle => Nat.succ_ne_zero _ hidle.2
    case outside => exact h.outside
  | @exit i hawake hworker hqueue hstopping =>
    constructor
    case asleep => exact h.asleep_set hawake _
    case nesting => exact h.nesting_set (h.notMem_nesting hworker (by simp)) _
    case woken =>
      dsimp only
      rw [hqueue]
      exact fun _ => Nat.zero_le _
    case stopping => exact h.stopping
    case busy => exact h.busy
    case outside => exact h.outside
  | retire hawake hworker =>
    unfold notifyIdle
    split_ifs with hidle
    · refine h.of_retired hawake hworker rfl rfl rfl rfl rfl (fun hpos => ?_) fun hjoined => ?_
      · exact absurd hpos (Nat.lt_irrefl 0)
      · obtain ⟨-, hchecking, hblocked⟩ := h.outside hjoined
        dsimp only
        exact ⟨by omega, rfl⟩
    · exact h.of_retired hawake hworker rfl rfl rfl rfl rfl (fun _ => hidle)
        fun hjoined => (h.outside hjoined).2
  | @finish i job outcome hdone hworker =>
    have hawake := h.notMem_asleep hworker (by simp)
    constructor
    case asleep => exact h.asleep_set hawake _
    case nesting => exact h.nesting_set hdone _
    case woken =>
      intro hne
      have hwoken := h.woken hne
      have hcard : (awake s).card ≤ (awake { s with pool := { s.pool with
          workers_ := s.pool.workers_.set i .retiring } }).card :=
        card_awake_set hworker (by simp) .retiring rfl rfl
      exact hwoken.trans (Nat.add_le_add_left hcard _)
    case stopping => exact h.stopping
    case busy => exact h.busy
    case outside => exact h.outside
  | wait_idle hjoined =>
    exact ⟨h.asleep, h.nesting, h.woken, h.stopping, h.busy, fun hne => absurd hjoined hne⟩
  | idle _ hjoined _ _ =>
    exact ⟨h.asleep, h.nesting, h.woken, h.stopping, h.busy, fun hne => absurd hjoined hne⟩
  | block hpos hbusy =>
    have hjoined : s.pool.joined = none := by
      by_contra hne
      have hchecking := (h.outside hne).2.1
      omega
    exact ⟨h.asleep, h.nesting, h.woken, h.stopping, fun _ => hbusy hjoined,
      fun hne => absurd hjoined hne⟩
  | @wake i hi =>
    constructor
    case asleep => exact fun j hj => h.asleep j (Finset.mem_of_mem_erase hj)
    case nesting => exact h.nesting
    case woken =>
      intro _
      have hwoken := h.woken (Finset.ne_empty_of_mem hi)
      have hcard : (awake s).card + 1 ≤ (awake { s with asleep := s.asleep.erase i }).card :=
        h.card_awake_erase hi rfl rfl
      dsimp only at hcard ⊢
      omega
    case stopping => exact fun _ => h.stopping (Finset.ne_empty_of_mem hi)
    case busy => exact h.busy
    case outside => exact h.outside
  | wake_idle hpos =>
    refine ⟨h.asleep, h.nesting, h.woken, h.stopping, fun _ => h.busy hpos, fun hne => ?_⟩
    have hblocked := (h.outside hne).2.2
    omega

end Invariant

theorem Runs.invariant (h : Runs threads turns s events) : Invariant s :=
  Answers.tryRun_invariant (P := fun _ s => Invariant s) (invariant_init threads)
    (fun _ _ _ _ _ hinvariant hstep => hinvariant.step (step_cases hstep)) h

/-! No thread waits for ever. -/

/-- There is something left to do: a job, a call, or a worker to join. -/
def Unfinished (s : State) : Prop :=
  s.pool.queue_ ≠ [] ∨ s.pool.active_ ≠ 0 ∨ 0 < s.submitting ∨ s.nesting ≠ ∅ ∨ 0 < s.checking ∨
    0 < s.blocked ∨ ∃ n, s.pool.joined = some n ∧ n < s.pool.workers_.length

/-- No thread can go on by itself. -/
structure Stuck (s : State) : Prop where
  submitting : s.submitting = 0
  nesting : s.nesting = ∅
  notifying : s.notifying = false
  checking : s.checking = 0
  workers : ∀ i w, s.pool.workers_[i]? = some w → w = .exited ∨ w = .waiting ∧ i ∈ s.asleep
  joining : ∀ n, s.pool.joined = some n → s.pool.workers_[n]? ≠ some .exited

theorem exists_notifyOne (asleep : Finset ℕ) : ∃ wakes, (notifyOne wakes asleep).isSome := by
  by_cases hnone : asleep = ∅
  · exact ⟨none, by simp [notifyOne, hnone]⟩
  · obtain ⟨i, hi⟩ := Finset.nonempty_iff_ne_empty.mpr hnone
    exact ⟨some i, by simp [notifyOne, hi]⟩

/-- A worker that is not blocked and has not left its loop can go on. -/
theorem worker_isSome (h : Invariant s) {i : ℕ} {w : Worker}
    (hworker : s.pool.workers_[i]? = some w) (hw : w = .waiting ∧ i ∉ s.asleep ∨ w = .retiring) :
    (worker (R := R) i s).isSome := by
  rcases hw with ⟨rfl, hawake⟩ | rfl
  · unfold worker
    rw [if_neg hawake]
    split_ifs with hsleep
    · rfl
    · have hready : s.pool.stopping_ = true ∨ s.pool.queue_ ≠ [] := by
        by_contra hnot
        rw [not_or, not_not] at hnot
        exact hsleep ⟨hworker, by simpa using hnot.1, hnot.2⟩
      rw [Option.isSome_map, ThreadPool.step, worker_loop, hworker]
      simp only [if_pos hready]
      cases s.pool.queue_ <;> rfl
  · have hawake := h.notMem_asleep hworker (by simp)
    unfold worker
    rw [if_neg hawake, if_neg (by rw [hworker]; simp), Option.isSome_map, ThreadPool.step,
      worker_loop, hworker]
    rfl

/-- If no thread can go on by itself, it is stuck. -/
theorem Invariant.stuck (h : Invariant s) (outcome : R)
    (hnone : ∀ turn : Turn R, turn.internal s = true → ¬ (Condition.step s turn).isSome) :
    Stuck s := by
  have hnesting : s.nesting = ∅ := by
    by_contra hne
    obtain ⟨i, hi⟩ := Finset.nonempty_iff_ne_empty.mpr hne
    obtain ⟨wakes, hwakes⟩ := exists_notifyOne s.asleep
    apply hnone (.notify_nested i wakes) rfl
    rwa [Condition.step, notify_nested, if_pos hi, Option.isSome_map]
  have hnotifying : s.notifying = false := by
    by_contra htrue
    apply hnone .notify_all rfl
    rw [Condition.step, notify_all, if_pos (by simpa using htrue)]
    rfl
  constructor
  case submitting =>
    by_contra hne
    obtain ⟨wakes, hwakes⟩ := exists_notifyOne s.asleep
    apply hnone (.notify_one wakes) rfl
    rwa [Condition.step, notify_one, if_pos (Nat.pos_of_ne_zero hne), Option.isSome_map]
  case nesting => exact hnesting
  case notifying => exact hnotifying
  case checking =>
    by_contra hne
    apply hnone .check_idle rfl
    rw [Condition.step, check_idle, if_pos (Nat.pos_of_ne_zero hne)]
    cases ThreadPool.step s.pool (.wait_idle : ThreadPool.Turn R) <;> rfl
  case workers =>
    intro i w hworker
    cases w with
    | waiting =>
      by_contra hnot
      rw [not_or] at hnot
      have hawake : i ∉ s.asleep := fun hi => hnot.2 ⟨rfl, hi⟩
      exact hnone (.worker i) rfl (worker_isSome h hworker (Or.inl ⟨rfl, hawake⟩))
    | running job =>
      have hdone : i ∉ s.nesting := by
        rw [hnesting]
        exact Finset.notMem_empty i
      refine absurd ?_ (hnone (.finish i outcome) rfl)
      rw [Condition.step, finish, if_neg hdone, Option.isSome_map, ThreadPool.step,
        ThreadPool.finish, hworker]
      rfl
    | retiring =>
      exact absurd (worker_isSome h hworker (Or.inr rfl)) (hnone (.worker i) rfl)
    | exited => exact Or.inl rfl
  case joining =>
    intro n hjoined hworker
    have hcalled : (Turn.destroy : Turn R).internal s = true := by
      rw [Turn.internal, hjoined, Option.isSome_some]
    apply hnone .destroy hcalled
    rw [Condition.step, destroy, if_neg (by rw [hjoined]; simp), if_neg (by rw [hnotifying]; simp),
      Option.isSome_map, ThreadPool.step, ThreadPool.destroy, hjoined]
    simp only [hworker]
    rfl

/-- A pool that is stuck has nothing left to do. -/
theorem Stuck.not_unfinished (h : Invariant s) {events₀ : List (Event R)}
    (hpool : ThreadPool.Invariant events₀ s.pool) (hstuck : Stuck s) : ¬ Unfinished s := by
  have hactive : s.pool.active_ = 0 := by
    rw [hpool.active]
    apply List.countP_eq_zero.mpr
    intro w hw
    obtain ⟨i, hi⟩ := List.mem_iff_getElem?.mp hw
    rcases hstuck.workers i w hi with rfl | ⟨rfl, -⟩ <;> exact Bool.false_ne_true
  have hqueue : s.pool.queue_ = [] := by
    by_cases hexited : ∀ w ∈ s.pool.workers_, w = .exited
    · exact hpool.drained hexited
    · push Not at hexited
      obtain ⟨w, hw, hne⟩ := hexited
      obtain ⟨i, hi⟩ := List.mem_iff_getElem?.mp hw
      have hasleep : i ∈ s.asleep := ((hstuck.workers i w hi).resolve_left hne).2
      have hwoken := h.woken (Finset.ne_empty_of_mem hasleep)
      have hawake : awake s = ∅ := by
        apply Finset.eq_empty_of_forall_notMem
        intro j hj
        obtain ⟨hwaiting, hj⟩ := mem_awake.mp hj
        rcases hstuck.workers j .waiting hwaiting with hexit | ⟨-, hmem⟩
        · cases hexit
        · exact hj hmem
      rw [hstuck.submitting, hstuck.nesting, hawake, Finset.card_empty] at hwoken
      exact List.length_eq_zero_iff.mp (Nat.le_zero.mp hwoken)
  rintro (hne | hne | hpos | hne | hpos | hpos | ⟨n, hjoined, hn⟩)
  · exact hne hqueue
  · exact hne hactive
  · exact absurd hstuck.submitting hpos.ne'
  · exact hne hstuck.nesting
  · exact absurd hstuck.checking hpos.ne'
  · exact h.busy hpos ⟨hqueue, hactive⟩
  · have hworker := List.getElem?_eq_getElem hn
    rcases hstuck.workers n _ hworker with hexit | ⟨-, hasleep⟩
    · exact hstuck.joining n hjoined (hworker.trans (congrArg some hexit))
    · have hstopping : s.pool.stopping_ = true := by
        rw [hpool.stopping, hjoined]
        rfl
      have hnotifying := h.stopping (Finset.ne_empty_of_mem hasleep) hstopping
      rw [hstuck.notifying] at hnotifying
      cases hnotifying

/-- No wake-up is lost. As long as there is something left to do, some thread can go on that needs
neither a call from outside nor a wake-up out of nowhere; and nobody sleeps through what it waits
for. -/
theorem no_lost_wakeup (h : Runs threads turns s events) (outcome : R) :
    (Unfinished s → ∃ turn : Turn R, turn.internal s = true ∧ (step s turn).isSome) ∧
    (s.asleep ≠ ∅ → s.pool.queue_.length ≤ s.submitting + s.nesting.card + (awake s).card) ∧
    (s.asleep ≠ ∅ → s.pool.stopping_ = true → s.notifying = true) ∧
    (0 < s.blocked → ¬ (s.pool.queue_ = [] ∧ s.pool.active_ = 0)) := by
  have hinvariant := h.invariant
  obtain ⟨turns', hrun⟩ := h.pool
  refine ⟨fun hunfinished => ?_, hinvariant.woken, hinvariant.stopping, hinvariant.busy⟩
  by_contra hnone
  push Not at hnone
  have hstuck := hinvariant.stuck outcome fun turn hinternal => by
    simpa using hnone turn hinternal
  exact hstuck.not_unfinished hinvariant hrun.invariant hunfinished

/-- A job is submitted while the only worker is blocked. -/
theorem no_lost_wakeup_asleep : ∃ s : State,
    Runs 1 [.worker 0, .submit] s [none, some (.submitted 0 : Event Unit)] ∧ s.asleep ≠ ∅ ∧
    (Unfinished s → ∃ turn : Turn Unit, turn.internal s = true ∧ (step s turn).isSome) ∧
    (s.asleep ≠ ∅ → s.pool.queue_.length ≤ s.submitting + s.nesting.card + (awake s).card) ∧
    (s.asleep ≠ ∅ → s.pool.stopping_ = true → s.notifying = true) ∧
    (0 < s.blocked → ¬ (s.pool.queue_ = [] ∧ s.pool.active_ = 0)) := by
  have hrun : Runs 1 [.worker 0, .submit] ⟨⟨[0], [.waiting], 0, false, 1, none⟩, {0}, 1, ∅, false,
      0, 0⟩ [none, some (.submitted 0 : Event Unit)] := rfl
  exact ⟨_, hrun, Finset.singleton_ne_empty 0, no_lost_wakeup hrun ()⟩

end GeminiCpp.ThreadPool.Condition
