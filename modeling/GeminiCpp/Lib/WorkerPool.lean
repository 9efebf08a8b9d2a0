import Mathlib.Data.List.Basic
import Mathlib.Logic.Relation

/-! Workers that take the indices of some jobs from a shared counter, store each result in a
shared list, and show it to a callback under a mutex. They take their steps in any order. -/
namespace WorkerPool

inductive Phase
  | fetching
  /-- The worker runs a job. -/
  | running (i : ℕ)
  /-- The result is stored, and the worker waits for the mutex. -/
  | waiting (i : ℕ)
  /-- The worker holds the mutex and runs the callback. -/
  | calling (i : ℕ)
  | done
deriving DecidableEq

def Phase.isCalling : Phase → Bool
  | .calling _ => true
  | _ => false

structure State (ρ : Type) where
  next : ℕ
  results : List ρ
  locked : Bool
  workers : List Phase
  /-- The jobs that were run, with what they produced. -/
  ran : List (ℕ × ρ)
  /-- The calls of the callback, with the results it was shown. -/
  called : List (ℕ × ρ)

variable {ρ : Type}

/-- A pool before its first step. -/
def State.init (n workers : ℕ) (blank : ρ) : State ρ :=
  { next := 0, results := List.replicate n blank, locked := false
    workers := List.replicate workers .fetching, ran := [], called := [] }

variable (n : ℕ) (produces : ℕ → ρ → Prop) (callback : Bool)

/-- One step of one worker, for `n` jobs. -/
inductive Step : State ρ → State ρ → Prop
  | take {s : State ρ} {before after : List Phase}
    (hworker : s.workers = before ++ .fetching :: after) (hnext : s.next < n) :
    Step s { s with next := s.next + 1, workers := before ++ .running s.next :: after }
  | stop {s : State ρ} {before after : List Phase}
    (hworker : s.workers = before ++ .fetching :: after) (hnext : n ≤ s.next) :
    Step s { s with next := s.next + 1, workers := before ++ .done :: after }
  | write {s : State ρ} {before after : List Phase} {i : ℕ} {r : ρ}
    (hworker : s.workers = before ++ .running i :: after) (hproduces : produces i r) :
    Step s
      { s with
        results := s.results.set i r
        ran := s.ran ++ [(i, r)]
        workers := before ++ (if callback then .waiting i else .fetching) :: after }
  | lock {s : State ρ} {before after : List Phase} {i : ℕ} {r : ρ}
    (hworker : s.workers = before ++ .waiting i :: after) (hfree : s.locked = false)
    (hresult : s.results[i]? = some r) :
    Step s
      { s with
        locked := true
        called := s.called ++ [(i, r)]
        workers := before ++ .calling i :: after }
  | unlock {s : State ρ} {before after : List Phase} {i : ℕ}
    (hworker : s.workers = before ++ .calling i :: after) :
    Step s { s with locked := false, workers := before ++ .fetching :: after }

/-- The states that `workers` workers can reach. -/
def Reachable (workers : ℕ) (blank : ρ) (s : State ρ) : Prop :=
  Relation.ReflTransGen (Step n produces callback) (State.init n workers blank) s

structure Invariant (s : State ρ) : Prop where
  length : s.results.length = n
  /-- An index that was taken is being run, or was run once. -/
  taken : ∀ i, s.workers.count (.running i) + (s.ran.map Prod.fst).count i =
    if i < s.next ∧ i < n then 1 else 0
  reported : ∀ i, s.workers.count (.waiting i) + (s.called.map Prod.fst).count i =
    if callback then (s.ran.map Prod.fst).count i else 0
  stored : ∀ i r, (i, r) ∈ s.ran → s.results[i]? = some r ∧ produces i r
  shown : ∀ p ∈ s.called, p ∈ s.ran
  mutex : s.workers.countP Phase.isCalling = if s.locked then 1 else 0
  drained : .done ∈ s.workers → n ≤ s.next

variable {n produces callback}

theorem invariant_init (workers : ℕ) (blank : ρ) :
    Invariant n produces callback (State.init n workers blank) := by
  constructor
  case length => exact List.length_replicate
  case taken => simp [State.init, List.count_replicate]
  case reported => simp [State.init, List.count_replicate]
  case stored =>
    intro i r hr
    exact absurd hr List.not_mem_nil
  case shown =>
    intro r hr
    exact absurd hr List.not_mem_nil
  case mutex => simp [State.init, List.countP_replicate, Phase.isCalling]
  case drained =>
    intro h
    cases (List.mem_replicate.mp h).2

/-- What a worker that goes from phase `p` to `p'` does to the number of workers in a phase. -/
theorem count_swap {workers before after : List Phase} {p : Phase}
    (hworker : workers = before ++ p :: after) (p' q : Phase) :
    (before ++ p' :: after).count q + (if p = q then 1 else 0) =
      workers.count q + (if p' = q then 1 else 0) := by
  rw [hworker]
  simp only [List.count_append, List.count_cons, beq_iff_eq]
  omega

theorem count_swap_ne {workers before after : List Phase} {p : Phase}
    (hworker : workers = before ++ p :: after) (p' q : Phase) (hp : p ≠ q) (hp' : p' ≠ q) :
    (before ++ p' :: after).count q = workers.count q := by
  have hcount := count_swap hworker p' q
  rwa [if_neg hp, if_neg hp', Nat.add_zero, Nat.add_zero] at hcount

/-- The same for the workers that hold the mutex. -/
theorem calling_swap {workers before after : List Phase} {p : Phase}
    (hworker : workers = before ++ p :: after) (p' : Phase) :
    (before ++ p' :: after).countP Phase.isCalling + (if p.isCalling then 1 else 0) =
      workers.countP Phase.isCalling + (if p'.isCalling then 1 else 0) := by
  rw [hworker]
  simp only [List.countP_append, List.countP_cons]
  omega

theorem calling_swap_of_not {workers before after : List Phase} {p p' : Phase}
    (hworker : workers = before ++ p :: after) (hp : p.isCalling = false)
    (hp' : p'.isCalling = false) :
    (before ++ p' :: after).countP Phase.isCalling = workers.countP Phase.isCalling := by
  have hcount := calling_swap hworker p'
  simp only [hp, hp', Bool.false_eq_true, if_false, Nat.add_zero] at hcount
  exact hcount

/-- A worker that does not stop stops none of the others. -/
theorem done_of_swap {workers before after : List Phase} {p : Phase} (p' : Phase)
    (hworker : workers = before ++ p :: after) (hp' : p' ≠ .done)
    (h : .done ∈ before ++ p' :: after) : .done ∈ workers := by
  rw [hworker]
  rcases List.mem_append.mp h with h | h
  · exact List.mem_append_left _ h
  · rcases List.mem_cons.mp h with h | h
    · exact absurd h.symm hp'
    · exact List.mem_append_right _ (List.mem_cons_of_mem _ h)

namespace Invariant
variable {s : State ρ} {before after : List Phase} {i : ℕ} {r : ρ}

theorem take (hs : Invariant n produces callback s)
    (hworker : s.workers = before ++ .fetching :: after) (hnext : s.next < n) :
    Invariant n produces callback
      { s with next := s.next + 1, workers := before ++ .running s.next :: after } := by
  constructor
  case length => exact hs.length
  case taken =>
    intro i
    have htaken := hs.taken i
    by_cases hi : s.next = i
    · have hrunning := count_swap hworker (.running s.next) (.running i)
      have hnone : ¬ (i < s.next ∧ i < n) := by omega
      have hnow : i < s.next + 1 ∧ i < n := by omega
      simp only [reduceCtorEq, if_false, hi, if_true] at hrunning
      rw [if_neg hnone] at htaken
      dsimp only
      rw [if_pos hnow, hi]
      omega
    · have hlt : i < s.next + 1 ∧ i < n ↔ i < s.next ∧ i < n := by omega
      have hne : Phase.running s.next ≠ .running i := fun h => hi (Phase.running.inj h)
      dsimp only
      rw [count_swap_ne hworker (.running s.next) (.running i) (by simp) hne, htaken]
      simp only [hlt]
  case reported =>
    intro i
    dsimp only
    rw [count_swap_ne hworker (.running s.next) (.waiting i) (by simp) (by simp)]
    exact hs.reported i
  case stored => exact hs.stored
  case shown => exact hs.shown
  case mutex => exact (calling_swap_of_not hworker rfl rfl).trans hs.mutex
  case drained =>
    intro h
    have hle := hs.drained (done_of_swap (.running s.next) hworker (by simp) h)
    omega

theorem stop (hs : Invariant n produces callback s)
    (hworker : s.workers = before ++ .fetching :: after) (hnext : n ≤ s.next) :
    Invariant n produces callback
      { s with next := s.next + 1, workers := before ++ .done :: after } := by
  constructor
  case length => exact hs.length
  case taken =>
    intro i
    have hlt : i < s.next + 1 ∧ i < n ↔ i < s.next ∧ i < n := by omega
    dsimp only
    rw [count_swap_ne hworker .done (.running i) (by simp) (by simp), hs.taken i]
    simp only [hlt]
  case reported =>
    intro i
    dsimp only
    rw [count_swap_ne hworker .done (.waiting i) (by simp) (by simp)]
    exact hs.reported i
  case stored => exact hs.stored
  case shown => exact hs.shown
  case mutex => exact (calling_swap_of_not hworker rfl rfl).trans hs.mutex
  case drained => exact fun _ => Nat.le_succ_of_le hnext

theorem count_ran_append (ran : List (ℕ × ρ)) (i j : ℕ) (r : ρ) :
    ((ran ++ [(i, r)]).map Prod.fst).count j =
      (ran.map Prod.fst).count j + if i = j then 1 else 0 := by
  simp only [List.map_append, List.map_cons, List.map_nil, List.count_append, List.count_cons,
    List.count_nil, beq_iff_eq, Nat.zero_add]

/-- A job that is being run has not been run, and is one of the jobs. -/
theorem of_running (hs : Invariant n produces callback s)
    (hworker : s.workers = before ++ .running i :: after) :
    i < n ∧ ∀ r, (i, r) ∉ s.ran := by
  have htaken := hs.taken i
  have hpos : 0 < s.workers.count (.running i) := by
    rw [List.count_pos_iff, hworker]
    exact List.mem_append_right _ (List.mem_cons_self ..)
  constructor
  · by_contra hi
    rw [if_neg fun h => hi h.2] at htaken
    omega
  · intro r hr
    have hran : 0 < (s.ran.map Prod.fst).count i :=
      List.count_pos_iff.mpr (List.mem_map.mpr ⟨(i, r), hr, rfl⟩)
    split_ifs at htaken <;> omega

theorem write (hs : Invariant n produces callback s)
    (hworker : s.workers = before ++ .running i :: after) (hproduces : produces i r) :
    Invariant n produces callback
      { s with
        results := s.results.set i r
        ran := s.ran ++ [(i, r)]
        workers := before ++ (if callback then .waiting i else .fetching) :: after } := by
  obtain ⟨hi, hnone⟩ := hs.of_running hworker
  have hcount := count_swap hworker (if callback then .waiting i else .fetching)
  constructor
  case length => rw [List.length_set, hs.length]
  case taken =>
    intro j
    have htaken := hs.taken j
    have hrunning := hcount (.running j)
    have hphase : (if callback then Phase.waiting i else .fetching) ≠ .running j := by
      cases callback <;> simp
    dsimp only
    rw [count_ran_append]
    simp only [hphase, if_false, Phase.running.injEq] at hrunning
    omega
  case reported =>
    intro j
    have hreported := hs.reported j
    have hwaiting := hcount (.waiting j)
    dsimp only
    rw [count_ran_append]
    cases callback with
    | false =>
      simp only [Bool.false_eq_true, if_false, reduceCtorEq] at *
      omega
    | true =>
      simp only [if_true, reduceCtorEq, if_false, Phase.waiting.injEq] at *
      omega
  case stored =>
    intro j r' hmem
    rcases List.mem_append.mp hmem with hmem | hmem
    · obtain ⟨hresult, hproduced⟩ := hs.stored j r' hmem
      have hne : i ≠ j := by
        rintro rfl
        exact hnone r' hmem
      rw [List.getElem?_set_ne hne]
      exact ⟨hresult, hproduced⟩
    · obtain ⟨rfl, rfl⟩ := Prod.mk.inj (List.mem_singleton.mp hmem)
      have hlen : j < s.results.length := by rwa [hs.length]
      rw [List.getElem?_set_self hlen]
      exact ⟨rfl, hproduces⟩
  case shown => exact fun p hp => List.mem_append_left _ (hs.shown p hp)
  case mutex =>
    refine (calling_swap_of_not hworker rfl ?_).trans hs.mutex
    cases callback <;> rfl
  case drained =>
    intro h
    refine hs.drained (done_of_swap _ hworker ?_ h)
    cases callback <;> simp

theorem lock (hs : Invariant n produces callback s)
    (hworker : s.workers = before ++ .waiting i :: after) (hfree : s.locked = false)
    (hresult : s.results[i]? = some r) :
    Invariant n produces callback
      { s with
        locked := true
        called := s.called ++ [(i, r)]
        workers := before ++ .calling i :: after } := by
  constructor
  case length => exact hs.length
  case taken =>
    intro j
    dsimp only
    rw [count_swap_ne hworker (.calling i) (.running j) (by simp) (by simp)]
    exact hs.taken j
  case reported =>
    intro j
    have hreported := hs.reported j
    have hwaiting := count_swap hworker (.calling i) (.waiting j)
    simp only [reduceCtorEq, if_false, Phase.waiting.injEq] at hwaiting
    dsimp only
    rw [count_ran_append]
    omega
  case stored => exact hs.stored
  case shown =>
    intro p hp
    rcases List.mem_append.mp hp with hp | hp
    · exact hs.shown p hp
    · -- the worker waits, so its job was run, and the result is the one that was stored
      have hpos : 0 < s.workers.count (.waiting i) := by
        rw [List.count_pos_iff, hworker]
        exact List.mem_append_right _ (List.mem_cons_self ..)
      have hreported := hs.reported i
      have hran : 0 < (s.ran.map Prod.fst).count i := by
        split_ifs at hreported <;> omega
      obtain ⟨⟨j, r'⟩, hmem, rfl⟩ := List.mem_map.mp (List.count_pos_iff.mp hran)
      obtain ⟨hstored, -⟩ := hs.stored j r' hmem
      obtain rfl : r' = r := Option.some.inj (hstored.symm.trans hresult)
      rwa [List.mem_singleton.mp hp]
  case mutex =>
    have hcalling := calling_swap hworker (.calling i)
    have hmutex := hs.mutex
    simp only [hfree, Bool.false_eq_true, if_false] at hmutex
    rw [hmutex] at hcalling
    exact hcalling
  case drained => exact fun h => hs.drained (done_of_swap (.calling i) hworker (by simp) h)

theorem unlock (hs : Invariant n produces callback s)
    (hworker : s.workers = before ++ .calling i :: after) :
    Invariant n produces callback
      { s with locked := false, workers := before ++ .fetching :: after } := by
  constructor
  case length => exact hs.length
  case taken =>
    intro j
    dsimp only
    rw [count_swap_ne hworker .fetching (.running j) (by simp) (by simp)]
    exact hs.taken j
  case reported =>
    intro j
    dsimp only
    rw [count_swap_ne hworker .fetching (.waiting j) (by simp) (by simp)]
    exact hs.reported j
  case stored => exact hs.stored
  case shown => exact hs.shown
  case mutex =>
    have hcalling := calling_swap hworker .fetching
    have hmutex := hs.mutex
    simp only [Phase.isCalling, Bool.false_eq_true, if_false, if_true] at hcalling ⊢
    split_ifs at hmutex <;> omega
  case drained => exact fun h => hs.drained (done_of_swap .fetching hworker (by simp) h)

end Invariant

theorem Step.invariant {s t : State ρ} (hstep : Step n produces callback s t)
    (hs : Invariant n produces callback s) : Invariant n produces callback t := by
  cases hstep with
  | take hworker hnext => exact hs.take hworker hnext
  | stop hworker hnext => exact hs.stop hworker hnext
  | write hworker hproduces => exact hs.write hworker hproduces
  | lock hworker hfree hresult => exact hs.lock hworker hfree hresult
  | unlock hworker => exact hs.unlock hworker

theorem Reachable.invariant {workers : ℕ} {blank : ρ} {s : State ρ}
    (h : Reachable n produces callback workers blank s) : Invariant n produces callback s := by
  induction h with
  | refl => exact invariant_init workers blank
  | tail _ hstep ih => exact hstep.invariant ih

theorem Step.length_workers {s t : State ρ} (hstep : Step n produces callback s t) :
    t.workers.length = s.workers.length := by
  cases hstep with
  | take hworker _ => simp [hworker]
  | stop hworker _ => simp [hworker]
  | write hworker _ => simp [hworker]
  | lock hworker _ _ => simp [hworker]
  | unlock hworker => simp [hworker]

theorem Reachable.length_workers {workers : ℕ} {blank : ρ} {s : State ρ}
    (h : Reachable n produces callback workers blank s) : s.workers.length = workers := by
  induction h with
  | refl => exact List.length_replicate
  | tail _ hstep ih => exact hstep.length_workers.trans ih

/-- Calls of the callback do not overlap. -/
theorem Reachable.calling_le {workers : ℕ} {blank : ρ} {s : State ρ}
    (h : Reachable n produces callback workers blank s) :
    s.workers.countP Phase.isCalling ≤ 1 := by
  rw [h.invariant.mutex]
  split_ifs <;> omega

/-- Job `i` was run once, its result is stored, and the callback was shown it once. -/
structure Handled (callback : Bool) (s : State ρ) (i : ℕ) (r : ρ) : Prop where
  result : s.results[i]? = some r
  ran : s.ran.filter (fun p => p.1 = i) = [(i, r)]
  called : s.called.filter (fun p => p.1 = i) = if callback then [(i, r)] else []

theorem length_filter_fst (l : List (ℕ × ρ)) (i : ℕ) :
    (l.filter fun p => p.1 = i).length = (l.map Prod.fst).count i := by
  rw [← List.countP_eq_length_filter, List.count, List.countP_map]
  rfl

theorem filter_fst_eq_nil {l : List (ℕ × ρ)} {i : ℕ} (h : (l.map Prod.fst).count i = 0) :
    l.filter (fun p => p.1 = i) = [] := by
  rw [← List.length_eq_zero_iff, length_filter_fst, h]

theorem filter_fst_eq_singleton {l : List (ℕ × ρ)} {i : ℕ} {r : ρ}
    (h : (l.map Prod.fst).count i = 1) (hr : ∀ r', (i, r') ∈ l → r' = r) :
    l.filter (fun p => p.1 = i) = [(i, r)] := by
  rw [← length_filter_fst] at h
  obtain ⟨⟨j, r'⟩, hone⟩ := List.length_eq_one_iff.mp h
  have hmem : (j, r') ∈ l.filter fun p => p.1 = i := by
    rw [hone]
    exact List.mem_singleton.mpr rfl
  obtain ⟨hl, hj⟩ := List.mem_filter.mp hmem
  obtain rfl : j = i := of_decide_eq_true hj
  rw [hone, hr r' hl]

/-- When all workers have stopped, every job was handled. -/
theorem Reachable.handled {workers : ℕ} {blank : ρ} {s : State ρ}
    (h : Reachable n produces callback workers blank s) (hworkers : 0 < workers)
    (hdone : ∀ p ∈ s.workers, p = .done) {i : ℕ} (hi : i < n) :
    ∃ r, produces i r ∧ Handled callback s i r := by
  have hs := h.invariant
  have hdrained : n ≤ s.next := by
    obtain ⟨p, hp⟩ := List.exists_mem_of_length_pos (h.length_workers.symm ▸ hworkers)
    exact hs.drained (hdone p hp ▸ hp)
  have hidle : ∀ q, q ≠ .done → s.workers.count q = 0 := by
    intro q hq
    exact List.count_eq_zero.mpr fun hmem => hq (hdone q hmem)
  have hran : (s.ran.map Prod.fst).count i = 1 := by
    have htaken := hs.taken i
    rwa [hidle (.running i) (by simp), if_pos ⟨by omega, hi⟩, Nat.zero_add] at htaken
  obtain ⟨⟨j, r⟩, hmem, rfl⟩ := List.mem_map.mp (List.count_pos_iff.mp (hran ▸ Nat.one_pos))
  obtain ⟨hresult, hproduces⟩ := hs.stored j r hmem
  have hunique : ∀ r', (j, r') ∈ s.ran → r' = r := by
    intro r' hr'
    exact Option.some.inj ((hs.stored j r' hr').1.symm.trans hresult)
  refine ⟨r, hproduces, hresult, filter_fst_eq_singleton hran hunique, ?_⟩
  have hreported := hs.reported j
  rw [hidle (.waiting j) (by simp), Nat.zero_add, hran] at hreported
  cases callback with
  | false => exact filter_fst_eq_nil hreported
  | true => exact filter_fst_eq_singleton hreported fun r' hr' => hunique r' (hs.shown _ hr')

/-- Nothing else was run. -/
theorem Reachable.ran_lt {workers : ℕ} {blank : ρ} {s : State ρ}
    (h : Reachable n produces callback workers blank s) {p : ℕ × ρ} (hp : p ∈ s.ran) :
    p.1 < n := by
  obtain ⟨hresult, -⟩ := h.invariant.stored p.1 p.2 hp
  have hlt := (List.getElem?_eq_some_iff.mp hresult).1
  rwa [h.invariant.length] at hlt

end WorkerPool
