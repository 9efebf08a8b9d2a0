import GeminiCpp.Tasks.SpscQueue.Basic

/-! What `size_approx` returns while the other threads go on. -/
namespace GeminiCpp.SpscQueue
open BoundedFifo

variable {T : Type} {q : Params} {s s' : State T} {events : List (Event T)} {e : Event T}

/-- The thread whose call of `size_approx` takes the step. -/
def Event.sizer : Event T → Option ℕ
  | .sizing thread => some thread
  | .sized thread _ => some thread
  | _ => none

/-- The call of a thread that is still going on: what happened before its load of `head_`, and
since. -/
structure Began (events : List (Event T)) (thread : ℕ) (before between : List (Event T)) :
    Prop where
  split : events = before ++ .sizing thread :: between
  alone : ∀ e ∈ between, e.sizer ≠ some thread

theorem Began.concat {thread : ℕ} {before between : List (Event T)}
    (h : Began events thread before between) (he : e.sizer ≠ some thread) :
    Began (events ++ [e]) thread before (between ++ [e]) := by
  constructor
  · rw [h.split, List.append_assoc, List.cons_append]
  · intro e' hmem
    rcases List.mem_append.mp hmem with hmem | hmem
    · exact h.alone e' hmem
    · rw [List.mem_singleton.mp hmem]
      exact he

/-- A thread is in one call at a time. -/
theorem Began.unique {thread : ℕ} {before between before' between' : List (Event T)}
    (h : Began events thread before between) (h' : Began events thread before' between') :
    before = before' ∧ between = between' := by
  have hsplit : before ++ .sizing thread :: between = before' ++ .sizing thread :: between' :=
    h.split.symm.trans h'.split
  rcases List.append_eq_append_iff.mp hsplit with ⟨rest, hbefore, hrest⟩ | ⟨rest, hbefore, hrest⟩
  · cases rest with
    | nil =>
      rw [List.append_nil] at hbefore
      exact ⟨hbefore.symm, (List.cons.inj hrest).2⟩
    | cons first rest =>
      have hmem : Event.sizing thread ∈ between := by
        rw [(List.cons.inj hrest).2]
        exact List.mem_append_right _ List.mem_cons_self
      exact absurd rfl (h.alone _ hmem)
  · cases rest with
    | nil =>
      rw [List.append_nil] at hbefore
      exact ⟨hbefore, (List.cons.inj hrest).2.symm⟩
    | cons first rest =>
      have hmem : Event.sizing thread ∈ between' := by
        rw [(List.cons.inj hrest).2]
        exact List.mem_append_right _ List.mem_cons_self
      exact absurd rfl (h'.alone _ hmem)

/-- The elements at the load of `head_`, and those published up to the load of `tail_`. -/
def seen (before between : List (Event T)) : ℕ :=
  (published before).length - (popped before).length + (published between).length

/-- Every thread in `size_approx` holds the `head_` of its load, and every value that was returned
is the number of elements that its call saw. -/
structure Sized (q : Params) (events : List (Event T)) (s : State T) : Prop where
  loaded : ∀ thread head, s.sizing thread = some head → ∃ before between,
    Began events thread before between ∧
      (popped before).length ≤ (published before).length ∧
      head = Counter.of q.range (popped before).length
  returned : ∀ prior thread size after, events = prior ++ .sized thread size :: after →
    ∃ before between, Began prior thread before between ∧
      size = Counter.of q.range (seen before between)

theorem sized_init (q : Params) : Sized q [] (init : State T) := by
  constructor
  · intro thread head h
    cases h
  · intro prior thread size after h
    exact absurd h.symm (by simp)

/-- A step is the last of a run, or one of the earlier ones. -/
theorem concat_eq_append_cons {prior after : List (Event T)} {e' : Event T}
    (h : events ++ [e] = prior ++ e' :: after) :
    (prior = events ∧ e' = e) ∨ ∃ after', events = prior ++ e' :: after' := by
  rcases List.eq_nil_or_concat after with rfl | ⟨after', last, rfl⟩
  · obtain ⟨hprior, hlast⟩ := List.append_inj' h rfl
    exact .inl ⟨hprior.symm, (List.cons.inj hlast).1.symm⟩
  · rw [List.concat_eq_append, ← List.cons_append, ← List.append_assoc] at h
    exact .inr ⟨after', (List.append_inj' h rfl).1⟩

theorem published_began {thread : ℕ} {before between : List (Event T)}
    (h : Began events thread before between) : (published events).length =
      (published before).length + (published between).length := by
  have hcons : published (.sizing thread :: between) = published between := rfl
  rw [h.split, published_append, hcons, List.length_append]

namespace Sized

/-- A step that is not the end of a call. -/
theorem concat (h : Sized q events s) (he : ∀ thread size, e ≠ .sized thread size)
    (hloaded : ∀ thread head, s'.sizing thread = some head → ∃ before between,
      Began (events ++ [e]) thread before between ∧
        (popped before).length ≤ (published before).length ∧
        head = Counter.of q.range (popped before).length) : Sized q (events ++ [e]) s' := by
  constructor
  case loaded => exact hloaded
  case returned =>
    intro prior thread size after hsplit
    rcases concat_eq_append_cons hsplit with ⟨_, hlast⟩ | ⟨after', hearlier⟩
    · exact absurd hlast.symm (he thread size)
    · exact h.returned prior thread size after' hearlier

/-- The calls of the other threads go on. -/
theorem going (h : Sized q events s) {thread head : ℕ} (he : e.sizer ≠ some thread)
    (hthread : s.sizing thread = some head) : ∃ before between,
      Began (events ++ [e]) thread before between ∧
        (popped before).length ≤ (published before).length ∧
        head = Counter.of q.range (popped before).length := by
  obtain ⟨before, between, hbegan, hle, hhead⟩ := h.loaded thread head hthread
  exact ⟨before, between ++ [e], hbegan.concat he, hle, hhead⟩

theorem other (h : Sized q events s) (he : e.sizer = none) (hsizing : s'.sizing = s.sizing) :
    Sized q (events ++ [e]) s' := by
  have hne : ∀ thread size, e ≠ .sized thread size := by
    rintro thread size rfl
    cases he
  apply h.concat hne
  intro thread head hthread
  rw [hsizing] at hthread
  exact h.going (by rw [he]; exact Option.some_ne_none thread |>.symm) hthread

theorem step (h : Sized q events s) (hc : Counted q events s) (hstep : Step q s e s') :
    Sized q (events ++ [e]) s' := by
  cases hstep with
  | @sizeHead thread hidle =>
    apply h.concat (by rintro thread size ⟨⟩)
    intro thread' head hhead
    change Function.update s.sizing thread (some s.head_) thread' = some head at hhead
    by_cases hsame : thread' = thread
    · rw [hsame, Function.update_self] at hhead
      have hloaded : s.head_ = head := Option.some.inj hhead
      rw [hsame, ← hloaded]
      exact ⟨events, [], ⟨rfl, by simp⟩, hc.le, hc.head⟩
    · rw [Function.update_of_ne hsame] at hhead
      exact h.going (fun heq => hsame (Option.some.inj heq).symm) hhead
  | @sizeTail thread head hthread =>
    obtain ⟨before, between, hbegan, hle, hhead⟩ := h.loaded thread head hthread
    have hsize : Counter.sub q.range s.tail_ head = Counter.of q.range (seen before between) := by
      have hpublished := published_began hbegan
      unfold seen
      rw [hc.tail, hhead, Counter.sub_of q.range (by omega), hpublished]
      apply congrArg
      omega
    constructor
    case loaded =>
      intro thread' head' hhead'
      change Function.update s.sizing thread none thread' = some head' at hhead'
      by_cases hsame : thread' = thread
      · rw [hsame, Function.update_self] at hhead'
        cases hhead'
      · rw [Function.update_of_ne hsame] at hhead'
        exact h.going (fun heq => hsame (Option.some.inj heq).symm) hhead'
    case returned =>
      intro prior thread' size after hsplit
      rcases concat_eq_append_cons hsplit with ⟨hprior, hlast⟩ | ⟨after', hearlier⟩
      · cases hlast
        rw [hprior, hsize]
        exact ⟨before, between, hbegan, rfl⟩
      · exact h.returned prior thread' size after' hearlier
  | _ => exact h.other rfl rfl

end Sized

theorem Runs.sized {turns : List (Turn T)} (h : Runs q turns s events) : Sized q events s := by
  have hboth : Counted q events s ∧ Sized q events s := by
    apply Answers.tryRun_invariant (P := fun events s => Counted q events s ∧ Sized q events s)
      ⟨counted_init q, sized_init q⟩ _ h
    rintro events s turn s' e ⟨hcounted, hsized⟩ hstep
    exact ⟨hcounted.step (step_cases hstep), hsized.step hcounted (step_cases hstep)⟩
  exact hboth.2

/-- A call of `size_approx` that has returned: what happened before its load of `head_`, and
between its loads. -/
structure Call (events : List (Event T)) (thread size : ℕ) (before between : List (Event T)) :
    Prop where
  split : ∃ after, events = before ++ .sizing thread :: between ++ .sized thread size :: after
  alone : ∀ e ∈ between, e.sizer ≠ some thread

/-- The slots that were free at some moment. -/
def room (q : Params) (before : List (Event T)) : ℕ :=
  q.Capacity - ((published before).length - (popped before).length)

theorem Runs.exists_call {turns : List (Turn T)} (h : Runs q turns s events) {thread size : ℕ}
    (hmem : .sized thread size ∈ events) :
    ∃ before between, Call events thread size before between := by
  obtain ⟨prior, after, hsplit⟩ := List.append_of_mem hmem
  obtain ⟨before, between, hbegan, _⟩ := h.sized.returned prior thread size after hsplit
  rw [hbegan.split] at hsplit
  exact ⟨before, between, ⟨after, hsplit⟩, hbegan.alone⟩

namespace Call
variable {turns : List (Turn T)} {thread size : ℕ} {before between : List (Event T)}

theorem size_eq (hcall : Call events thread size before between) (h : Runs q turns s events) :
    size = Counter.of q.range (seen before between) := by
  obtain ⟨after, hsplit⟩ := hcall.split
  obtain ⟨before', between', hbegan, hsize⟩ := h.sized.returned _ _ _ _ hsplit
  obtain ⟨hbefore, hbetween⟩ := hbegan.unique ⟨rfl, hcall.alone⟩
  rw [hsize, hbefore, hbetween]

/-- At its load of `head_`, and at its load of `tail_`, the queue was within its capacity. -/
theorem bounds (hcall : Call events thread size before between) (h : Runs q turns s events) :
    (popped before).length ≤ (published before).length ∧
      (published before).length ≤ (popped before).length + q.Capacity ∧
      (published before).length + (published between).length ≤
        (popped before).length + (popped between).length + q.Capacity := by
  obtain ⟨after, hsplit⟩ := hcall.split
  rw [hsplit] at h
  obtain ⟨_, _, hprior⟩ := h.exists_before
  obtain ⟨_, _, hbefore⟩ := hprior.exists_before
  have hbound := hprior.counted.bound
  have hpublished : published (.sizing thread :: between) = published between := rfl
  have hpopped : popped (.sizing thread :: between) = popped between := rfl
  rw [published_append, popped_append, List.length_append, List.length_append, hpublished,
    hpopped] at hbound
  exact ⟨hbefore.counted.le, hbefore.counted.bound, hbound⟩

theorem seen_le_iff (hcall : Call events thread size before between) (h : Runs q turns s events) :
    seen before between ≤ q.Capacity ↔ (published between).length ≤ room q before := by
  obtain ⟨_, hbound, _⟩ := hcall.bounds h
  unfold seen room
  omega

/-- Only a call that others both push and pop in can see too much. -/
theorem le_room (hcall : Call events thread size before between) (h : Runs q turns s events)
    (hstill : published between = [] ∨ popped between = []) :
    (published between).length ≤ room q before := by
  obtain ⟨hle, hbound, hlast⟩ := hcall.bounds h
  unfold room
  rcases hstill with hnil | hnil
  · rw [hnil]
    exact Nat.zero_le _
  · rw [hnil, List.length_nil] at hlast
    omega

end Call

/-- No call returns more than the capacity if no more elements are published between the two
loads of a call than slots were free at the first. Apart from calls in which a counter goes all
the way round, the others do return more. -/
theorem size_approx_le {turns : List (Turn T)} (h : Runs q turns s events) :
    ((∀ thread size before between, Call events thread size before between →
        (published between).length ≤ room q before) →
      ∀ thread size, .sized thread size ∈ events → size ≤ q.Capacity) ∧
    ∀ thread size before between, Call events thread size before between →
      q.range = 0 ∨ (published between).length + q.Capacity < q.range →
      (size ≤ q.Capacity ↔ (published between).length ≤ room q before) := by
  constructor
  · intro hroom thread size hmem
    obtain ⟨before, between, hcall⟩ := h.exists_call hmem
    have hseen := (hcall.seen_le_iff h).mpr (hroom thread size before between hcall)
    rw [hcall.size_eq h]
    exact Nat.le_trans (Counter.of_le q.range _) hseen
  · intro thread size before between hcall hrange
    obtain ⟨_, hbound, _⟩ := hcall.bounds h
    have hfits : q.range = 0 ∨ seen before between < q.range := by
      unfold seen
      omega
    rw [hcall.size_eq h, Counter.of_of_lt hfits, hcall.seen_le_iff h]

theorem size_approx_le_one : ∃ s : State ℕ,
    Runs (sizeT 1 (by decide) (by decide))
      [.sizer 0, .producer 7, .producer 7, .producer 7, .producer 7, .sizer 0] s
      [.sizing 0, .loaded, .loaded, .constructed 0, .published 7, .sized 0 1] ∧
      (1 ≤ 1 ↔ (published [.loaded, .loaded, .constructed 0, .published 7]).length ≤
        room (sizeT 1 (by decide) (by decide)) ([] : List (Event ℕ))) := by
  refine Exists.imp (fun s h => ⟨h, ?_⟩) (exists_runs ?_)
  · exact (size_approx_le h).2 0 1 [] [.loaded, .loaded, .constructed 0, .published 7]
      ⟨⟨[], rfl⟩, by decide⟩ (.inr (by decide))
  · rfl

/-- A third thread sees one element after another as if they were there together. -/
theorem size_approx_exceeds : ¬∀ (turns : List (Turn ℕ)) (s : State ℕ) (events : List (Event ℕ)),
    Runs (sizeT 1 (by decide) (by decide)) turns s events →
      ∀ thread size, .sized thread size ∈ events → size ≤ 1 := by
  intro hall
  obtain ⟨s, h⟩ : ∃ s : State ℕ,
      Runs (sizeT 1 (by decide) (by decide))
        [.sizer 0, .producer 7, .producer 7, .producer 7, .producer 7, .consumer, .consumer,
          .consumer, .consumer, .consumer, .producer 8, .producer 8, .producer 8, .producer 8,
          .sizer 0] s
        [.sizing 0, .loaded, .loaded, .constructed 0, .published 7, .loaded, .loaded, .moved 0,
          .destroyed 0, .popped 7, .loaded, .loaded, .constructed 0, .published 8,
          .sized 0 2] := by
    apply exists_runs
    rfl
  exact absurd (hall _ s _ h 0 2 (by decide)) (by decide)

end GeminiCpp.SpscQueue
