import GeminiCpp.Tasks.SpscQueue.Fifo

/-! The counters of the code wrap around at `2 ^ 64`, where the slots begin anew. -/
namespace GeminiCpp.SpscQueue
open BoundedFifo

variable {T : Type} {q : Params} {s s' : State T} {events : List (Event T)} {e : Event T}
  {turns : List (Turn T)}

/-- The counter that is filled next, or the last one if the queue is full. -/
def top (q : Params) (events : List (Event T)) : ℕ :=
  min (published events).length ((popped events).length + q.Capacity - 1)

/-- No wrap-around is among the counters in use, or they are few enough. -/
def Clear (q : Params) (events : List (Event T)) : Prop :=
  q.Capacity ∣ q.range ∨
    (∀ laps, ¬((popped events).length < laps * q.range ∧ laps * q.range ≤ top q events)) ∨
    top q events - (popped events).length < q.range % q.Capacity

theorem apart_iff_clear : Apart q events ↔ Clear q events := by
  have hpos := q.pos
  unfold Clear
  rw [← Counter.slots_apart_iff hpos q.fits (by unfold top; omega)]
  unfold Apart top ring slot
  constructor
  · intro h j k hj hjk hk
    exact h j k hj hjk (by omega) (by omega)
  · intro h j k hj hjk hk hroom
    exact h j k hj hjk (by omega)

/-- Counters that have not wrapped around yet. -/
theorem clear_of_lt (h : (published events).length < q.range) : Clear q events := by
  refine .inr (.inl fun laps hwrap => ?_)
  have htop : top q events ≤ (published events).length := min_le_left _ _
  obtain ⟨hfirst, hlast⟩ := hwrap
  have hlaps : 1 ≤ laps := by
    by_contra hzero
    rw [Nat.lt_one_iff.mp (by omega : laps < 1), Nat.zero_mul] at hfirst
    omega
  have hmul : 1 * q.range ≤ laps * q.range := Nat.mul_le_mul_right q.range hlaps
  omega

/-- The queue is as it should be: also, the live counters are in different slots. -/
structure Harmless (q : Params) (events : List (Event T)) (s : State T) : Prop where
  distinct : ∀ j k, (popped events).length ≤ j → j < k → k < (published events).length →
    slot q (Counter.of q.range j) ≠ slot q (Counter.of q.range k)
  head : s.head_ = Counter.of q.range (popped events).length
  tail : s.tail_ = Counter.of q.range (published events).length
  full : Counter.sub q.range s.tail_ s.head_ = q.Capacity ↔
    (published events).length = (popped events).length + q.Capacity
  empty : s.head_ = s.tail_ ↔ (published events).length = (popped events).length
  correct : Correct q events s

theorem Runs.harmless (h : Runs q turns s events)
    (hclear : ∀ before, before <+: events → Clear q before) : Harmless q events s := by
  have hapart : ∀ before, before <+: events → Apart q before := fun before hfirst =>
    apart_iff_clear.mpr (hclear before hfirst)
  have hcounted := h.counted
  constructor
  case distinct =>
    intro j k hj hjk hk
    have hbound := hcounted.bound
    exact hapart events (List.prefix_refl events) j k hj hjk (by omega) (by omega)
  case head => exact hcounted.head
  case tail => exact hcounted.tail
  case full => exact hcounted.full_iff
  case empty => exact hcounted.empty_iff
  case correct => exact h.correct hapart

theorem Runs.harmless_of_lt (h : Runs q turns s events)
    (hlt : (published events).length < q.range) : Harmless q events s := by
  apply h.harmless
  rintro before ⟨after, rfl⟩
  rw [published_append, List.length_append] at hlt
  exact clear_of_lt (by omega)

/-! A run to the wrap-around. -/

/-- A moment at which no call is going on. -/
structure Quiet (q : Params) (events : List (Event T)) (s : State T) : Prop where
  runs : ∃ turns, Runs q turns s events
  producer : s.producer = .idle
  consumer : s.consumer = .idle

theorem quiet_init (q : Params) : Quiet q [] (init : State T) := ⟨⟨[], rfl⟩, rfl, rfl⟩

namespace Quiet

/-- One call of `try_push`. -/
theorem push (h : Quiet q events s)
    (hroom : (published events).length < (popped events).length + q.Capacity) (value : T) :
    ∃ (events' : List (Event T)) (s' : State T), Quiet q events' s' ∧
      popped events' = popped events ∧ published events' = published events ++ [value] ∧
      s'.storage_ (ring q (published events).length) = some value := by
  obtain ⟨turns, hruns⟩ := h.runs
  have hcounted := hruns.counted
  have hne : Counter.sub q.range s.tail_ s.head_ ≠ q.Capacity := fun hfull => by
    have hlast := hcounted.full_iff.mp hfull
    omega
  have hload : step q s (.producer value) =
      some ({ s with producer := .tailLoaded value s.tail_ }, .loaded) := by
    unfold step try_push
    rw [h.producer]
  have hcheck : step q { s with producer := .tailLoaded value s.tail_ } (.producer value) =
      some ({ s with producer := .checked value s.tail_ }, .loaded) := by
    unfold step try_push
    dsimp only
    rw [if_neg hne]
  let constructed : State T :=
    { s with
      storage_ := Function.update s.storage_ (slot q s.tail_) (some value)
      producer := .constructed value s.tail_ }
  have hconstruct : step q { s with producer := .checked value s.tail_ } (.producer value) =
      some (constructed, .constructed (slot q s.tail_)) := rfl
  have hpublish : step q constructed (.producer value) =
      some ({ constructed with tail_ := Counter.next q.range s.tail_, producer := .idle },
        .published value) := rfl
  have hruns' := (((hruns.concat hload).concat hcheck).concat hconstruct).concat hpublish
  have hslot := hcounted.tail_slot rfl
  have hquiet : Quiet q _ _ := ⟨⟨_, hruns'⟩, rfl, h.consumer⟩
  refine ⟨_, _, hquiet, ?_, ?_, ?_⟩
  · rw [popped_silent _ rfl, popped_silent _ rfl, popped_silent _ rfl, popped_silent _ rfl]
  · rw [published_concat, published_silent _ rfl, published_silent _ rfl, published_silent _ rfl]
    rfl
  · rw [← hslot]
    exact Function.update_self _ _ _

/-- One call of `try_pop`. -/
theorem pop (h : Quiet q events s)
    (helement : (popped events).length < (published events).length) {item : T}
    (hitem : s.storage_ (ring q (popped events).length) = some item) :
    ∃ (events' : List (Event T)) (s' : State T), Quiet q events' s' ∧
      popped events' = popped events ++ [item] ∧ published events' = published events := by
  obtain ⟨turns, hruns⟩ := h.runs
  have hcounted := hruns.counted
  have hne : s.head_ ≠ s.tail_ := fun hempty => by
    have hnone := hcounted.empty_iff.mp hempty
    omega
  have hslot := hcounted.head_slot rfl
  rw [← hslot] at hitem
  have hload : step q s .consumer =
      some ({ s with consumer := .headLoaded s.head_ }, .loaded) := by
    unfold step try_pop
    rw [h.consumer]
  have hcheck : step q { s with consumer := .headLoaded s.head_ } .consumer =
      some ({ s with consumer := .checked s.head_ }, .loaded) := by
    unfold step try_pop
    dsimp only
    rw [if_neg hne]
  have hmove : step q { s with consumer := .checked s.head_ } .consumer =
      some ({ s with consumer := .moved s.head_ item }, .moved (slot q s.head_)) := by
    unfold step try_pop
    dsimp only
    rw [hitem]
    rfl
  let destroyed : State T :=
    { s with
      storage_ := Function.update s.storage_ (slot q s.head_) none
      consumer := .destroyed s.head_ item }
  have hdestroy : step q { s with consumer := .moved s.head_ item } .consumer =
      some (destroyed, .destroyed (slot q s.head_)) := by
    unfold step try_pop
    dsimp only
    rw [hitem]
    rfl
  have hpop : step q destroyed .consumer =
      some ({ destroyed with head_ := Counter.next q.range s.head_, consumer := .idle },
        .popped item) := rfl
  have hruns' := ((((hruns.concat hload).concat hcheck).concat hmove).concat hdestroy).concat hpop
  have hquiet : Quiet q _ _ := ⟨⟨_, hruns'⟩, h.producer, rfl⟩
  refine ⟨_, _, hquiet, ?_, ?_⟩
  · rw [popped_concat, popped_silent _ rfl, popped_silent _ rfl, popped_silent _ rfl,
      popped_silent _ rfl]
    rfl
  · rw [published_silent _ rfl, published_silent _ rfl, published_silent _ rfl,
      published_silent _ rfl, published_silent _ rfl]

/-- As many elements as wanted go through the queue one after the other. -/
theorem exists_through (q : Params) (value : T) (n : ℕ) :
    ∃ (events : List (Event T)) (s : State T), Quiet q events s ∧
      (popped events).length = n ∧ (published events).length = n := by
  induction n with
  | zero => exact ⟨[], init, quiet_init q, rfl, rfl⟩
  | succ n ih =>
    obtain ⟨events, s, hquiet, hpopped, hpublished⟩ := ih
    have hpos := q.pos
    obtain ⟨events₁, s₁, hquiet₁, hpopped₁, hpublished₁, hstored⟩ :=
      hquiet.push (by omega) value
    have hlength : (published events₁).length = n + 1 := by
      rw [hpublished₁, List.length_append, hpublished]
      rfl
    rw [hpublished, ← hpopped, ← hpopped₁] at hstored
    obtain ⟨events₂, s₂, hquiet₂, hpopped₂, hpublished₂⟩ :=
      hquiet₁.pop (by rw [hlength, hpopped₁]; omega) hstored
    refine ⟨events₂, s₂, hquiet₂, ?_, ?_⟩
    · rw [hpopped₂, hpopped₁, List.length_append, hpopped]
      rfl
    · rw [hpublished₂, hlength]

/-- Then elements stay in the queue, and the newest one is in its slot. -/
theorem exists_fill (h : Quiet q events s) (value : T) (n : ℕ)
    (hroom : (published events).length + n < (popped events).length + q.Capacity) :
    ∃ (events' : List (Event T)) (s' : State T), Quiet q events' s' ∧
      popped events' = popped events ∧
      published events' = published events ++ List.replicate (n + 1) value ∧
      s'.storage_ (ring q ((published events).length + n)) = some value := by
  induction n with
  | zero => exact h.push hroom value
  | succ n ih =>
    obtain ⟨events₁, s₁, hquiet, hpopped, hpublished, _⟩ := ih (by omega)
    have hlength : (published events₁).length = (published events).length + (n + 1) := by
      rw [hpublished, List.length_append, List.length_replicate]
    obtain ⟨events', s', hquiet', hpopped', hpublished', hstored⟩ :=
      hquiet.push (by rw [hlength, hpopped]; exact hroom) value
    rw [hlength] at hstored
    have hlast : List.replicate (n + 1 + 1) value = List.replicate (n + 1) value ++ [value] :=
      List.replicate_succ'
    refine ⟨events', s', hquiet', hpopped'.trans hpopped, ?_, hstored⟩
    rw [hpublished', hpublished, hlast, List.append_assoc]

end Quiet

theorem ring_wrap (hdvd : ¬q.Capacity ∣ q.range) :
    ring q (q.range - 1) = ring q (q.range - 1 + q.range % q.Capacity) := by
  have hrest : 0 < q.range % q.Capacity := Nat.pos_of_ne_zero fun hzero =>
    hdvd (Nat.dvd_of_mod_eq_zero hzero)
  have hlt : q.Capacity < q.range := q.fits.resolve_left fun hzero => by
    rw [hzero] at hdvd
    exact hdvd (Nat.dvd_zero _)
  have hsame := Counter.of_mod_wrap hlt q.pos Nat.one_pos hrest 0
  rwa [Nat.zero_add, Nat.one_mul] at hsame

/-- Where the capacity does not divide the number of values of a counter, an element that is
published just after the wrap-around takes the slot of one that is published just before it. -/
theorem exists_collision (q : Params) (hdvd : ¬q.Capacity ∣ q.range) (older newer : T) :
    ∃ (events : List (Event T)) (s : State T) (before : List T), Quiet q events s ∧
      before.length = q.range - 1 ∧ (popped events).length = q.range - 1 ∧
      published events = before ++ older :: List.replicate (q.range % q.Capacity) newer ∧
      s.storage_ (ring q (q.range - 1)) = some newer := by
  have hpos := q.pos
  have hrest : 0 < q.range % q.Capacity := Nat.pos_of_ne_zero fun hzero =>
    hdvd (Nat.dvd_of_mod_eq_zero hzero)
  have hsmall : q.range % q.Capacity < q.Capacity := Nat.mod_lt _ hpos
  have hrange : 0 < q.range := by
    have hle := Nat.mod_le q.range q.Capacity
    omega
  obtain ⟨rest, hsucc⟩ := Nat.exists_eq_succ_of_ne_zero (Nat.pos_iff_ne_zero.mp hrest)
  obtain ⟨events₀, s₀, hquiet₀, hpopped₀, hpublished₀⟩ :=
    Quiet.exists_through q older (q.range - 1)
  obtain ⟨events₁, s₁, hquiet₁, hpopped₁, hpublished₁, _⟩ :=
    hquiet₀.exists_fill older 0 (by omega)
  have hlength₁ : (published events₁).length = q.range := by
    rw [hpublished₁, List.length_append, List.length_replicate, hpublished₀]
    omega
  obtain ⟨events, s, hquiet, hpopped, hpublished, hstored⟩ :=
    hquiet₁.exists_fill newer rest (by rw [hlength₁, hpopped₁, hpopped₀]; omega)
  refine ⟨events, s, published events₀, hquiet, hpublished₀, ?_, ?_, ?_⟩
  · rw [hpopped, hpopped₁, hpopped₀]
  · rw [hpublished, hpublished₁, hsucc, List.append_assoc]
    rfl
  · have hcounter : (published events₁).length + rest = q.range - 1 + q.range % q.Capacity := by
      omega
    rw [hcounter, ← ring_wrap hdvd] at hstored
    exact hstored

/-- The next element that is popped then is the newer one. -/
theorem exists_reordering (q : Params) (hdvd : ¬q.Capacity ∣ q.range) (older newer : T) :
    ∃ (turns : List (Turn T)) (s : State T) (events : List (Event T)), Runs q turns s events ∧
      (popped events <+: published events → older = newer) := by
  obtain ⟨events, s, before, hquiet, hbefore, hpopped, hpublished, hstored⟩ :=
    exists_collision q hdvd older newer
  rw [← hpopped] at hstored
  have helement : (popped events).length < (published events).length := by
    rw [hpublished, List.length_append, List.length_cons]
    omega
  obtain ⟨events', s', hquiet', hpopped', hpublished'⟩ := hquiet.pop helement hstored
  obtain ⟨turns, hruns⟩ := hquiet'.runs
  refine ⟨turns, s', events', hruns, ?_⟩
  intro hfirst
  rw [hpopped', hpublished', hpublished] at hfirst
  obtain ⟨rest, hsplit⟩ := hfirst
  rw [List.append_assoc] at hsplit
  have hnext := (List.append_inj hsplit (hpopped.trans hbefore.symm)).2
  exact (List.cons.inj hnext).1.symm

theorem not_distinct_of_not_dvd (q : Params) (hdvd : ¬q.Capacity ∣ q.range) (value : T) :
    ∃ (turns : List (Turn T)) (s : State T) (events : List (Event T)), Runs q turns s events ∧
      ∃ j k, (popped events).length ≤ j ∧ j < k ∧ k < (published events).length ∧
        slot q (Counter.of q.range j) = slot q (Counter.of q.range k) := by
  obtain ⟨events, s, before, ⟨⟨turns, hruns⟩, _, _⟩, hbefore, hpopped, hpublished, _⟩ :=
    exists_collision q hdvd value value
  have hrest : 0 < q.range % q.Capacity := Nat.pos_of_ne_zero fun hzero =>
    hdvd (Nat.dvd_of_mod_eq_zero hzero)
  refine ⟨turns, s, events, hruns, q.range - 1, q.range - 1 + q.range % q.Capacity, ?_, ?_, ?_,
    ring_wrap hdvd⟩
  · omega
  · omega
  · rw [hpublished, List.length_append, List.length_cons, List.length_replicate, hbefore]
    omega

/-- The wrap-around of the counters is harmless in every run exactly if the capacity divides
`2 ^ 64`, and for the other capacities in the runs in which it is never among the counters in
use, or only while these are few. -/
theorem wrap_harmless_iff [Inhabited T] (Capacity : ℕ) (pos : 0 < Capacity)
    (fits : Capacity < 2 ^ 64) :
    ((∀ (turns : List (Turn T)) (s : State T) (events : List (Event T)),
        Runs (sizeT Capacity pos fits) turns s events →
        Harmless (sizeT Capacity pos fits) events s) ↔ Capacity ∣ 2 ^ 64) ∧
    ∀ (turns : List (Turn T)) (s : State T) (events : List (Event T)),
      Runs (sizeT Capacity pos fits) turns s events →
      (∀ before, before <+: events → Clear (sizeT Capacity pos fits) before) →
      Harmless (sizeT Capacity pos fits) events s := by
  constructor
  · constructor
    · intro hall
      by_contra hdvd
      obtain ⟨turns, s, events, hruns, j, k, hj, hjk, hk, hsame⟩ :=
        not_distinct_of_not_dvd (sizeT Capacity pos fits) hdvd (default : T)
      exact (hall turns s events hruns).distinct j k hj hjk hk hsame
    · intro hdvd turns s events hruns
      exact hruns.harmless fun before _ => .inl hdvd
  · exact fun turns s events hruns hclear => hruns.harmless hclear

theorem wrap_harmless_four :
    (∀ (turns : List (Turn ℕ)) (s : State ℕ) (events : List (Event ℕ)),
      Runs (sizeT 4 (by decide) (by decide)) turns s events →
        Harmless (sizeT 4 (by decide) (by decide)) events s) ∧ (4 ∣ 2 ^ 64) := by
  have hdvd : 4 ∣ 2 ^ 64 := by decide
  exact ⟨(wrap_harmless_iff 4 (by decide) (by decide)).1.mpr hdvd, hdvd⟩

/-- With three slots, two elements around the wrap-around get the same slot, and the older one is
lost. -/
theorem wrap_not_harmless :
    (¬∀ (turns : List (Turn ℕ)) (s : State ℕ) (events : List (Event ℕ)),
      Runs (sizeT 3 (by decide) (by decide)) turns s events →
        ∀ j k, (popped events).length ≤ j → j < k → k < (published events).length →
          j % 2 ^ 64 % 3 ≠ k % 2 ^ 64 % 3) ∧
    ¬∀ (turns : List (Turn ℕ)) (s : State ℕ) (events : List (Event ℕ)),
      Runs (sizeT 3 (by decide) (by decide)) turns s events →
        popped events <+: published events := by
  have hdvd : ¬3 ∣ 2 ^ 64 := by decide
  constructor
  · intro hall
    obtain ⟨turns, s, events, hruns, j, k, hj, hjk, hk, hsame⟩ :=
      not_distinct_of_not_dvd (sizeT 3 (by decide) (by decide)) hdvd 0
    exact hall turns s events hruns j k hj hjk hk hsame
  · intro hall
    obtain ⟨turns, s, events, hruns, hfifo⟩ :=
      exists_reordering (sizeT 3 (by decide) (by decide)) hdvd 0 1
    exact absurd (hfifo (hall turns s events hruns)) (by decide)

end GeminiCpp.SpscQueue
