import GeminiCpp.Tasks.SpscQueue.Basic

/-! The slots of the queue hold the values that are published and not popped, as long as the
counters in use are in different slots. -/
namespace GeminiCpp.SpscQueue
open BoundedFifo

variable {T : Type} {q : Params} {s s' : State T} {events : List (Event T)} {e : Event T}

/-- The slot of a counter after `n` steps. -/
def ring (q : Params) (n : ℕ) : ℕ := slot q (Counter.of q.range n)

/-- The counters from `head_` to the one that is filled next are in different slots. -/
def Apart (q : Params) (events : List (Event T)) : Prop :=
  ∀ j k, (popped events).length ≤ j → j < k → k ≤ (published events).length →
    k < (popped events).length + q.Capacity → ring q j ≠ ring q k

/-- The value that the consumer moved out is the oldest one. -/
def TryPop.Holds (contents : List T) : TryPop T → Prop
  | .moved _ out | .destroyed _ out => contents.head? = some out
  | _ => True

theorem TryPop.Holds.concat {consumer : TryPop T} {contents : List T}
    (h : consumer.Holds contents) (value : T) : consumer.Holds (contents ++ [value]) := by
  have hfirst : ∀ out, contents.head? = some out → (contents ++ [value]).head? = some out := by
    intro out hout
    rw [List.head?_append, hout]
    rfl
  cases consumer with
  | moved head out => exact hfirst out h
  | destroyed head out => exact hfirst out h
  | _ => trivial

/-- The queue has some contents, and the slots hold them. -/
structure Stored (q : Params) (events : List (Event T)) (s : State T) (contents : List T) :
    Prop where
  history : Accepts q.Capacity (history events) contents
  live : ∀ j value, s.consumer.gone ≤ j → (contents ++ s.producer.pending)[j]? = some value →
    s.storage_ (ring q ((popped events).length + j)) = some value
  free : ∀ i, (∀ j, s.consumer.gone ≤ j → j < (contents ++ s.producer.pending).length →
    ring q ((popped events).length + j) ≠ i) → s.storage_ i = none
  held : s.consumer.Holds contents

theorem stored_init (q : Params) : Stored q [] (init : State T) [] := by
  constructor
  case history => exact .start
  case live =>
    intro j value _ h
    cases h
  case free =>
    intro i _
    rfl
  case held => trivial

namespace Counted

theorem head_slot (h : Counted q events s) {head : ℕ} (hhead : head = s.head_) :
    slot q head = ring q (popped events).length := by
  rw [hhead, h.head]
  rfl

theorem tail_slot (h : Counted q events s) {tail : ℕ} (htail : tail = s.tail_) :
    slot q tail = ring q (published events).length := by
  rw [htail, h.tail]
  rfl

theorem tail_of_checked (h : Counted q events s) {value : T} {tail : ℕ}
    (hchecked : s.producer = .checked value tail) :
    slot q tail = ring q (published events).length ∧
      (published events).length < (popped events).length + q.Capacity := by
  have hknows := h.producer
  rw [hchecked] at hknows
  exact ⟨h.tail_slot hknows.1, hknows.2⟩

end Counted

namespace Stored
variable {contents : List T}

theorem length (h : Stored q events s contents) :
    (published events).length = (popped events).length + contents.length := by
  have hpushed : published events = popped events ++ contents := h.history.pushed_eq
  rw [hpushed, List.length_append]

/-- A step that leaves the slots and the contents as they are. -/
theorem silent (h : Stored q events s contents)
    (hhistory : Accepts q.Capacity (SpscQueue.history (events ++ [e])) contents)
    (hpopped : e.op.bind Op.popped = none) (hstorage : s'.storage_ = s.storage_)
    (hpending : s'.producer.pending = s.producer.pending)
    (hgone : s'.consumer.gone = s.consumer.gone) (hheld : s'.consumer.Holds contents) :
    Stored q (events ++ [e]) s' contents := by
  have hpop := popped_silent events hpopped
  constructor
  case history => exact hhistory
  case live => rw [hstorage, hpending, hgone, hpop]; exact h.live
  case free => rw [hstorage, hpending, hgone, hpop]; exact h.free
  case held => exact hheld

theorem silent' (h : Stored q events s contents) (hop : e.op = none)
    (hstorage : s'.storage_ = s.storage_) (hpending : s'.producer.pending = s.producer.pending)
    (hgone : s'.consumer.gone = s.consumer.gone) (hheld : s'.consumer.Holds contents) :
    Stored q (events ++ [e]) s' contents := by
  have hhistory : Accepts q.Capacity (SpscQueue.history (events ++ [e])) contents := by
    rw [history_silent events hop]
    exact h.history
  exact h.silent hhistory (by rw [hop]; rfl) hstorage hpending hgone hheld

/-- The contents and the value that is about to be published are within the capacity. -/
theorem length_le (h : Stored q events s contents) (hc : Counted q events s) :
    (contents ++ s.producer.pending).length ≤ q.Capacity := by
  have hlength := h.length
  have hwithin := hc.pending_le
  rw [List.length_append]
  omega

/-- The slot that the producer is about to fill is free. -/
theorem free_of_checked (h : Stored q events s contents) (hc : Counted q events s)
    (hapart : Apart q events) {value : T} {tail : ℕ}
    (hchecked : s.producer = .checked value tail) : s.storage_ (slot q tail) = none := by
  obtain ⟨hslot, hroom⟩ := hc.tail_of_checked hchecked
  have hlength := h.length
  have hpending : s.producer.pending = [] := by rw [hchecked]; rfl
  apply h.free
  intro j _ hj
  rw [hpending, List.append_nil] at hj
  rw [hslot]
  exact hapart _ _ (by omega) (by omega) (by omega) hroom

/-- While the consumer has not emptied it, the slot at `head_` holds the oldest value. -/
theorem exists_head (h : Stored q events s contents) (hgone : s.consumer.gone = 0)
    (helement : (popped events).length < (published events).length) :
    ∃ value, contents.head? = some value ∧
      s.storage_ (ring q (popped events).length) = some value := by
  have hlength := h.length
  cases contents with
  | nil => rw [List.length_nil] at hlength; omega
  | cons value rest => exact ⟨value, rfl, h.live 0 value (by omega) rfl⟩

/-- The slot that the consumer is about to read holds the oldest value. -/
theorem head_of_checked (h : Stored q events s contents) (hc : Counted q events s) {head : ℕ}
    (hchecked : s.consumer = .checked head) :
    ∃ value, contents.head? = some value ∧ s.storage_ (slot q head) = some value := by
  have hgone : s.consumer.gone = 0 := by rw [hchecked]; rfl
  have hknows := hc.consumer
  rw [hchecked] at hknows
  rw [hc.head_slot hknows.1]
  exact h.exists_head hgone hknows.2

/-- The slot that the consumer is about to empty holds the value that it moved out. -/
theorem head_of_moved (h : Stored q events s contents) (hc : Counted q events s) {head : ℕ}
    {out : T} (hmoved : s.consumer = .moved head out) :
    s.storage_ (slot q head) = some out := by
  have hgone : s.consumer.gone = 0 := by rw [hmoved]; rfl
  have hknows := hc.consumer
  have hheld := h.held
  rw [hmoved] at hknows hheld
  obtain ⟨value, hfirst, hstored⟩ := h.exists_head hgone hknows.2
  have hvalue : value = out := Option.some.inj (hfirst.symm.trans hheld)
  rw [hc.head_slot hknows.1, hstored, hvalue]

theorem construct (h : Stored q events s contents) (hc : Counted q events s)
    (hapart : Apart q events) {value : T} {tail : ℕ}
    (hchecked : s.producer = .checked value tail) :
    Stored q (events ++ [.constructed (slot q tail)])
      { s with
        storage_ := Function.update s.storage_ (slot q tail) (some value)
        producer := .constructed value tail } contents := by
  obtain ⟨hslot, hroom⟩ := hc.tail_of_checked hchecked
  have hlength := h.length
  rw [hlength] at hslot
  have hpop := popped_silent events (e := .constructed (slot q tail)) rfl
  have hpending : s.producer.pending = [] := by rw [hchecked]; rfl
  have hlive := h.live
  have hfree := h.free
  rw [hpending, List.append_nil] at hlive hfree
  constructor
  case history => rw [history_silent events rfl]; exact h.history
  case live =>
    intro j item hgone hj
    change (contents ++ [value])[j]? = some item at hj
    change Function.update s.storage_ (slot q tail) (some value) _ = some item
    rw [hpop]
    by_cases hlast : j = contents.length
    · rw [hlast, List.getElem?_concat_length] at hj
      rw [hlast, hslot, Function.update_self, hj]
    · have hlt : j < contents.length := by
        have hbound := (List.getElem?_eq_some_iff.mp hj).1
        rw [List.length_append, List.length_singleton] at hbound
        omega
      rw [List.getElem?_append_left hlt] at hj
      have hne : ring q ((popped events).length + j) ≠ slot q tail := by
        rw [hslot]
        exact hapart _ _ (by omega) (by omega) (by omega) (by omega)
      rw [Function.update_of_ne hne]
      exact hlive j item hgone hj
  case free =>
    intro i hi
    change ∀ j, s.consumer.gone ≤ j → j < (contents ++ [value]).length → _ at hi
    change Function.update s.storage_ (slot q tail) (some value) i = none
    rw [hpop] at hi
    rw [List.length_append, List.length_singleton] at hi
    have hgone := hc.gone_le
    have hne : ring q ((popped events).length + contents.length) ≠ i :=
      hi contents.length (by omega) (Nat.lt_succ_self _)
    rw [← hslot] at hne
    rw [Function.update_of_ne hne.symm]
    exact hfree i fun j hgone hj => hi j hgone (Nat.lt_succ_of_lt hj)
  case held => exact h.held

theorem publish (h : Stored q events s contents) (hc : Counted q events s) {value : T} {tail : ℕ}
    (hconstructed : s.producer = .constructed value tail) :
    Stored q (events ++ [.published value])
      { s with tail_ := Counter.next q.range tail, producer := .idle } (contents ++ [value]) := by
  have hlength := h.length
  have hknows := hc.producer
  rw [hconstructed] at hknows
  have hpop := popped_silent events (e := .published value) rfl
  have hpending : s.producer.pending = [value] := by rw [hconstructed]; rfl
  have hlive := h.live
  have hfree := h.free
  rw [hpending] at hlive hfree
  constructor
  case history =>
    rw [history_concat]
    exact .push h.history (by have hroom := hknows.2; omega)
  case live =>
    rw [hpop]
    change ∀ j item, _ → (contents ++ [value] ++ [])[j]? = some item → _
    rw [List.append_nil]
    exact hlive
  case free =>
    rw [hpop]
    change ∀ i, (∀ j, _ → j < (contents ++ [value] ++ []).length → _) → _
    rw [List.append_nil]
    exact hfree
  case held => exact h.held.concat value

theorem destroy (h : Stored q events s contents) (hc : Counted q events s)
    (hapart : Apart q events) {head : ℕ} {out : T} (hmoved : s.consumer = .moved head out) :
    Stored q (events ++ [.destroyed (slot q head)])
      { s with
        storage_ := Function.update s.storage_ (slot q head) none
        consumer := .destroyed head out } contents := by
  have hknows := hc.consumer
  have hheld := h.held
  rw [hmoved] at hknows hheld
  have hslot := hc.head_slot hknows.1
  have hpop := popped_silent events (e := .destroyed (slot q head)) rfl
  have hgone : s.consumer.gone = 0 := by rw [hmoved]; rfl
  have hwithin := h.length_le hc
  have hlength := h.length
  constructor
  case history => rw [history_silent events rfl]; exact h.history
  case live =>
    intro j item hj hitem
    change 1 ≤ j at hj
    change (contents ++ s.producer.pending)[j]? = some item at hitem
    change Function.update s.storage_ (slot q head) none _ = some item
    have hlt := (List.getElem?_eq_some_iff.mp hitem).1
    have hne : ring q ((popped events).length + j) ≠ slot q head := by
      rw [hslot]
      have hpending := s.producer.length_pending_le
      rw [List.length_append] at hlt hwithin
      exact (hapart _ _ (Nat.le_refl _) (by omega) (by omega) (by omega)).symm
    rw [hpop, Function.update_of_ne hne]
    exact h.live j item (by omega) hitem
  case free =>
    intro i hi
    change Function.update s.storage_ (slot q head) none i = none
    by_cases heq : i = slot q head
    · rw [heq, Function.update_self]
    · rw [Function.update_of_ne heq]
      apply h.free
      intro j _ hj
      by_cases hzero : j = 0
      · rw [hzero, Nat.add_zero, ← hslot]
        exact Ne.symm heq
      · have hnext := hi j (Nat.pos_iff_ne_zero.mpr hzero) hj
        rwa [hpop] at hnext
  case held => exact hheld

theorem pop {rest : List T} {value : T} (h : Stored q events s (value :: rest)) {head : ℕ}
    {out : T} (hdestroyed : s.consumer = .destroyed head out) :
    Stored q (events ++ [.popped out])
      { s with head_ := Counter.next q.range head, consumer := .idle } rest := by
  have hheld := h.held
  rw [hdestroyed] at hheld
  have hvalue : value = out := Option.some.inj hheld
  have hgone : s.consumer.gone = 1 := by rw [hdestroyed]; rfl
  have hpop : (popped (events ++ [.popped out])).length = (popped events).length + 1 := by
    rw [popped_concat, List.length_append]
    rfl
  constructor
  case history =>
    rw [history_concat, ← hvalue]
    exact .pop h.history
  case live =>
    intro j item _ hitem
    rw [hpop, Nat.add_assoc, Nat.add_comm 1 j]
    exact h.live (j + 1) item (by omega) hitem
  case free =>
    intro i hi
    apply h.free
    intro j hj hlt
    obtain ⟨j, rfl⟩ := Nat.exists_eq_succ_of_ne_zero (by omega : j ≠ 0)
    have hnext := hi j (Nat.zero_le j) (Nat.lt_of_succ_lt_succ hlt)
    rwa [hpop, Nat.add_assoc, Nat.add_comm 1 j] at hnext
  case held => trivial

theorem step (h : Stored q events s contents) (hc : Counted q events s)
    (hapart : Apart q events) (hstep : Step q s e s') :
    ∃ contents', Stored q (events ++ [e]) s' contents' := by
  have hlength := h.length
  have hheld := h.held
  cases hstep with
  | loadTail value hidle =>
    exact ⟨contents, h.silent' rfl rfl (by rw [hidle]; rfl) rfl hheld⟩
  | full hloaded hfull =>
    have htail := hc.producer
    rw [hloaded] at htail
    have hlast := hc.full_iff.mp (htail ▸ hfull)
    have hhistory : Accepts q.Capacity (SpscQueue.history (events ++ [.full])) contents := by
      rw [history_concat]
      exact .full h.history (by omega)
    exact ⟨contents, h.silent hhistory rfl rfl (by rw [hloaded]; rfl) rfl hheld⟩
  | checkRoom hloaded _ =>
    exact ⟨contents, h.silent' rfl rfl (by rw [hloaded]; rfl) rfl hheld⟩
  | construct hchecked => exact ⟨contents, h.construct hc hapart hchecked⟩
  | @publish value tail hconstructed => exact ⟨contents ++ [value], h.publish hc hconstructed⟩
  | loadHead hidle =>
    exact ⟨contents, h.silent' rfl rfl rfl (by rw [hidle]; rfl) trivial⟩
  | empty hloaded hempty =>
    have hhead := hc.consumer
    rw [hloaded] at hhead
    have hnone := hc.empty_iff.mp (hhead ▸ hempty)
    have hnil : contents = [] := List.length_eq_zero_iff.mp (by omega)
    have hhistory : Accepts q.Capacity (SpscQueue.history (events ++ [.empty])) contents := by
      rw [history_concat, hnil]
      exact .empty (hnil ▸ h.history)
    exact ⟨contents, h.silent hhistory rfl rfl rfl (by rw [hloaded]; rfl) trivial⟩
  | checkElement hloaded _ =>
    exact ⟨contents, h.silent' rfl rfl rfl (by rw [hloaded]; rfl) trivial⟩
  | @move head item hchecked hitem =>
    obtain ⟨value, hfirst, hslot⟩ := h.head_of_checked hc hchecked
    have hvalue : value = item := Option.some.inj (hslot.symm.trans hitem)
    exact ⟨contents, h.silent' rfl rfl rfl (by rw [hchecked]; rfl) (hvalue ▸ hfirst)⟩
  | destroy hmoved _ => exact ⟨contents, h.destroy hc hapart hmoved⟩
  | pop hdestroyed =>
    rw [hdestroyed] at hheld
    cases contents with
    | nil => cases hheld
    | cons value rest => exact ⟨rest, h.pop hdestroyed⟩
  | sizeHead _ => exact ⟨contents, h.silent' rfl rfl rfl rfl hheld⟩
  | sizeTail _ => exact ⟨contents, h.silent' rfl rfl rfl rfl hheld⟩

end Stored

/-- A run of a queue in which, at every moment, the counters in use are in different slots. -/
theorem Runs.stored {turns : List (Turn T)} (h : Runs q turns s events)
    (hapart : ∀ before, before <+: events → Apart q before) :
    ∃ contents, Stored q events s contents := by
  have hboth : Counted q events s ∧ ((∀ before, before <+: events → Apart q before) →
      ∃ contents, Stored q events s contents) := by
    apply Answers.tryRun_invariant
      (P := fun events s => Counted q events s ∧
        ((∀ before, before <+: events → Apart q before) → ∃ contents, Stored q events s contents))
      ⟨counted_init q, fun _ => ⟨[], stored_init q⟩⟩ _ h
    rintro events s turn s' e ⟨hcounted, hstored⟩ hstep
    refine ⟨hcounted.step (step_cases hstep), ?_⟩
    intro hall
    have hbefore : ∀ before, before <+: events → Apart q before := fun before hfirst =>
      hall before (hfirst.trans (List.prefix_append events [e]))
    obtain ⟨contents, hcontents⟩ := hstored hbefore
    exact hcontents.step hcounted (hbefore events (List.prefix_refl events)) (step_cases hstep)
  exact hboth.2 hapart

/-- What a queue promises at every moment of a run. -/
structure Correct (q : Params) (events : List (Event T)) (s : State T) : Prop where
  fifo : popped events <+: published events
  /-- A value that is published and not popped is in its slot, or in the hands of the consumer. -/
  kept : ∀ k value, (popped events).length ≤ k → (published events)[k]? = some value →
    s.storage_ (ring q k) = some value ∨
      k = (popped events).length ∧ ∃ head, s.consumer = .destroyed head value
  construct : ∀ value tail, s.producer = .checked value tail → s.storage_ (slot q tail) = none
  read : ∀ head, s.consumer = .checked head → (s.storage_ (slot q head)).isSome
  destroy : ∀ head out, s.consumer = .moved head out → (s.storage_ (slot q head)).isSome
  /-- Every thread can go on. -/
  defined : ∀ turn, (step q s turn).isSome
  bounded : constructions events ≤ destructions events + q.Capacity
  full : ∀ value s', step q s (.producer value) = some (s', .full) →
    (published events).length = (popped events).length + q.Capacity
  empty : ∀ s', step q s .consumer = some (s', .empty) →
    (published events).length = (popped events).length

theorem Counted.full_of_step (h : Counted q events s) {turn : Turn T}
    (hstep : SpscQueue.step q s turn = some (s', .full)) :
    (published events).length = (popped events).length + q.Capacity := by
  have hknows := h.producer
  cases step_cases hstep with
  | full hloaded hfull =>
    rw [hloaded] at hknows
    exact h.full_iff.mp (hknows ▸ hfull)

theorem Counted.empty_of_step (h : Counted q events s) {turn : Turn T}
    (hstep : SpscQueue.step q s turn = some (s', .empty)) :
    (published events).length = (popped events).length := by
  have hknows := h.consumer
  cases step_cases hstep with
  | empty hloaded hempty =>
    rw [hloaded] at hknows
    exact h.empty_iff.mp (hknows ▸ hempty)

/-- A value that is published and not popped is in its slot until the consumer has emptied it. -/
theorem Stored.kept {contents : List T} (h : Stored q events s contents) {k : ℕ} {value : T}
    (hle : (popped events).length ≤ k) (hk : (published events)[k]? = some value) :
    s.storage_ (ring q k) = some value ∨
      k = (popped events).length ∧ ∃ head, s.consumer = .destroyed head value := by
  obtain ⟨j, rfl⟩ := Nat.exists_eq_add_of_le hle
  have hpushed : published events = popped events ++ contents := h.history.pushed_eq
  rw [hpushed, List.getElem?_append_right hle, Nat.add_sub_cancel_left] at hk
  have hlt := (List.getElem?_eq_some_iff.mp hk).1
  by_cases hgone : s.consumer.gone ≤ j
  · refine .inl (h.live j value hgone ?_)
    rw [List.getElem?_append_left hlt, hk]
  · right
    have hheld := h.held
    cases hconsumer : s.consumer with
    | destroyed head out =>
      rw [hconsumer] at hgone hheld
      have hzero : j = 0 := by
        have hone : ¬1 ≤ j := hgone
        omega
      have hout : out = value := by
        rw [hzero, ← List.head?_eq_getElem?, hheld] at hk
        exact Option.some.inj hk
      rw [hzero, hout]
      exact ⟨rfl, head, rfl⟩
    | _ =>
      rw [hconsumer] at hgone
      exact absurd (Nat.zero_le j) hgone

/-- The consumer can go on if the slot that it is about to use holds an element. -/
theorem isSome_try_pop
    (hread : ∀ head, s.consumer = .checked head → (s.storage_ (slot q head)).isSome)
    (hdestroy : ∀ head out, s.consumer = .moved head out →
      (s.storage_ (slot q head)).isSome) : (try_pop q s).isSome := by
  unfold try_pop
  cases hconsumer : s.consumer with
  | idle => rfl
  | headLoaded head =>
    dsimp only
    by_cases hempty : head = s.tail_
    · rw [if_pos hempty]
      rfl
    · rw [if_neg hempty]
      rfl
  | checked head =>
    obtain ⟨item, hitem⟩ := Option.isSome_iff_exists.mp (hread head hconsumer)
    dsimp only
    rw [hitem]
    rfl
  | moved head out =>
    obtain ⟨item, hitem⟩ := Option.isSome_iff_exists.mp (hdestroy head out hconsumer)
    dsimp only
    rw [hitem]
    rfl
  | destroyed head out => rfl

theorem Stored.correct {contents : List T} (h : Stored q events s contents)
    (hc : Counted q events s) (hapart : Apart q events) : Correct q events s := by
  have hread : ∀ head, s.consumer = .checked head → (s.storage_ (slot q head)).isSome := by
    intro head hchecked
    obtain ⟨value, _, hslot⟩ := h.head_of_checked hc hchecked
    exact Option.isSome_of_mem hslot
  have hdestroy : ∀ head out, s.consumer = .moved head out →
      (s.storage_ (slot q head)).isSome := fun head out hmoved =>
    Option.isSome_of_mem (h.head_of_moved hc hmoved)
  constructor
  case fifo => exact h.history.popped_prefix
  case kept => exact fun k value hle hk => h.kept hle hk
  case construct => exact fun value tail hchecked => h.free_of_checked hc hapart hchecked
  case read => exact hread
  case destroy => exact hdestroy
  case defined =>
    intro turn
    cases turn with
    | producer value => rfl
    | sizer thread => rfl
    | consumer => exact isSome_try_pop hread hdestroy
  case bounded =>
    have hwithin := hc.pending_le
    rw [hc.constructed, hc.destroyed]
    omega
  case full => exact fun _ _ hstep => hc.full_of_step hstep
  case empty => exact fun _ hstep => hc.empty_of_step hstep

theorem Runs.correct {turns : List (Turn T)} (h : Runs q turns s events)
    (hapart : ∀ before, before <+: events → Apart q before) : Correct q events s := by
  obtain ⟨contents, hstored⟩ := h.stored hapart
  exact hstored.correct h.counted (hapart events (List.prefix_refl events))

theorem ring_of_dvd (h : q.Capacity ∣ q.range) (n : ℕ) : ring q n = n % q.Capacity :=
  Counter.of_mod_of_dvd h n

/-- Where the capacity divides the number of values of a counter, its wrap-around is harmless. -/
theorem apart_of_dvd (h : q.Capacity ∣ q.range) (events : List (Event T)) : Apart q events := by
  intro j k hj hjk _ hk
  rw [ring_of_dvd h, ring_of_dvd h]
  exact Counter.mod_ne_of_lt hj hjk hk

/-- With unbounded counters the queue is first in, first out under every interleaving. -/
theorem interleavings_fifo (Capacity : ℕ) (pos : 0 < Capacity) {turns : List (Turn T)}
    (h : Runs (unbounded Capacity pos) turns s events) :
    popped events <+: published events ∧
    (∀ k value, s.head_ ≤ k → (published events)[k]? = some value →
      s.storage_ (k % Capacity) = some value ∨
        k = s.head_ ∧ s.consumer = .destroyed k value) ∧
    (∀ value tail, s.producer = .checked value tail → s.storage_ (tail % Capacity) = none) ∧
    (∀ head, s.consumer = .checked head → (s.storage_ (head % Capacity)).isSome) ∧
    (∀ head out, s.consumer = .moved head out → (s.storage_ (head % Capacity)).isSome) ∧
    (∀ turn, (step (unbounded Capacity pos) s turn).isSome) ∧
    constructions events ≤ destructions events + Capacity ∧
    (∀ value s', step (unbounded Capacity pos) s (.producer value) = some (s', .full) →
      s.tail_ - s.head_ = Capacity) ∧
    (∀ s', step (unbounded Capacity pos) s .consumer = some (s', .empty) →
      s.tail_ = s.head_) := by
  have hdvd : (unbounded Capacity pos).Capacity ∣ (unbounded Capacity pos).range :=
    Nat.dvd_zero Capacity
  have hcorrect := h.correct fun before _ => apart_of_dvd hdvd before
  have hcounted := h.counted
  have hhead : s.head_ = (popped events).length :=
    hcounted.head.trans (Counter.of_zero _)
  have htail : s.tail_ = (published events).length :=
    hcounted.tail.trans (Counter.of_zero _)
  refine ⟨hcorrect.fifo, ?_, hcorrect.construct, hcorrect.read, hcorrect.destroy,
    hcorrect.defined, hcorrect.bounded, ?_, ?_⟩
  · intro k value hk hvalue
    rw [hhead] at hk ⊢
    rcases hcorrect.kept k value hk hvalue with hslot | ⟨heq, head, hconsumer⟩
    · rw [ring_of_dvd hdvd] at hslot
      exact .inl hslot
    · have hknows := hcounted.consumer
      rw [hconsumer] at hknows
      refine .inr ⟨heq, ?_⟩
      rw [hconsumer, hknows.1, hhead, heq]
  · intro value s' hstep
    have hfull := hcorrect.full value s' hstep
    have hcapacity : (unbounded Capacity pos).Capacity = Capacity := rfl
    omega
  · intro s' hstep
    have hempty := hcorrect.empty s' hstep
    omega

theorem interleavings_fifo_one : ∃ s : State ℕ,
    Runs (unbounded 1 Nat.one_pos)
      [.producer 7, .consumer, .producer 7, .producer 7, .producer 7, .consumer, .consumer,
        .producer 8, .producer 8] s
      [.loaded, .loaded, .loaded, .constructed 0, .published 7, .loaded, .moved 0, .loaded,
        .full] ∧ ∀ turn, (step (unbounded 1 Nat.one_pos) s turn).isSome := by
  refine Exists.imp (fun s h => ⟨h, (interleavings_fifo 1 Nat.one_pos h).2.2.2.2.2.1⟩)
    (exists_runs ?_)
  rfl

end GeminiCpp.SpscQueue
