import GeminiCpp.Lib.Answers
import GeminiCpp.Lib.BoundedFifo
import GeminiCpp.Lib.Counter

/-! The reference solution of the task `spsc-queue`, under any interleaving of its threads: each
load, store, construction, read and destruction is one step. -/
namespace GeminiCpp.SpscQueue
open BoundedFifo

/-- The template argument, and the number of values of a counter, which is zero for counters that
never wrap around. -/
structure Params where
  Capacity : ℕ
  range : ℕ
  pos : 0 < Capacity
  fits : range = 0 ∨ Capacity < range

/-- The counters of the code. -/
def sizeT (Capacity : ℕ) (pos : 0 < Capacity) (fits : Capacity < 2 ^ 64) : Params :=
  { Capacity := Capacity
    range := 2 ^ 64
    pos := pos
    fits := .inr fits }

def unbounded (Capacity : ℕ) (pos : 0 < Capacity) : Params :=
  { Capacity := Capacity
    range := 0
    pos := pos
    fits := .inl rfl }

/-- Where the producer is in `try_push`, with its local variables. -/
inductive TryPush (T : Type)
  | idle
  | tailLoaded (value : T) (tail : ℕ)
  /-- There was room. -/
  | checked (value : T) (tail : ℕ)
  | constructed (value : T) (tail : ℕ)

/-- Where the consumer is in `try_pop`. -/
inductive TryPop (T : Type)
  | idle
  | headLoaded (head : ℕ)
  /-- There was an element. -/
  | checked (head : ℕ)
  | moved (head : ℕ) (out : T)
  | destroyed (head : ℕ) (out : T)

structure State (T : Type) where
  /-- The elements that are alive, by their slots. -/
  storage_ : ℕ → Option T
  head_ : ℕ
  tail_ : ℕ
  producer : TryPush T
  consumer : TryPop T
  /-- The local `head` of each thread that is in `size_approx`. -/
  sizing : ℕ → Option ℕ

/-- What a step shows. -/
inductive Event (T : Type)
  | loaded
  | full
  | constructed (slot : ℕ)
  | published (value : T)
  | empty
  | moved (slot : ℕ)
  | destroyed (slot : ℕ)
  | popped (value : T)
  | sizing (thread : ℕ)
  | sized (thread size : ℕ)
deriving DecidableEq

/-- Whose step is next. A producer that is idle starts a call with the value. -/
inductive Turn (T : Type)
  | producer (value : T)
  | consumer
  | sizer (thread : ℕ)

variable {T : Type} (q : Params)

def init : State T :=
  { storage_ := fun _ => none
    head_ := 0
    tail_ := 0
    producer := .idle
    consumer := .idle
    sizing := fun _ => none }

def slot (counter : ℕ) : ℕ := counter % q.Capacity

def try_push (value : T) (s : State T) : State T × Event T :=
  match s.producer with
  | .idle => ({ s with producer := .tailLoaded value s.tail_ }, .loaded)
  | .tailLoaded value tail =>
    if Counter.sub q.range tail s.head_ = q.Capacity then ({ s with producer := .idle }, .full)
    else ({ s with producer := .checked value tail }, .loaded)
  | .checked value tail =>
    ({ s with
        storage_ := Function.update s.storage_ (slot q tail) (some value)
        producer := .constructed value tail }, .constructed (slot q tail))
  | .constructed value tail =>
    ({ s with tail_ := Counter.next q.range tail, producer := .idle }, .published value)

/-- `none` where a slot without an element is read or destroyed. -/
def try_pop (s : State T) : Option (State T × Event T) :=
  match s.consumer with
  | .idle => some ({ s with consumer := .headLoaded s.head_ }, .loaded)
  | .headLoaded head =>
    if head = s.tail_ then some ({ s with consumer := .idle }, .empty)
    else some ({ s with consumer := .checked head }, .loaded)
  | .checked head => do
    let item ← s.storage_ (slot q head)
    return ({ s with consumer := .moved head item }, .moved (slot q head))
  | .moved head out => do
    let _ ← s.storage_ (slot q head)
    return ({ s with
        storage_ := Function.update s.storage_ (slot q head) none
        consumer := .destroyed head out }, .destroyed (slot q head))
  | .destroyed head out =>
    some ({ s with head_ := Counter.next q.range head, consumer := .idle }, .popped out)

def size_approx (thread : ℕ) (s : State T) : State T × Event T :=
  match s.sizing thread with
  | none =>
    ({ s with sizing := Function.update s.sizing thread (some s.head_) }, .sizing thread)
  | some head =>
    ({ s with sizing := Function.update s.sizing thread none },
      .sized thread (Counter.sub q.range s.tail_ head))

def step (s : State T) : Turn T → Option (State T × Event T)
  | .producer value => some (try_push q value s)
  | .consumer => try_pop q s
  | .sizer thread => some (size_approx q thread s)

/-- A run with any number of threads, from an empty queue. -/
def Runs (turns : List (Turn T)) (s : State T) (events : List (Event T)) : Prop :=
  Answers.tryRun (step q) init turns = some (s, events)

/-- The turns decide what happens. -/
theorem exists_runs {q : Params} {turns : List (Turn T)} {events : List (Event T)}
    (h : (Answers.tryRun (step q) init turns).map Prod.snd = some events) :
    ∃ s, Runs q turns s events := by
  obtain ⟨⟨s, shown⟩, hrun, hshown⟩ := Option.map_eq_some_iff.mp h
  exact ⟨s, hshown ▸ hrun⟩

/-! What the queue does to its elements. -/

def Event.op : Event T → Option (Op T)
  | .published value => some (.push value)
  | .popped value => some (.pop value)
  | .full => some .full
  | .empty => some .empty
  | _ => none

def history (events : List (Event T)) : List (Op T) := events.filterMap Event.op

/-- The values that the stores to `tail_` published. -/
def published (events : List (Event T)) : List T := BoundedFifo.pushed (history events)

/-- The values that `try_pop` returned. -/
def popped (events : List (Event T)) : List T := BoundedFifo.popped (history events)

def Event.constructs : Event T → Bool
  | .constructed _ => true
  | _ => false

def Event.destroys : Event T → Bool
  | .destroyed _ => true
  | _ => false

/-- The elements whose lives have begun. -/
def constructions (events : List (Event T)) : ℕ := events.countP Event.constructs

/-- The elements whose lives have ended. -/
def destructions (events : List (Event T)) : ℕ := events.countP Event.destroys

@[simp] theorem history_concat (events : List (Event T)) (e : Event T) :
    history (events ++ [e]) = history events ++ e.op.toList := by
  unfold history
  cases h : e.op <;> simp [h]

theorem published_append (events events' : List (Event T)) :
    published (events ++ events') = published events ++ published events' := by
  unfold published history BoundedFifo.pushed
  rw [List.filterMap_append, List.filterMap_append]

theorem popped_append (events events' : List (Event T)) :
    popped (events ++ events') = popped events ++ popped events' := by
  unfold popped history BoundedFifo.popped
  rw [List.filterMap_append, List.filterMap_append]

theorem published_concat (events : List (Event T)) (e : Event T) :
    published (events ++ [e]) = published events ++ (e.op.bind Op.pushed).toList := by
  unfold published
  rw [history_concat]
  cases h : e.op <;> simp

theorem popped_concat (events : List (Event T)) (e : Event T) :
    popped (events ++ [e]) = popped events ++ (e.op.bind Op.popped).toList := by
  unfold popped
  rw [history_concat]
  cases h : e.op <;> simp

theorem published_silent (events : List (Event T)) {e : Event T}
    (h : e.op.bind Op.pushed = none) : published (events ++ [e]) = published events := by
  rw [published_concat, h, Option.toList_none, List.append_nil]

theorem popped_silent (events : List (Event T)) {e : Event T}
    (h : e.op.bind Op.popped = none) : popped (events ++ [e]) = popped events := by
  rw [popped_concat, h, Option.toList_none, List.append_nil]

theorem history_silent (events : List (Event T)) {e : Event T} (h : e.op = none) :
    history (events ++ [e]) = history events := by
  rw [history_concat, h, Option.toList_none, List.append_nil]

@[simp] theorem constructions_concat (events : List (Event T)) (e : Event T) :
    constructions (events ++ [e]) = constructions events + e.constructs.toNat := by
  unfold constructions
  cases h : e.constructs <;> simp [h]

@[simp] theorem destructions_concat (events : List (Event T)) (e : Event T) :
    destructions (events ++ [e]) = destructions events + e.destroys.toNat := by
  unfold destructions
  cases h : e.destroys <;> simp [h]

/-! What a step does. -/

inductive Step (s : State T) : Event T → State T → Prop
  | loadTail (value : T) (hproducer : s.producer = .idle) :
    Step s .loaded { s with producer := .tailLoaded value s.tail_ }
  | full {value : T} {tail : ℕ} (hproducer : s.producer = .tailLoaded value tail)
    (hfull : Counter.sub q.range tail s.head_ = q.Capacity) :
    Step s .full { s with producer := .idle }
  | checkRoom {value : T} {tail : ℕ} (hproducer : s.producer = .tailLoaded value tail)
    (hroom : Counter.sub q.range tail s.head_ ≠ q.Capacity) :
    Step s .loaded { s with producer := .checked value tail }
  | construct {value : T} {tail : ℕ} (hproducer : s.producer = .checked value tail) :
    Step s (.constructed (slot q tail))
      { s with
        storage_ := Function.update s.storage_ (slot q tail) (some value)
        producer := .constructed value tail }
  | publish {value : T} {tail : ℕ} (hproducer : s.producer = .constructed value tail) :
    Step s (.published value)
      { s with tail_ := Counter.next q.range tail, producer := .idle }
  | loadHead (hconsumer : s.consumer = .idle) :
    Step s .loaded { s with consumer := .headLoaded s.head_ }
  | empty {head : ℕ} (hconsumer : s.consumer = .headLoaded head) (hempty : head = s.tail_) :
    Step s .empty { s with consumer := .idle }
  | checkElement {head : ℕ} (hconsumer : s.consumer = .headLoaded head)
    (helement : head ≠ s.tail_) : Step s .loaded { s with consumer := .checked head }
  | move {head : ℕ} {item : T} (hconsumer : s.consumer = .checked head)
    (hitem : s.storage_ (slot q head) = some item) :
    Step s (.moved (slot q head)) { s with consumer := .moved head item }
  | destroy {head : ℕ} {out item : T} (hconsumer : s.consumer = .moved head out)
    (hitem : s.storage_ (slot q head) = some item) :
    Step s (.destroyed (slot q head))
      { s with
        storage_ := Function.update s.storage_ (slot q head) none
        consumer := .destroyed head out }
  | pop {head : ℕ} {out : T} (hconsumer : s.consumer = .destroyed head out) :
    Step s (.popped out) { s with head_ := Counter.next q.range head, consumer := .idle }
  | sizeHead {thread : ℕ} (hthread : s.sizing thread = none) :
    Step s (.sizing thread)
      { s with sizing := Function.update s.sizing thread (some s.head_) }
  | sizeTail {thread head : ℕ} (hthread : s.sizing thread = some head) :
    Step s (.sized thread (Counter.sub q.range s.tail_ head))
      { s with sizing := Function.update s.sizing thread none }

variable {q} {s s' : State T} {e : Event T}

theorem step_of_try_push {value : T} (h : try_push q value s = (s', e)) : Step q s e s' := by
  unfold try_push at h
  cases hproducer : s.producer with
  | idle =>
    rw [hproducer] at h
    cases h
    exact .loadTail value hproducer
  | tailLoaded value tail =>
    rw [hproducer] at h
    dsimp only at h
    by_cases hfull : Counter.sub q.range tail s.head_ = q.Capacity
    · rw [if_pos hfull] at h
      cases h
      exact .full hproducer hfull
    · rw [if_neg hfull] at h
      cases h
      exact .checkRoom hproducer hfull
  | checked value tail =>
    rw [hproducer] at h
    cases h
    exact .construct hproducer
  | constructed value tail =>
    rw [hproducer] at h
    cases h
    exact .publish hproducer

theorem step_of_try_pop (h : try_pop q s = some (s', e)) : Step q s e s' := by
  unfold try_pop at h
  cases hconsumer : s.consumer with
  | idle =>
    rw [hconsumer] at h
    cases h
    exact .loadHead hconsumer
  | headLoaded head =>
    rw [hconsumer] at h
    dsimp only at h
    by_cases hempty : head = s.tail_
    · rw [if_pos hempty] at h
      cases h
      exact .empty hconsumer hempty
    · rw [if_neg hempty] at h
      cases h
      exact .checkElement hconsumer hempty
  | checked head =>
    rw [hconsumer] at h
    obtain ⟨item, hitem, hnext⟩ := Option.bind_eq_some_iff.mp h
    cases hnext
    exact .move hconsumer hitem
  | moved head out =>
    rw [hconsumer] at h
    obtain ⟨item, hitem, hnext⟩ := Option.bind_eq_some_iff.mp h
    cases hnext
    exact .destroy hconsumer hitem
  | destroyed head out =>
    rw [hconsumer] at h
    cases h
    exact .pop hconsumer

theorem step_of_size_approx {thread : ℕ} (h : size_approx q thread s = (s', e)) :
    Step q s e s' := by
  unfold size_approx at h
  cases hthread : s.sizing thread with
  | none =>
    rw [hthread] at h
    cases h
    exact .sizeHead hthread
  | some head =>
    rw [hthread] at h
    cases h
    exact .sizeTail hthread

theorem step_cases {turn : Turn T} (h : step q s turn = some (s', e)) : Step q s e s' := by
  cases turn with
  | producer value => exact step_of_try_push (Option.some.inj h)
  | consumer => exact step_of_try_pop h
  | sizer thread => exact step_of_size_approx (Option.some.inj h)

/-! The counters, whatever is in the slots. -/

/-- What the producer knows: the counter that it loaded, and that there is room once it has
checked. -/
def TryPush.Knows (tail_ : ℕ) (room : Prop) : TryPush T → Prop
  | .idle => True
  | .tailLoaded _ tail => tail = tail_
  | .checked _ tail | .constructed _ tail => tail = tail_ ∧ room

def TryPop.Knows (head_ : ℕ) (element : Prop) : TryPop T → Prop
  | .idle => True
  | .headLoaded head => head = head_
  | .checked head | .moved head _ | .destroyed head _ => head = head_ ∧ element

theorem TryPush.Knows.mono {producer : TryPush T} {tail_ : ℕ} {room room' : Prop}
    (h : producer.Knows tail_ room) (himp : room → room') : producer.Knows tail_ room' := by
  cases producer with
  | idle => trivial
  | tailLoaded value tail => exact h
  | checked value tail => exact ⟨h.1, himp h.2⟩
  | constructed value tail => exact ⟨h.1, himp h.2⟩

theorem TryPop.Knows.mono {consumer : TryPop T} {head_ : ℕ} {element element' : Prop}
    (h : consumer.Knows head_ element) (himp : element → element') :
    consumer.Knows head_ element' := by
  cases consumer with
  | idle => trivial
  | headLoaded head => exact h
  | checked head => exact ⟨h.1, himp h.2⟩
  | moved head out => exact ⟨h.1, himp h.2⟩
  | destroyed head out => exact ⟨h.1, himp h.2⟩

/-- The value in a slot that is not published yet. -/
def TryPush.pending : TryPush T → List T
  | .constructed value _ => [value]
  | _ => []

theorem TryPush.length_pending_le (producer : TryPush T) : producer.pending.length ≤ 1 := by
  cases producer with
  | constructed value tail => exact Nat.le_refl 1
  | _ => exact Nat.zero_le 1

/-- The slots that are empty and not released yet. -/
def TryPop.gone : TryPop T → ℕ
  | .destroyed _ _ => 1
  | _ => 0

structure Counted (q : Params) (events : List (Event T)) (s : State T) : Prop where
  head : s.head_ = Counter.of q.range (popped events).length
  tail : s.tail_ = Counter.of q.range (published events).length
  le : (popped events).length ≤ (published events).length
  bound : (published events).length ≤ (popped events).length + q.Capacity
  producer : s.producer.Knows s.tail_
    ((published events).length < (popped events).length + q.Capacity)
  consumer : s.consumer.Knows s.head_ ((popped events).length < (published events).length)
  constructed : constructions events = (published events).length + s.producer.pending.length
  destroyed : destructions events = (popped events).length + s.consumer.gone

variable {events : List (Event T)}

theorem counted_init (q : Params) : Counted q [] (init : State T) := by
  constructor
  case head => exact (Counter.of_start q.range).symm
  case tail => exact (Counter.of_start q.range).symm
  case le => exact Nat.le_refl 0
  case bound => exact Nat.zero_le _
  case producer => trivial
  case consumer => trivial
  case constructed => rfl
  case destroyed => rfl

namespace Counted

theorem fits (h : Counted q events s) :
    q.range = 0 ∨ (published events).length - (popped events).length < q.range := by
  have hbound := h.bound
  rcases q.fits with hzero | hlt
  · exact .inl hzero
  · exact .inr (by omega)

theorem sub_eq (h : Counted q events s) : Counter.sub q.range s.tail_ s.head_ =
    (published events).length - (popped events).length := by
  rw [h.tail, h.head, Counter.sub_of_eq h.le h.fits]

/-- The test for a full queue is exact. -/
theorem full_iff (h : Counted q events s) : Counter.sub q.range s.tail_ s.head_ = q.Capacity ↔
    (published events).length = (popped events).length + q.Capacity := by
  have hle := h.le
  rw [h.sub_eq]
  omega

/-- The test for an empty queue is exact. -/
theorem empty_iff (h : Counted q events s) :
    s.head_ = s.tail_ ↔ (published events).length = (popped events).length := by
  rw [h.tail, h.head, Counter.of_eq_iff h.le h.fits]
  exact eq_comm

/-- A step that stores to neither counter. -/
theorem silent (h : Counted q events s) (hpushed : e.op.bind Op.pushed = none)
    (hpopped : e.op.bind Op.popped = none) (hhead : s'.head_ = s.head_)
    (htail : s'.tail_ = s.tail_)
    (hpending : s'.producer.pending.length = s.producer.pending.length + e.constructs.toNat)
    (hgone : s'.consumer.gone = s.consumer.gone + e.destroys.toNat)
    (hproducer : s'.producer.Knows s.tail_
      ((published events).length < (popped events).length + q.Capacity))
    (hconsumer : s'.consumer.Knows s.head_
      ((popped events).length < (published events).length)) :
    Counted q (events ++ [e]) s' := by
  have hpub := published_silent events hpushed
  have hpop := popped_silent events hpopped
  constructor
  case head => rw [hhead, hpop, h.head]
  case tail => rw [htail, hpub, h.tail]
  case le => rw [hpub, hpop]; exact h.le
  case bound => rw [hpub, hpop]; exact h.bound
  case producer => rw [htail, hpub, hpop]; exact hproducer
  case consumer => rw [hhead, hpub, hpop]; exact hconsumer
  case constructed =>
    rw [constructions_concat, hpub, hpending, h.constructed, Nat.add_assoc]
  case destroyed =>
    rw [destructions_concat, hpop, hgone, h.destroyed, Nat.add_assoc]

theorem publish (h : Counted q events s) {value : T} {tail : ℕ}
    (hconstructed : s.producer = .constructed value tail) :
    Counted q (events ++ [.published value])
      { s with tail_ := Counter.next q.range tail, producer := .idle } := by
  have hproducer := h.producer
  rw [hconstructed] at hproducer
  obtain ⟨htail, hroom⟩ := hproducer
  have hle := h.le
  have hpub : (published (events ++ [.published value])).length =
      (published events).length + 1 := by
    rw [published_concat, List.length_append]
    rfl
  have hpop := popped_silent events (e := .published value) rfl
  constructor
  case head => rw [hpop]; exact h.head
  case tail =>
    change Counter.next q.range tail = _
    rw [htail, h.tail, Counter.next_of, hpub]
  case le => rw [hpub, hpop]; omega
  case bound => rw [hpub, hpop]; omega
  case producer => trivial
  case consumer =>
    rw [hpub, hpop]
    exact h.consumer.mono fun hlt => Nat.lt_succ_of_lt hlt
  case constructed =>
    rw [constructions_concat, hpub, h.constructed, hconstructed]
    rfl
  case destroyed =>
    rw [destructions_concat, hpop, h.destroyed]
    rfl

theorem pop (h : Counted q events s) {head : ℕ} {out : T}
    (hdestroyed : s.consumer = .destroyed head out) :
    Counted q (events ++ [.popped out])
      { s with head_ := Counter.next q.range head, consumer := .idle } := by
  have hconsumer := h.consumer
  rw [hdestroyed] at hconsumer
  obtain ⟨hhead, helement⟩ := hconsumer
  have hbound := h.bound
  have hpub := published_silent events (e := .popped out) rfl
  have hpop : (popped (events ++ [.popped out])).length = (popped events).length + 1 := by
    rw [popped_concat, List.length_append]
    rfl
  constructor
  case head =>
    change Counter.next q.range head = _
    rw [hhead, h.head, Counter.next_of, hpop]
  case tail => rw [hpub]; exact h.tail
  case le => rw [hpub, hpop]; omega
  case bound => rw [hpub, hpop]; omega
  case producer =>
    rw [hpub, hpop]
    exact h.producer.mono fun hlt => by omega
  case consumer => trivial
  case constructed =>
    rw [constructions_concat, hpub, h.constructed]
    rfl
  case destroyed =>
    rw [destructions_concat, hpop, h.destroyed, hdestroyed]
    rfl

theorem step (h : Counted q events s) (hstep : Step q s e s') : Counted q (events ++ [e]) s' := by
  have hproducer := h.producer
  have hconsumer := h.consumer
  cases hstep with
  | loadTail value hidle =>
    exact h.silent rfl rfl rfl rfl (by rw [hidle]; rfl) rfl rfl hconsumer
  | full hloaded _ =>
    exact h.silent rfl rfl rfl rfl (by rw [hloaded]; rfl) rfl trivial hconsumer
  | checkRoom hloaded hroom =>
    rw [hloaded] at hproducer
    have hlt : (published events).length < (popped events).length + q.Capacity := by
      have hbound := h.bound
      have hne := mt h.full_iff.mpr (hproducer ▸ hroom)
      omega
    exact h.silent rfl rfl rfl rfl (by rw [hloaded]; rfl) rfl ⟨hproducer, hlt⟩ hconsumer
  | construct hchecked =>
    rw [hchecked] at hproducer
    exact h.silent rfl rfl rfl rfl (by rw [hchecked]; rfl) rfl hproducer hconsumer
  | publish hconstructed => exact h.publish hconstructed
  | loadHead hidle =>
    exact h.silent rfl rfl rfl rfl rfl (by rw [hidle]; rfl) hproducer rfl
  | empty hloaded _ =>
    exact h.silent rfl rfl rfl rfl rfl (by rw [hloaded]; rfl) hproducer trivial
  | checkElement hloaded helement =>
    rw [hloaded] at hconsumer
    have hlt : (popped events).length < (published events).length := by
      have hle := h.le
      have hne := mt h.empty_iff.mpr (hconsumer ▸ helement)
      omega
    exact h.silent rfl rfl rfl rfl rfl (by rw [hloaded]; rfl) hproducer ⟨hconsumer, hlt⟩
  | move hchecked _ =>
    rw [hchecked] at hconsumer
    exact h.silent rfl rfl rfl rfl rfl (by rw [hchecked]; rfl) hproducer hconsumer
  | destroy hmoved _ =>
    rw [hmoved] at hconsumer
    exact h.silent rfl rfl rfl rfl rfl (by rw [hmoved]; rfl) hproducer hconsumer
  | pop hdestroyed => exact h.pop hdestroyed
  | sizeHead _ => exact h.silent rfl rfl rfl rfl rfl rfl hproducer hconsumer
  | sizeTail _ => exact h.silent rfl rfl rfl rfl rfl rfl hproducer hconsumer

/-- Also with the element that is not published yet, the queue is within its capacity. -/
theorem pending_le (h : Counted q events s) : (published events).length +
    s.producer.pending.length ≤ (popped events).length + q.Capacity := by
  have hproducer := h.producer
  cases hp : s.producer with
  | constructed value tail =>
    rw [hp] at hproducer
    exact hproducer.2
  | _ => exact h.bound

/-- A slot that is empty already was in use. -/
theorem gone_le (h : Counted q events s) :
    (popped events).length + s.consumer.gone ≤ (published events).length := by
  have hconsumer := h.consumer
  cases hc : s.consumer with
  | destroyed head out =>
    rw [hc] at hconsumer
    exact hconsumer.2
  | _ => exact h.le

end Counted

theorem Runs.counted {turns : List (Turn T)} (h : Runs q turns s events) : Counted q events s :=
  Answers.tryRun_invariant (counted_init q)
    (fun _ _ _ _ _ hcounted hstep => hcounted.step (step_cases hstep)) h

theorem Runs.concat {turns : List (Turn T)} {turn : Turn T} (h : Runs q turns s events)
    (hstep : step q s turn = some (s', e)) : Runs q (turns ++ [turn]) s' (events ++ [e]) :=
  Answers.tryRun_append h (Answers.tryRun_cons_eq_some_iff.mpr ⟨s', e, [], hstep, rfl, rfl⟩)

/-- What has happened at an earlier moment of a run. -/
theorem Runs.exists_before {turns : List (Turn T)} {before after : List (Event T)}
    (h : Runs q turns s (before ++ after)) : ∃ turns' s', Runs q turns' s' before := by
  obtain ⟨turns', _, s', _, hbefore, _⟩ := Answers.exists_tryRun_of_append h
  exact ⟨turns', s', hbefore⟩

end GeminiCpp.SpscQueue
