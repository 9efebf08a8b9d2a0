import GeminiCpp.Lib.Answers
import GeminiCpp.Lib.LinkedList
import GeminiCpp.Lib.Recency

/-! The reference solution of the task `lru-cache`. -/
namespace GeminiCpp

/-- `index_` holds iterators into `items_`. -/
structure LruCache (Key Value : Type) where
  capacity_ : ℕ
  items_ : LinkedList (Key × Value)
  index_ : AList fun _ : Key => ℕ

namespace LruCache
open OrderedMap Recency

variable {Key Value : Type}

def init (capacity : ℕ) : LruCache Key Value :=
  { capacity_ := capacity
    items_ := .empty
    index_ := ∅ }

def size (c : LruCache Key Value) : ℕ := c.items_.size

variable [DecidableEq Key]

/-- An insertion that does not replace. -/
def emplace (index : AList fun _ : Key => ℕ) (key : Key) (it : ℕ) : AList fun _ : Key => ℕ :=
  if key ∈ index then index else index.insert key it

/-- `none` is the use of an iterator whose element is gone. -/
def get (c : LruCache Key Value) (key : Key) : Option (LruCache Key Value × Option Value) :=
  match c.index_.lookup key with
  | none => some (c, none)
  | some it => do
    let items ← c.items_.spliceFront it
    let item ← items.deref it
    return ({ c with items_ := items }, some item.2)

/-- Make room in a full cache. -/
def evict (c : LruCache Key Value) : Option (LruCache Key Value) :=
  if c.items_.size = c.capacity_ then do
    let last ← c.items_.back
    let items ← c.items_.popBack
    return { c with items_ := items, index_ := c.index_.erase last.1 }
  else some c

def put (c : LruCache Key Value) (key : Key) (value : Value) : Option (LruCache Key Value) :=
  if c.capacity_ = 0 then some c
  else
    match c.index_.lookup key with
    | some it => do
      let item ← c.items_.deref it
      let items ← c.items_.assign it (item.1, value)
      let items ← items.spliceFront it
      return { c with items_ := items }
    | none => do
      let c ← c.evict
      let (items, it) := c.items_.emplaceFront (key, value)
      return { c with items_ := items, index_ := emplace c.index_ key it }

def contains (c : LruCache Key Value) (key : Key) : Bool := key ∈ c.index_

/-! A cache under a sequence of calls. -/

inductive Call (Key Value : Type)
  | get (key : Key)
  | put (key : Key) (value : Value)
  | contains (key : Key)

inductive Answer (Value : Type)
  | got (value : Option Value)
  | done
  | found (present : Bool)
deriving DecidableEq

def call (c : LruCache Key Value) : Call Key Value → Option (LruCache Key Value × Answer Value)
  | .get key => do
    let (c, value) ← c.get key
    return (c, .got value)
  | .put key value => do
    let c ← c.put key value
    return (c, .done)
  | .contains key => some (c, .found (c.contains key))

/-- The same calls on the map. -/
def spec (capacity : ℕ) (m : Map Key Value) : Call Key Value → Map Key Value × Answer Value
  | .get key => ((Recency.get m key).1, .got (Recency.get m key).2)
  | .put key value => (Recency.put capacity m key value, .done)
  | .contains key => (m, .found (key ∈ m))

/-! The cache refines the map. -/

/-- The entry of the map that an element of `items_` holds. -/
def entry (node : Sigma fun _ : ℕ => Key × Value) : Sigma fun _ : Key => Value :=
  ⟨node.2.1, node.2.2⟩

structure Refines (c : LruCache Key Value) (m : Map Key Value) : Prop where
  items : c.items_.nodes.entries.map entry = m.entries
  index : ∀ key it, c.index_.lookup key = some it ↔
    ∃ value, ⟨it, (key, value)⟩ ∈ c.items_.nodes.entries

theorem refines_init (capacity : ℕ) : Refines (init capacity : LruCache Key Value) ∅ := by
  constructor
  · rfl
  · intro key it
    constructor
    · intro h
      cases h
    · rintro ⟨value, h⟩
      cases h

namespace Refines
variable {c : LruCache Key Value} {m : Map Key Value} {key : Key} {it : ℕ}

theorem length (h : Refines c m) : c.items_.size = m.entries.length := by
  rw [← h.items, List.length_map]
  rfl

theorem mem_entries_iff (h : Refines c m) {value : Value} :
    ⟨key, value⟩ ∈ m.entries ↔ ∃ it, ⟨it, (key, value)⟩ ∈ c.items_.nodes.entries := by
  rw [← h.items, List.mem_map]
  constructor
  · rintro ⟨⟨it, node⟩, hmem, heq⟩
    have hnode : node = (key, value) :=
      Prod.ext (Sigma.mk.inj heq).1 (eq_of_heq (Sigma.mk.inj heq).2)
    exact ⟨it, hnode ▸ hmem⟩
  · rintro ⟨it, hmem⟩
    exact ⟨_, hmem, rfl⟩

theorem mem_index_iff (h : Refines c m) : key ∈ c.index_ ↔ key ∈ m := by
  rw [← AList.lookup_isSome, Option.isSome_iff_exists, mem_iff_exists]
  constructor
  · rintro ⟨it, hit⟩
    obtain ⟨value, hmem⟩ := (h.index key it).mp hit
    exact ⟨value, h.mem_entries_iff.mpr ⟨it, hmem⟩⟩
  · rintro ⟨value, hmem⟩
    obtain ⟨it, hit⟩ := h.mem_entries_iff.mp hmem
    exact ⟨it, (h.index key it).mpr ⟨value, hit⟩⟩

theorem notMem_of_lookup (h : Refines c m) (hnone : c.index_.lookup key = none) : key ∉ m :=
  fun hmem => AList.lookup_eq_none.mp hnone (h.mem_index_iff.mpr hmem)

/-- An entry of `index_` points at the element with its key. -/
theorem exists_value (h : Refines c m) (hit : c.index_.lookup key = some it) :
    ∃ value, c.items_.deref it = some (key, value) ∧ m.lookup key = some value := by
  obtain ⟨value, hmem⟩ := (h.index key it).mp hit
  have hentry : ⟨key, value⟩ ∈ m.entries := h.mem_entries_iff.mpr ⟨it, hmem⟩
  exact ⟨value, LinkedList.deref_eq_some_iff.mpr hmem, AList.mem_lookup_iff.mpr hentry⟩

/-- The element that an entry of `index_` points at is the only one with its key. -/
theorem it_eq_iff (h : Refines c m) (hit : c.index_.lookup key = some it) :
    ∀ node ∈ c.items_.nodes.entries, it = node.1 ↔ key = (entry node).1 := by
  rintro ⟨it', key', value'⟩ hmem
  obtain ⟨value, hown⟩ := (h.index key it).mp hit
  constructor
  · rintro rfl
    have hsame : (key', value') = (key, value) :=
      c.items_.nodes.nodupKeys.eq_of_mk_mem hmem hown
    exact (congrArg Prod.fst hsame).symm
  · intro hkey
    have hkey : key = key' := hkey
    have hit' : c.index_.lookup key' = some it' := (h.index key' it').mpr ⟨value', hmem⟩
    rw [← hkey, hit] at hit'
    exact Option.some.inj hit'

/-- An element moves to the front, with any value. -/
theorem refresh (h : Refines c m) (hit : c.index_.lookup key = some it) {value : Value}
    {items : LinkedList (Key × Value)}
    (hnodes : items.nodes = c.items_.nodes.insert it (key, value)) :
    Refines { c with items_ := items } (m.insert key value) := by
  have hnode := h.it_eq_iff hit
  constructor
  · change items.nodes.entries.map entry = _
    rw [hnodes, AList.entries_insert, AList.entries_insert, List.map_cons, map_kerase hnode,
      h.items]
    rfl
  · intro key' it'
    change c.index_.lookup key' = some it' ↔ ∃ value', ⟨it', (key', value')⟩ ∈ items.nodes.entries
    rw [h.index, hnodes]
    constructor
    · rintro ⟨value', hmem⟩
      by_cases hsame : it' = it
      · have hkey : key = key' := (hnode _ hmem).mp hsame.symm
        subst hsame hkey
        exact ⟨value, mem_entries_insert_iff.mpr (Or.inl rfl)⟩
      · exact ⟨value', mem_entries_insert_iff.mpr (Or.inr ⟨hmem, hsame⟩)⟩
    · rintro ⟨value', hmem⟩
      rcases mem_entries_insert_iff.mp hmem with heq | ⟨hmem, _⟩
      · cases heq
        exact (h.index key it).mp hit
      · exact ⟨value', hmem⟩

/-- A new element at the front. -/
theorem insert (h : Refines c m) (hnew : key ∉ m) (value : Value) :
    Refines { c with items_ := (c.items_.emplaceFront (key, value)).1,
                     index_ := emplace c.index_ key (c.items_.emplaceFront (key, value)).2 }
      (m.insert key value) := by
  have hfresh : c.items_.fresh ∉ c.items_.nodes := c.items_.fresh_notMem
  have hindex : key ∉ c.index_ := fun hmem => hnew (h.mem_index_iff.mp hmem)
  constructor
  · change (c.items_.nodes.insert c.items_.fresh (key, value)).entries.map entry = _
    rw [AList.entries_insert_of_notMem hfresh, AList.entries_insert_of_notMem hnew, List.map_cons,
      h.items]
    rfl
  · intro key' it'
    change (emplace c.index_ key c.items_.fresh).lookup key' = some it' ↔
      ∃ value', ⟨it', (key', value')⟩ ∈ (c.items_.nodes.insert c.items_.fresh (key, value)).entries
    unfold emplace
    rw [if_neg hindex, AList.entries_insert_of_notMem hfresh]
    by_cases hkey : key' = key
    · subst hkey
      rw [AList.lookup_insert]
      constructor
      · intro heq
        cases heq
        exact ⟨value, List.mem_cons_self⟩
      · rintro ⟨value', hmem⟩
        rcases List.mem_cons.mp hmem with heq | hold
        · cases heq
          rfl
        · exact absurd (h.mem_entries_iff.mpr ⟨it', hold⟩)
            fun hentry => hnew (mem_iff_exists.mpr ⟨value', hentry⟩)
    · rw [AList.lookup_insert_ne hkey, h.index]
      constructor
      · rintro ⟨value', hmem⟩
        exact ⟨value', List.mem_cons_of_mem _ hmem⟩
      · rintro ⟨value', hmem⟩
        rcases List.mem_cons.mp hmem with heq | hold
        · cases heq
          exact absurd rfl hkey
        · exact ⟨value', hold⟩

/-- The last element leaves both structures. -/
theorem dropLast (h : Refines c m) {last : Sigma fun _ : ℕ => Key × Value}
    (hlast : c.items_.nodes.entries.getLast? = some last) {items : LinkedList (Key × Value)}
    (hnodes : items.nodes = OrderedMap.dropLast c.items_.nodes) :
    Refines { c with items_ := items, index_ := c.index_.erase last.2.1 }
      (OrderedMap.dropLast m) := by
  have hmem : last ∈ c.items_.nodes.entries := List.mem_of_getLast? hlast
  have hown : c.index_.lookup last.2.1 = some last.1 :=
    (h.index last.2.1 last.1).mpr ⟨last.2.2, hmem⟩
  have hnode := h.it_eq_iff hown
  constructor
  · change items.nodes.entries.map entry = _
    rw [hnodes, entries_dropLast, entries_dropLast, List.map_dropLast, h.items]
  · intro key' it'
    change (c.index_.erase last.2.1).lookup key' = some it' ↔
      ∃ value', ⟨it', (key', value')⟩ ∈ items.nodes.entries
    rw [hnodes, entries_dropLast]
    by_cases hkey : key' = last.2.1
    · subst hkey
      rw [AList.lookup_erase]
      constructor
      · intro heq
        cases heq
      · rintro ⟨value', hold⟩
        obtain ⟨hin, hne⟩ := (mem_entries_dropLast_iff hlast).mp hold
        exact absurd ((hnode _ hin).mpr rfl) (Ne.symm hne)
    · rw [AList.lookup_erase_ne hkey, h.index]
      constructor
      · rintro ⟨value', hin⟩
        have hne : it' ≠ last.1 := fun heq => hkey ((hnode _ hin).mp heq.symm).symm
        exact ⟨value', (mem_entries_dropLast_iff hlast).mpr ⟨hin, hne⟩⟩
      · rintro ⟨value', hold⟩
        exact ⟨value', ((mem_entries_dropLast_iff hlast).mp hold).1⟩

theorem get (h : Refines c m) (key : Key) :
    ∃ c', c.get key = some (c', (Recency.get m key).2) ∧ Refines c' (Recency.get m key).1 ∧
      c'.capacity_ = c.capacity_ := by
  unfold LruCache.get Recency.get
  cases hfind : c.index_.lookup key with
  | none =>
    have hnone : m.lookup key = none := AList.lookup_eq_none.mpr (h.notMem_of_lookup hfind)
    rw [hnone]
    exact ⟨c, rfl, h, rfl⟩
  | some it =>
    obtain ⟨value, hderef, hlookup⟩ := h.exists_value hfind
    obtain ⟨items, hsplice, hnodes⟩ := LinkedList.exists_spliceFront hderef
    have hmoved : items.deref it = some (key, value) := by
      rw [LinkedList.deref_eq_some_iff, hnodes]
      exact List.mem_cons_self
    rw [hlookup]
    dsimp only
    rw [hsplice, Option.bind_eq_bind, Option.bind_some, hmoved]
    exact ⟨{ c with items_ := items }, rfl, h.refresh hfind hnodes, rfl⟩

theorem evict (h : Refines c m) (hcapacity : c.capacity_ ≠ 0) :
    ∃ c', c.evict = some c' ∧ c'.capacity_ = c.capacity_ ∧
      Refines c' (if m.entries.length = c.capacity_ then OrderedMap.dropLast m else m) := by
  unfold LruCache.evict
  rw [h.length]
  by_cases hfull : m.entries.length = c.capacity_
  · have hne : c.items_.nodes.entries ≠ [] := by
      intro hnil
      rw [← hfull, ← h.length, LinkedList.size, hnil] at hcapacity
      exact hcapacity rfl
    have hlast := List.getLast?_eq_getLast_of_ne_nil hne
    obtain ⟨items, hpop, hnodes⟩ := LinkedList.exists_popBack hlast
    rw [if_pos hfull, if_pos hfull, hpop, LinkedList.back, hlast]
    exact ⟨_, rfl, rfl, h.dropLast hlast hnodes⟩
  · rw [if_neg hfull, if_neg hfull]
    exact ⟨c, rfl, rfl, h⟩

theorem put (h : Refines c m) (key : Key) (value : Value) :
    ∃ c', c.put key value = some c' ∧ Refines c' (Recency.put c.capacity_ m key value) ∧
      c'.capacity_ = c.capacity_ := by
  unfold LruCache.put Recency.put
  by_cases hzero : c.capacity_ = 0
  · rw [if_pos hzero, if_pos hzero]
    exact ⟨c, rfl, h, rfl⟩
  · rw [if_neg hzero, if_neg hzero]
    cases hfind : c.index_.lookup key with
    | some it =>
      obtain ⟨old, hderef, hlookup⟩ := h.exists_value hfind
      obtain ⟨assigned, items, hassign, hsplice, hnodes⟩ :=
        LinkedList.exists_assign_spliceFront hderef (key, value)
      have hmem : key ∈ m := AList.lookup_isSome.mp (Option.isSome_of_mem hlookup)
      dsimp only
      rw [hderef, Option.bind_eq_bind, Option.bind_some, hassign, Option.bind_eq_bind,
        Option.bind_some, hsplice, if_neg (fun hnew => hnew.1 hmem)]
      exact ⟨{ c with items_ := items }, rfl, h.refresh hfind hnodes, rfl⟩
    | none =>
      have hnew : key ∉ m := h.notMem_of_lookup hfind
      obtain ⟨room, hevict, hcapacity, hroom⟩ := h.evict hzero
      have hnewRoom :
          key ∉ if m.entries.length = c.capacity_ then OrderedMap.dropLast m else m := by
        by_cases hfull : m.entries.length = c.capacity_
        · rw [if_pos hfull]
          exact fun hold => hnew (mem_of_mem_dropLast hold)
        · rw [if_neg hfull]
          exact hnew
      have hput := hroom.insert hnewRoom value
      dsimp only
      rw [hevict]
      refine ⟨_, rfl, ?_, hcapacity⟩
      by_cases hfull : m.entries.length = c.capacity_
      · rw [if_pos hfull] at hput
        rw [if_pos ⟨hnew, hfull⟩]
        exact hput
      · rw [if_neg hfull] at hput
        rw [if_neg (fun hboth => hfull hboth.2)]
        exact hput

theorem contains (h : Refines c m) (key : Key) : c.contains key = decide (key ∈ m) :=
  decide_eq_decide.mpr h.mem_index_iff

end Refines

/-- The cache stands for the map, within its capacity. -/
structure Represents (capacity : ℕ) (c : LruCache Key Value) (m : Map Key Value) : Prop where
  refines : Refines c m
  capacity_eq : c.capacity_ = capacity
  length : m.entries.length ≤ capacity

theorem Represents.call {capacity : ℕ} {c : LruCache Key Value} {m : Map Key Value}
    (h : Represents capacity c m) (op : Call Key Value) :
    ∃ c', c.call op = some (c', (spec capacity m op).2) ∧
      Represents capacity c' (spec capacity m op).1 := by
  cases op with
  | get key =>
    obtain ⟨c', hget, hrefines, hcapacity⟩ := h.refines.get key
    refine ⟨c', ?_, hrefines, hcapacity.trans h.capacity_eq, ?_⟩
    · unfold LruCache.call
      dsimp only
      rw [hget]
      rfl
    · exact Nat.le_trans (Nat.le_of_eq (length_get m key)) h.length
  | put key value =>
    obtain ⟨c', hput, hrefines, hcapacity⟩ := h.refines.put key value
    rw [h.capacity_eq] at hrefines
    refine ⟨c', ?_, hrefines, hcapacity.trans h.capacity_eq, length_put_le h.length key value⟩
    unfold LruCache.call
    dsimp only
    rw [hput]
    rfl
  | contains key =>
    refine ⟨c, ?_, h⟩
    unfold LruCache.call spec
    dsimp only
    rw [h.refines.contains key]

/-- Every sequence of calls is answered as the map answers it, and never through an iterator
whose element is gone; after it both structures hold the same keys. -/
theorem calls_refine (capacity : ℕ) (ops : List (Call Key Value)) :
    ∃ c : LruCache Key Value,
      Answers.tryRun call (init capacity) ops =
        some (c, (Answers.run (spec capacity) ∅ ops).2) ∧
      c.items_.values.map (fun item => ⟨item.1, item.2⟩) =
        (Answers.run (spec capacity) (∅ : Map Key Value) ops).1.entries ∧
      c.index_.keys.Nodup ∧ (c.items_.values.map Prod.fst).Nodup ∧
      (∀ key, key ∈ c.index_ ↔ key ∈ c.items_.values.map Prod.fst) ∧
      (∀ key it, c.index_.lookup key = some it →
        ∃ value, c.items_.deref it = some (key, value)) ∧
      c.capacity_ = capacity ∧ c.size ≤ capacity := by
  have hinit : Represents capacity (init capacity : LruCache Key Value) ∅ :=
    ⟨refines_init capacity, rfl, Nat.zero_le capacity⟩
  obtain ⟨c, hrun, hfinal⟩ := Answers.tryRun_eq (fun _ _ op h => h.call op) hinit ops
  have hentries := hfinal.refines.items
  have hkeys : c.items_.values.map Prod.fst =
      (Answers.run (spec capacity) (∅ : Map Key Value) ops).1.keys := by
    rw [AList.keys, ← hentries, LinkedList.values, List.keys, List.map_map, List.map_map]
    rfl
  refine ⟨c, hrun, ?_, c.index_.keys_nodup, ?_, ?_, ?_, hfinal.capacity_eq, ?_⟩
  · rw [← hentries, LinkedList.values, List.map_map]
    rfl
  · rw [hkeys]
    exact AList.keys_nodup _
  · intro key
    rw [hkeys]
    exact hfinal.refines.mem_index_iff
  · intro key it hit
    obtain ⟨value, hderef, _⟩ := hfinal.refines.exists_value hit
    exact ⟨value, hderef⟩
  · exact Nat.le_trans (Nat.le_of_eq hfinal.refines.length) hfinal.length

end LruCache
end GeminiCpp
