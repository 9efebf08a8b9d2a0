import GeminiCpp.Lib.OrderedMap

/-! Linked lists whose elements are reached by handles. A handle names one element as long as the
element stays in the list, wherever it moves. -/

/-- The elements in order, each with its handle. -/
structure LinkedList (α : Type) where
  nodes : AList fun _ : ℕ => α
  /-- The handle of the next new element. -/
  fresh : ℕ
  lt_fresh : ∀ handle ∈ nodes, handle < fresh

namespace LinkedList
open OrderedMap

variable {α : Type}

def empty : LinkedList α :=
  { nodes := ∅
    fresh := 0
    lt_fresh := fun _ h => absurd h (AList.notMem_empty _) }

def values (l : LinkedList α) : List α := l.nodes.entries.map Sigma.snd

def size (l : LinkedList α) : ℕ := l.nodes.entries.length

def back (l : LinkedList α) : Option α := l.nodes.entries.getLast?.map Sigma.snd

/-- Like the operations below, `none` where the handle names no element. -/
def deref (l : LinkedList α) (handle : ℕ) : Option α := l.nodes.lookup handle

def assign (l : LinkedList α) (handle : ℕ) (a : α) : Option (LinkedList α) :=
  if handle ∈ l.nodes then
    some
      { nodes := l.nodes.replace handle a
        fresh := l.fresh
        lt_fresh := fun k hk => l.lt_fresh k (AList.mem_replace.mp hk) }
  else none

/-- Move one element to the front. -/
def spliceFront (l : LinkedList α) (handle : ℕ) : Option (LinkedList α) :=
  if h : handle ∈ l.nodes then
    some
      { nodes := l.nodes.insert handle ((l.nodes.lookup handle).get (AList.lookup_isSome.mpr h))
        fresh := l.fresh
        lt_fresh := fun k hk => by
          rcases (AList.mem_insert l.nodes).mp hk with rfl | hk
          · exact l.lt_fresh _ h
          · exact l.lt_fresh k hk }
  else none

def popBack (l : LinkedList α) : Option (LinkedList α) :=
  if l.nodes.entries = [] then none
  else
    some
      { nodes := dropLast l.nodes
        fresh := l.fresh
        lt_fresh := fun k hk => l.lt_fresh k (mem_of_mem_dropLast hk) }

/-- The list with a new first element, and its handle. -/
def emplaceFront (l : LinkedList α) (a : α) : LinkedList α × ℕ :=
  ({ nodes := l.nodes.insert l.fresh a
     fresh := l.fresh + 1
     lt_fresh := fun k hk => by
      rcases (AList.mem_insert l.nodes).mp hk with rfl | hk
      · exact Nat.lt_succ_self _
      · exact Nat.lt_succ_of_lt (l.lt_fresh k hk) }, l.fresh)

theorem fresh_notMem (l : LinkedList α) : l.fresh ∉ l.nodes := fun h =>
  Nat.lt_irrefl _ (l.lt_fresh _ h)

theorem mem_of_deref {l : LinkedList α} {handle : ℕ} {a : α} (h : l.deref handle = some a) :
    handle ∈ l.nodes := AList.lookup_isSome.mp (Option.isSome_of_mem h)

theorem deref_eq_some_iff {l : LinkedList α} {handle : ℕ} {a : α} :
    l.deref handle = some a ↔ ⟨handle, a⟩ ∈ l.nodes.entries := AList.mem_lookup_iff

theorem exists_spliceFront {l : LinkedList α} {handle : ℕ} {a : α}
    (h : l.deref handle = some a) :
    ∃ l', l.spliceFront handle = some l' ∧ l'.nodes = l.nodes.insert handle a := by
  have hlookup : l.nodes.lookup handle = some a := h
  unfold spliceFront
  rw [dif_pos (mem_of_deref h)]
  refine ⟨_, rfl, ?_⟩
  simp only [hlookup, Option.get_some]

/-- A new value is moved to the front. -/
theorem exists_assign_spliceFront {l : LinkedList α} {handle : ℕ} {a : α}
    (h : l.deref handle = some a) (b : α) :
    ∃ l' l'', l.assign handle b = some l' ∧ l'.spliceFront handle = some l'' ∧
      l''.nodes = l.nodes.insert handle b := by
  have hmem : handle ∈ l.nodes := mem_of_deref h
  let assigned : LinkedList α :=
    { nodes := l.nodes.replace handle b
      fresh := l.fresh
      lt_fresh := fun k hk => l.lt_fresh k (AList.mem_replace.mp hk) }
  have hassign : l.assign handle b = some assigned := if_pos hmem
  have hlookup : (l.nodes.replace handle b).lookup handle = some b := lookup_replace b hmem
  have hderef : assigned.deref handle = some b := hlookup
  obtain ⟨l', hsplice, hnodes⟩ := exists_spliceFront hderef
  refine ⟨assigned, l', hassign, hsplice, ?_⟩
  rw [hnodes, insert_replace]

theorem exists_popBack {l : LinkedList α} {last : Sigma fun _ : ℕ => α}
    (h : l.nodes.entries.getLast? = some last) :
    ∃ l', l.popBack = some l' ∧ l'.nodes = dropLast l.nodes := by
  have hne : l.nodes.entries ≠ [] := by
    intro hnil
    rw [hnil] at h
    cases h
  exact ⟨_, if_neg hne, rfl⟩

end LinkedList
