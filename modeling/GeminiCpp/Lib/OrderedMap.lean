import Mathlib.Data.List.AList
import Mathlib.Data.Nat.Notation

/-! Association lists as ordered maps: the keys are distinct, and the order of the entries
matters. -/
namespace OrderedMap
open List

variable {α α' : Type} {β : α → Type} {β' : α' → Type}

/-- The map without its last entry. -/
def dropLast (m : AList β) : AList β :=
  { entries := m.entries.dropLast
    nodupKeys := m.nodupKeys.sublist (dropLast_sublist m.entries) }

@[simp] theorem entries_dropLast (m : AList β) :
    (dropLast m).entries = m.entries.dropLast := rfl

theorem mem_of_mem_dropLast {m : AList β} {a : α} (h : a ∈ dropLast m) : a ∈ m :=
  ((dropLast_sublist m.entries).map Sigma.fst).subset h

theorem mem_iff_exists {m : AList β} {a : α} : a ∈ m ↔ ∃ b : β a, ⟨a, b⟩ ∈ m.entries := mem_keys

/-- The key of the last entry is in no other entry. -/
theorem mem_entries_dropLast_iff {m : AList β} {last : Sigma β}
    (hlast : m.entries.getLast? = some last) {e : Sigma β} :
    e ∈ m.entries.dropLast ↔ e ∈ m.entries ∧ e.1 ≠ last.1 := by
  obtain ⟨init, hsplit⟩ := getLast?_eq_some_iff.mp hlast
  have hfirst : m.entries.dropLast = init := by rw [hsplit, dropLast_concat]
  have hnodup : (init ++ [last]).NodupKeys := hsplit ▸ m.nodupKeys
  rw [hfirst, hsplit]
  constructor
  · intro hmem
    have hkey : last.1 ∉ init.keys := by
      have hcons : (last :: init).NodupKeys := by
        have hmiddle := nodupKeys_middle.mp hnodup
        rwa [append_nil] at hmiddle
      exact (nodupKeys_cons.mp hcons).1
    refine ⟨mem_append_left _ hmem, ?_⟩
    intro heq
    exact hkey (heq ▸ mem_keys_of_mem hmem)
  · rintro ⟨hmem, hne⟩
    rcases mem_append.mp hmem with hmem | hmem
    · exact hmem
    · exact absurd (congrArg Sigma.fst (mem_singleton.mp hmem)) hne

variable [DecidableEq α] [DecidableEq α']

theorem mem_entries_insert_iff {m : AList β} {a : α} {b : β a} {e : Sigma β} :
    e ∈ (m.insert a b).entries ↔ e = ⟨a, b⟩ ∨ e ∈ m.entries ∧ e.1 ≠ a := by
  obtain ⟨k, v⟩ := e
  rw [← AList.mem_lookup_iff]
  by_cases hk : k = a
  · subst hk
    rw [AList.lookup_insert]
    constructor
    · intro h
      exact Or.inl (by rw [Option.mem_some_iff.mp h])
    · rintro (h | ⟨_, hne⟩)
      · rw [eq_of_heq (Sigma.mk.inj h).2]
        exact Option.mem_some_self b
      · exact absurd rfl hne
  · rw [AList.lookup_insert_ne hk, AList.mem_lookup_iff]
    constructor
    · intro h
      exact Or.inr ⟨h, hk⟩
    · rintro (h | ⟨h, _⟩)
      · exact absurd (Sigma.mk.inj h).1 hk
      · exact h

theorem length_insert_of_mem {m : AList β} {a : α} (b : β a) (h : a ∈ m) :
    (m.insert a b).entries.length = m.entries.length := by
  have hkeys : (m.insert a b).keys.length = m.keys.length := by
    rw [AList.keys_insert, length_cons, length_erase_of_mem h]
    exact Nat.succ_pred_eq_of_pos (length_pos_of_mem h)
  simpa [AList.keys, keys] using hkeys

theorem length_insert_of_notMem {m : AList β} {a : α} (b : β a) (h : a ∉ m) :
    (m.insert a b).entries.length = m.entries.length + 1 := by
  rw [AList.entries_insert_of_notMem h, length_cons]

/-- Where two ways to name the entries agree on one of them, it can be erased by either name. -/
theorem map_kerase {f : Sigma β → Sigma β'} {a : α} {a' : α'} {l : List (Sigma β)}
    (h : ∀ e ∈ l, a = e.1 ↔ a' = (f e).1) : (kerase a l).map f = kerase a' (l.map f) := by
  induction l with
  | nil => rfl
  | cons e l ih =>
    have hrest := ih fun e' hmem => h e' (mem_cons_of_mem e hmem)
    rw [map_cons]
    by_cases he : a = e.1
    · rw [kerase_cons_eq he, kerase_cons_eq ((h e mem_cons_self).mp he)]
    · have hne : a' ≠ (f e).1 := fun heq => he ((h e mem_cons_self).mpr heq)
      rw [kerase_cons_ne he, kerase_cons_ne hne, map_cons, hrest]

theorem kreplace_cons_eq {a : α} (b : β a) {e : Sigma β} (l : List (Sigma β)) (h : a = e.1) :
    kreplace a b (e :: l) = ⟨a, b⟩ :: l := by
  unfold kreplace
  exact lookmap_cons_some _ _ (if_pos h)

theorem kreplace_cons_ne {a : α} (b : β a) {e : Sigma β} (l : List (Sigma β)) (h : a ≠ e.1) :
    kreplace a b (e :: l) = e :: kreplace a b l := by
  unfold kreplace
  exact lookmap_cons_none _ _ (if_neg h)

theorem lookup_replace {m : AList β} {a : α} (b : β a) (h : a ∈ m) :
    (m.replace a b).lookup a = some b := by
  have hlist : ∀ l : List (Sigma β), a ∈ l.keys → (kreplace a b l).dlookup a = some b := by
    intro l hmem
    induction l with
    | nil => exact absurd hmem not_mem_nil
    | cons e l ih =>
      by_cases he : a = e.1
      · rw [kreplace_cons_eq b l he, dlookup_cons_eq]
      · have hrest : a ∈ l.keys := (mem_cons.mp hmem).resolve_left he
        rw [kreplace_cons_ne b l he, dlookup_cons_ne _ _ he, ih hrest]
  exact hlist m.entries h

/-- A value assigned in place is gone when its entry is erased. -/
theorem kerase_kreplace (a : α) (b : β a) (l : List (Sigma β)) :
    kerase a (kreplace a b l) = kerase a l := by
  induction l with
  | nil => rfl
  | cons e l ih =>
    by_cases he : a = e.1
    · rw [kreplace_cons_eq b l he, kerase_cons_eq he, kerase_cons_eq (s := ⟨a, b⟩) rfl]
    · rw [kreplace_cons_ne b l he, kerase_cons_ne he, kerase_cons_ne he, ih]

theorem insert_replace (m : AList β) (a : α) (b b' : β a) :
    (m.replace a b).insert a b' = m.insert a b' := by
  apply AList.ext
  rw [AList.entries_insert, AList.entries_insert]
  exact congrArg (List.cons _) (kerase_kreplace a b m.entries)

end OrderedMap
