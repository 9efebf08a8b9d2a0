import Mathlib.Data.List.Basic

/-! Folding items into a list of slots, one for each key, in the order in which the keys come. -/
namespace KeyedFold

variable {α β κ : Type} [DecidableEq κ]

/-- How items go into slots. -/
structure Rules (α β κ : Type) where
  key : α → κ
  slot : β → κ
  fresh : κ → β
  absorb : β → α → β
  slot_fresh : ∀ k, slot (fresh k) = k
  slot_absorb : ∀ b a, slot (absorb b a) = slot b

variable (r : Rules α β κ)

/-- The first slot with the key of an item absorbs it; without one a new slot is added. -/
def insert (slots : List β) (a : α) : List β :=
  match slots with
  | [] => [r.absorb (r.fresh (r.key a)) a]
  | b :: slots => if r.slot b = r.key a then r.absorb b a :: slots else b :: insert slots a

/-- The items with a key. -/
def own (k : κ) (items : List α) : List α := items.filter fun a => r.key a = k

/-- The first slot takes what has its key, and the others the rest. -/
theorem foldl_insert_cons (items : List α) (b : β) (slots : List β) :
    items.foldl (insert r) (b :: slots) =
      (own r (r.slot b) items).foldl r.absorb b ::
        (items.filter fun a => !r.key a == r.slot b).foldl (insert r) slots := by
  induction items generalizing b slots with
  | nil => rfl
  | cons a items ih =>
    unfold own at ih ⊢
    rw [List.foldl_cons, insert]
    by_cases hkey : r.slot b = r.key a
    · rw [if_pos hkey, ih, r.slot_absorb, List.filter_cons_of_pos (by simpa using hkey.symm),
        List.filter_cons_of_neg (by simpa using hkey.symm), List.foldl_cons]
    · rw [if_neg hkey, ih, List.filter_cons_of_neg (by simpa using Ne.symm hkey),
        List.filter_cons_of_pos (by simpa using Ne.symm hkey), List.foldl_cons]

/-- The items of other keys do not count. -/
theorem own_filter_ne {k other : κ} (h : k ≠ other) (items : List α) :
    own r k (items.filter fun a => !r.key a == other) = own r k items := by
  unfold own
  rw [List.filter_filter]
  apply List.filter_congr
  intro a _
  by_cases hkey : r.key a = k
  · have hother : r.key a ≠ other := fun heq => h (hkey.symm.trans heq)
    simp [hkey, h]
  · simp [hkey]

/-- There is a slot for each key, in the order in which the keys came first, and it has absorbed
the items of its key. -/
theorem foldl_insert_nil (items : List α) :
    items.foldl (insert r) [] =
      (items.map r.key).eraseDups.map fun k => (own r k items).foldl r.absorb (r.fresh k) := by
  induction hlength : items.length using Nat.strongRecOn generalizing items with
  | _ n ih =>
    cases items with
    | nil => rfl
    | cons a items =>
      have hrest := ih (items.filter fun b => !r.key b == r.key a).length (by
        have hle := List.length_filter_le (fun b => !r.key b == r.key a) items
        rw [List.length_cons] at hlength
        omega) _ rfl
      have hslot : r.slot (r.absorb (r.fresh (r.key a)) a) = r.key a := by
        rw [r.slot_absorb, r.slot_fresh]
      have hown : own r (r.key a) (a :: items) = a :: own r (r.key a) items :=
        List.filter_cons_of_pos (by simp)
      have hkeys : (items.filter fun b => !r.key b == r.key a).map r.key =
          (items.map r.key).filter fun k => !k == r.key a := by
        rw [List.filter_map]
        rfl
      rw [List.foldl_cons, insert, foldl_insert_cons, hslot, hrest, List.map_cons,
        List.eraseDups_cons, List.map_cons, hown, List.foldl_cons, hkeys]
      congr 1
      apply List.map_congr_left
      intro k hmem
      have hne : k ≠ r.key a := by
        have hin := List.mem_eraseDups.mp hmem
        simpa using (List.mem_filter.mp hin).2
      have hskip : own r k (a :: items) = own r k items :=
        List.filter_cons_of_neg (by simpa using Ne.symm hne)
      rw [own_filter_ne r hne, hskip]

omit [DecidableEq κ] in
theorem slot_foldl_absorb (items : List α) (b : β) :
    r.slot (items.foldl r.absorb b) = r.slot b := by
  induction items generalizing b with
  | nil => rfl
  | cons a items ih => rw [List.foldl_cons, ih, r.slot_absorb]

/-- What the slot of a key has become depends only on the items of the key. -/
theorem find_slot (k : κ) (items : List α) :
    (items.foldl (insert r) []).find? (fun b => r.slot b = k) =
      if own r k items = [] then none
      else some ((own r k items).foldl r.absorb (r.fresh k)) := by
  have hslot : ((fun b => decide (r.slot b = k)) ∘ fun k' =>
      (own r k' items).foldl r.absorb (r.fresh k')) = fun k' => decide (k' = k) := by
    funext k'
    rw [Function.comp_apply, slot_foldl_absorb, r.slot_fresh]
  have hown : own r k items = [] ↔ k ∉ (items.map r.key).eraseDups := by
    unfold own
    rw [List.filter_eq_nil_iff, List.mem_eraseDups, List.mem_map]
    simp
  rw [foldl_insert_nil, List.find?_map, hslot]
  split_ifs with hnone
  · have hfind : (items.map r.key).eraseDups.find? (fun k' => decide (k' = k)) = none := by
      rw [List.find?_eq_none]
      intro k' hmem heq
      exact hown.mp hnone (of_decide_eq_true heq ▸ hmem)
    rw [hfind, Option.map_none]
  · have hmem : k ∈ (items.map r.key).eraseDups := by
      by_contra hnot
      exact hnone (hown.mpr hnot)
    have hfind : (items.map r.key).eraseDups.find? (fun k' => decide (k' = k)) = some k := by
      cases hfound : (items.map r.key).eraseDups.find? (fun k' => decide (k' = k)) with
      | none => exact absurd (decide_eq_true rfl) (List.find?_eq_none.mp hfound k hmem)
      | some k' =>
        have heq := List.find?_some hfound
        rw [of_decide_eq_true heq]
    rw [hfind, Option.map_some]

/-- The first slot is that of the first item's key. -/
theorem head_foldl_insert (items : List α) :
    (items.foldl (insert r) []).head? =
      items.head?.map fun a => (own r (r.key a) items).foldl r.absorb (r.fresh (r.key a)) := by
  rw [foldl_insert_nil]
  cases items with
  | nil => rfl
  | cons a items => rw [List.map_cons, List.eraseDups_cons, List.map_cons]; rfl

end KeyedFold
