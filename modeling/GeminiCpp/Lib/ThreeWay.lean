import Mathlib.Data.List.Lex
import Mathlib.Data.Prod.Lex
import Mathlib.Order.WithBot
import Mathlib.Data.Sum.Order

/-! Three-way comparison: minus one, zero or one. On lists it is decided by the first entries that
differ, and else by the lengths. -/
namespace ThreeWay

variable {κ ι : Type} [LinearOrder κ] [LinearOrder ι]

def threeWay (x y : κ) : ℤ := if x < y then -1 else if y < x then 1 else 0

theorem threeWay_of_lt {x y : κ} (h : x < y) : threeWay x y = -1 := if_pos h

theorem threeWay_of_gt {x y : κ} (h : y < x) : threeWay x y = 1 := by
  unfold threeWay
  rw [if_neg (not_lt_of_gt h), if_pos h]

theorem threeWay_self (x : κ) : threeWay x x = 0 := by
  unfold threeWay
  rw [if_neg (lt_irrefl x), if_neg (lt_irrefl x)]

theorem threeWay_swap (x y : κ) : threeWay y x = -threeWay x y := by
  rcases lt_trichotomy x y with h | rfl | h
  · rw [threeWay_of_lt h, threeWay_of_gt h, Int.neg_neg]
  · rw [threeWay_self, Int.neg_zero]
  · rw [threeWay_of_lt h, threeWay_of_gt h]

theorem threeWay_eq_zero_iff {x y : κ} : threeWay x y = 0 ↔ x = y := by
  rcases lt_trichotomy x y with h | rfl | h
  · rw [threeWay_of_lt h]
    exact ⟨fun hzero => absurd hzero (by decide), fun heq => absurd heq (ne_of_lt h)⟩
  · exact ⟨fun _ => rfl, fun _ => threeWay_self x⟩
  · rw [threeWay_of_gt h]
    exact ⟨fun hzero => absurd hzero (by decide), fun heq => absurd heq (ne_of_gt h)⟩

theorem threeWay_nonpos_iff {x y : κ} : threeWay x y ≤ 0 ↔ x ≤ y := by
  rcases lt_trichotomy x y with h | rfl | h
  · rw [threeWay_of_lt h]
    exact ⟨fun _ => le_of_lt h, fun _ => by decide⟩
  · rw [threeWay_self]
    exact ⟨fun _ => le_refl x, fun _ => le_refl 0⟩
  · rw [threeWay_of_gt h]
    exact ⟨fun hle => absurd hle (by decide), fun hle => absurd hle (not_le_of_gt h)⟩

/-- An order embedding keeps comparisons. -/
theorem threeWay_map {f : ι → κ} (hf : StrictMono f) (x y : ι) :
    threeWay (f x) (f y) = threeWay x y := by
  unfold threeWay
  simp only [hf.lt_iff_lt]

/-- The first comparison that decides. -/
def first (cs : List ℤ) : Option ℤ := cs.find? (· ≠ 0)

theorem threeWay_cons (x y : κ) (xs ys : List κ) : threeWay (x :: xs) (y :: ys) =
    if threeWay x y ≠ 0 then threeWay x y else threeWay xs ys := by
  rcases lt_trichotomy x y with h | rfl | h
  · rw [threeWay_of_lt h, if_pos (by decide)]
    exact threeWay_of_lt (List.Lex.rel h)
  · rw [threeWay_self, if_neg (by decide)]
    rcases lt_trichotomy xs ys with h | rfl | h
    · rw [threeWay_of_lt h]
      exact threeWay_of_lt (List.Lex.cons h)
    · rw [threeWay_self, threeWay_self]
    · rw [threeWay_of_gt h]
      exact threeWay_of_gt (List.Lex.cons h)
  · rw [threeWay_of_gt h, if_pos (by decide)]
    exact threeWay_of_gt (List.Lex.rel h)

/-- Lists are compared entry by entry, and where one is a prefix of the other, by length. -/
theorem threeWay_lists (xs ys : List κ) :
    threeWay xs ys = (first (List.zipWith threeWay xs ys)).getD (threeWay xs.length ys.length) := by
  induction xs generalizing ys with
  | nil =>
    cases ys with
    | nil => rw [threeWay_self]; rfl
    | cons y ys => exact threeWay_of_lt List.Lex.nil
  | cons x xs ih =>
    cases ys with
    | nil => exact threeWay_of_gt List.Lex.nil
    | cons y ys =>
      rw [threeWay_cons, List.zipWith_cons_cons, first]
      by_cases hxy : threeWay x y ≠ 0
      · rw [if_pos hxy, List.find?_cons_of_pos (by simpa using hxy), Option.getD_some]
      · have hlength : threeWay (x :: xs).length (y :: ys).length = threeWay xs.length ys.length :=
          threeWay_map (f := Nat.succ) (fun _ _ => Nat.succ_lt_succ) _ _
        rw [if_neg hxy, List.find?_cons_of_neg (by simpa using hxy), ih, hlength]
        rfl

theorem first_ne_zero {cs : List ℤ} {c : ℤ} (h : first cs = some c) : c ≠ 0 := by
  have hfound := List.find?_some h
  simpa using hfound

/-- A comparison of entries that agrees with the order of their keys. -/
theorem threeWay_lists_map {α : Type} {f : α → κ} {cmp : α → α → ℤ} {xs ys : List α}
    (h : ∀ x ∈ xs, ∀ y ∈ ys, cmp x y = threeWay (f x) (f y)) :
    threeWay (xs.map f) (ys.map f) =
      (first (List.zipWith cmp xs ys)).getD (threeWay xs.length ys.length) := by
  have hzip : List.zipWith threeWay (xs.map f) (ys.map f) = List.zipWith cmp xs ys := by
    induction xs generalizing ys with
    | nil => rfl
    | cons x xs ih =>
      cases ys with
      | nil => rfl
      | cons y ys =>
        rw [List.map_cons, List.map_cons, List.zipWith_cons_cons, List.zipWith_cons_cons,
          h x (List.mem_cons_self ..) y (List.mem_cons_self ..),
          ih fun u hu v hv => h u (List.mem_cons_of_mem _ hu) v (List.mem_cons_of_mem _ hv)]
  rw [threeWay_lists, hzip, List.length_map, List.length_map]

theorem threeWay_prod (a a' : κ) (b b' : ι) : threeWay (toLex (a, b)) (toLex (a', b')) =
    if threeWay a a' ≠ 0 then threeWay a a' else threeWay b b' := by
  rcases lt_trichotomy a a' with h | rfl | h
  · rw [threeWay_of_lt h, if_pos (by decide)]
    exact threeWay_of_lt (Prod.Lex.toLex_lt_toLex.mpr (.inl h))
  · rw [threeWay_self, if_neg (by decide)]
    have hlt : ∀ {c d : ι}, c < d → toLex (a, c) < toLex (a, d) :=
      fun h => Prod.Lex.toLex_lt_toLex.mpr (.inr ⟨rfl, h⟩)
    rcases lt_trichotomy b b' with h | rfl | h
    · rw [threeWay_of_lt h, threeWay_of_lt (hlt h)]
    · rw [threeWay_self, threeWay_self]
    · rw [threeWay_of_gt h, threeWay_of_gt (hlt h)]
  · rw [threeWay_of_gt h, if_pos (by decide)]
    exact threeWay_of_gt (Prod.Lex.toLex_lt_toLex.mpr (.inl h))

end ThreeWay
