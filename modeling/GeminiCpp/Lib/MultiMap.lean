import Mathlib.Data.List.Basic

/-! Maps with several values under a key, kept in key order. A new entry goes behind those with
its key. -/

/-- Entries in key order. -/
structure MultiMap (κ ν : Type) [LE κ] where
  entries : List (κ × ν)
  sorted : entries.Pairwise fun a b => a.1 ≤ b.1

namespace MultiMap
variable {κ ν : Type} [LT κ] [DecidableLT κ]

/-- Inserts before the first entry with a greater key. -/
def insertUpper (e : κ × ν) : List (κ × ν) → List (κ × ν)
  | [] => [e]
  | d :: ds => if e.1 < d.1 then e :: d :: ds else d :: insertUpper e ds

theorem mem_insertUpper {e d : κ × ν} {es : List (κ × ν)} (h : d ∈ insertUpper e es) :
    d = e ∨ d ∈ es := by
  induction es with
  | nil => exact Or.inl (List.mem_singleton.mp h)
  | cons c es ih =>
    simp only [insertUpper] at h
    split_ifs at h
    · exact List.mem_cons.mp h
    · rcases List.mem_cons.mp h with rfl | h
      · exact Or.inr (List.mem_cons_self ..)
      · exact (ih h).imp_right (List.mem_cons_of_mem _)

variable [LE κ] [Std.IsLinearOrder κ] [Std.LawfulOrderLT κ]

theorem pairwise_insertUpper {e : κ × ν} {es : List (κ × ν)}
    (h : es.Pairwise fun a b => a.1 ≤ b.1) :
    (insertUpper e es).Pairwise fun a b => a.1 ≤ b.1 := by
  induction es with
  | nil => exact List.pairwise_singleton _ _
  | cons d es ih =>
    have hd := List.pairwise_cons.mp h
    simp only [insertUpper]
    split_ifs with hlt
    · refine List.pairwise_cons.mpr ⟨fun c hc => ?_, h⟩
      have hle := Std.le_of_lt hlt
      rcases List.mem_cons.mp hc with rfl | hc
      · exact hle
      · exact Std.le_trans hle (hd.1 c hc)
    · refine List.pairwise_cons.mpr ⟨fun c hc => ?_, ih hd.2⟩
      rcases mem_insertUpper hc with rfl | hc
      · exact Std.not_lt.mp hlt
      · exact hd.1 c hc

def empty : MultiMap κ ν := ⟨[], .nil⟩

def emplace (m : MultiMap κ ν) (key : κ) (value : ν) : MultiMap κ ν :=
  ⟨insertUpper (key, value) m.entries, pairwise_insertUpper m.sorted⟩

/-- The entries from the first whose key is not below `key` to the first whose key is above. -/
def equalRange (m : MultiMap κ ν) (key : κ) : List (κ × ν) :=
  (m.entries.dropWhile fun e => e.1 < key).takeWhile fun e => !decide (key < e.1)

variable [DecidableEq κ]

omit [DecidableLT κ] in
/-- No entry has a key below one that comes before it. -/
theorem filter_eq_nil_of_lt {key : κ} {e : κ × ν} {es : List (κ × ν)}
    (hsorted : (e :: es).Pairwise fun a b => a.1 ≤ b.1) (hlt : key < e.1) :
    (e :: es).filter (·.1 = key) = [] := by
  rw [List.filter_eq_nil_iff]
  intro d hd heq
  have hle : e.1 ≤ d.1 := by
    rcases List.mem_cons.mp hd with rfl | hd
    · exact Std.le_refl _
    · exact (List.pairwise_cons.mp hsorted).1 d hd
  rw [of_decide_eq_true heq] at hle
  exact Std.not_lt.mpr hle hlt

theorem takeWhile_eq_filter {key : κ} {es : List (κ × ν)}
    (hsorted : es.Pairwise fun a b => a.1 ≤ b.1) (hge : ∀ e ∈ es, key ≤ e.1) :
    es.takeWhile (fun e => !decide (key < e.1)) = es.filter (·.1 = key) := by
  induction es with
  | nil => rfl
  | cons e es ih =>
    have he := List.pairwise_cons.mp hsorted
    by_cases habove : key < e.1
    · rw [List.takeWhile_cons_of_neg (by simpa using habove), filter_eq_nil_of_lt hsorted habove]
    · have heq : e.1 = key :=
        Std.le_antisymm (Std.not_lt.mp habove) (hge e (List.mem_cons_self ..))
      rw [List.takeWhile_cons_of_pos (by simpa using habove),
        List.filter_cons_of_pos (by simpa using heq),
        ih he.2 fun d hd => hge d (List.mem_cons_of_mem _ hd)]

/-- In key order, the entries under a key are together. -/
theorem equalRange_eq_filter (m : MultiMap κ ν) (key : κ) :
    m.equalRange key = m.entries.filter (·.1 = key) := by
  obtain ⟨es, hsorted⟩ := m
  simp only [equalRange]
  induction es with
  | nil => rfl
  | cons e es ih =>
    have he := List.pairwise_cons.mp hsorted
    by_cases hbelow : e.1 < key
    · have hne : e.1 ≠ key := by
        intro heq
        rw [heq] at hbelow
        exact Std.lt_irrefl hbelow
      rw [List.dropWhile_cons_of_pos (by simpa using hbelow),
        List.filter_cons_of_neg (by simpa using hne)]
      exact ih he.2
    · rw [List.dropWhile_cons_of_neg (by simpa using hbelow)]
      apply takeWhile_eq_filter hsorted
      have hkey := Std.not_lt.mp hbelow
      intro d hd
      rcases List.mem_cons.mp hd with rfl | hd
      · exact hkey
      · exact Std.le_trans hkey (he.1 d hd)

theorem filter_insertUpper {key : κ} {e : κ × ν} {es : List (κ × ν)}
    (hsorted : es.Pairwise fun a b => a.1 ≤ b.1) :
    (insertUpper e es).filter (·.1 = key) =
      es.filter (·.1 = key) ++ if e.1 = key then [e] else [] := by
  induction es with
  | nil => simp [insertUpper, List.filter_cons]
  | cons d es ih =>
    simp only [insertUpper]
    split_ifs with hlt heq heq
    · rw [heq] at hlt
      rw [List.filter_cons_of_pos (by simpa using heq), filter_eq_nil_of_lt hsorted hlt]
      rfl
    · rw [List.filter_cons_of_neg (by simpa using heq), List.append_nil]
    · have hes := ih (List.pairwise_cons.mp hsorted).2
      rw [if_pos heq] at hes
      simp only [List.filter_cons, hes]
      split_ifs <;> rfl
    · have hes := ih (List.pairwise_cons.mp hsorted).2
      rw [if_neg heq, List.append_nil] at hes
      simp only [List.filter_cons, hes, List.append_nil]

/-- A new entry is the last one under its key, and the entries under other keys stay. -/
theorem equalRange_emplace (m : MultiMap κ ν) (key key' : κ) (value : ν) :
    (m.emplace key value).equalRange key' =
      m.equalRange key' ++ if key = key' then [(key, value)] else [] := by
  rw [equalRange_eq_filter, equalRange_eq_filter]
  exact filter_insertUpper m.sorted

end MultiMap
