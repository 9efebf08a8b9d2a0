import Mathlib.Data.List.Basic

/-! The lines of a text in which LF, CR and CRLF end a line. -/
namespace TextLines

def lf : UInt8 := 0x0A
def cr : UInt8 := 0x0D

/-- A byte in front of the first line. -/
def consLine (c : UInt8) : List (List UInt8) → List (List UInt8)
  | [] => [[c]]
  | line :: lines => (c :: line) :: lines

/-- The lines without their ends. The text after the last end is a line if it is not empty. -/
def lines : List UInt8 → List (List UInt8)
  | [] => []
  | c :: s =>
    if c = lf then [] :: lines s
    else if c = cr then if s.head? = some lf then lines s else [] :: lines s
    else consLine c (lines s)

/-- No byte of the text ends a line. -/
def Plain (s : List UInt8) : Prop := lf ∉ s ∧ cr ∉ s

theorem plain_append {s t : List UInt8} : Plain (s ++ t) ↔ Plain s ∧ Plain t := by
  unfold Plain
  rw [List.mem_append, List.mem_append, not_or, not_or]
  exact and_and_and_comm

theorem lines_cons (c : UInt8) (s : List UInt8) : lines (c :: s) =
    if c = lf then [] :: lines s
    else if c = cr then if s.head? = some lf then lines s else [] :: lines s
    else consLine c (lines s) := rfl

theorem consLine_append {c : UInt8} {ls : List (List UInt8)} (h : ls ≠ [])
    (ms : List (List UInt8)) : consLine c (ls ++ ms) = consLine c ls ++ ms := by
  cases ls with
  | nil => exact absurd rfl h
  | cons line ls => rfl

theorem consLine_ne_nil (c : UInt8) (ls : List (List UInt8)) : consLine c ls ≠ [] := by
  cases ls <;> simp [consLine]

theorem length_consLine {c : UInt8} {ls : List (List UInt8)} (h : ls ≠ []) :
    (consLine c ls).length = ls.length := by
  cases ls with
  | nil => exact absurd rfl h
  | cons line ls => rfl

theorem lines_ne_nil {s : List UInt8} (h : s ≠ []) : lines s ≠ [] := by
  induction s with
  | nil => exact absurd rfl h
  | cons c s ih =>
    rw [lines_cons]
    split_ifs with hlf hcr hnext
    · exact List.cons_ne_nil _ _
    · apply ih
      rintro rfl
      cases hnext
    · exact List.cons_ne_nil _ _
    · exact consLine_ne_nil c _

/-- A line feed ends a line, whatever is before it. -/
theorem lines_append_lf (s t : List UInt8) :
    lines (s ++ lf :: t) = lines (s ++ [lf]) ++ lines t := by
  induction s with
  | nil => rfl
  | cons c s ih =>
    have hhead : (s ++ lf :: t).head? = (s ++ [lf]).head? := by cases s <;> rfl
    have hne : lines (s ++ [lf]) ≠ [] := lines_ne_nil (by simp)
    rw [List.cons_append, List.cons_append, lines_cons, lines_cons, hhead, ih]
    split_ifs
    · rfl
    · rfl
    · rfl
    · exact consLine_append hne _

theorem lines_flatten {texts : List (List UInt8)} :
    lines (texts.map (· ++ [lf])).flatten = texts.flatMap fun s => lines (s ++ [lf]) := by
  induction texts with
  | nil => rfl
  | cons s texts ih =>
    rw [List.map_cons, List.flatten_cons, List.append_assoc, List.singleton_append,
      lines_append_lf, ih]
    rfl

theorem lines_plain {s : List UInt8} (h : Plain s) : lines (s ++ [lf]) = [s] := by
  induction s with
  | nil => rfl
  | cons c s ih =>
    obtain ⟨hlf, hcr⟩ := h
    rw [List.mem_cons, not_or] at hlf hcr
    rw [List.cons_append, lines_cons, if_neg (Ne.symm hlf.1), if_neg (Ne.symm hcr.1),
      ih ⟨hlf.2, hcr.2⟩]
    rfl

/-- Every end of a line before the last one makes another line. -/
theorem plain_of_length_lines {s : List UInt8} (hlast : s.getLast? ≠ some cr)
    (h : (lines (s ++ [lf])).length = 1) : Plain s := by
  induction s with
  | nil => exact ⟨List.not_mem_nil, List.not_mem_nil⟩
  | cons c s ih =>
    have hne : lines (s ++ [lf]) ≠ [] := lines_ne_nil (by simp)
    have hpos : 0 < (lines (s ++ [lf])).length := List.length_pos_of_ne_nil hne
    have hrest : s.getLast? ≠ some cr := by
      intro hs
      apply hlast
      rw [List.getLast?_cons, hs]
      rfl
    rw [List.cons_append, lines_cons] at h
    split_ifs at h with hlf hcr hnext
    · rw [List.length_cons] at h
      omega
    · cases s with
      | nil => exact absurd (by rw [hcr]; rfl) hlast
      | cons d s =>
        have hd : d = lf := by simpa using hnext
        have hplain := ih hrest h
        exact absurd (hd ▸ List.mem_cons_self ..) hplain.1
    · rw [List.length_cons] at h
      omega
    · rw [length_consLine hne] at h
      obtain ⟨hlf', hcr'⟩ := ih hrest h
      constructor
      · exact fun hmem => (List.mem_cons.mp hmem).elim (fun heq => hlf heq.symm) hlf'
      · exact fun hmem => (List.mem_cons.mp hmem).elim (fun heq => hcr heq.symm) hcr'

theorem length_lines_iff {s : List UInt8} (hlast : s.getLast? ≠ some cr) :
    (lines (s ++ [lf])).length = 1 ↔ Plain s := by
  constructor
  · exact plain_of_length_lines hlast
  · intro h
    rw [lines_plain h]
    rfl

/-- Texts that do not end with CR make a line each if and only if they have no end of a line. -/
theorem length_flatMap_lines_iff {texts : List (List UInt8)}
    (hlast : ∀ s ∈ texts, s.getLast? ≠ some cr) :
    (texts.flatMap fun s => lines (s ++ [lf])).length = texts.length ↔ ∀ s ∈ texts, Plain s := by
  have hge : ∀ texts : List (List UInt8),
      texts.length ≤ (texts.flatMap fun s => lines (s ++ [lf])).length := by
    intro texts
    induction texts with
    | nil => exact Nat.le_refl _
    | cons s texts ih =>
      have hpos : 0 < (lines (s ++ [lf])).length :=
        List.length_pos_of_ne_nil (lines_ne_nil (by simp))
      rw [List.flatMap_cons, List.length_append, List.length_cons]
      omega
  induction texts with
  | nil => simp
  | cons s texts ih =>
    have hpos : 0 < (lines (s ++ [lf])).length :=
      List.length_pos_of_ne_nil (lines_ne_nil (by simp))
    have hrest := hge texts
    have hs := length_lines_iff (hlast s (List.mem_cons_self ..))
    have htexts : (texts.flatMap fun s => lines (s ++ [lf])).length = texts.length ↔
        ∀ t ∈ texts, Plain t := ih fun t ht => hlast t (List.mem_cons_of_mem _ ht)
    rw [List.flatMap_cons, List.length_append, List.length_cons, List.forall_mem_cons, ← hs,
      ← htexts]
    omega

end TextLines
