import Mathlib.Data.List.Basic

/-! UTF-8 well-formedness as the usual byte automaton, and what cutting a well-formed
string does to it. -/
namespace Utf8

/-- Where the automaton stands between two bytes. -/
inductive State
  | start
  | need1
  | need2
  | need3
  | inE0
  | inED
  | inF0
  | inF4
deriving DecidableEq, Repr

/-- A continuation byte, `10xxxxxx`. -/
def isCont (b : UInt8) : Bool := 0x80 ≤ b && b ≤ 0xBF

private def within (lo hi b : UInt8) (next : State) : Option State :=
  if lo ≤ b ∧ b ≤ hi then some next else none

/-- The first byte of an encoded scalar value. -/
def first (b : UInt8) : Option State :=
  if b ≤ 0x7F then some .start
  else if 0xC2 ≤ b ∧ b ≤ 0xDF then some .need1
  else if b = 0xE0 then some .inE0
  else if b = 0xED then some .inED
  else if 0xE1 ≤ b ∧ b ≤ 0xEF then some .need2
  else if b = 0xF0 then some .inF0
  else if 0xF1 ≤ b ∧ b ≤ 0xF3 then some .need3
  else if b = 0xF4 then some .inF4
  else none

def step : State → UInt8 → Option State
  | .start, b => first b
  | .need1, b => within 0x80 0xBF b .start
  | .need2, b => within 0x80 0xBF b .need1
  | .need3, b => within 0x80 0xBF b .need2
  | .inE0, b => within 0xA0 0xBF b .need1
  | .inED, b => within 0x80 0x9F b .need1
  | .inF0, b => within 0x90 0xBF b .need2
  | .inF4, b => within 0x80 0x8F b .need2

def run : State → List UInt8 → Option State
  | q, [] => some q
  | q, b :: s => (step q b).bind fun q' => run q' s

/-- A string is well formed when the automaton reads it from `start` to `start`. -/
def valid (s : List UInt8) : Bool := run .start s = some .start

/-- A cut at `k` falls between two encoded scalar values: no continuation byte follows. -/
def Boundary (s : List UInt8) (k : ℕ) : Prop := ∀ b ∈ s[k]?, isCont b = false

instance (s : List UInt8) (k : ℕ) : Decidable (Boundary s k) :=
  decidable_of_iff ((s[k]?).all (fun b => !isCont b) = true) (by
    unfold Boundary
    cases s[k]? <;> simp)

theorem valid_iff {s : List UInt8} : valid s = true ↔ run .start s = some .start := by
  simp [valid]

@[simp] theorem valid_nil : valid [] = true := rfl

theorem run_append (q : State) (s t : List UInt8) :
    run q (s ++ t) = (run q s).bind fun q' => run q' t := by
  induction s generalizing q with
  | nil => rfl
  | cons b s ih =>
    simp only [List.cons_append, run]
    cases step q b with
    | none => rfl
    | some q' => exact ih q'

private theorem within_eq_some {lo hi b : UInt8} {q q' : State} (h : within lo hi b q = some q') :
    lo ≤ b ∧ b ≤ hi := by
  unfold within at h
  split_ifs at h with hb
  exact hb

/-- Inside a scalar value only a continuation byte is read. -/
theorem isCont_of_step {q q' : State} {b : UInt8} (hq : q ≠ .start) (h : step q b = some q') :
    isCont b = true := by
  have bound : ∃ lo hi : UInt8, 0x80 ≤ lo ∧ hi ≤ 0xBF ∧ lo ≤ b ∧ b ≤ hi := by
    cases q with
    | start => exact absurd rfl hq
    | need1 | need2 | need3 => exact ⟨_, _, by decide, by decide, within_eq_some h⟩
    | inE0 | inED | inF0 | inF4 =>
      exact ⟨_, _, by decide, by decide, within_eq_some h⟩
  obtain ⟨lo, hi, hlo, hhi, hb, hb'⟩ := bound
  simp only [isCont, Bool.and_eq_true, decide_eq_true_eq]
  exact ⟨UInt8.le_trans hlo hb, UInt8.le_trans hb' hhi⟩

/-- Between scalar values no continuation byte is read. -/
theorem not_isCont_of_first {q : State} {b : UInt8} (h : first b = some q) :
    isCont b = false := by
  revert h
  simp only [first, isCont, Bool.and_eq_false_iff, decide_eq_false_iff_not, UInt8.le_iff_toNat_le,
    ← UInt8.toNat_inj, UInt8.toNat_ofNat]
  split_ifs <;> simp <;> omega

theorem run_cons_cont {q : State} {b : UInt8} {s : List UInt8} {q' : State}
    (h : run q (b :: s) = some q') : isCont b = true ↔ q ≠ .start := by
  obtain ⟨r, hr, -⟩ := Option.bind_eq_some_iff.mp h
  constructor
  · rintro hb rfl
    rw [not_isCont_of_first hr] at hb
    cases hb
  · exact fun hq => isCont_of_step hq hr

/-- In a well-formed string the automaton is at `start` exactly at the boundaries. -/
theorem boundary_iff_run {s : List UInt8} (hs : valid s = true) {k : ℕ} :
    Boundary s k ↔ run .start (s.take k) = some .start := by
  have hrun := valid_iff.mp hs
  rw [← List.take_append_drop k s, run_append] at hrun
  obtain ⟨q, hq, hd⟩ := Option.bind_eq_some_iff.mp hrun
  have hget : s[k]? = (s.drop k).head? := by rw [List.head?_drop]
  rw [hq, Option.some_inj, Boundary, hget]
  cases hdrop : s.drop k with
  | nil =>
    rw [hdrop] at hd
    simp only [List.head?_nil, Option.mem_def, reduceCtorEq, false_imp_iff, implies_true, true_iff]
    exact Option.some_inj.mp hd
  | cons b t =>
    rw [hdrop] at hd
    have hb := run_cons_cont hd
    cases hc : isCont b <;> simp_all

theorem valid_take_iff {s : List UInt8} (hs : valid s = true) (k : ℕ) :
    valid (s.take k) = true ↔ Boundary s k := by
  rw [boundary_iff_run hs, valid_iff]

theorem valid_drop_iff {s : List UInt8} (hs : valid s = true) (k : ℕ) :
    valid (s.drop k) = true ↔ Boundary s k := by
  have hrun := valid_iff.mp hs
  rw [← List.take_append_drop k s, run_append] at hrun
  obtain ⟨q, hq, hd⟩ := Option.bind_eq_some_iff.mp hrun
  rw [boundary_iff_run hs, hq, Option.some_inj, valid_iff]
  constructor
  · intro h
    cases hdrop : s.drop k with
    | nil =>
      rw [hdrop] at hd
      exact Option.some_inj.mp hd
    | cons b t =>
      rw [hdrop] at hd h
      have hq := run_cons_cont hd
      have hst := run_cons_cont h
      by_contra hne
      exact (hst.mp (hq.mpr hne)) rfl
  · rintro rfl
    exact hd

theorem valid_append {s t : List UInt8} (hs : valid s = true) :
    valid (s ++ t) = valid t := by
  unfold valid
  rw [run_append, valid_iff.mp hs]
  rfl

theorem valid_append_of_valid {s t : List UInt8} (hs : valid s = true) (ht : valid t = true) :
    valid (s ++ t) = true := by
  rw [valid_append hs]
  exact ht

/-- A separator that is well formed splits a string into independent halves, since it does not
open with a continuation byte. -/
theorem valid_append_append {s t m : List UInt8} (hne : m ≠ []) (hm : valid m = true) :
    valid (s ++ (m ++ t)) = true ↔ valid s = true ∧ valid t = true := by
  obtain ⟨b, m, rfl⟩ := List.exists_cons_of_ne_nil hne
  constructor
  · intro h
    obtain ⟨q, hq, hd⟩ := Option.bind_eq_some_iff.mp ((run_append ..).symm.trans (valid_iff.mp h))
    have hb : isCont b = false := not_isCont_of_first
      (Option.bind_eq_some_iff.mp (valid_iff.mp hm)).choose_spec.1
    have hstart : q = .start := by
      by_contra hne
      rw [(run_cons_cont hd).mpr hne] at hb
      cases hb
    subst hstart
    refine ⟨valid_iff.mpr hq, ?_⟩
    rw [← valid_append hm]
    exact valid_iff.mpr hd
  · rintro ⟨hs, ht⟩
    rw [valid_append hs, valid_append hm, ht]

/-- A string of 7-bit bytes is well formed. -/
theorem valid_of_ascii {s : List UInt8} (h : ∀ b ∈ s, b ≤ 0x7F) : valid s = true := by
  induction s with
  | nil => rfl
  | cons b s ih =>
    have hb : step .start b = some .start := by simp [step, first, h b (by simp)]
    have ht := ih (fun c hc => h c (by simp [hc]))
    rw [valid_iff] at ht ⊢
    simp only [run, hb, Option.bind_some, ht]

/-- The replacement character, U+FFFD. -/
def replacement : List UInt8 := [0xEF, 0xBF, 0xBD]

theorem valid_replacement : valid replacement = true := rfl

/-- Replaces what the automaton does not read. A byte at which it stops in the middle of a scalar
value is read again from `start`. -/
def scrub : State → List UInt8 → List UInt8 → List UInt8
  | _, pending, [] => if pending = [] then [] else replacement
  | q, pending, b :: s =>
    match step q b with
    | some q' =>
      if q' = .start then pending ++ b :: scrub .start [] s else scrub q' (pending ++ [b]) s
    | none =>
      if pending = [] then replacement ++ scrub .start [] s
      else match first b with
        | some q' =>
          replacement ++ if q' = .start then b :: scrub .start [] s else scrub q' [b] s
        | none => replacement ++ (replacement ++ scrub .start [] s)

/-- The string with each ill-formed part replaced by U+FFFD. -/
def replaceInvalid (s : List UInt8) : List UInt8 := scrub .start [] s

theorem scrub_of_run {q : State} {pending s : List UInt8} (hq : q = .start → pending = [])
    (h : run q s = some .start) : scrub q pending s = pending ++ s := by
  induction s generalizing q pending with
  | nil =>
    have hpending := hq (Option.some.inj h)
    rw [scrub, if_pos hpending, hpending]
    rfl
  | cons b s ih =>
    obtain ⟨q', hstep, hrun⟩ := Option.bind_eq_some_iff.mp h
    simp only [scrub, hstep]
    split_ifs with hstart
    · rw [hstart] at hrun
      rw [ih (fun _ => rfl) hrun, List.nil_append]
    · rw [ih (fun heq => absurd heq hstart) hrun, List.append_assoc, List.singleton_append]

/-- A well-formed string is not changed. -/
theorem replaceInvalid_of_valid {s : List UInt8} (h : valid s = true) : replaceInvalid s = s :=
  scrub_of_run (fun _ => rfl) (valid_iff.mp h)

/-- `pending` has been read on the way to `q`. -/
theorem valid_scrub {q : State} {pending s : List UInt8} (h : run .start pending = some q) :
    valid (scrub q pending s) = true := by
  induction s generalizing q pending with
  | nil =>
    rw [scrub]
    split_ifs
    · rfl
    · exact valid_replacement
  | cons b s ih =>
    have hfresh : valid (scrub .start [] s) = true := ih rfl
    have hread : ∀ {q q' : State} {pending : List UInt8}, run .start pending = some q →
        step q b = some q' → run .start (pending ++ [b]) = some q' := by
      intro q q' pending hpending hstep
      rw [run_append, hpending, Option.bind_some, run, hstep]
      rfl
    cases hstep : step q b with
    | some q' =>
      have hnext := hread h hstep
      simp only [scrub, hstep]
      split_ifs with hstart
      · rw [hstart] at hnext
        have hsplit : pending ++ b :: scrub .start [] s =
            (pending ++ [b]) ++ scrub .start [] s := by simp
        rw [hsplit, valid_append (valid_iff.mpr hnext)]
        exact hfresh
      · exact ih hnext
    | none =>
      simp only [scrub, hstep]
      split_ifs
      · rw [valid_append valid_replacement]
        exact hfresh
      cases hfirst : first b with
      | none =>
        rw [valid_append valid_replacement, valid_append valid_replacement]
        exact hfresh
      | some q' =>
        have hnext : run .start ([] ++ [b]) = some q' := hread rfl hfirst
        rw [valid_append valid_replacement]
        split_ifs with hstart
        · rw [hstart] at hnext
          exact (valid_append (valid_iff.mpr hnext)).trans hfresh
        · exact ih hnext

/-- The result is well formed. -/
theorem valid_replaceInvalid (s : List UInt8) : valid (replaceInvalid s) = true := valid_scrub rfl

end Utf8
