import Mathlib.Algebra.Order.Ring.Nat
import Mathlib.Tactic.Ring

/-! Numbers in decimal digits, most significant digit first. -/
namespace Decimal

def isDigit (c : UInt8) : Bool := 0x30 ≤ c && c ≤ 0x39

def digit (c : UInt8) : ℕ := c.toNat - 0x30

/-- The number that a string of digits denotes. -/
def value (s : List UInt8) : ℕ := s.foldl (fun n c => n * 10 + digit c) 0

def Digits (s : List UInt8) : Prop := ∀ c ∈ s, isDigit c = true

instance (s : List UInt8) : Decidable (Digits s) :=
  decidable_of_iff (s.all isDigit = true) List.all_eq_true

theorem isDigit_iff {c : UInt8} : isDigit c = true ↔ 48 ≤ c.toNat ∧ c.toNat ≤ 57 := by
  simp [isDigit, UInt8.le_iff_toNat_le]

theorem digit_lt {c : UInt8} (h : isDigit c = true) : digit c < 10 := by
  rw [isDigit_iff] at h
  unfold digit
  omega

theorem digit_lt_iff {c d : UInt8} (hc : isDigit c = true) (hd : isDigit d = true) :
    digit c < digit d ↔ c < d := by
  have hlow := (isDigit_iff.mp hc).1
  have hlow' := (isDigit_iff.mp hd).1
  rw [UInt8.lt_iff_toNat_lt]
  unfold digit
  omega

theorem digit_inj {c d : UInt8} (hc : isDigit c = true) (hd : isDigit d = true) :
    digit c = digit d ↔ c = d := by
  have hlow := (isDigit_iff.mp hc).1
  have hlow' := (isDigit_iff.mp hd).1
  rw [← UInt8.toNat_inj]
  unfold digit
  omega

theorem digits_nil : Digits [] := by
  intro c hc
  cases hc

theorem digits_cons {c : UInt8} {s : List UInt8} :
    Digits (c :: s) ↔ isDigit c = true ∧ Digits s := List.forall_mem_cons

theorem foldl_eq (n : ℕ) (s : List UInt8) :
    s.foldl (fun n c => n * 10 + digit c) n = n * 10 ^ s.length + value s := by
  induction s generalizing n with
  | nil => simp [value]
  | cons c s ih =>
    have hzero : value (c :: s) = (0 * 10 + digit c) * 10 ^ s.length + value s := ih _
    rw [List.foldl_cons, ih, hzero, List.length_cons]
    ring

theorem value_nil : value [] = 0 := rfl

theorem value_cons (c : UInt8) (s : List UInt8) :
    value (c :: s) = digit c * 10 ^ s.length + value s := by
  have h : value (c :: s) = (0 * 10 + digit c) * 10 ^ s.length + value s := foldl_eq _ s
  rw [h, Nat.zero_mul, Nat.zero_add]

theorem value_append (s t : List UInt8) :
    value (s ++ t) = value s * 10 ^ t.length + value t := by
  unfold value
  rw [List.foldl_append]
  exact foldl_eq _ t

theorem value_lt {s : List UInt8} (h : Digits s) : value s < 10 ^ s.length := by
  induction s with
  | nil => simp [value]
  | cons c s ih =>
    rw [digits_cons] at h
    have hc := digit_lt h.1
    have hs := ih h.2
    have hstep : (digit c + 1) * 10 ^ s.length ≤ 10 * 10 ^ s.length :=
      Nat.mul_le_mul_right _ (by omega)
    rw [value_cons, List.length_cons, Nat.pow_succ, Nat.mul_comm _ 10]
    rw [Nat.add_mul, Nat.one_mul] at hstep
    omega

/-- A number without leading zeros. -/
inductive Numeral : List UInt8 → Prop
  | zero : Numeral [0x30]
  | positive (c : UInt8) (s : List UInt8) : isDigit c = true → c ≠ 0x30 → Digits s →
      Numeral (c :: s)

theorem Numeral.digits {s : List UInt8} (h : Numeral s) : Digits s := by
  cases h with
  | zero => decide
  | positive c s hc _ hs => exact digits_cons.mpr ⟨hc, hs⟩

theorem Numeral.ne_nil {s : List UInt8} (h : Numeral s) : s ≠ [] := by
  cases h <;> exact List.cons_ne_nil _ _

theorem numeral_iff {s : List UInt8} :
    Numeral s ↔ Digits s ∧ s ≠ [] ∧ (s.length = 1 ∨ s.head? ≠ some 0x30) := by
  constructor
  · intro h
    refine ⟨h.digits, h.ne_nil, ?_⟩
    cases h with
    | zero => exact .inl rfl
    | positive c s _ hc _ => exact .inr (by simpa using hc)
  · rintro ⟨hdigits, hne, hlead⟩
    obtain ⟨c, s, rfl⟩ := List.exists_cons_of_ne_nil hne
    obtain ⟨hc, hs⟩ := digits_cons.mp hdigits
    by_cases hzero : c = 0x30
    · rcases hlead with hlength | hlead
      · have hnil : s = [] := List.eq_nil_of_length_eq_zero (by simpa using hlength)
        rw [hzero, hnil]
        exact .zero
      · exact absurd (by rw [List.head?_cons, hzero]) hlead
    · exact .positive c s hc hzero hs

/-- Among numbers without leading zeros the longer one is larger. -/
theorem value_lt_of_length {a b : List UInt8} (ha : Digits a) (hne : a ≠ []) (hb : Numeral b)
    (h : a.length < b.length) : value a < value b := by
  have hlow := value_lt ha
  have hpos := List.length_pos_iff.mpr hne
  cases hb with
  | zero =>
    rw [List.length_singleton] at h
    omega
  | positive c s hc hzero hs =>
    rw [List.length_cons] at h
    have hdigit : 1 ≤ digit c := by
      have hbounds := isDigit_iff.mp hc
      have hnot : c.toNat ≠ 48 := fun heq => hzero (UInt8.toNat_inj.mp heq)
      unfold digit
      omega
    have hpow : 10 ^ a.length ≤ 10 ^ s.length := Nat.pow_le_pow_right (by omega) (by omega)
    have hmul : 1 * 10 ^ s.length ≤ digit c * 10 ^ s.length := Nat.mul_le_mul_right _ hdigit
    rw [value_cons]
    omega

/-- Digits of equal number are compared as text. -/
theorem value_lt_iff {a b : List UInt8} (ha : Digits a) (hb : Digits b)
    (h : a.length = b.length) : value a < value b ↔ a < b := by
  induction a generalizing b with
  | nil =>
    rw [List.eq_nil_of_length_eq_zero h.symm]
    simp
  | cons c a ih =>
    cases b with
    | nil => cases h
    | cons d b =>
      obtain ⟨hc, ha⟩ := digits_cons.mp ha
      obtain ⟨hd, hb⟩ := digits_cons.mp hb
      have hlength : a.length = b.length := Nat.succ.inj h
      have hva := value_lt ha
      have hvb := value_lt hb
      rw [List.cons_lt_cons_iff, ← ih ha hb hlength, ← digit_lt_iff hc hd, ← digit_inj hc hd,
        value_cons, value_cons, hlength]
      rw [hlength] at hva
      generalize 10 ^ b.length = scale at hva hvb ⊢
      rcases Nat.lt_trichotomy (digit c) (digit d) with hlt | hsame | hgt
      · have hmul : (digit c + 1) * scale ≤ digit d * scale := Nat.mul_le_mul_right _ hlt
        rw [Nat.add_mul, Nat.one_mul] at hmul
        omega
      · rw [hsame]
        omega
      · have hmul : (digit d + 1) * scale ≤ digit c * scale := Nat.mul_le_mul_right _ hgt
        rw [Nat.add_mul, Nat.one_mul] at hmul
        omega

end Decimal
