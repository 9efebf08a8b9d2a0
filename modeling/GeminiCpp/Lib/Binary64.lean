import GeminiCpp.Lib.Nearest
import Mathlib.Data.UInt

/-! Arithmetic on doubles, which are kept as their bits. The result of an operation is the double
nearest to the exact result. -/
namespace Binary64
open Nearest

def sign (a : UInt64) : Bool := 2 ^ 63 ≤ a.toNat

def exponent (a : UInt64) : ℕ := a.toNat / 2 ^ 52 % 2 ^ 11

def fraction (a : UInt64) : ℕ := a.toNat % 2 ^ 52

def isFinite (a : UInt64) : Bool := exponent a < 2047

def isNaN (a : UInt64) : Bool := !isFinite a && fraction a ≠ 0

/-- The value without its sign. An infinity has the least value that is too large. -/
def magnitude (a : UInt64) : ℚ :=
  if exponent a = 0 then (fraction a : ℕ) * 2 ^ (-1074 : ℤ)
  else ((2 ^ 52 + fraction a : ℕ) : ℚ) * 2 ^ ((exponent a : ℤ) - 1075)

def toRat (a : UInt64) : ℚ := if sign a then -magnitude a else magnitude a

def withSign (negative : Bool) (bits : ℕ) : UInt64 :=
  UInt64.ofNat (bits + if negative then 2 ^ 63 else 0)

def infinity (negative : Bool) : UInt64 := withSign negative (2047 * 2 ^ 52)

def quietNaN : UInt64 := withSign false (2047 * 2 ^ 52 + 2 ^ 51)

def zero : UInt64 := 0

def one : UInt64 := 0x3FF0000000000000

/-- The double nearest to a number without sign, with a sign. -/
def ofMagnitude (negative : Bool) (x : ℚ) : UInt64 :=
  if 2 ^ 1024 ≤ nearest x then infinity negative
  else withSign negative ((unit x + 1074).toNat * 2 ^ 52 + (toEven (x / 2 ^ unit x)).toNat)

def ofInt (n : ℤ) : UInt64 := ofMagnitude (n < 0) |n|

def less (a b : UInt64) : Bool := !isNaN a && !isNaN b && toRat a < toRat b

def neg (a : UInt64) : UInt64 := withSign (!sign a) (a.toNat % 2 ^ 63)

def mul (a b : UInt64) : UInt64 :=
  if isNaN a || isNaN b then quietNaN
  else if isFinite a && isFinite b then
    ofMagnitude (sign a != sign b) (magnitude a * magnitude b)
  else if magnitude a = 0 ∨ magnitude b = 0 then quietNaN
  else infinity (sign a != sign b)

def add (a b : UInt64) : UInt64 :=
  if isNaN a || isNaN b then quietNaN
  else if isFinite a && isFinite b then
    if toRat a + toRat b = 0 then withSign (sign a && sign b) 0
    else ofMagnitude (toRat a + toRat b < 0) |toRat a + toRat b|
  else if !isFinite a && !isFinite b && sign a != sign b then quietNaN
  else infinity (if isFinite a then sign b else sign a)

/-- A power with a natural exponent, correctly rounded. -/
def pow (a : UInt64) (n : ℕ) : UInt64 :=
  if n = 0 then one
  else if isNaN a then quietNaN
  else if isFinite a then ofMagnitude (sign a && n % 2 = 1) (magnitude a ^ n)
  else infinity (sign a && n % 2 = 1)

def ceil (a : UInt64) : UInt64 :=
  if isFinite a then ofMagnitude (sign a) |⌈toRat a⌉| else a

/-- The conversion to a signed 64-bit integer, which drops the fraction. Out of range it is
undefined. -/
def toInt64 (a : UInt64) : Option ℤ :=
  let n := if sign a then ⌈toRat a⌉ else ⌊toRat a⌋
  if isFinite a ∧ -2 ^ 63 ≤ n ∧ n < 2 ^ 63 then some n else none

section Bits
variable {negative : Bool} {bits : ℕ}

theorem toNat_withSign (h : bits < 2 ^ 63) :
    (withSign negative bits).toNat = bits + if negative then 2 ^ 63 else 0 := by
  unfold withSign
  rw [UInt64.toNat_ofNat']
  apply Nat.mod_eq_of_lt
  cases negative with
  | false => simp; omega
  | true => simp; omega

theorem sign_withSign (h : bits < 2 ^ 63) : sign (withSign negative bits) = negative := by
  unfold sign
  rw [toNat_withSign h]
  cases negative with
  | false => simpa using h
  | true => simp

theorem exponent_withSign (h : bits < 2 ^ 63) :
    exponent (withSign negative bits) = bits / 2 ^ 52 := by
  unfold exponent
  rw [toNat_withSign h]
  cases negative with
  | false => simp; omega
  | true => simp; omega

theorem fraction_withSign (h : bits < 2 ^ 63) :
    fraction (withSign negative bits) = bits % 2 ^ 52 := by
  unfold fraction
  rw [toNat_withSign h]
  cases negative with
  | false => simp
  | true => simp; omega

theorem fraction_lt (a : UInt64) : fraction a < 2 ^ 52 := Nat.mod_lt _ (by norm_num)

theorem magnitude_nonneg (a : UInt64) : 0 ≤ magnitude a := by
  unfold magnitude
  split_ifs
  · exact mul_nonneg (Nat.cast_nonneg _) (two_zpow_pos _).le
  · exact mul_nonneg (Nat.cast_nonneg _) (two_zpow_pos _).le

theorem representable_magnitude (a : UInt64) : Representable (magnitude a) := by
  have hfraction := fraction_lt a
  unfold magnitude
  split_ifs with hexp
  · refine ⟨fraction a, -1074, ?_, le_rfl, by rw [Int.cast_natCast]⟩
    rw [abs_of_nonneg (by omega)]
    omega
  · refine ⟨(2 ^ 52 + fraction a : ℕ), (exponent a : ℤ) - 1075, ?_, by omega,
      by rw [Int.cast_natCast]⟩
    rw [abs_of_nonneg (by omega)]
    push_cast
    omega

theorem magnitude_lt {a : UInt64} (h : isFinite a = true) : magnitude a < 2 ^ 1024 := by
  have hfraction := fraction_lt a
  have hexp : exponent a < 2047 := of_decide_eq_true h
  have hsum : (2 : ℚ) ^ 53 * 2 ^ (971 : ℤ) = 2 ^ 1024 := by
    rw [← zpow_natCast, ← zpow_natCast, ← zpow_add₀ (by norm_num)]
    norm_num
  rw [← hsum]
  unfold magnitude
  split_ifs
  · have hm : ((fraction a : ℕ) : ℚ) < 2 ^ 53 := by
      have hnat : fraction a < 2 ^ 53 := by omega
      exact_mod_cast hnat
    have he : (2 : ℚ) ^ (-1074 : ℤ) ≤ 2 ^ (971 : ℤ) := zpow_le_zpow_right₀ (by norm_num) (by omega)
    exact mul_lt_mul hm he (two_zpow_pos _) (by norm_num)
  · have hm : ((2 ^ 52 + fraction a : ℕ) : ℚ) < 2 ^ 53 := by
      have hnat : 2 ^ 52 + fraction a < 2 ^ 53 := by omega
      exact_mod_cast hnat
    have he : (2 : ℚ) ^ ((exponent a : ℤ) - 1075) ≤ 2 ^ (971 : ℤ) :=
      zpow_le_zpow_right₀ (by norm_num) (by omega)
    exact mul_lt_mul hm he (two_zpow_pos _) (by norm_num)

end Bits

section Rounded
variable {negative : Bool} {x : ℚ}

/-- The bits of a double in terms of its significand and the exponent of its last place. -/
theorem magnitude_pack {m u : ℕ} (hm : m ≤ 2 ^ 53) (hnormal : 0 < u → 2 ^ 52 ≤ m)
    (hbits : u * 2 ^ 52 + m < 2 ^ 63) :
    magnitude (withSign negative (u * 2 ^ 52 + m)) = m * 2 ^ ((u : ℤ) - 1074) := by
  unfold magnitude
  rw [exponent_withSign hbits, fraction_withSign hbits]
  rcases Nat.lt_or_ge m (2 ^ 52) with hshort | hfull
  · have hu : u = 0 := by omega
    have hquotient : (u * 2 ^ 52 + m) / 2 ^ 52 = 0 := by omega
    have hremainder : (u * 2 ^ 52 + m) % 2 ^ 52 = m := by omega
    rw [if_pos hquotient, hremainder, hu]
    norm_num
  rcases Nat.lt_or_ge m (2 ^ 53) with hlow | hcarry
  · have hquotient : (u * 2 ^ 52 + m) / 2 ^ 52 = u + 1 := by omega
    have hremainder : 2 ^ 52 + (u * 2 ^ 52 + m) % 2 ^ 52 = m := by omega
    rw [hquotient, hremainder, if_neg (by omega)]
    congr 2
    push_cast
    ring
  · -- the significand was rounded up to the next power of two
    have hmax : m = 2 ^ 53 := by omega
    have hquotient : (u * 2 ^ 52 + m) / 2 ^ 52 = u + 2 := by omega
    have hremainder : 2 ^ 52 + (u * 2 ^ 52 + m) % 2 ^ 52 = 2 ^ 52 := by omega
    have hexponent : ((u + 2 : ℕ) : ℤ) - 1075 = (u : ℤ) - 1074 + 1 := by
      push_cast
      ring
    rw [hquotient, hremainder, if_neg (by omega), hmax, hexponent, zpow_add_one₀ (by norm_num)]
    push_cast
    ring

/-- What is known of the significand of a number without sign. -/
theorem significand_bounds (hx : 0 ≤ x) :
    0 ≤ toEven (x / 2 ^ unit x) ∧ toEven (x / 2 ^ unit x) ≤ 2 ^ 53 ∧
      (-1074 < unit x → 2 ^ 52 ≤ toEven (x / 2 ^ unit x)) := by
  have hpos := two_zpow_pos (unit x)
  refine ⟨?_, (abs_le.mp (abs_toEven_le x)).2, fun hunit => ?_⟩
  · apply le_toEven
    rw [Int.cast_zero]
    exact div_nonneg hx hpos.le
  · have habs := unit_le_abs hunit
    rw [abs_of_nonneg hx] at habs
    apply le_toEven
    rw [le_div_iff₀ hpos]
    push_cast
    linarith

/-- The bits of a double that is not too large. -/
theorem bits_lt (hx : 0 ≤ x) (h : nearest x < 2 ^ 1024) :
    (unit x + 1074).toNat * 2 ^ 52 + (toEven (x / 2 ^ unit x)).toNat < 2047 * 2 ^ 52 := by
  obtain ⟨hm, hmax, hnormal⟩ := significand_bounds hx
  have hunit := le_unit x
  unfold nearest at h
  generalize toEven (x / 2 ^ unit x) = m at h hm hmax hnormal ⊢
  generalize unit x = u at h hunit hnormal ⊢
  have hpower : ∀ k : ℕ, (2 : ℚ) ^ k * 2 ^ ((1024 : ℤ) - k) = 2 ^ 1024 := by
    intro k
    rw [← zpow_natCast, ← zpow_natCast, ← zpow_add₀ (by norm_num)]
    congr 1
    push_cast
    ring
  have hhuge : ∀ k : ℕ, (1024 : ℤ) - k ≤ u → m < 2 ^ k := by
    intro k hk
    by_contra hge
    have hm' : (2 : ℚ) ^ k ≤ m := by exact_mod_cast not_lt.mp hge
    have he : (2 : ℚ) ^ ((1024 : ℤ) - k) ≤ 2 ^ u := zpow_le_zpow_right₀ (by norm_num) hk
    have hm0 : (0 : ℚ) ≤ m := by exact_mod_cast hm
    have hprod := mul_le_mul hm' he (two_zpow_pos _).le hm0
    rw [hpower] at hprod
    exact absurd h (not_lt.mpr hprod)
  have hlow : u < 972 := by
    by_contra hge
    have hshort := hhuge 52 (by omega)
    have hfull := hnormal (by omega)
    omega
  have hlast : u = 971 → m < 2 ^ 53 := fun hu => hhuge 53 (by omega)
  omega

theorem magnitude_ofMagnitude (hx : 0 ≤ x) (h : nearest x < 2 ^ 1024) :
    magnitude (ofMagnitude negative x) = nearest x := by
  obtain ⟨hm, hmax, hnormal⟩ := significand_bounds hx
  have hunit := le_unit x
  have hbits := bits_lt hx h
  unfold ofMagnitude
  rw [if_neg (not_le.mpr h), magnitude_pack (by omega) (by omega) (by omega), nearest]
  have hcast : ((toEven (x / 2 ^ unit x)).toNat : ℚ) = toEven (x / 2 ^ unit x) := by
    exact_mod_cast Int.toNat_of_nonneg hm
  have hexp : (((unit x + 1074).toNat : ℤ)) - 1074 = unit x := by omega
  rw [hcast, hexp]

theorem sign_ofMagnitude (hx : 0 ≤ x) : sign (ofMagnitude negative x) = negative := by
  unfold ofMagnitude
  split_ifs with h
  · exact sign_withSign (by norm_num)
  · have hbits := bits_lt hx (not_le.mp h)
    exact sign_withSign (by omega)

theorem isFinite_ofMagnitude_iff (hx : 0 ≤ x) :
    isFinite (ofMagnitude negative x) = true ↔ nearest x < 2 ^ 1024 := by
  unfold ofMagnitude isFinite
  rw [decide_eq_true_iff]
  split_ifs with h
  · rw [infinity, exponent_withSign (by norm_num)]
    exact iff_of_false (by norm_num) (not_lt.mpr h)
  · have hbits := bits_lt hx (not_le.mp h)
    rw [exponent_withSign (by omega)]
    exact iff_of_true (by omega) (not_le.mp h)

theorem toRat_ofMagnitude (hx : 0 ≤ x) (h : nearest x < 2 ^ 1024) :
    toRat (ofMagnitude negative x) = if negative then -nearest x else nearest x := by
  unfold toRat
  rw [sign_ofMagnitude hx, magnitude_ofMagnitude hx h]

end Rounded

/-! What the operations give where nothing is too large. -/
section Operations
variable {a b : UInt64}

theorem representable_toRat (a : UInt64) : Representable (toRat a) := by
  obtain ⟨m, e, hm, he, hvalue⟩ := representable_magnitude a
  unfold toRat
  split_ifs
  · exact ⟨-m, e, by rwa [abs_neg], he, by rw [hvalue]; push_cast; ring⟩
  · exact ⟨m, e, hm, he, hvalue⟩

theorem abs_toRat (a : UInt64) : |toRat a| = magnitude a := by
  unfold toRat
  split_ifs
  · rw [abs_neg, abs_of_nonneg (magnitude_nonneg a)]
  · exact abs_of_nonneg (magnitude_nonneg a)

theorem isNaN_of_isFinite (h : isFinite a = true) : isNaN a = false := by
  unfold isNaN
  rw [h]
  rfl

theorem less_zero_iff (h : isNaN a = false) : less a zero = true ↔ toRat a < 0 := by
  have hzero : toRat zero = 0 := by decide +kernel
  have hzeroNaN : isNaN zero = false := by decide +kernel
  unfold less
  rw [h, hzero, hzeroNaN]
  simp

/-- An infinity has the least value that is too large, or its opposite. -/
theorem abs_toRat_of_infinite (h : isFinite a = false) (hnumber : isNaN a = false) :
    |toRat a| = 2 ^ 1024 := by
  have hexp : exponent a = 2047 := by
    have hlow : ¬ exponent a < 2047 := of_decide_eq_false h
    have hhigh : exponent a < 2 ^ 11 := Nat.mod_lt _ (by norm_num)
    omega
  have hfraction : fraction a = 0 := by
    unfold isNaN at hnumber
    rw [h] at hnumber
    simpa using hnumber
  rw [abs_toRat]
  unfold magnitude
  rw [hexp, hfraction, if_neg (by norm_num), ← zpow_natCast (2 : ℚ) 1024]
  have hsplit : ((1024 : ℕ) : ℤ) = 52 + ((2047 : ℕ) - 1075) := by norm_num
  rw [hsplit, zpow_add₀ (by norm_num)]
  norm_num

theorem two_pow_lt : (2 : ℚ) ^ 53 < 2 ^ 1024 := pow_lt_pow_right₀ (by norm_num) (by norm_num)

theorem mul_of_finite (ha : isFinite a = true) (hb : isFinite b = true) :
    mul a b = ofMagnitude (sign a != sign b) (magnitude a * magnitude b) := by
  unfold mul
  simp only [isNaN_of_isFinite ha, isNaN_of_isFinite hb, ha, hb, Bool.or_self, Bool.and_self,
    Bool.false_eq_true, if_false, if_true]

theorem toRat_mul (ha : isFinite a = true) (hb : isFinite b = true)
    (h : isFinite (mul a b) = true) : toRat (mul a b) = nearest (toRat a * toRat b) := by
  have hnonneg := mul_nonneg (magnitude_nonneg a) (magnitude_nonneg b)
  rw [mul_of_finite ha hb] at h ⊢
  rw [toRat_ofMagnitude hnonneg ((isFinite_ofMagnitude_iff hnonneg).mp h)]
  unfold toRat
  cases sign a <;> cases sign b <;> simp [nearest_neg]

/-- The number that `ceil` names is a double. -/
theorem toRat_ceil (h : isFinite a = true) :
    isFinite (ceil a) = true ∧ toRat (ceil a) = ⌈toRat a⌉ := by
  have hsize := magnitude_lt h
  have hexact : nearest |(⌈toRat a⌉ : ℚ)| = |(⌈toRat a⌉ : ℚ)| ∧ |(⌈toRat a⌉ : ℚ)| < 2 ^ 1024 := by
    rcases le_or_gt |toRat a| (2 ^ 53) with hsmall | hlarge
    · have hceil : |⌈toRat a⌉| ≤ 2 ^ 53 := by
        obtain ⟨hlow, hhigh⟩ := abs_le.mp hsmall
        apply abs_le.mpr
        constructor
        · apply Int.le_ceil_iff.mpr
          push_cast
          linarith
        · apply Int.ceil_le.mpr
          push_cast
          linarith
      have hnear := nearest_intCast (k := |⌈toRat a⌉|) (by rwa [abs_abs])
      have hcast : |(⌈toRat a⌉ : ℚ)| ≤ 2 ^ 53 := by exact_mod_cast hceil
      rw [Int.cast_abs] at hnear
      exact ⟨hnear, lt_of_le_of_lt hcast two_pow_lt⟩
    · obtain ⟨k, hk⟩ := even_of_representable (representable_toRat a) hlarge
      have hceil : (⌈toRat a⌉ : ℚ) = toRat a := by
        have hcast : toRat a = ((2 * k : ℤ) : ℚ) := by
          rw [hk]
          push_cast
          rfl
        rw [hcast, Int.ceil_intCast]
      rw [hceil, abs_toRat]
      exact ⟨nearest_of_representable (representable_magnitude a), hsize⟩
  have hfinite : nearest |(⌈toRat a⌉ : ℚ)| < 2 ^ 1024 := by
    rw [hexact.1]
    exact hexact.2
  unfold ceil
  rw [if_pos h]
  refine ⟨(isFinite_ofMagnitude_iff (abs_nonneg _)).mpr hfinite, ?_⟩
  rw [toRat_ofMagnitude (abs_nonneg _) hfinite, hexact.1]
  unfold toRat
  have hmagnitude := magnitude_nonneg a
  split_ifs with hsign
  · have hle : ((⌈-magnitude a⌉ : ℤ) : ℚ) ≤ 0 := by
      have hint : ⌈-magnitude a⌉ ≤ 0 := Int.ceil_le.mpr (by push_cast; linarith)
      exact_mod_cast hint
    rw [abs_of_nonpos hle, neg_neg]
  · have hge : (0 : ℚ) ≤ (⌈magnitude a⌉ : ℤ) := by exact_mod_cast Int.ceil_nonneg hmagnitude
    exact abs_of_nonneg hge

/-- A whole number is converted exactly, if it is in range. -/
theorem toInt64_of_eq {n : ℤ} (h : isFinite a = true) (hn : toRat a = n) :
    toInt64 a = if -2 ^ 63 ≤ n ∧ n < 2 ^ 63 then some n else none := by
  unfold toInt64
  rw [hn, Int.ceil_intCast, Int.floor_intCast, ite_self]
  simp only [h, true_and]

theorem toInt64_of_nonneg (h : isFinite a = true) (hpos : 0 ≤ toRat a) :
    toInt64 a = if ⌊toRat a⌋ < 2 ^ 63 then some ⌊toRat a⌋ else none := by
  have hfloor := Int.floor_nonneg.mpr hpos
  have hwhole : (if sign a then ⌈toRat a⌉ else ⌊toRat a⌋) = ⌊toRat a⌋ := by
    split_ifs with hsign
    · -- the value of a double with a sign is not positive
      have hzero : toRat a = 0 := by
        have hle : toRat a ≤ 0 := by
          unfold toRat
          rw [if_pos hsign]
          exact neg_nonpos.mpr (magnitude_nonneg a)
        exact le_antisymm hle hpos
      rw [hzero, Int.ceil_zero, Int.floor_zero]
    · rfl
  unfold toInt64
  simp only [hwhole, h, true_and]
  congr 1
  exact propext (and_iff_right (by omega))

end Operations

end Binary64
