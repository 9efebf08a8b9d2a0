import Mathlib.Algebra.Order.Round
import Mathlib.Data.Int.Log
import Mathlib.Data.Rat.Floor
import Mathlib.Tactic.FieldSimp
import Mathlib.Tactic.Linarith

/-! Rounding to the nearest number with a significand of 53 bits, the even one of two, with a
least exponent. The numbers have no largest one here. -/
namespace Nearest

/-- The nearest integer, the even one at a midpoint. -/
def toEven (x : ℚ) : ℤ := if Int.fract x = 1 / 2 then 2 * ((⌊x⌋ + 1) / 2) else round x

theorem toEven_error (x : ℚ) : |(toEven x : ℚ) - x| ≤ 1 / 2 := by
  unfold toEven
  split_ifs with hmid
  · have hx : x = ⌊x⌋ + 1 / 2 := by
      rw [← hmid]
      exact (Int.floor_add_fract x).symm
    obtain ⟨k, hk | hk⟩ := Int.even_or_odd' ⌊x⌋
    · have hdown : (⌊x⌋ + 1) / 2 = k := by omega
      rw [hdown, hx, hk]
      push_cast
      rw [abs_le]
      constructor <;> linarith
    · have hup : (⌊x⌋ + 1) / 2 = k + 1 := by omega
      rw [hup, hx, hk]
      push_cast
      rw [abs_le]
      constructor <;> linarith
  · rw [abs_sub_comm]
    exact abs_sub_round x

theorem toEven_nearest (x : ℚ) (k : ℤ) : |(toEven x : ℚ) - x| ≤ |(k : ℚ) - x| := by
  by_cases hk : toEven x = k
  · rw [hk]
  have hapart : (1 : ℚ) ≤ |(toEven x : ℚ) - k| := by
    have hint : (1 : ℤ) ≤ |toEven x - k| := Int.one_le_abs (sub_ne_zero.mpr hk)
    exact_mod_cast hint
  have herror := toEven_error x
  have htriangle := abs_sub_le (toEven x : ℚ) x k
  rw [abs_sub_comm x] at htriangle
  linarith

theorem le_toEven {k : ℤ} {x : ℚ} (h : (k : ℚ) ≤ x) : k ≤ toEven x := by
  have herror := abs_le.mp (toEven_error x)
  by_contra hlt
  have hnext : (toEven x : ℚ) + 1 ≤ k := by exact_mod_cast not_le.mp hlt
  have hnear := toEven_nearest x k
  rw [abs_of_nonpos (by linarith), abs_of_nonpos (by linarith)] at hnear
  linarith

theorem toEven_le {k : ℤ} {x : ℚ} (h : x ≤ k) : toEven x ≤ k := by
  have herror := abs_le.mp (toEven_error x)
  by_contra hlt
  have hnext : (k : ℚ) + 1 ≤ toEven x := by exact_mod_cast not_le.mp hlt
  have hnear := toEven_nearest x k
  rw [abs_of_nonneg (by linarith), abs_of_nonneg (by linarith)] at hnear
  linarith

/-- A midpoint has the even number on the same side of both signs. -/
theorem toEven_neg (x : ℚ) : toEven (-x) = -toEven x := by
  by_cases hmid : Int.fract x = 1 / 2
  · have hx : x = ⌊x⌋ + 1 / 2 := by
      rw [← hmid]
      exact (Int.floor_add_fract x).symm
    have hfloor : ⌊-x⌋ = -⌊x⌋ - 1 := by
      apply Int.floor_eq_iff.mpr
      push_cast
      constructor <;> linarith
    have hmid' : Int.fract (-x) = 1 / 2 := by
      rw [Int.fract, hfloor]
      push_cast
      linarith
    unfold toEven
    rw [if_pos hmid, if_pos hmid', hfloor]
    omega
  · have herror := abs_le.mp (toEven_error x)
    have herror' := abs_le.mp (toEven_error (-x))
    by_contra hne
    have hapart : 1 ≤ |toEven (-x) + toEven x| := Int.one_le_abs (by omega)
    have hhalf : ∀ k : ℤ, x ≠ k + 1 / 2 := by
      intro k hk
      apply hmid
      have hfloor : ⌊x⌋ = k := by
        apply Int.floor_eq_iff.mpr
        constructor <;> linarith
      rw [Int.fract, hfloor]
      linarith
    rcases le_abs.mp hapart with hup | hdown
    · have hsum : (1 : ℚ) ≤ toEven (-x) + toEven x := by exact_mod_cast hup
      apply hhalf (toEven x - 1)
      push_cast
      linarith
    · have hsum : (toEven (-x) : ℚ) + toEven x ≤ -1 := by exact_mod_cast le_neg.mp hdown
      apply hhalf (toEven x)
      linarith

theorem two_zpow_pos (e : ℤ) : (0 : ℚ) < 2 ^ e := zpow_pos (by norm_num) e

/-- The exponent of the last place of the numbers around `x`. -/
def unit (x : ℚ) : ℤ := if x = 0 then -1074 else max (Int.log 2 |x| - 52) (-1074)

/-- The nearest number, the even one at a midpoint. -/
def nearest (x : ℚ) : ℚ := toEven (x / 2 ^ unit x) * 2 ^ unit x

/-- The numbers that are rounded to. -/
def Representable (y : ℚ) : Prop :=
  ∃ m e : ℤ, |m| ≤ 2 ^ 53 ∧ -1074 ≤ e ∧ y = m * 2 ^ e

theorem le_unit (x : ℚ) : -1074 ≤ unit x := by
  unfold unit
  split_ifs
  · exact le_rfl
  · exact le_max_right _ _

theorem abs_lt_unit (x : ℚ) : |x| < 2 ^ 53 * (2 : ℚ) ^ unit x := by
  unfold unit
  split_ifs with hx
  · rw [hx, abs_zero]
    exact mul_pos (by norm_num) (two_zpow_pos _)
  · have hlog := Int.lt_zpow_succ_log_self (b := 2) (by decide) |x|
    have hle : Int.log 2 |x| + 1 ≤ 53 + max (Int.log 2 |x| - 52) (-1074) := by
      have hmax := le_max_left (Int.log 2 |x| - 52) (-1074)
      omega
    calc |x| < (2 : ℚ) ^ (Int.log 2 |x| + 1) := by exact_mod_cast hlog
      _ ≤ (2 : ℚ) ^ (53 + max (Int.log 2 |x| - 52) (-1074)) :=
          zpow_le_zpow_right₀ (by norm_num) hle
      _ = 2 ^ 53 * (2 : ℚ) ^ max (Int.log 2 |x| - 52) (-1074) := by
          rw [zpow_add₀ (by norm_num)]
          norm_cast

theorem unit_le_abs {x : ℚ} (h : -1074 < unit x) : 2 ^ 52 * (2 : ℚ) ^ unit x ≤ |x| := by
  unfold unit at h ⊢
  split_ifs at h ⊢ with hx
  · exact absurd h (lt_irrefl _)
  have hlog := Int.zpow_log_le_self (b := 2) (by decide) (abs_pos.mpr hx)
  have hunit : max (Int.log 2 |x| - 52) (-1074) = Int.log 2 |x| - 52 := by omega
  rw [hunit]
  calc 2 ^ 52 * (2 : ℚ) ^ (Int.log 2 |x| - 52) = (2 : ℚ) ^ (52 + (Int.log 2 |x| - 52)) := by
        rw [zpow_add₀ (by norm_num)]
        norm_cast
    _ = (2 : ℚ) ^ Int.log 2 |x| := by
        congr 1
        omega
    _ ≤ |x| := by exact_mod_cast hlog

theorem abs_toEven_le (x : ℚ) : |toEven (x / 2 ^ unit x)| ≤ 2 ^ 53 := by
  have hpos := two_zpow_pos (unit x)
  have habs := abs_lt.mp (abs_lt_unit x)
  have hlow : ((-2 ^ 53 : ℤ) : ℚ) ≤ x / 2 ^ unit x := by
    rw [le_div_iff₀ hpos]
    push_cast
    linarith
  have hhigh : x / 2 ^ unit x ≤ ((2 ^ 53 : ℤ) : ℚ) := by
    rw [div_le_iff₀ hpos]
    push_cast
    linarith
  exact abs_le.mpr ⟨le_toEven hlow, toEven_le hhigh⟩

theorem nearest_neg (x : ℚ) : nearest (-x) = -nearest x := by
  have hunit : unit (-x) = unit x := by
    unfold unit
    simp only [neg_eq_zero, abs_neg]
  unfold nearest
  rw [hunit, neg_div, toEven_neg, Int.cast_neg, neg_mul]

theorem representable_nearest (x : ℚ) : Representable (nearest x) :=
  ⟨_, _, abs_toEven_le x, le_unit x, rfl⟩

/-- Of the multiples of the unit, none is nearer. -/
theorem nearest_error_le (x : ℚ) (k : ℤ) :
    |nearest x - x| ≤ |(k : ℚ) * 2 ^ unit x - x| := by
  have hpos := two_zpow_pos (unit x)
  have hscale : ∀ a : ℚ, |a * 2 ^ unit x - x| = |a - x / 2 ^ unit x| * 2 ^ unit x := by
    intro a
    rw [← abs_of_pos hpos, ← abs_mul, abs_of_pos hpos, sub_mul, div_mul_cancel₀ _ hpos.ne']
  unfold nearest
  rw [hscale, hscale]
  exact mul_le_mul_of_nonneg_right (toEven_nearest _ k) hpos.le

/-- No number is nearer than the nearest. -/
theorem nearest_le_of_representable (x : ℚ) {y : ℚ} (h : Representable y) :
    |nearest x - x| ≤ |y - x| := by
  obtain ⟨m, e, hm, he, rfl⟩ := h
  rcases le_or_gt (unit x) e with hunit | hunit
  · have hgrid : (m : ℚ) * 2 ^ e = ((m * 2 ^ (e - unit x).toNat : ℤ) : ℚ) * 2 ^ unit x := by
      have hsplit : e = (e - unit x).toNat + unit x := by omega
      conv_lhs => rw [hsplit, zpow_add₀ (by norm_num), zpow_natCast]
      push_cast
      ring
    rw [hgrid]
    exact nearest_error_le x _
  · -- a finer number lies below the power of two that starts the range of `x`
    have hx := unit_le_abs (lt_of_le_of_lt he hunit)
    have hfine : |(m : ℚ) * 2 ^ e| ≤ 2 ^ 52 * (2 : ℚ) ^ unit x := by
      have hm' : |(m : ℚ)| ≤ 2 ^ 53 := by exact_mod_cast hm
      have hstep : (2 : ℚ) ^ e ≤ 2 ^ (unit x - 1) := zpow_le_zpow_right₀ (by norm_num) (by omega)
      have hhalf : (2 : ℚ) ^ (unit x - 1) * 2 = 2 ^ unit x := by
        rw [← zpow_add_one₀ (by norm_num), sub_add_cancel]
      rw [abs_mul, abs_of_pos (two_zpow_pos e)]
      calc |(m : ℚ)| * 2 ^ e ≤ 2 ^ 53 * 2 ^ (unit x - 1) :=
            mul_le_mul hm' hstep (two_zpow_pos e).le (by norm_num)
        _ = 2 ^ 52 * (2 : ℚ) ^ unit x := by
            rw [← hhalf]
            ring
    have hpower : |nearest x - x| ≤ |x| - 2 ^ 52 * (2 : ℚ) ^ unit x := by
      rcases le_or_gt 0 x with hsign | hsign
      · rw [abs_of_nonneg hsign] at hx ⊢
        have hgap : |((2 ^ 52 : ℤ) : ℚ) * 2 ^ unit x - x| = x - 2 ^ 52 * 2 ^ unit x := by
          rw [Int.cast_pow, Int.cast_ofNat, abs_of_nonpos (sub_nonpos.mpr hx), neg_sub]
        rw [← hgap]
        exact nearest_error_le x (2 ^ 52)
      · rw [abs_of_neg hsign] at hx ⊢
        have hgap : |((-2 ^ 52 : ℤ) : ℚ) * 2 ^ unit x - x| = -x - 2 ^ 52 * 2 ^ unit x := by
          push_cast
          rw [abs_of_nonneg (by linarith)]
          ring
        rw [← hgap]
        exact nearest_error_le x (-2 ^ 52)
    have htriangle := abs_sub_abs_le_abs_sub x ((m : ℚ) * 2 ^ e)
    rw [abs_sub_comm x] at htriangle
    linarith

theorem nearest_of_representable {x : ℚ} (h : Representable x) : nearest x = x := by
  have hzero := nearest_le_of_representable x h
  rw [sub_self, abs_zero] at hzero
  exact sub_eq_zero.mp (abs_eq_zero.mp (le_antisymm hzero (abs_nonneg _)))

theorem representable_intCast {k : ℤ} (h : |k| ≤ 2 ^ 53) : Representable k :=
  ⟨k, 0, h, by decide, by simp⟩

theorem nearest_intCast {k : ℤ} (h : |k| ≤ 2 ^ 53) : nearest k = k :=
  nearest_of_representable (representable_intCast h)

theorem nearest_nonneg {x : ℚ} (h : 0 ≤ x) : 0 ≤ nearest x := by
  have hpos := two_zpow_pos (unit x)
  have hle : ((0 : ℤ) : ℚ) ≤ x / 2 ^ unit x := by
    rw [Int.cast_zero]
    exact div_nonneg h hpos.le
  have hint : (0 : ℚ) ≤ toEven (x / 2 ^ unit x) := by exact_mod_cast le_toEven hle
  exact mul_nonneg hint hpos.le

/-- A large number is even. -/
theorem even_of_representable {y : ℚ} (h : Representable y) (hlarge : 2 ^ 53 < |y|) :
    ∃ k : ℤ, y = 2 * k := by
  obtain ⟨m, e, hm, he, rfl⟩ := h
  have hexp : 0 < e := by
    by_contra hle
    have hm' : |(m : ℚ)| ≤ 2 ^ 53 := by exact_mod_cast hm
    have hone : (2 : ℚ) ^ e ≤ 1 := zpow_le_one_of_nonpos₀ (by norm_num) (not_lt.mp hle)
    rw [abs_mul, abs_of_pos (two_zpow_pos e)] at hlarge
    have hprod := mul_le_mul hm' hone (two_zpow_pos e).le (by norm_num)
    rw [mul_one] at hprod
    linarith
  refine ⟨m * 2 ^ (e - 1).toNat, ?_⟩
  have hsplit : e = ((e - 1).toNat : ℤ) + 1 := by omega
  conv_lhs => rw [hsplit, zpow_add_one₀ (by norm_num), zpow_natCast]
  push_cast
  ring

end Nearest
