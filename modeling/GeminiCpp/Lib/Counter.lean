import Mathlib.Order.Interval.Finset.Nat
import Mathlib.Data.Nat.ModEq

/-! Counters that only go up, kept modulo the number of values they can hold. With the modulus
zero they are unbounded. -/
namespace Counter

/-- The counter after `n` steps. -/
def of (range n : ℕ) : ℕ := n % range

def next (range c : ℕ) : ℕ := (c + 1) % range

/-- The difference of two counters as the machine computes it. -/
def sub (range a b : ℕ) : ℕ := (a + range - b) % range

variable {range : ℕ}

theorem of_zero (n : ℕ) : of 0 n = n := Nat.mod_zero n

theorem of_start (range : ℕ) : of range 0 = 0 := Nat.zero_mod range

theorem of_of_lt {n : ℕ} (h : range = 0 ∨ n < range) : of range n = n := by
  rcases h with rfl | h
  · exact of_zero n
  · exact Nat.mod_eq_of_lt h

theorem of_le (range n : ℕ) : of range n ≤ n := Nat.mod_le n range

theorem next_of (range n : ℕ) : next range (of range n) = of range (n + 1) :=
  Nat.mod_add_mod n range 1

/-- The difference is that of the numbers of steps, as far as the counter can hold it. -/
theorem sub_of (range : ℕ) {a b : ℕ} (h : b ≤ a) :
    sub range (of range a) (of range b) = of range (a - b) := by
  unfold sub of
  rcases Nat.eq_zero_or_pos range with rfl | hpos
  · simp only [Nat.mod_zero, Nat.add_zero]
  · obtain ⟨d, rfl⟩ := Nat.exists_eq_add_of_le h
    have hb : b % range < range := Nat.mod_lt b hpos
    have hd : d % range < range := Nat.mod_lt d hpos
    rw [Nat.add_sub_cancel_left, Nat.add_mod b d]
    by_cases hwrap : b % range + d % range < range
    · have hsum : b % range + d % range + range - b % range = d % range + range := by omega
      rw [Nat.mod_eq_of_lt hwrap, hsum, Nat.add_mod_right, Nat.mod_mod]
    · have honce : (b % range + d % range) % range = b % range + d % range - range := by
        rw [Nat.mod_eq_sub_mod (by omega)]
        exact Nat.mod_eq_of_lt (by omega)
      have hsum : b % range + d % range - range + range - b % range = d % range := by omega
      rw [honce, hsum, Nat.mod_mod]

theorem sub_of_eq {a b : ℕ} (h : b ≤ a) (hfits : range = 0 ∨ a - b < range) :
    sub range (of range a) (of range b) = a - b := by
  rw [sub_of range h, of_of_lt hfits]

/-- Two counters less than a whole range apart are told apart. -/
theorem of_eq_iff {a b : ℕ} (h : b ≤ a) (hfits : range = 0 ∨ a - b < range) :
    of range b = of range a ↔ b = a := by
  constructor
  · intro heq
    have hsub : sub range (of range a) (of range b) = a - b := sub_of_eq h hfits
    have hself : sub range (of range a) (of range a) = a - a :=
      sub_of_eq (Nat.le_refl a) (by omega)
    rw [heq, hself] at hsub
    omega
  · rintro rfl
    rfl

/-! The counter picks a slot of a ring by a second modulus. -/

theorem mod_ne_of_lt {a j k c : ℕ} (hj : a ≤ j) (hjk : j < k) (hk : k < a + c) :
    j % c ≠ k % c := by
  intro heq
  have hmemJ : j ∈ Finset.Ico a (a + c) := Finset.mem_Ico.mpr ⟨hj, by omega⟩
  have hmemK : k ∈ Finset.Ico a (a + c) := Finset.mem_Ico.mpr ⟨by omega, hk⟩
  have hsame := Nat.mod_injOn_Ico a c (Finset.mem_coe.mpr hmemJ) (Finset.mem_coe.mpr hmemK) heq
  omega

theorem of_mod_of_dvd {c : ℕ} (h : c ∣ range) (n : ℕ) : of range n % c = n % c :=
  Nat.mod_mod_of_dvd n h

/-- Two counters in the same lap. -/
theorem of_mod_ne_of_lap {c j k : ℕ} (hjk : j < k) (hk : k < j + c)
    (hlap : j / range = k / range) : of range j % c ≠ of range k % c := by
  unfold of
  have hj := Nat.mod_add_div j range
  have hk' := Nat.mod_add_div k range
  rw [← hlap] at hk'
  generalize range * (j / range) = start at hj hk'
  exact mod_ne_of_lt (Nat.le_refl _) (by omega) (by omega)

/-- Two counters in one lap and the next pick the same slot only if they are as far apart as the
range exceeds a multiple of the ring. -/
theorem of_mod_ne_of_next {c j k : ℕ} (hk : k < j + c) (hlap : k / range = j / range + 1)
    (hfar : k - j ≠ range % c) (hjk : j < k) : of range j % c ≠ of range k % c := by
  unfold of
  intro heq
  have hj := Nat.mod_add_div j range
  have hk' := Nat.mod_add_div k range
  rw [hlap, Nat.mul_add, Nat.mul_one] at hk'
  have hsum : j % range + (k - j) = k % range + range := by omega
  have hmod : (k - j) % c = range % c := by
    have hcongr : j % range + (k - j) ≡ j % range + range [MOD c] := by
      rw [hsum]
      exact Nat.ModEq.add_right range heq.symm
    exact Nat.ModEq.add_left_cancel' (j % range) hcongr
  rw [Nat.mod_eq_of_lt (by omega)] at hmod
  exact hfar hmod

/-- Just before and just after a wrap-around, counters that far apart pick the same slot. -/
theorem of_mod_wrap {c a : ℕ} (hlt : c < range) (hc : 0 < c) (hpos : 0 < a) (ha : a ≤ range % c)
    (laps : ℕ) :
    of range ((laps + 1) * range - a) % c = of range ((laps + 1) * range - a + range % c) % c := by
  have hsmall : range % c < c := Nat.mod_lt range hc
  have hbefore : of range ((laps + 1) * range - a) = range - a := by
    have hsum : (laps + 1) * range - a = range - a + laps * range := by
      rw [Nat.add_mul, Nat.one_mul]
      omega
    unfold of
    rw [hsum, Nat.add_mul_mod_self_right]
    exact Nat.mod_eq_of_lt (by omega)
  have hafter : of range ((laps + 1) * range - a + range % c) = range % c - a := by
    have hsum : (laps + 1) * range - a + range % c = range % c - a + (laps + 1) * range := by
      rw [Nat.add_mul, Nat.one_mul]
      omega
    unfold of
    rw [hsum, Nat.add_mul_mod_self_right]
    exact Nat.mod_eq_of_lt (by omega)
  have hsplit : range - a = range % c - a + c * (range / c) := by
    have hdiv := Nat.mod_add_div range c
    omega
  rw [hbefore, hafter, hsplit, Nat.add_mul_mod_self_left]

/-- A window that begins before a wrap-around and is as long as the excess holds two counters of
the same slot. -/
theorem exists_collision {c first last laps : ℕ} (hc : 0 < c) (hlt : c < range)
    (hrest : 0 < range % c) (hfirst : first < (laps + 1) * range)
    (hwithin : (laps + 1) * range ≤ last) (hlong : range % c ≤ last - first) :
    ∃ j k, first ≤ j ∧ j < k ∧ k ≤ last ∧ of range j % c = of range k % c := by
  have hsame := fun a hpos ha => of_mod_wrap (a := a) hlt hc hpos ha laps
  have hmul : range ≤ (laps + 1) * range := Nat.le_mul_of_pos_left range (Nat.succ_pos laps)
  have hsmall := Nat.mod_lt range hc
  generalize (laps + 1) * range = wrap at hfirst hwithin hsame hmul
  -- The window may begin less than the excess before the wrap-around.
  by_cases hroom : first ≤ wrap - range % c
  · exact ⟨wrap - range % c, wrap - range % c + range % c, hroom, by omega, by omega,
      hsame (range % c) hrest (Nat.le_refl _)⟩
  · exact ⟨wrap - (wrap - first), wrap - (wrap - first) + range % c, by omega, by omega, by omega,
      hsame (wrap - first) (by omega) (by omega)⟩

/-- Two counters of different laps, with no whole lap between them. -/
theorem lap_eq_succ {j k : ℕ} (hpos : 0 < range) (hlap : j / range < k / range)
    (hk : k ≤ j + range) : k / range = j / range + 1 := by
  have hlow : k / range ≤ (j + range) / range := Nat.div_le_div_right hk
  rw [Nat.add_div_right j hpos] at hlow
  omega

/-- When the counters in a window, which is no longer than the ring, pick different slots: no
wrap-around is in the window, or the window is short enough. -/
theorem slots_apart_iff {c first last : ℕ} (hc : 0 < c) (hrange : range = 0 ∨ c < range)
    (hlast : last < first + c) :
    (∀ j k, first ≤ j → j < k → k ≤ last → of range j % c ≠ of range k % c) ↔
      c ∣ range ∨ (∀ laps, ¬(first < laps * range ∧ laps * range ≤ last)) ∨
        last - first < range % c := by
  constructor
  · intro hapart
    by_contra hnot
    push Not at hnot
    obtain ⟨hdvd, ⟨laps, hfirst, hwithin⟩, hlong⟩ := hnot
    have hlt : c < range := by
      rcases hrange with rfl | hlt
      · exact absurd (Nat.dvd_zero c) hdvd
      · exact hlt
    have hrest : 0 < range % c := Nat.pos_of_ne_zero fun h => hdvd (Nat.dvd_of_mod_eq_zero h)
    cases laps with
    | zero => omega
    | succ laps =>
      obtain ⟨j, k, hj, hjk, hk, hsame⟩ := exists_collision hc hlt hrest hfirst hwithin hlong
      exact hapart j k hj hjk hk hsame
  · intro hclear j k hj hjk hk
    rcases hclear with hdvd | hclear
    · rw [of_mod_of_dvd hdvd, of_mod_of_dvd hdvd]
      exact mod_ne_of_lt hj hjk (by omega)
    by_cases hlap : j / range = k / range
    · exact of_mod_ne_of_lap hjk (by omega) hlap
    · have hrise : j / range < k / range :=
        lt_of_le_of_ne (Nat.div_le_div_right (Nat.le_of_lt hjk)) hlap
      have hpos : 0 < range := by
        rcases Nat.eq_zero_or_pos range with rfl | hpos
        · rw [Nat.div_zero, Nat.div_zero] at hrise
          omega
        · exact hpos
      have hreached : k / range * range ≤ k := Nat.div_mul_le_self k range
      have hnotYet : j < k / range * range := (Nat.div_lt_iff_lt_mul hpos).mp hrise
      rcases hclear with hnone | hshort
      · exact absurd ⟨by omega, by omega⟩ (hnone (k / range))
      · have hsmall : range % c ≤ range := Nat.mod_le range c
        have hnext : k / range = j / range + 1 := lap_eq_succ hpos hrise (by omega)
        exact of_mod_ne_of_next (by omega) hnext (by omega) hjk

end Counter
