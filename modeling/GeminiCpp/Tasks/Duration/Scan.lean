import GeminiCpp.Tasks.Duration.Grammar

/-! What the scanner of `parse_duration` reads. No operation wraps around: the checks of the loops
bound every intermediate. -/
namespace GeminiCpp.ParseDuration
open Decimal MachineInt

variable {A : Arithmetic}

theorem wholeDigits_eq (hA : A.Exact) {whole : ℕ} (hwhole : whole ≤ limit) (anyDigit : Bool)
    (s : Bytes) : wholeDigits A whole anyDigit s = .ok
      (if whole * 10 ^ (s.takeWhile isDigit).length + value (s.takeWhile isDigit) ≤ limit then
        some (whole * 10 ^ (s.takeWhile isDigit).length + value (s.takeWhile isDigit),
          anyDigit || decide (s.takeWhile isDigit ≠ []), s.dropWhile isDigit)
      else none) := by
  induction s generalizing whole anyDigit with
  | nil =>
    rw [List.takeWhile_nil, value_nil, List.length_nil, Nat.pow_zero, Nat.mul_one, Nat.add_zero,
      if_pos hwhole]
    simp [wholeDigits]
  | cons c s ih =>
    rw [wholeDigits]
    by_cases hc : isDigit c = true
    · have hdigit := digit_lt hc
      have hlimit : limit = 2 ^ 63 := rfl
      have htens : A.unsigned 128 (whole * 10) = .ok (whole * 10) := hA.unsigned _ _ (by omega)
      have hnext : A.unsigned 128 (whole * 10 + digit c) = .ok (whole * 10 + digit c) :=
        hA.unsigned _ _ (by omega)
      have hvalue : whole * 10 ^ (s.takeWhile isDigit).length.succ +
          value (c :: s.takeWhile isDigit) =
            (whole * 10 + digit c) * 10 ^ (s.takeWhile isDigit).length +
              value (s.takeWhile isDigit) := by
        rw [value_cons, Nat.pow_succ]
        ring
      rw [if_pos hc, List.takeWhile_cons_of_pos hc, List.dropWhile_cons_of_pos hc, htens, ok_bind,
        hnext, ok_bind, List.length_cons, hvalue]
      by_cases hbig : limit < whole * 10 + digit c
      · have hpos : 1 ≤ 10 ^ (s.takeWhile isDigit).length := Nat.one_le_two_pow.trans
          (Nat.pow_le_pow_left (by omega) _)
        have hge := Nat.mul_le_mul_left (whole * 10 + digit c) hpos
        rw [if_pos hbig, if_neg (by omega)]
        rfl
      · rw [if_neg hbig, ih (by omega)]
        simp
    · rw [if_neg hc, List.takeWhile_cons_of_neg hc, List.dropWhile_cons_of_neg hc, value_nil,
        List.length_nil, Nat.pow_zero, Nat.mul_one, Nat.add_zero, if_pos hwhole]
      simp

/-- After `k` digits the scale is `10 ^ k`; the digits from the 19th on are only skipped. -/
theorem fracDigits_eq (hA : A.Exact) {frac k : ℕ} (hk : k ≤ 18) (hfrac : frac < 10 ^ k)
    (anyDigit : Bool) (s : Bytes) : fracDigits A frac (10 ^ k) anyDigit s = .ok
      (frac * 10 ^ ((s.takeWhile isDigit).take (18 - k)).length +
          value ((s.takeWhile isDigit).take (18 - k)),
        10 ^ (k + ((s.takeWhile isDigit).take (18 - k)).length),
        anyDigit || decide (s.takeWhile isDigit ≠ []), s.dropWhile isDigit) := by
  induction s generalizing frac k anyDigit with
  | nil => simp [fracDigits, value_nil]
  | cons c s ih =>
    rw [fracDigits]
    by_cases hc : isDigit c = true
    · have hdigit := digit_lt hc
      rw [if_pos hc, List.takeWhile_cons_of_pos hc, List.dropWhile_cons_of_pos hc]
      by_cases hroom : k < 18
      · have hscale : 10 ^ k < maxScale := Nat.pow_lt_pow_right (by omega) hroom
        have hnext : frac * 10 + digit c < 10 ^ (k + 1) := by
          rw [Nat.pow_succ]
          omega
        have hbound : 10 ^ (k + 1) ≤ 10 ^ 18 := Nat.pow_le_pow_right (by omega) (by omega)
        have htens : A.unsigned 64 (frac * 10) = .ok (frac * 10) := hA.unsigned _ _ (by omega)
        have hvalue : A.unsigned 64 (frac * 10 + digit c) = .ok (frac * 10 + digit c) :=
          hA.unsigned _ _ (by omega)
        have hpow : A.unsigned 64 (10 ^ k * 10) = .ok (10 ^ (k + 1)) := by
          rw [← Nat.pow_succ]
          exact hA.unsigned _ _ (by omega)
        have htake : (c :: s.takeWhile isDigit).take (18 - k) =
            c :: (s.takeWhile isDigit).take (18 - (k + 1)) := by
          have hsucc : 18 - k = (18 - (k + 1)) + 1 := by omega
          rw [hsucc, List.take_succ_cons]
        rw [if_pos hscale, htens, ok_bind, hvalue, ok_bind, hpow, ok_bind,
          ih (by omega) hnext, htake, value_cons, List.length_cons]
        simp only [Bool.true_or, ne_eq, reduceCtorEq, not_false_eq_true, decide_true, Bool.or_true]
        congr 2
        · rw [Nat.pow_succ]
          ring
        · congr 2
          omega
      · have hfull : k = 18 := by omega
        subst hfull
        have hscale : ¬10 ^ 18 < maxScale := Nat.lt_irrefl _
        rw [if_neg hscale, ih (by omega) hfrac]
        simp
    · rw [if_neg hc, List.takeWhile_cons_of_neg hc, List.dropWhile_cons_of_neg hc]
      simp [value_nil]

/-- The digits before and after a dot, if there is a dot, and what follows. -/
def splitNumber (s : Bytes) : Bytes × Option Bytes × Bytes :=
  match s.dropWhile isDigit with
  | [] => (s.takeWhile isDigit, none, [])
  | c :: rest =>
    if c = dot then
      (s.takeWhile isDigit, some (rest.takeWhile isDigit), rest.dropWhile isDigit)
    else (s.takeWhile isDigit, none, c :: rest)

theorem digits_takeWhile (s : Bytes) : Digits (s.takeWhile isDigit) :=
  List.all_eq_true.mp List.all_takeWhile

theorem splitNumber_digits (s : Bytes) : Digits ((splitNumber s).2.1.getD []) := by
  unfold splitNumber
  cases s.dropWhile isDigit with
  | nil => exact digits_nil
  | cons c rest =>
    by_cases hc : c = dot
    · simp only [hc, if_true]
      exact digits_takeWhile rest
    · simp only [hc, if_false]
      exact digits_nil

theorem splitNumber_append (s : Bytes) : s = (s.takeWhile isDigit ++
    match (splitNumber s).2.1 with
      | none => []
      | some ds => dot :: ds) ++ (splitNumber s).2.2 := by
  unfold splitNumber
  have hsplit := List.takeWhile_append_dropWhile (p := isDigit) (l := s)
  cases hdrop : s.dropWhile isDigit with
  | nil =>
    rw [hdrop] at hsplit
    change s = (s.takeWhile isDigit ++ []) ++ []
    rw [hsplit, List.append_nil]
  | cons c rest =>
    rw [hdrop] at hsplit
    by_cases hc : c = dot
    · have hrest := List.takeWhile_append_dropWhile (p := isDigit) (l := rest)
      simp only [hc, if_true]
      rw [List.append_assoc, List.cons_append, hrest, ← hc, hsplit]
    · simp only [hc, if_false]
      rw [List.append_nil, hsplit]

theorem fraction_eq (hA : A.Exact) (anyDigit : Bool) (s : Bytes) :
    fraction A anyDigit (s.dropWhile isDigit) = .ok
      (value (((splitNumber s).2.1.getD []).take 18),
        10 ^ (((splitNumber s).2.1.getD []).take 18).length,
        anyDigit || decide ((splitNumber s).2.1.getD [] ≠ []), (splitNumber s).2.2) := by
  unfold splitNumber fraction
  cases s.dropWhile isDigit with
  | nil => simp [value_nil]
  | cons c rest =>
    by_cases hc : c = dot
    · have hread := @fracDigits_eq A hA 0 0 (by omega) (by simp) anyDigit rest
      simp only [hc, if_true]
      simpa using hread
    · simp [hc, value_nil]

theorem TimeUnit.nanos_pos_le (unit : TimeUnit) :
    0 < unit.nanos ∧ unit.nanos ≤ 3600000000000 := by
  cases unit <;> decide

/-- Whole nanoseconds of a number that is read, with at most 18 digits after the dot. -/
def readNanos (whole frac : Bytes) (unit : TimeUnit) : ℕ :=
  value whole * unit.nanos + value (frac.take 18) * unit.nanos / 10 ^ (frac.take 18).length

/-- The products and the sum for one pair. -/
theorem readNanos_bounds {whole frac : Bytes} (hwhole : value whole ≤ limit)
    (hfrac : Digits frac) (unit : TimeUnit) :
    value whole * unit.nanos < 2 ^ 106 ∧ value (frac.take 18) * unit.nanos < 2 ^ 106 ∧
      readNanos whole frac unit < 2 ^ 107 := by
  obtain ⟨-, hunit⟩ := unit.nanos_pos_le
  have hlt : value (frac.take 18) < 10 ^ (frac.take 18).length :=
    value_lt fun c hc => hfrac c (List.mem_of_mem_take hc)
  have hscale : 10 ^ (frac.take 18).length ≤ 10 ^ 18 :=
    Nat.pow_le_pow_right (by omega) (List.length_take_le _ _)
  have hofWhole : value whole * unit.nanos ≤ 2 ^ 63 * 3600000000000 := Nat.mul_le_mul hwhole hunit
  have hofFrac : value (frac.take 18) * unit.nanos ≤ 10 ^ 18 * 3600000000000 :=
    Nat.mul_le_mul (by omega) hunit
  have hle : value (frac.take 18) * unit.nanos / 10 ^ (frac.take 18).length ≤
      value (frac.take 18) * unit.nanos := Nat.div_le_self _ _
  unfold readNanos
  omega

/-- What one round of the loop does. -/
theorem addPair_eq (hA : A.Exact) {total : ℕ} (htotal : total ≤ limit) (s : Bytes) :
    addPair A total s = .ok
      (if limit < value (s.takeWhile isDigit) then none
      else if s.takeWhile isDigit = [] ∧ (splitNumber s).2.1.getD [] = [] then none
      else (unitOf ((splitNumber s).2.2.takeWhile isUnitByte)).bind fun unit =>
        if limit < total + readNanos (s.takeWhile isDigit) ((splitNumber s).2.1.getD []) unit then
          none
        else some
          (total + readNanos (s.takeWhile isDigit) ((splitNumber s).2.1.getD []) unit,
            (splitNumber s).2.2.dropWhile isUnitByte)) := by
  have hlimit : limit = 2 ^ 63 := rfl
  unfold addPair
  rw [wholeDigits_eq hA (Nat.zero_le _), Nat.zero_mul, Nat.zero_add]
  by_cases hwhole : value (s.takeWhile isDigit) ≤ limit
  · rw [if_pos hwhole, if_neg (Nat.not_lt.mpr hwhole), ok_bind]
    dsimp only
    rw [fraction_eq hA, ok_bind]
    dsimp only
    have hdigits := splitNumber_digits s
    generalize (splitNumber s).2.1.getD [] = frac at hdigits ⊢
    generalize (splitNumber s).2.2 = rest
    by_cases hnone : s.takeWhile isDigit = [] ∧ frac = []
    · rw [if_pos hnone]
      simp [hnone.1, hnone.2]
    · rw [if_neg hnone, if_neg (by simpa [or_iff_not_imp_left] using hnone)]
      cases unitOf (rest.takeWhile isUnitByte) with
      | none => rfl
      | some unit =>
        obtain ⟨hofWhole, hofFrac, hsum⟩ := readNanos_bounds hwhole hdigits unit
        have hnanos : A.unsigned 128 (value (s.takeWhile isDigit) * unit.nanos +
            value (frac.take 18) * unit.nanos / 10 ^ (frac.take 18).length) =
              .ok (readNanos (s.takeWhile isDigit) frac unit) := hA.unsigned _ _ (by
          change readNanos (s.takeWhile isDigit) frac unit < _
          omega)
        dsimp only
        rw [hA.unsigned 128 _ (by omega), ok_bind, hA.unsigned 128 _ (by omega), ok_bind, hnanos,
          ok_bind, hA.unsigned 128 _ (by omega), ok_bind, Option.bind_some]
        split_ifs <;> rfl
  · rw [if_neg hwhole, if_pos (Nat.not_le.mp hwhole)]
    rfl

end GeminiCpp.ParseDuration
