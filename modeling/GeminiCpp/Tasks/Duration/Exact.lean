import Mathlib.Algebra.Order.BigOperators.Group.List
import GeminiCpp.Tasks.Duration.Accepts

/-! What `parse_duration` returns, beside the exact value of a duration. -/
namespace GeminiCpp.ParseDuration
open Decimal MachineInt

theorem parseDuration_text (d : Duration) :
    parseDuration d.text = .ok (if InRange d.cut then some d.cut else none) :=
  parseWith_text Arithmetic.exact_modular d

namespace Duration
variable (d : Duration)

theorem sum_cut_le : (d.pairs.map fun p => p.cut.nanos).sum ≤ (d.pairs.map Pair.nanos).sum :=
  List.sum_le_sum fun p _ => p.nanos_cut_le

/-- A sum that is in range is still in range when the numbers are cut. -/
theorem inRange_cut (h : InRange d.exact) : InRange d.cut := by
  have hle := d.sum_cut_le
  unfold InRange exact at h
  unfold InRange cut
  have hmin : int64Min = -9223372036854775808 := rfl
  cases hsign : d.sign <;> rw [hsign] at h <;> simp only [Sign.apply] at h ⊢ <;> omega

theorem cut_eq_exact_iff : d.cut = d.exact ↔ ∀ p ∈ d.pairs, p.cut.nanos = p.nanos := by
  have happly : d.cut = d.exact ↔
      (d.pairs.map fun p => p.cut.nanos).sum = (d.pairs.map Pair.nanos).sum := by
    unfold cut exact
    cases d.sign <;> simp only [Sign.apply] <;> omega
  rw [happly]
  generalize d.pairs = pairs
  induction pairs with
  | nil => simp
  | cons p pairs ih =>
    have hp := p.nanos_cut_le
    have hpairs : (pairs.map fun p => p.cut.nanos).sum ≤ (pairs.map Pair.nanos).sum :=
      List.sum_le_sum fun p _ => p.nanos_cut_le
    rw [List.map_cons, List.map_cons, List.sum_cons, List.sum_cons, List.forall_mem_cons]
    constructor
    · intro h
      exact ⟨by omega, ih.mp (by omega)⟩
    · intro h
      have hrest := ih.mpr h.2
      omega

end Duration

/-- The value that is returned is the exact one, and no sum out of range is accepted. -/
def TruncatesExactly (d : Duration) : Prop :=
  (∀ v, parseDuration d.text = .ok (some v) → v = d.exact) ∧
    (¬InRange d.exact → ∀ v, parseDuration d.text ≠ .ok (some v))

/-- A result is exact if and only if the digits after the 18th of a fraction do not matter. -/
theorem truncatesExactly_iff (d : Duration) : TruncatesExactly d ↔
    (InRange d.cut → ∀ p ∈ d.pairs, p.cut.nanos = p.nanos) := by
  unfold TruncatesExactly
  rw [parseDuration_text, ← d.cut_eq_exact_iff]
  by_cases hrange : InRange d.cut
  · rw [if_pos hrange]
    constructor
    · exact fun h _ => h.1 d.cut rfl
    · intro h
      have hexact := h hrange
      refine ⟨fun v hv => ?_, fun hout => absurd (hexact ▸ hrange) hout⟩
      obtain rfl := Option.some.inj (Except.ok.inj hv)
      exact hexact
  · rw [if_neg hrange]
    constructor
    · exact fun _ h => absurd h hrange
    · refine fun _ => ⟨fun v hv => ?_, fun _ v hv => ?_⟩
      · cases hv
      · cases hv

/-- With a unit that divides `10 ^ 18` nanoseconds the digits after the 18th never matter. -/
theorem Pair.nanos_cut_of_dvd (p : Pair) (h : p.unit.nanos ∣ 10 ^ 18) :
    p.cut.nanos = p.nanos := by
  obtain ⟨w, hw⟩ := h
  have hunit := p.unit.nanos_pos_le.1
  rw [nanos_split, nanos_split]
  simp only [whole_cut, unit_cut, fracDigits_cut]
  by_cases hshort : p.fracDigits.length ≤ 18
  · rw [List.take_of_length_le hshort]
  · have hlength : p.fracDigits.length = 18 + (p.fracDigits.drop 18).length := by
      rw [List.length_drop]
      omega
    have hvalue := value_append (p.fracDigits.take 18) (p.fracDigits.drop 18)
    have hlow : value (p.fracDigits.drop 18) < 10 ^ (p.fracDigits.drop 18).length :=
      value_lt fun c hc => p.frac_digits c (List.mem_of_mem_drop hc)
    have htake : (p.fracDigits.take 18).length = 18 := List.length_take_of_le (by omega)
    rw [List.take_append_drop] at hvalue
    rw [hvalue, hlength, htake, Nat.pow_add, hw]
    generalize 10 ^ (p.fracDigits.drop 18).length = scale at hlow ⊢
    have hscale : 0 < scale := by omega
    congr 1
    calc value (p.fracDigits.take 18) * p.unit.nanos / (p.unit.nanos * w)
        = value (p.fracDigits.take 18) / w := by
          rw [Nat.mul_comm, Nat.mul_div_mul_left _ _ hunit]
      _ = (value (p.fracDigits.take 18) * scale + value (p.fracDigits.drop 18)) / scale / w := by
          rw [Nat.mul_comm _ scale, Nat.mul_add_div hscale, Nat.div_eq_of_lt hlow, Nat.add_zero]
      _ = (value (p.fracDigits.take 18) * scale + value (p.fracDigits.drop 18)) * p.unit.nanos /
            (p.unit.nanos * w * scale) := by
          rw [Nat.div_div_eq_div_mul, Nat.mul_comm _ p.unit.nanos, Nat.mul_assoc,
            Nat.mul_div_mul_left _ _ hunit, Nat.mul_comm w]

/-- `0.0000000000011111112h`, four nanoseconds and a bit. -/
def nineteenDigits : Duration :=
  { sign := .none
    pairs := [{ whole := ascii "0", frac := some (ascii "0000000000011111112"), unit := .h
                whole_digits := by decide
                frac_digits := by decide
                hasDigit := by decide }]
    nonempty := by simp }

theorem parseDuration_not_exact : ¬∀ d, TruncatesExactly d := by
  intro h
  have hparse : parseDuration nineteenDigits.text = .ok (some 3) := by decide +kernel
  have hexact : nineteenDigits.exact = 4 := by
    simp only [Duration.exact, nineteenDigits, List.map_cons, List.map_nil, Pair.nanos_eq]
    decide +kernel
  have hsame := (h nineteenDigits).1 3 hparse
  rw [hexact] at hsame
  cases hsame

/-- Parsing ends, no result wraps around, only the grammar is accepted, and every string of the
grammar whose exact value is in range is. -/
theorem parseDuration_accepts (text : Bytes) :
    (∃ r, parseWith .checked text = .ok r ∧ parseDuration text = .ok r) ∧
      (∀ v, parseDuration text = .ok (some v) → ∃ z, Denotes text z) ∧
        ∀ z, Denotes text z → InRange z → ∃ v, parseDuration text = .ok (some v) := by
  obtain ⟨r, hr, hgrammar⟩ := parseWith_returns Arithmetic.exact_modular text
  refine ⟨⟨r, ?_, hr⟩, ?_, ?_⟩
  · rw [parseWith_congr Arithmetic.exact_checked Arithmetic.exact_modular]
    exact hr
  · intro v hv
    exact hgrammar v (Except.ok.inj (hr.symm.trans hv))
  · intro z hz hrange
    cases hz with
    | zero sign => exact ⟨0, parseWith_zero .modular sign⟩
    | duration d =>
      rw [parseDuration_text, if_pos (d.inRange_cut hrange)]
      exact ⟨_, rfl⟩

end GeminiCpp.ParseDuration
