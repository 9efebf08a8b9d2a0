import GeminiCpp.Tasks.TokenBucket.Rate

/-! When `time_until_available` is right: a caller that waits as long as it says gets its tokens,
and one that waits less does not. -/
namespace GeminiCpp.TokenBucket
open Answers

def Grants (tokens : ℚ) (now : ℤ) (s : State) : Prop :=
  ∃ next, try_acquire .int64 tokens now s = some (next, true)

def Refuses (tokens : ℚ) (now : ℤ) (s : State) : Prop :=
  ∃ next, try_acquire .int64 tokens now s = some (next, false)

/-- The call at `now` says `ns`, and the next call is one of `try_acquire`, some time after it. -/
structure RightAnswer (tokens : ℚ) (now : ℤ) (s next : State) (ns : ℤ) : Prop where
  returned : time_until_available .int64 tokens now s = some (next, ns)
  nonneg : 0 ≤ ns
  representable : ns ≤ nanosecondsMax
  refused : ∀ ns', 0 ≤ ns' → ns' < ns → Refuses tokens (now + ns') next
  granted : (∃ ns', 0 ≤ ns' ∧ ns' ≤ nanosecondsMax ∧ Grants tokens (now + ns') next) →
    Grants tokens (now + ns) next
  /-- No duration is long enough. -/
  never : (∀ ns', 0 ≤ ns' → ns' ≤ nanosecondsMax → ¬Grants tokens (now + ns') next) →
    ns = nanosecondsMax

def WaitsRight (tokens : ℚ) (now : ℤ) (s : State) : Prop :=
  ∃ next ns, RightAnswer tokens now s next ns

/-- The tokens are there; or the time for the missing ones fits in a duration, and the clock has
not gone backwards. Where it has, only the longest duration of all is right. -/
structure WaitFits (tokens : ℚ) (now : ℤ) (s : State) : Prop where
  measured : now - s.last_ ≤ nanosecondsMax
  fits : tokens ≤ level now s ∨
    (tokens - level now s) * nanosPerSecond ≤ nanosecondsMax * s.rate_ ∧
      (s.last_ ≤ now ∨
        (nanosecondsMax - 1) * s.rate_ < (tokens - level now s) * nanosPerSecond)

variable {tokens : ℚ} {now now' n ns : ℤ} {s : State}

theorem measured_int64_iff :
    Measured .int64 now s ↔ now - s.last_ ≤ nanosecondsMax := by
  unfold Measured Durations.Fits nanosecondsMax
  dsimp only
  omega

theorem missing_le_iff (hrate : 0 < s.rate_) :
    missing tokens now s ≤ n ↔ (tokens - level now s) * nanosPerSecond ≤ n * s.rate_ := by
  unfold missing
  rw [Int.ceil_le, div_mul_eq_mul_div, div_le_iff₀ hrate]

theorem missing_pos (hrate : 0 < s.rate_) (hshort : level now s < tokens) :
    0 < missing tokens now s :=
  Int.ceil_pos.mpr (mul_pos (div_pos (sub_pos.mpr hshort) hrate) nanosPerSecond_pos)

theorem fits_int64_missing_iff (hrate : 0 < s.rate_) (hshort : level now s < tokens) :
    Durations.int64.Fits (missing tokens now s) ↔ missing tokens now s ≤ nanosecondsMax := by
  have hpos := missing_pos hrate hshort
  unfold Durations.Fits nanosecondsMax
  dsimp only
  omega

/-- The missing tokens are there when the clock has gone on for that long after the last refill. -/
theorem covered_iff (hrate : 0 < s.rate_) (hburst : tokens ≤ s.burst_)
    (hshort : level now s < tokens) : tokens ≤ level now' (refilled now s) ↔
      missing tokens now s ≤ now' - max s.last_ now := by
  have hpos := missing_pos hrate hshort
  have hlast : (refilled now s).last_ = max s.last_ now := rfl
  rcases le_or_gt now' (max s.last_ now) with hback | hlater
  · rw [level_of_le hback]
    exact iff_of_false (not_le.mpr hshort) (by omega)
  · rw [level_of_lt hlater]
    exact Reservoir.le_fill_ticks_iff hrate nanosPerSecond_pos hburst (now' - max s.last_ now)

/-- After the call, every duration is measured. -/
theorem measured_later (hn : n ≤ nanosecondsMax) :
    Measured .int64 (now + n) (refilled now s) := by
  have hlast : (refilled now s).last_ = max s.last_ now := rfl
  rw [measured_int64_iff, hlast]
  omega

theorem grants_iff (hn : n ≤ nanosecondsMax) :
    Grants tokens (now + n) (refilled now s) ↔ tokens ≤ level (now + n) (refilled now s) := by
  obtain ⟨next, hcall⟩ := exists_try_acquire (measured_later hn) tokens
  constructor
  · rintro ⟨next', hgranted⟩
    rw [hcall] at hgranted
    exact of_decide_eq_true (Prod.mk.inj (Option.some.inj hgranted)).2
  · intro hcovered
    exact ⟨next, by rw [hcall, decide_eq_true hcovered]⟩

theorem refuses_of_short (hn : n ≤ nanosecondsMax)
    (hshort : ¬tokens ≤ level (now + n) (refilled now s)) :
    Refuses tokens (now + n) (refilled now s) := by
  obtain ⟨next, hcall⟩ := exists_try_acquire (measured_later hn) tokens
  exact ⟨next, by rw [hcall, decide_eq_false hshort]⟩

/-- A caller that waits gets the missing tokens when they have been refilled, and not before. -/
theorem grants_later_iff (hrate : 0 < s.rate_) (hburst : tokens ≤ s.burst_)
    (hshort : level now s < tokens) (hn : n ≤ nanosecondsMax) :
    Grants tokens (now + n) (refilled now s) ↔
      missing tokens now s ≤ now + n - max s.last_ now :=
  (grants_iff hn).trans (covered_iff hrate hburst hshort)

/-- The tokens are there. -/
theorem waitsRight_of_covered (hmeasured : now - s.last_ ≤ nanosecondsMax)
    (hcovered : tokens ≤ level now s) : WaitsRight tokens now s := by
  have hzero : (0 : ℤ) ≤ nanosecondsMax := by decide
  have hgrants : Grants tokens (now + 0) (refilled now s) := by
    rw [grants_iff hzero, add_zero, level_of_le (le_max_right ..)]
    exact hcovered
  refine ⟨refilled now s, 0, ?_⟩
  constructor
  case returned =>
    rw [time_until_available_eq_some_iff, if_pos hcovered]
    exact ⟨measured_int64_iff.mpr hmeasured, rfl, rfl⟩
  case nonneg => exact le_refl 0
  case representable => exact hzero
  case refused => exact fun ns' hlow hhigh => absurd hhigh (not_lt.mpr hlow)
  case granted => exact fun _ => hgrants
  case never => exact fun hnever => absurd hgrants (hnever 0 (le_refl 0) hzero)

/-- Some tokens are missing. -/
theorem returned_iff {next : State} (hrate : 0 < s.rate_) (hburst : tokens ≤ s.burst_)
    (hshort : level now s < tokens) :
    time_until_available .int64 tokens now s = some (next, ns) ↔
      now - s.last_ ≤ nanosecondsMax ∧ next = refilled now s ∧
        missing tokens now s ≤ nanosecondsMax ∧ ns = missing tokens now s := by
  have hsome : ¬(tokens > s.burst_ ∨ s.rate_ ≤ 0) := by
    rintro (hnever | hnever)
    · exact absurd hburst (not_le.mpr hnever)
    · exact absurd hrate (not_lt.mpr hnever)
  rw [time_until_available_eq_some_iff, if_neg (not_le.mpr hshort), if_neg hsome,
    fits_int64_missing_iff hrate hshort, measured_int64_iff]

/-- An answer is wrong where the clock is before the last refill, unless no duration is long
enough. -/
theorem forward_of_rightAnswer (hrate : 0 < s.rate_) (hburst : tokens ≤ s.burst_)
    (hshort : level now s < tokens) (hfits : missing tokens now s ≤ nanosecondsMax)
    (h : RightAnswer tokens now s (refilled now s) (missing tokens now s)) :
    s.last_ ≤ now ∨ nanosecondsMax ≤ missing tokens now s := by
  by_contra hnot
  obtain ⟨hback, hless⟩ := not_or.mp hnot
  -- the wait from the reading of the clock, and not from the last refill
  by_cases hwait : missing tokens now s + (s.last_ - now) ≤ nanosecondsMax
  · have hpos := missing_pos hrate hshort
    have hlater : Grants tokens (now + (missing tokens now s + (s.last_ - now)))
        (refilled now s) := by
      rw [grants_later_iff hrate hburst hshort hwait]
      omega
    have hgrants := h.granted ⟨_, by omega, hwait, hlater⟩
    rw [grants_later_iff hrate hburst hshort hfits] at hgrants
    omega
  · have hlongest : missing tokens now s = nanosecondsMax := by
      refine h.never fun n _ hn hgrants => ?_
      rw [grants_later_iff hrate hburst hshort hn] at hgrants
      omega
    omega

theorem rightAnswer_of_forward (hrate : 0 < s.rate_) (hburst : tokens ≤ s.burst_)
    (hshort : level now s < tokens) (hmeasured : now - s.last_ ≤ nanosecondsMax)
    (hfits : missing tokens now s ≤ nanosecondsMax)
    (htime : s.last_ ≤ now ∨ nanosecondsMax ≤ missing tokens now s) :
    RightAnswer tokens now s (refilled now s) (missing tokens now s) := by
  have hpos := missing_pos hrate hshort
  constructor
  case returned => exact (returned_iff hrate hburst hshort).mpr ⟨hmeasured, rfl, hfits, rfl⟩
  case nonneg => exact hpos.le
  case representable => exact hfits
  case refused =>
    intro ns _ hless
    apply refuses_of_short (hless.le.trans hfits)
    rw [covered_iff hrate hburst hshort]
    omega
  case granted =>
    intro hsome
    obtain ⟨ns, _, hns, hgrants⟩ := hsome
    rw [grants_later_iff hrate hburst hshort hns] at hgrants
    rw [grants_later_iff hrate hburst hshort hfits]
    omega
  case never =>
    intro hnever
    rcases htime with hforward | hlongest
    · refine absurd ?_ (hnever _ hpos.le hfits)
      rw [grants_later_iff hrate hburst hshort hfits]
      omega
    · omega

theorem waitsRight_iff_of_short (hrate : 0 < s.rate_) (hburst : tokens ≤ s.burst_)
    (hshort : level now s < tokens) : WaitsRight tokens now s ↔
      now - s.last_ ≤ nanosecondsMax ∧ missing tokens now s ≤ nanosecondsMax ∧
        (s.last_ ≤ now ∨ nanosecondsMax ≤ missing tokens now s) := by
  constructor
  · intro hright
    obtain ⟨next, ns, hanswer⟩ := hright
    obtain ⟨hmeasured, rfl, hfits, rfl⟩ := (returned_iff hrate hburst hshort).mp hanswer.returned
    exact ⟨hmeasured, hfits, forward_of_rightAnswer hrate hburst hshort hfits hanswer⟩
  · intro h
    obtain ⟨hmeasured, hfits, htime⟩ := h
    exact ⟨_, _, rightAnswer_of_forward hrate hburst hshort hmeasured hfits htime⟩

/-- For every state of a bucket. -/
theorem waitsRight_iff (hrate : 0 < s.rate_) (hburst : tokens ≤ s.burst_) :
    WaitsRight tokens now s ↔ WaitFits tokens now s := by
  by_cases hcovered : tokens ≤ level now s
  · constructor
    · rintro ⟨next, ns, hanswer⟩
      have hmeasured := (time_until_available_eq_some_iff.mp hanswer.returned).1
      exact ⟨measured_int64_iff.mp hmeasured, .inl hcovered⟩
    · intro h
      exact waitsRight_of_covered h.measured hcovered
  · have hmax : nanosecondsMax ≤ missing tokens now s ↔
        (nanosecondsMax - 1) * s.rate_ < (tokens - level now s) * nanosPerSecond := by
      rw [← Int.sub_one_lt_iff, ← not_le, missing_le_iff hrate, not_le]
      push_cast
      rfl
    rw [waitsRight_iff_of_short hrate hburst (not_le.mp hcovered), missing_le_iff hrate, hmax]
    constructor
    · rintro ⟨hmeasured, hfits⟩
      exact ⟨hmeasured, .inr hfits⟩
    · rintro ⟨hmeasured, hfits⟩
      exact ⟨hmeasured, hfits.resolve_left hcovered⟩

/-- In every state that a run reaches, the waiting time is right if and only if it fits in a
duration and the clock has not gone backwards, or the tokens are there. -/
theorem waits_right_iff {rate burst : ℚ} (hrate : 0 < rate) {start : ℤ} {calls : List Call}
    {answers : List Answer} (h : tryRun (step .int64) (init rate burst start) calls =
      some (s, answers)) (hburst : tokens ≤ burst) (now : ℤ) :
    WaitsRight tokens now s ↔ WaitFits tokens now s := by
  obtain ⟨hrate', hburst'⟩ := run_keeps h
  have hpos : 0 < s.rate_ := by rwa [hrate']
  have hle : tokens ≤ s.burst_ := by rwa [hburst']
  exact waitsRight_iff hpos hle

theorem waits_right_empty : ∃ s answers,
    tryRun (step .int64) (init 1 1 0) [⟨.try_acquire 1, 0⟩] = some (s, answers) ∧
      WaitsRight 1 0 s := by
  have hrun : tryRun (step .int64) (init 1 1 0) [⟨.try_acquire 1, 0⟩] =
      some (⟨1, 1, 0, 0⟩, [.acquired true]) := by decide +kernel
  refine ⟨_, _, hrun, (waits_right_iff (by decide) hrun (by decide) 0).mpr ?_⟩
  constructor
  case measured => decide
  case fits =>
    refine .inr ⟨?_, .inl (le_refl 0)⟩
    rw [level_of_le (le_refl 0), nanosPerSecond, nanosecondsMax]
    norm_num

/-- The clock goes back after the last refill. -/
theorem waits_wrong : ¬∀ (rate burst : ℚ) (start : ℤ) (calls : List Call) (s : State)
    (answers : List Answer), tryRun (step .int64) (init rate burst start) calls =
      some (s, answers) → 0 < rate → ∀ (tokens : ℚ) (now : ℤ), 0 ≤ tokens → tokens ≤ burst →
        WaitsRight tokens now s := by
  intro hall
  have hrun : tryRun (step .int64) (init 1 1 0) [⟨.try_acquire 1, 5000000000⟩] =
      some (⟨1, 1, 0, 5000000000⟩, [.acquired true]) := by decide +kernel
  have hfits := (waitsRight_iff (by decide) (by decide)).mp
    (hall 1 1 0 _ _ _ hrun (by decide) 1 0 (by decide) (by decide))
  have hlevel : level 0 ⟨1, 1, 0, 5000000000⟩ = 0 := level_of_le (by decide)
  rcases hfits.fits with hcovered | ⟨-, hforward | hlonger⟩
  · rw [hlevel] at hcovered
    exact absurd hcovered (by decide)
  · exact absurd hforward (by decide)
  · rw [hlevel, nanosPerSecond, nanosecondsMax] at hlonger
    norm_num at hlonger

end GeminiCpp.TokenBucket
