import Mathlib
import GeminiCpp.Eval.Process

/-! When the timeout of a child process works. The deadline is checked only at the head of the
loop, so everything depends on whether the loop gets back there from its reads. -/
namespace GeminiCpp.Eval

namespace Capture

def Finished (c : Capture) : Prop := ∃ ending, c.phase = .finished ending

end Capture

/-- A read after which the inner loop reads again. -/
def ReadResult.more : ReadResult → Bool
  | .data _ | .interrupted => true
  | .endOfFile | .failed => false

section
variable {o : ProcessOptions} {start : TimePoint} {c : Capture} {m : Moment}

theorem remainingMs_eq_zero {deadline now : ℤ} (h : deadline ≤ now) :
    remainingMs deadline now = 0 := by
  have hleft : toMillis (deadline - now) ≤ 0 := by
    have hlate : deadline - now = -(now - deadline) := by omega
    have hnonneg : 0 ≤ (now - deadline).tdiv 1000000 := Int.tdiv_nonneg (by omega) (by omega)
    unfold toMillis
    rw [hlate, Int.neg_tdiv]
    exact Int.neg_nonpos_of_nonneg hnonneg
  unfold remainingMs
  rw [if_pos hleft]

theorem Capture.step_finished (h : c.Finished) : (c.step o start m).Finished := by
  obtain ⟨ending, hphase⟩ := h
  refine ⟨ending, ?_⟩
  unfold Capture.step
  rw [hphase]
  exact hphase

theorem Capture.step_drain_more (hphase : c.phase = .drain) (hmore : m.read.more = true) :
    (c.step o start m).phase = .drain := by
  unfold Capture.step
  rw [hphase]
  cases hread : m.read with
  | data chunk => exact Capture.findMarker_phase ..
  | interrupted => exact hphase
  | endOfFile => simp [hread, ReadResult.more] at hmore
  | failed => simp [hread, ReadResult.more] at hmore

theorem Capture.step_drain_last (hphase : c.phase = .drain) (hmore : m.read.more = false) :
    (c.step o start m).phase = .check ∨ (c.step o start m).Finished := by
  unfold Capture.step
  rw [hphase]
  cases hread : m.read with
  | data chunk => simp [hread, ReadResult.more] at hmore
  | interrupted => simp [hread, ReadResult.more] at hmore
  | endOfFile => exact Or.inr ⟨_, rfl⟩
  | failed => exact Or.inl rfl

theorem Capture.step_poll {wait : ℤ} (hphase : c.phase = .poll wait) :
    (c.step o start m).phase = .check ∨ (c.step o start m).phase = .drain ∨
      (c.step o start m).Finished := by
  unfold Capture.step
  rw [hphase]
  cases m.poll with
  | ready => exact Or.inr (Or.inl rfl)
  | timeout => exact Or.inl rfl
  | interrupted => exact Or.inl rfl
  | failed => exact Or.inr (Or.inr ⟨_, rfl⟩)

/-- At the head of the loop a deadline that has passed is noticed. -/
theorem Capture.step_check_passed (hphase : c.phase = .check) (hpassed : c.deadline ≤ m.now) :
    (c.step o start m).Finished := by
  refine ⟨.killed, ?_⟩
  unfold Capture.step
  rw [hphase]
  simp only
  rw [if_pos (remainingMs_eq_zero hpassed)]

/-- The deadline moves only when the marker is found, which happens once. -/
theorem Capture.step_deadline (o : ProcessOptions) (start : TimePoint) (c : Capture) (m : Moment) :
    ((c.step o start m).deadline = c.deadline ∧
        (c.step o start m).result.startup = c.result.startup) ∨
      (c.result.startup = none ∧ (c.step o start m).result.startup.isSome) := by
  unfold Capture.step
  split
  case h_1 =>
    simp only
    split_ifs <;> exact Or.inl ⟨rfl, rfl⟩
  case h_2 => split <;> exact Or.inl ⟨rfl, rfl⟩
  case h_3 =>
    split
    case h_1 chunk _ =>
      unfold Capture.findMarker
      split_ifs with hfound
      · exact Or.inl ⟨rfl, rfl⟩
      · have hnone : c.result.startup = none := by
          have hstartup := (not_or.mp hfound).2
          simpa [Capture.append] using hstartup
        split
        · exact Or.inl ⟨rfl, rfl⟩
        · exact Or.inr ⟨hnone, rfl⟩
    all_goals exact Or.inl ⟨rfl, rfl⟩
  case h_4 => exact Or.inl ⟨rfl, rfl⟩

end

variable {o : ProcessOptions} {start : TimePoint} {moments : ℕ → Moment} {i j : ℕ}

theorem capture_succ (i : ℕ) : capture o start moments (i + 1) =
    (capture o start moments i).step o start (moments i) := rfl

/-- From some step on the deadline stays as it is. -/
theorem exists_last_deadline (o : ProcessOptions) (start : TimePoint) (moments : ℕ → Moment) :
    ∃ last, ∀ i, last ≤ i →
      (capture o start moments i).deadline = (capture o start moments last).deadline := by
  by_cases hfound : ∃ i, (capture o start moments i).result.startup.isSome
  · obtain ⟨last, hlast⟩ := hfound
    refine ⟨last, fun i hi => ?_⟩
    have hstays : (capture o start moments i).result.startup.isSome ∧
        (capture o start moments i).deadline = (capture o start moments last).deadline := by
      induction i, hi using Nat.le_induction with
      | base => exact ⟨hlast, rfl⟩
      | succ i hi ih =>
        obtain ⟨hstartup, hdeadline⟩ := ih
        rw [capture_succ]
        rcases Capture.step_deadline o start (capture o start moments i) (moments i) with h | h
        · rw [h.1, h.2]
          exact ⟨hstartup, hdeadline⟩
        · rw [h.1] at hstartup
          cases hstartup
    exact hstays.2
  · refine ⟨0, fun i _ => ?_⟩
    induction i with
    | zero => rfl
    | succ i ih =>
      rw [capture_succ]
      rcases Capture.step_deadline o start (capture o start moments i) (moments i) with h | h
      · rw [h.1, ih (Nat.zero_le i)]
      · exact absurd ⟨i + 1, h.2⟩ hfound

theorem capture_finished_of_le (hij : i ≤ j) (h : (capture o start moments i).Finished) :
    (capture o start moments j).Finished :=
  Schedule.run_of_le hij h fun _ _ h => Capture.step_finished h

/-- As long as there is more to read the loop does nothing else. -/
theorem capture_drain_of_le (hij : i ≤ j) (h : (capture o start moments i).phase = .drain)
    (hmore : ∀ k, i ≤ k → (moments k).read.more = true) :
    (capture o start moments j).phase = .drain :=
  Schedule.run_of_le (P := fun c : Capture => c.phase = .drain) hij h fun k hk h =>
    Capture.step_drain_more h (hmore k hk)

/-- The clock of a schedule goes forward and passes every deadline that is in force. -/
structure ClockPasses (o : ProcessOptions) (start : TimePoint) (moments : ℕ → Moment) : Prop where
  monotone : Monotone fun i => (moments i).now
  passes : ∀ i, ∃ j, i ≤ j ∧ (capture o start moments j).deadline ≤ (moments j).now

/-- Every time the loop starts to read, a read returns no data at some point: nothing is ready,
the output has ended, or there is an error. -/
def DrainsEnd (o : ProcessOptions) (start : TimePoint) (moments : ℕ → Moment) : Prop :=
  ∀ i, (capture o start moments i).phase = .drain → ∃ j, i ≤ j ∧ (moments j).read.more = false

/-- The number of reads in `n` steps from step `i` on. -/
def reads (o : ProcessOptions) (start : TimePoint) (moments : ℕ → Moment) (i n : ℕ) : ℕ :=
  Schedule.visits (Capture.step o start) (.init o start) moments (fun c => c.phase = .drain) i n

/-- After the clock has passed the deadline there is a bound on the reads, and the loop ends. -/
def StopsAfterDeadline (o : ProcessOptions) (start : TimePoint) (moments : ℕ → Moment) : Prop :=
  ∀ i, (capture o start moments i).deadline ≤ (moments i).now →
    (∃ bound, ∀ n, reads o start moments i n ≤ bound) ∧
      ∃ j, i ≤ j ∧ (capture o start moments j).Finished

theorem exists_check_of_drain (d : ℕ) (h : (capture o start moments i).phase = .drain)
    (hlast : (moments (i + d)).read.more = false) :
    ∃ j, i ≤ j ∧ ((capture o start moments j).phase = .check ∨
      (capture o start moments j).Finished) := by
  induction d generalizing i with
  | zero => exact ⟨i + 1, by omega, Capture.step_drain_last h hlast⟩
  | succ d ih =>
    cases hmore : (moments i).read.more with
    | false => exact ⟨i + 1, by omega, Capture.step_drain_last h hmore⟩
    | true =>
      have hnext : (capture o start moments (i + 1)).phase = .drain :=
        Capture.step_drain_more h hmore
      have hsum : i + (d + 1) = i + 1 + d := by omega
      rw [hsum] at hlast
      obtain ⟨j, hj, hphase⟩ := ih hnext hlast
      exact ⟨j, by omega, hphase⟩

/-- When all drains end the loop comes back to its head, or ends. -/
theorem exists_check (h : DrainsEnd o start moments) (i : ℕ) :
    ∃ j, i ≤ j ∧ ((capture o start moments j).phase = .check ∨
      (capture o start moments j).Finished) := by
  have hdrain : ∀ i, (capture o start moments i).phase = .drain →
      ∃ j, i ≤ j ∧ ((capture o start moments j).phase = .check ∨
        (capture o start moments j).Finished) := by
    intro i hphase
    obtain ⟨j, hij, hlast⟩ := h i hphase
    obtain ⟨d, rfl⟩ := Nat.exists_eq_add_of_le hij
    exact exists_check_of_drain d hphase hlast
  cases hphase : (capture o start moments i).phase with
  | check => exact ⟨i, le_refl i, Or.inl hphase⟩
  | finished ending => exact ⟨i, le_refl i, Or.inr ⟨ending, hphase⟩⟩
  | drain => exact hdrain i hphase
  | poll wait =>
    have hnext : (capture o start moments (i + 1)).phase = .check ∨
        (capture o start moments (i + 1)).phase = .drain ∨
        (capture o start moments (i + 1)).Finished := Capture.step_poll hphase
    rcases hnext with h | h | h
    · exact ⟨i + 1, by omega, Or.inl h⟩
    · obtain ⟨j, hj, hnext⟩ := hdrain (i + 1) h
      exact ⟨j, by omega, hnext⟩
    · exact ⟨i + 1, by omega, Or.inr h⟩

theorem exists_finished (hclock : ClockPasses o start moments) (h : DrainsEnd o start moments)
    (i : ℕ) : ∃ j, i ≤ j ∧ (capture o start moments j).Finished := by
  obtain ⟨last, hlast⟩ := exists_last_deadline o start moments
  obtain ⟨j, hj, hpassed⟩ := hclock.passes (max i last)
  obtain ⟨k, hjk, hphase⟩ := exists_check h j
  rcases hphase with hphase | hphase
  · have hdeadline : (capture o start moments k).deadline ≤ (moments k).now := by
      have hdeadlines : (capture o start moments k).deadline =
          (capture o start moments j).deadline :=
        (hlast k (by omega)).trans (hlast j (by omega)).symm
      have hnow : (moments j).now ≤ (moments k).now := hclock.monotone hjk
      rw [hdeadlines]
      exact hpassed.trans hnow
    exact ⟨k + 1, by omega, Capture.step_check_passed hphase hdeadline⟩
  · exact ⟨k, by omega, hphase⟩

/-- The timeout works exactly in the runs in which the loop always gets to the end of what there
is to read. -/
theorem stopsAfterDeadline_iff (hclock : ClockPasses o start moments) :
    StopsAfterDeadline o start moments ↔ DrainsEnd o start moments := by
  constructor
  case mp =>
    intro hstops i hphase
    by_contra hnone
    have hmore : ∀ k, i ≤ k → (moments k).read.more = true := by
      intro k hk
      cases hread : (moments k).read.more with
      | true => rfl
      | false => exact absurd ⟨k, hk, hread⟩ hnone
    obtain ⟨j, hij, hpassed⟩ := hclock.passes i
    obtain ⟨-, k, hjk, ending, hfinished⟩ := hstops j hpassed
    have hdrain := capture_drain_of_le (hij.trans hjk) hphase hmore
    rw [hdrain] at hfinished
    cases hfinished
  case mpr =>
    intro hdrains i _
    obtain ⟨j, hij, hfinished⟩ := exists_finished hclock hdrains i
    refine ⟨⟨j - i, fun n => ?_⟩, j, hij, hfinished⟩
    apply Schedule.visits_le hij
    intro k hk hdrain
    obtain ⟨ending, hphase⟩ := capture_finished_of_le hk hfinished
    rw [show (capture o start moments k).phase = .drain from hdrain] at hphase
    cases hphase

/-- A clock that passes every point in time passes the deadline. -/
theorem ClockPasses.of_unbounded (hmonotone : Monotone fun i => (moments i).now)
    (hpasses : ∀ t, ∃ i, t ≤ (moments i).now) : ClockPasses o start moments where
  monotone := hmonotone
  passes i := by
    obtain ⟨last, hlast⟩ := exists_last_deadline o start moments
    obtain ⟨j, hj⟩ := hpasses (capture o start moments last).deadline
    refine ⟨max j (max i last), by omega, ?_⟩
    rw [hlast _ (by omega)]
    exact hj.trans (hmonotone (by omega))

/-- A limit of one second, without a marker. -/
def oneSecond : ProcessOptions :=
  { argv := [ascii "yes"], cwd := [], timeout := 1000, maxOutputBytes := 2 ^ 20
    memoryLimitBytes := none, startMarker := [], startupGrace := 0 }

/-- The same calls return the same values at every step, one second apart. -/
def everySecond (poll : PollResult) (read : ReadResult) : ℕ → Moment :=
  fun i => { now := i * 1000000000, poll, read }

theorem clockPasses_ticks {moments : ℕ → Moment} {tick : ℤ} (htick : 0 < tick)
    (hnow : ∀ i, (moments i).now = i * tick) : ClockPasses oneSecond 0 moments := by
  apply ClockPasses.of_unbounded
  · intro i j hij
    change (moments i).now ≤ (moments j).now
    rw [hnow, hnow]
    exact Int.mul_le_mul_of_nonneg_right (by omega) htick.le
  · intro (t : ℤ)
    refine ⟨t.toNat, ?_⟩
    rw [hnow]
    have hgrows : (t.toNat : ℤ) ≤ t.toNat * tick := le_mul_of_one_le_right (by omega) htick
    change t ≤ (t.toNat : ℤ) * tick
    omega

/-- A child that prints without a pause, one byte at a time. -/
def chatty : ℕ → Moment :=
  everySecond .ready (.data { bytes := [0x79], nonempty := by decide, fits := by decide })

/-- The loop reads from it forever. -/
theorem chatty_not_stopped : ClockPasses oneSecond 0 chatty ∧
    ¬ StopsAfterDeadline oneSecond 0 chatty := by
  refine ⟨clockPasses_ticks (by decide) fun _ => rfl, fun hstops => ?_⟩
  have hdrain : ∀ j, 2 ≤ j → (capture oneSecond 0 chatty j).phase = .drain := fun j hj =>
    capture_drain_of_le hj rfl fun _ _ => rfl
  have hpassed : (capture oneSecond 0 chatty 2).deadline ≤ (chatty 2).now := by decide
  obtain ⟨-, j, hj, ending, hfinished⟩ := hstops 2 hpassed
  rw [hdrain j hj] at hfinished
  cases hfinished

/-- A child that prints a byte at once, and nothing more. -/
def pausing : ℕ → Moment := fun i =>
  { now := i * 100000000
    poll := if i < 2 then .ready else .timeout
    read := if i < 3 then .data { bytes := [0x79], nonempty := by decide, fits := by decide }
      else .failed }

/-- It is killed after what it has printed is read. -/
theorem pausing_stopped : (capture oneSecond 0 pausing 3).result.output = [0x79] ∧
    StopsAfterDeadline oneSecond 0 pausing := by
  refine ⟨by decide +kernel, ?_⟩
  apply (stopsAfterDeadline_iff (clockPasses_ticks (by decide) fun _ => rfl)).mpr
  intro i _
  refine ⟨max i 3, le_max_left i 3, ?_⟩
  have hlate : ¬ max i 3 < 3 := by omega
  simp only [pausing, hlate, if_false, ReadResult.more]

end GeminiCpp.Eval
