import GeminiCpp.Lib.Occurrence
import GeminiCpp.Eval.Process

/-! The start marker. The loop searches for it after each read, from a little before the bytes
that were appended, so it is found wherever the reads have cut it. -/
namespace GeminiCpp.Eval
open Occurrence

/-- `s` without the first occurrence of `marker`, or all of `s` if there is none. -/
def withoutFirst (marker s : Bytes) : Bytes :=
  match findFrom s marker 0 with
  | none => s
  | some found => s.take found ++ s.drop (found + marker.length)

/-- The bytes that one step reads. -/
def Capture.bytesRead (c : Capture) (m : Moment) : Bytes :=
  match c.phase, m.read with
  | .drain, .data chunk => chunk.bytes
  | _, _ => []

/-- What the child has printed, as far as the loop has read it after some steps. -/
def received (o : ProcessOptions) (start : TimePoint) (moments : ℕ → Moment) : ℕ → Bytes
  | 0 => []
  | n + 1 => received o start moments n ++ (capture o start moments n).bytesRead (moments n)

theorem isPrefixOf_drop_iff {s needle : Bytes} {i : ℕ} :
    needle.isPrefixOf (s.drop i) = true ↔ OccursAt needle s i := List.isPrefixOf_iff_prefix

theorem findFrom_eq_none {s needle : Bytes} {start : ℕ} (hneedle : needle ≠ []) :
    findFrom s needle start = none ↔ ∀ i, start ≤ i → ¬OccursAt needle s i := by
  unfold findFrom
  rw [List.find?_eq_none]
  constructor
  · intro h i hi hoccurs
    have hle := hoccurs.length_le hneedle
    apply h i (List.mem_range.mpr (by omega))
    simp [hi, isPrefixOf_drop_iff.mpr hoccurs]
  · intro h i _ hfound
    rw [Bool.and_eq_true, decide_eq_true_eq, isPrefixOf_drop_iff] at hfound
    exact h i hfound.1 hfound.2

theorem findFrom_eq_some {s needle : Bytes} {start i : ℕ} (hneedle : needle ≠ []) :
    findFrom s needle start = some i ↔
      start ≤ i ∧ OccursAt needle s i ∧ ∀ j, start ≤ j → j < i → ¬OccursAt needle s j := by
  unfold findFrom
  rw [List.find?_range_eq_some, Bool.and_eq_true, decide_eq_true_eq, isPrefixOf_drop_iff]
  constructor
  · intro h
    obtain ⟨⟨hstart, hoccurs⟩, -, hbefore⟩ := h
    refine ⟨hstart, hoccurs, ?_⟩
    intro j hj hlt hfound
    have hnot := hbefore j hlt
    simp [hj, isPrefixOf_drop_iff.mpr hfound] at hnot
  · intro h
    obtain ⟨hstart, hoccurs, hbefore⟩ := h
    have hle := hoccurs.length_le hneedle
    refine ⟨⟨hstart, hoccurs⟩, List.mem_range.mpr (by omega), ?_⟩
    intro j hlt
    rw [Bool.not_eq_true', Bool.and_eq_false_imp]
    intro hj
    rw [← Bool.not_eq_true, isPrefixOf_drop_iff]
    exact hbefore j (of_decide_eq_true hj) hlt

theorem findFrom_zero_eq_some {s needle : Bytes} {i : ℕ} (hneedle : needle ≠ []) :
    findFrom s needle 0 = some i ↔ FirstAt needle s i := by
  rw [findFrom_eq_some hneedle]
  constructor
  · intro h
    exact ⟨h.2.1, fun j hj => h.2.2 j (Nat.zero_le j) hj⟩
  · intro h
    exact ⟨Nat.zero_le i, h.occurs, fun j _ hj => h.first j hj⟩

/-- The search after a read finds the first occurrence in all of the output. -/
theorem findFrom_append {s t needle : Bytes} (hneedle : needle ≠ [])
    (hnone : findFrom s needle 0 = none) :
    findFrom (s ++ t) needle (s.length - needle.length) = findFrom (s ++ t) needle 0 := by
  have hnowhere : ∀ i, ¬OccursAt needle s i :=
    fun i => (findFrom_eq_none hneedle).mp hnone i (Nat.zero_le i)
  cases hfound : findFrom (s ++ t) needle 0 with
  | none =>
    rw [findFrom_eq_none hneedle] at hfound ⊢
    exact fun i _ => hfound i (Nat.zero_le i)
  | some i =>
    rw [findFrom_zero_eq_some hneedle] at hfound
    have hlate := hfound.occurs.lt_of_append hnowhere
    rw [findFrom_eq_some hneedle]
    exact ⟨by omega, hfound.occurs, fun j _ hj => hfound.first j hj⟩

/-- What is left of the output once the marker has been found is not touched again. -/
theorem withoutFirst_append {s t marker : Bytes} (hmarker : marker ≠ []) {found : ℕ}
    (h : findFrom s marker 0 = some found) :
    findFrom (s ++ t) marker 0 = some found ∧
      withoutFirst marker (s ++ t) = withoutFirst marker s ++ t := by
  have hfirst := (findFrom_zero_eq_some hmarker).mp h
  have hle := hfirst.occurs.length_le hmarker
  have hfound := (findFrom_zero_eq_some hmarker).mpr (hfirst.append hmarker t)
  refine ⟨hfound, ?_⟩
  unfold withoutFirst
  rw [hfound, h]
  dsimp only
  rw [List.take_append_of_le_length (by omega), List.drop_append_of_le_length (by omega),
    List.append_assoc]

theorem length_withoutFirst (marker s : Bytes) : (withoutFirst marker s).length ≤ s.length := by
  unfold withoutFirst
  split
  · exact Nat.le_refl _
  · rw [List.length_append, List.length_take, List.length_drop]
    omega

/-- The output so far is what was read so far, without the marker if that was in it. -/
structure Captured (o : ProcessOptions) (c : Capture) (bytes : Bytes) : Prop where
  output : c.result.output = withoutFirst o.startMarker bytes
  startup : c.result.startup.isSome = contains bytes o.startMarker
  complete : c.result.outputTruncated = false

section
variable {o : ProcessOptions} {start : TimePoint} {c : Capture} {bytes : Bytes} {m : Moment}

/-- Nothing is cut off as long as all that was read fits. -/
theorem append_of_fits (h : Captured o c bytes) {more : Bytes}
    (hfits : (bytes ++ more).length ≤ o.maxOutputBytes) :
    Capture.append o c.result more = { c.result with output := c.result.output ++ more } := by
  have hshort : c.result.output.length ≤ bytes.length := by
    rw [h.output]
    exact length_withoutFirst ..
  rw [List.length_append] at hfits
  have htake : min (o.maxOutputBytes - min o.maxOutputBytes c.result.output.length) more.length =
      more.length := by omega
  unfold Capture.append
  dsimp only
  rw [htake, List.take_length, decide_eq_false (Nat.lt_irrefl _), Bool.or_false]

/-- One read. -/
theorem Captured.read (start now : TimePoint) (hmarker : o.startMarker ≠ [])
    (h : Captured o c bytes) {more : Bytes}
    (hfits : (bytes ++ more).length ≤ o.maxOutputBytes) :
    Captured o (Capture.findMarker o start now c.result.output.length
      { c with result := Capture.append o c.result more }) (bytes ++ more) := by
  rw [append_of_fits h hfits]
  unfold Capture.findMarker
  dsimp only
  cases hfound : findFrom bytes o.startMarker 0 with
  | some found =>
    obtain ⟨hstays, hrest⟩ := withoutFirst_append (t := more) hmarker hfound
    have hstartup : c.result.startup.isSome = true := by
      rw [h.startup, contains, hfound]
      rfl
    rw [if_pos (Or.inr hstartup)]
    refine ⟨?_, ?_, h.complete⟩
    · rw [hrest, ← h.output]
    · rw [contains, hstays]
      exact hstartup
  | none =>
    have hstartup : c.result.startup.isSome = false := by
      rw [h.startup, contains, hfound]
      rfl
    have houtput : c.result.output = bytes := by
      rw [h.output, withoutFirst, hfound]
    rw [if_neg (by simp [hmarker, hstartup]), houtput, findFrom_append hmarker hfound]
    cases hnow : findFrom (bytes ++ more) o.startMarker 0 with
    | none =>
      refine ⟨?_, ?_, h.complete⟩
      · rw [withoutFirst, hnow]
      · rw [contains, hnow]
        exact hstartup
    | some found =>
      refine ⟨?_, ?_, h.complete⟩
      · rw [withoutFirst, hnow]
      · rw [contains, hnow]
        rfl

/-- A step that reads nothing leaves the output as it is. -/
theorem step_of_no_data (o : ProcessOptions) (start : TimePoint) (hnone : c.bytesRead m = []) :
    (c.step o start m).result.output = c.result.output ∧
      (c.step o start m).result.startup = c.result.startup ∧
      (c.step o start m).result.outputTruncated = c.result.outputTruncated := by
  unfold Capture.step
  cases hphase : c.phase with
  | check =>
    dsimp only
    split_ifs <;> exact ⟨rfl, rfl, rfl⟩
  | poll wait => cases m.poll <;> exact ⟨rfl, rfl, rfl⟩
  | finished ending => exact ⟨rfl, rfl, rfl⟩
  | drain =>
    cases hread : m.read with
    | data chunk =>
      unfold Capture.bytesRead at hnone
      rw [hphase, hread] at hnone
      exact absurd hnone chunk.nonempty
    | interrupted => exact ⟨rfl, rfl, rfl⟩
    | endOfFile => exact ⟨rfl, rfl, rfl⟩
    | failed => exact ⟨rfl, rfl, rfl⟩

/-- Only in the inner loop something is read. -/
theorem exists_data (h : c.bytesRead m ≠ []) :
    ∃ chunk, c.phase = .drain ∧ m.read = .data chunk ∧ c.bytesRead m = chunk.bytes := by
  unfold Capture.bytesRead at h ⊢
  cases hphase : c.phase with
  | check => simp [hphase] at h
  | poll wait => simp [hphase] at h
  | finished ending => simp [hphase] at h
  | drain =>
    cases hread : m.read with
    | interrupted => simp [hphase, hread] at h
    | endOfFile => simp [hphase, hread] at h
    | failed => simp [hphase, hread] at h
    | data chunk => exact ⟨chunk, rfl, rfl, rfl⟩

/-- A step that reads something. -/
theorem step_of_data (o : ProcessOptions) (start : TimePoint) (h : c.bytesRead m ≠ []) :
    c.step o start m = Capture.findMarker o start m.now c.result.output.length
      { c with result := Capture.append o c.result (c.bytesRead m) } := by
  obtain ⟨chunk, hphase, hread, hbytes⟩ := exists_data h
  rw [hbytes]
  unfold Capture.step
  rw [hphase, hread]

/-- One step of the loop. -/
theorem Captured.step (hmarker : o.startMarker ≠ []) (h : Captured o c bytes)
    (hfits : (bytes ++ c.bytesRead m).length ≤ o.maxOutputBytes) :
    Captured o (c.step o start m) (bytes ++ c.bytesRead m) := by
  by_cases hnone : c.bytesRead m = []
  · obtain ⟨houtput, hstartup, hcomplete⟩ := step_of_no_data o start hnone
    rw [hnone, List.append_nil]
    refine ⟨?_, ?_, ?_⟩
    · rw [houtput, h.output]
    · rw [hstartup, h.startup]
    · rw [hcomplete, h.complete]
  · rw [step_of_data o start hnone]
    exact h.read start m.now hmarker hfits

end

section
variable {o : ProcessOptions} {start : TimePoint} {moments : ℕ → Moment}

theorem captured_received (hmarker : o.startMarker ≠ []) (n : ℕ)
    (hfits : (received o start moments n).length ≤ o.maxOutputBytes) :
    Captured o (capture o start moments n) (received o start moments n) := by
  induction n with
  | zero =>
    have hnone : findFrom [] o.startMarker 0 = none := by
      rw [findFrom_eq_none hmarker]
      intro i _ hoccurs
      have hle := hoccurs.length_le hmarker
      have hpos := List.length_pos_iff.mpr hmarker
      rw [List.length_nil] at hle
      omega
    refine ⟨?_, ?_, rfl⟩
    · change [] = withoutFirst o.startMarker []
      rw [withoutFirst, hnone]
    · change false = contains [] o.startMarker
      rw [contains, hnone]
      rfl
  | succ n ih =>
    have hbefore : (received o start moments n).length ≤ o.maxOutputBytes := by
      rw [received, List.length_append] at hfits
      omega
    exact (ih hbefore).step hmarker hfits

/-- A schedule that delivers some chunks as soon as the loop asks for them. -/
def delivering (start : TimePoint) (chunks : List Chunk) (i : ℕ) : Moment :=
  { now := start
    poll := .ready
    read := match chunks[i - 2]? with
      | some chunk => .data chunk
      | none => .endOfFile }

theorem remainingMs_ne_zero {ms now : ℤ} (h : 0 < ms) :
    remainingMs (now + ms * 1000000) now ≠ 0 := by
  have hleft : toMillis (now + ms * 1000000 - now) = ms := by
    have hdifference : now + ms * 1000000 - now = ms * 1000000 := by omega
    rw [hdifference, toMillis, Int.mul_tdiv_cancel _ (by omega)]
  have hpos : ¬ms ≤ 0 := by omega
  unfold remainingMs
  rw [hleft]
  dsimp only
  rw [if_neg hpos]
  omega

theorem init_deadline (start : TimePoint) (hmarker : o.startMarker ≠ []) :
    (Capture.init o start).deadline = start + (o.timeout + o.startupGrace) * 1000000 := by
  unfold Capture.init afterMillis
  dsimp only
  rw [if_neg hmarker, Int.add_mul, Int.add_assoc]

/-- The loop begins to read if it has any time at all. -/
theorem capture_delivering_start (start : TimePoint) (htime : 0 < o.timeout + o.startupGrace)
    (hmarker : o.startMarker ≠ []) (chunks : List Chunk) :
    (capture o start (delivering start chunks) 2).phase = .drain ∧
      received o start (delivering start chunks) 2 = [] := by
  have hwait : remainingMs (Capture.init o start).deadline start ≠ 0 := by
    rw [init_deadline start hmarker]
    exact remainingMs_ne_zero htime
  have hfirst : (capture o start (delivering start chunks) 1).phase =
      .poll (remainingMs (Capture.init o start).deadline start) := by
    change (Capture.step o start (.init o start) (delivering start chunks 0)).phase = _
    unfold Capture.step
    change (if remainingMs (Capture.init o start).deadline start = 0 then _
      else _ : Capture).phase = _
    rw [if_neg hwait]
    rfl
  constructor
  · change (Capture.step o start (capture o start (delivering start chunks) 1)
      (delivering start chunks 1)).phase = _
    unfold Capture.step
    rw [hfirst]
    rfl
  · have hnone : (capture o start (delivering start chunks) 1).bytesRead
        (delivering start chunks 1) = [] := by
      unfold Capture.bytesRead
      rw [hfirst]
    rw [received, received, received, hnone]
    rfl

/-- One more chunk is read. -/
theorem capture_delivering_succ {start : TimePoint} {chunks : List Chunk} {k : ℕ}
    (hk : k < chunks.length)
    (hphase : (capture o start (delivering start chunks) (k + 2)).phase = .drain)
    (hbytes : received o start (delivering start chunks) (k + 2) =
      (chunks.take k).flatMap Chunk.bytes) :
    (capture o start (delivering start chunks) (k + 3)).phase = .drain ∧
      received o start (delivering start chunks) (k + 3) =
        (chunks.take (k + 1)).flatMap Chunk.bytes := by
  have hchunk : (delivering start chunks (k + 2)).read = .data (chunks.get ⟨k, hk⟩) := by
    simp [delivering, List.getElem?_eq_getElem hk]
  constructor
  · change (Capture.step o start (capture o start (delivering start chunks) (k + 2))
      (delivering start chunks (k + 2))).phase = _
    unfold Capture.step
    rw [hphase, hchunk]
    exact Capture.findMarker_phase ..
  · rw [received, hbytes, Capture.bytesRead, hphase, hchunk, List.take_add_one,
      List.flatMap_append, List.getElem?_eq_getElem hk]
    simp

/-- The loop reads them all, and ends with the end of the stream. -/
theorem capture_delivering (start : TimePoint) (htime : 0 < o.timeout + o.startupGrace)
    (hmarker : o.startMarker ≠ []) (chunks : List Chunk) :
    (capture o start (delivering start chunks) (chunks.length + 3)).phase = .finished .endOfFile ∧
      received o start (delivering start chunks) (chunks.length + 3) =
        chunks.flatMap Chunk.bytes := by
  have hdrain : ∀ k, k ≤ chunks.length →
      (capture o start (delivering start chunks) (k + 2)).phase = .drain ∧
        received o start (delivering start chunks) (k + 2) =
          (chunks.take k).flatMap Chunk.bytes := by
    intro k hk
    induction k with
    | zero => exact capture_delivering_start start htime hmarker chunks
    | succ k ih =>
      obtain ⟨hphase, hbytes⟩ := ih (by omega)
      exact capture_delivering_succ hk hphase hbytes
  obtain ⟨hphase, hbytes⟩ := hdrain chunks.length (Nat.le_refl _)
  have hend : (delivering start chunks (chunks.length + 2)).read = .endOfFile := by
    simp [delivering]
  constructor
  · change (Capture.step o start (capture o start (delivering start chunks) (chunks.length + 2))
      (delivering start chunks (chunks.length + 2))).phase = _
    unfold Capture.step
    rw [hphase, hend]
  · rw [received, hbytes, Capture.bytesRead, hphase, hend, List.take_length]
    exact List.append_nil _

/-- However the output of a child is divided into reads, it is kept without the first occurrence
of the start marker, which is noticed if and only if it is there, and nothing is cut off. -/
theorem marker_found_and_removed (o : ProcessOptions) (start : TimePoint)
    (moments : ℕ → Moment) (hmarker : o.startMarker ≠ []) (n : ℕ)
    (hfits : (received o start moments n).length ≤ o.maxOutputBytes) :
    (capture o start moments n).result.output =
        withoutFirst o.startMarker (received o start moments n) ∧
      ((capture o start moments n).result.startup.isSome ↔
        contains (received o start moments n) o.startMarker) ∧
      (capture o start moments n).result.outputTruncated = false := by
  obtain ⟨houtput, hstartup, hcomplete⟩ := captured_received hmarker n hfits
  refine ⟨houtput, ?_, hcomplete⟩
  rw [hstartup]

end

/-- A child that prints a marker which overlaps itself, cut in the middle of it. -/
def markedOptions : ProcessOptions :=
  { argv := [ascii "sh"], cwd := [], timeout := 1000, maxOutputBytes := 16
    memoryLimitBytes := none, startMarker := ascii "aab", startupGrace := 0 }

def markedChunks : List Chunk :=
  [{ bytes := ascii "aaa", nonempty := by decide, fits := by decide },
    { bytes := ascii "b!", nonempty := by decide, fits := by decide }]

theorem marker_found_and_removed_cut :
    let c := capture markedOptions 0 (delivering 0 markedChunks) 5
    c.phase = .finished .endOfFile ∧ c.result.output = ascii "a!" ∧
      c.result.startup.isSome ∧ c.result.outputTruncated = false := by
  have hmarker : markedOptions.startMarker ≠ [] := by decide
  obtain ⟨hend, hbytes⟩ := capture_delivering 0 (by decide) hmarker markedChunks
  obtain ⟨houtput, hstartup, hcomplete⟩ := marker_found_and_removed markedOptions 0
    (delivering 0 markedChunks) hmarker (markedChunks.length + 3) (by rw [hbytes]; decide)
  rw [hbytes] at houtput hstartup
  exact ⟨hend, houtput.trans (by decide), hstartup.mpr (by decide), hcomplete⟩

end GeminiCpp.Eval
