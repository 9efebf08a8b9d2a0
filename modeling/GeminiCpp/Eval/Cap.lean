import GeminiCpp.Eval.Marker

/-! What is kept of the output when there is more of it than fits. The start marker leaves room
behind when it is removed, and this room is filled with what is read after it. -/
namespace GeminiCpp.Eval
open Occurrence

/-- What the reads have returned, after some steps. -/
def readChunks (o : ProcessOptions) (start : TimePoint) (moments : ℕ → Moment) : ℕ → List Bytes
  | 0 => []
  | n + 1 =>
    let bytes := (capture o start moments n).bytesRead (moments n)
    if bytes = [] then readChunks o start moments n else readChunks o start moments n ++ [bytes]

theorem flatten_readChunks (o : ProcessOptions) (start : TimePoint) (moments : ℕ → Moment) (n : ℕ) :
    (readChunks o start moments n).flatten = received o start moments n := by
  induction n with
  | zero => rfl
  | succ n ih =>
    rw [readChunks, received]
    split_ifs with hnone
    · rw [ih, hnone, List.append_nil]
    · rw [List.flatten_append, ih, List.flatten_singleton]

/-- Where the read ends in which the first `k` bytes are complete. -/
def readEnd : List Bytes → ℕ → ℕ
  | [], _ => 0
  | bytes :: chunks, k =>
    if k ≤ bytes.length then bytes.length
    else bytes.length + readEnd chunks (k - bytes.length)

theorem readEnd_bounds {chunks : List Bytes} {k : ℕ} (hk : k ≤ chunks.flatten.length) :
    k ≤ readEnd chunks k ∧ readEnd chunks k ≤ chunks.flatten.length := by
  induction chunks generalizing k with
  | nil => exact ⟨hk, Nat.le_refl _⟩
  | cons bytes chunks ih =>
    rw [List.flatten_cons, List.length_append] at hk ⊢
    rw [readEnd]
    split_ifs with hfirst
    · omega
    · have hrest := ih (k := k - bytes.length) (by omega)
      omega

/-- A later read changes nothing. -/
theorem readEnd_append {chunks : List Bytes} {k : ℕ} (hpos : 0 < k)
    (hk : k ≤ chunks.flatten.length) (more : Bytes) :
    readEnd (chunks ++ [more]) k = readEnd chunks k := by
  induction chunks generalizing k with
  | nil =>
    rw [List.flatten_nil, List.length_nil] at hk
    omega
  | cons bytes chunks ih =>
    rw [List.flatten_cons, List.length_append] at hk
    rw [List.cons_append, readEnd, readEnd]
    split_ifs with hfirst
    · rfl
    · rw [ih (by omega) (by omega)]

/-- The last read completes what was not complete before it. -/
theorem readEnd_last {chunks : List Bytes} {more : Bytes} {k : ℕ}
    (hbefore : chunks.flatten.length < k)
    (hk : k ≤ (chunks ++ [more]).flatten.length) :
    readEnd (chunks ++ [more]) k = (chunks ++ [more]).flatten.length := by
  induction chunks generalizing k with
  | nil =>
    rw [List.nil_append, List.flatten_singleton] at hk ⊢
    rw [readEnd, if_pos hk]
  | cons bytes chunks ih =>
    rw [List.flatten_cons, List.length_append] at hbefore
    rw [List.cons_append, List.flatten_cons, List.length_append] at hk ⊢
    rw [readEnd, if_neg (by omega), ih (by omega) (by omega)]

/-- Where the marker stands in `s`, if all of it is within the cap. -/
def markerAt (o : ProcessOptions) (s : Bytes) : Option ℕ :=
  if o.startMarker = [] then none
  else (findFrom s o.startMarker 0).filter fun p =>
    p + o.startMarker.length ≤ o.maxOutputBytes

/-- What takes the place of a marker at `p`: what comes after the cap, but not before the end of
the read that completed the marker. -/
def refill (o : ProcessOptions) (chunks : List Bytes) (p : ℕ) : Bytes :=
  (chunks.flatten.drop
    (max o.maxOutputBytes (readEnd chunks (p + o.startMarker.length)))).take o.startMarker.length

/-- The output after some reads. -/
def cappedOutput (o : ProcessOptions) (chunks : List Bytes) : Bytes :=
  match markerAt o chunks.flatten with
  | none => chunks.flatten.take o.maxOutputBytes
  | some p =>
    (withoutFirst o.startMarker chunks.flatten).take
        (o.maxOutputBytes - o.startMarker.length) ++
      refill o chunks p

def cappedTruncated (o : ProcessOptions) (chunks : List Bytes) : Bool :=
  match markerAt o chunks.flatten with
  | none => o.maxOutputBytes < chunks.flatten.length
  | some p =>
    o.maxOutputBytes < readEnd chunks (p + o.startMarker.length) ||
      o.maxOutputBytes + o.startMarker.length < chunks.flatten.length

structure Capped (o : ProcessOptions) (c : Capture) (chunks : List Bytes) : Prop where
  output : c.result.output = cappedOutput o chunks
  startup : c.result.startup.isSome = (markerAt o chunks.flatten).isSome
  truncated : c.result.outputTruncated = cappedTruncated o chunks

theorem take_fill (s more : Bytes) (k : ℕ) :
    s.take k ++ more.take (k - (s.take k).length) = (s ++ more).take k := by
  rw [List.take_append, List.length_take]
  congr 2
  omega

/-- Within the cap the first marker is the same one. -/
theorem findFrom_take {s marker : Bytes} (hmarker : marker ≠ []) (cap : ℕ) :
    findFrom (s.take cap) marker 0 =
      (findFrom s marker 0).filter fun p => p + marker.length ≤ cap := by
  have hwhole : ∀ i, OccursAt marker (s.take cap) i →
      OccursAt marker s i ∧ i + marker.length ≤ cap := by
    intro i hoccurs
    have hle := hoccurs.length_le hmarker
    have happend := hoccurs.append hmarker (s.drop cap)
    rw [List.take_append_drop] at happend
    rw [List.length_take] at hle
    exact ⟨happend, by omega⟩
  cases hfound : findFrom s marker 0 with
  | none =>
    rw [Option.filter_none, findFrom_eq_none hmarker]
    intro i hi hoccurs
    exact (findFrom_eq_none hmarker).mp hfound i hi (hwhole i hoccurs).1
  | some p =>
    have hfirst := (findFrom_zero_eq_some hmarker).mp hfound
    have hle := hfirst.occurs.length_le hmarker
    by_cases hfits : p + marker.length ≤ cap
    · have hpart : OccursAt marker (s.take cap) p := by
        have happend := hfirst.occurs
        rw [← List.take_append_drop cap s] at happend
        refine (occursAt_append_iff ?_).mp happend
        rw [List.length_take]
        omega
      rw [Option.filter_some, if_pos (decide_eq_true hfits), findFrom_zero_eq_some hmarker]
      exact ⟨hpart, fun j hj hoccurs => hfirst.first j hj (hwhole j hoccurs).1⟩
    · rw [Option.filter_some, if_neg (by simpa using hfits), findFrom_eq_none hmarker]
      intro i _ hoccurs
      obtain ⟨hin, hcap⟩ := hwhole i hoccurs
      have hnot : ¬i < p := fun hlt => hfirst.first i hlt hin
      omega

section
variable {o : ProcessOptions} {c : Capture} {chunks : List Bytes} {more : Bytes}

theorem markerAt_eq_findFrom (hmarker : o.startMarker ≠ []) (s : Bytes) :
    markerAt o s = findFrom (s.take o.maxOutputBytes) o.startMarker 0 := by
  unfold markerAt
  rw [if_neg hmarker, findFrom_take hmarker]

theorem markerAt_eq_some {s : Bytes} {p : ℕ} (h : markerAt o s = some p) :
    o.startMarker ≠ [] ∧ findFrom s o.startMarker 0 = some p ∧
      p + o.startMarker.length ≤ o.maxOutputBytes ∧ p + o.startMarker.length ≤ s.length := by
  unfold markerAt at h
  split_ifs at h with hmarker
  rw [Option.filter_eq_some_iff, decide_eq_true_eq] at h
  have hle := ((findFrom_zero_eq_some hmarker).mp h.1).occurs.length_le hmarker
  exact ⟨hmarker, h.1, h.2, hle⟩

/-- A marker that has been found stays where it is. -/
theorem markerAt_append {s : Bytes} {p : ℕ} (h : markerAt o s = some p) (more : Bytes) :
    markerAt o (s ++ more) = some p := by
  obtain ⟨hmarker, hfound, hfits, -⟩ := markerAt_eq_some h
  unfold markerAt
  rw [if_neg hmarker, (withoutFirst_append hmarker hfound).1, Option.filter_some,
    if_pos (decide_eq_true hfits)]

theorem length_withoutFirst_of_found {s : Bytes} {p : ℕ} (h : markerAt o s = some p) :
    (withoutFirst o.startMarker s).length + o.startMarker.length = s.length := by
  obtain ⟨-, hfound, -, hle⟩ := markerAt_eq_some h
  unfold withoutFirst
  rw [hfound]
  dsimp only
  rw [List.length_append, List.length_take, List.length_drop]
  omega

/-- What stands after the cap in the stream without the marker. -/
theorem drop_withoutFirst {s : Bytes} {p : ℕ} (h : markerAt o s = some p) :
    (withoutFirst o.startMarker s).drop (o.maxOutputBytes - o.startMarker.length) =
      s.drop o.maxOutputBytes := by
  obtain ⟨-, hfound, hfits, hle⟩ := markerAt_eq_some h
  have hnil : (s.take p).drop (o.maxOutputBytes - o.startMarker.length) = [] := by
    rw [List.drop_eq_nil_iff, List.length_take]
    omega
  unfold withoutFirst
  rw [hfound]
  dsimp only
  rw [List.drop_append, hnil, List.nil_append, List.drop_drop, List.length_take]
  congr 1
  omega

/-- If the read that completed the marker ends within the cap, there is no hole. -/
theorem cappedOutput_of_le {p : ℕ} (h : markerAt o chunks.flatten = some p)
    (hend : readEnd chunks (p + o.startMarker.length) ≤ o.maxOutputBytes) :
    cappedOutput o chunks =
      (withoutFirst o.startMarker chunks.flatten).take o.maxOutputBytes := by
  obtain ⟨-, -, hfits, -⟩ := markerAt_eq_some h
  have hcap : o.maxOutputBytes =
      o.maxOutputBytes - o.startMarker.length + o.startMarker.length := by omega
  unfold cappedOutput refill
  rw [h]
  dsimp only
  rw [Nat.max_eq_left hend, ← drop_withoutFirst h]
  conv_rhs => rw [hcap, List.take_add]

/-- Else what was read between the cap and its end is missing. -/
theorem cappedOutput_of_lt {p : ℕ} (h : markerAt o chunks.flatten = some p)
    (hend : o.maxOutputBytes < readEnd chunks (p + o.startMarker.length)) :
    cappedOutput o chunks =
      (withoutFirst o.startMarker chunks.flatten).take
          (o.maxOutputBytes - o.startMarker.length) ++
        (chunks.flatten.drop (readEnd chunks (p + o.startMarker.length))).take
          o.startMarker.length := by
  unfold cappedOutput refill
  rw [h]
  dsimp only
  rw [Nat.max_eq_right (Nat.le_of_lt hend)]

theorem append_output (r : ProcessResult) (more : Bytes) :
    (Capture.append o r more).output =
      r.output ++ more.take (o.maxOutputBytes - r.output.length) := by
  unfold Capture.append
  dsimp only
  rw [← List.take_eq_take_min]
  congr 2
  omega

theorem append_truncated (r : ProcessResult) (more : Bytes) :
    (Capture.append o r more).outputTruncated =
      (r.outputTruncated || o.maxOutputBytes - r.output.length < more.length) := by
  unfold Capture.append
  dsimp only
  congr 1
  rw [decide_eq_decide]
  omega

/-- A read after the marker has been found. -/
theorem Capped.read_after (h : Capped o c chunks) (more : Bytes) {p : ℕ}
    (hfound : markerAt o chunks.flatten = some p) :
    (Capture.append o c.result more).output = cappedOutput o (chunks ++ [more]) ∧
      (Capture.append o c.result more).outputTruncated = cappedTruncated o (chunks ++ [more]) := by
  obtain ⟨hmarker, hfind, hfits, hle⟩ := markerAt_eq_some hfound
  have hlength := length_withoutFirst_of_found hfound
  have hpos := List.length_pos_iff.mpr hmarker
  have hflat : (chunks ++ [more]).flatten = chunks.flatten ++ more := by
    rw [List.flatten_append, List.flatten_singleton]
  have hstays : markerAt o (chunks ++ [more]).flatten = some p := by
    rw [hflat]
    exact markerAt_append hfound more
  have hrest := (withoutFirst_append (t := more) hmarker hfind).2
  have hend := readEnd_append (by omega) hle more
  have htruncated : cappedTruncated o chunks =
      (decide (o.maxOutputBytes < readEnd chunks (p + o.startMarker.length)) ||
        decide (o.maxOutputBytes + o.startMarker.length < chunks.flatten.length)) := by
    rw [cappedTruncated, hfound]
  have htruncated' : cappedTruncated o (chunks ++ [more]) =
      (decide (o.maxOutputBytes < readEnd chunks (p + o.startMarker.length)) ||
        decide (o.maxOutputBytes + o.startMarker.length <
          chunks.flatten.length + more.length)) := by
    rw [cappedTruncated, hstays]
    dsimp only
    rw [hend, hflat, List.length_append]
  rw [append_output, append_truncated, h.output, h.truncated, htruncated, htruncated']
  by_cases hcap : readEnd chunks (p + o.startMarker.length) ≤ o.maxOutputBytes
  · rw [cappedOutput_of_le hfound hcap, cappedOutput_of_le hstays (by rw [hend]; exact hcap), hflat,
      hrest]
    refine ⟨take_fill .., ?_⟩
    rw [List.length_take, Bool.eq_iff_iff]
    simp only [Bool.or_eq_true, decide_eq_true_eq]
    omega
  · have hlt : o.maxOutputBytes < readEnd chunks (p + o.startMarker.length) := by omega
    have hread := (readEnd_bounds hle).2
    have hfull : ((withoutFirst o.startMarker chunks.flatten).take
        (o.maxOutputBytes - o.startMarker.length)).length =
          o.maxOutputBytes - o.startMarker.length := by
      rw [List.length_take]
      omega
    rw [cappedOutput_of_lt hfound hlt, cappedOutput_of_lt hstays (by rw [hend]; exact hlt), hflat,
      hrest, hend, decide_eq_true hlt]
    refine ⟨?_, by simp⟩
    rw [List.append_assoc, List.length_append, hfull,
      List.take_append_of_le_length (by omega), List.drop_append_of_le_length hread,
      ← take_fill]
    congr 3
    omega

/-- A read before the marker has been found. -/
theorem Capped.read_before (h : Capped o c chunks) (more : Bytes)
    (hnone : markerAt o chunks.flatten = none) :
    (Capture.append o c.result more).output =
        (chunks.flatten ++ more).take o.maxOutputBytes ∧
      (Capture.append o c.result more).outputTruncated =
        decide (o.maxOutputBytes < (chunks.flatten ++ more).length) := by
  have houtput : c.result.output = chunks.flatten.take o.maxOutputBytes := by
    rw [h.output, cappedOutput, hnone]
  have htruncated : c.result.outputTruncated =
      decide (o.maxOutputBytes < chunks.flatten.length) := by
    rw [h.truncated, cappedTruncated, hnone]
  rw [append_output, append_truncated, houtput, htruncated]
  refine ⟨take_fill .., ?_⟩
  rw [List.length_take, List.length_append, Bool.eq_iff_iff]
  simp only [Bool.or_eq_true, decide_eq_true_eq]
  omega

/-- The read that completes the marker. -/
theorem cappedOutput_found {p : ℕ} (hnone : markerAt o chunks.flatten = none)
    (hfound : markerAt o (chunks ++ [more]).flatten = some p) :
    cappedOutput o (chunks ++ [more]) =
        ((chunks ++ [more]).flatten.take o.maxOutputBytes).take p ++
          ((chunks ++ [more]).flatten.take o.maxOutputBytes).drop (p + o.startMarker.length) ∧
      cappedTruncated o (chunks ++ [more]) =
        decide (o.maxOutputBytes < (chunks ++ [more]).flatten.length) := by
  obtain ⟨hmarker, hfind, hfits, hle⟩ := markerAt_eq_some hfound
  -- the marker was not complete before
  have hlate : chunks.flatten.length < p + o.startMarker.length := by
    by_contra hearly
    have hfirst := (findFrom_zero_eq_some hmarker).mp hfind
    rw [List.flatten_append, List.flatten_singleton] at hfirst
    have hbefore : findFrom chunks.flatten o.startMarker 0 = some p := by
      rw [findFrom_zero_eq_some hmarker]
      refine ⟨(occursAt_append_iff (by omega)).mp hfirst.occurs, ?_⟩
      intro j hj hoccurs
      exact hfirst.first j hj (hoccurs.append hmarker more)
    rw [markerAt, if_neg hmarker, hbefore, Option.filter_some,
      if_pos (decide_eq_true hfits)] at hnone
    cases hnone
  have hend := readEnd_last hlate hle
  have hnothing : refill o (chunks ++ [more]) p = [] := by
    have hpast : (chunks ++ [more]).flatten.length ≤ max o.maxOutputBytes
        (readEnd (chunks ++ [more]) (p + o.startMarker.length)) := by
      rw [hend]
      exact Nat.le_max_right ..
    rw [refill, List.drop_eq_nil_of_le hpast, List.take_nil]
  unfold cappedOutput cappedTruncated withoutFirst
  rw [hfound]
  dsimp only
  rw [hnothing, hend]
  generalize (chunks ++ [more]).flatten = s at hfind hle ⊢
  rw [hfind]
  dsimp only
  constructor
  · have hskip : o.maxOutputBytes - o.startMarker.length - min p s.length =
        o.maxOutputBytes - (p + o.startMarker.length) := by omega
    have hshort : min (o.maxOutputBytes - o.startMarker.length) p = min p o.maxOutputBytes := by
      omega
    rw [List.append_nil, List.take_append, List.take_take, List.length_take, hskip, hshort,
      List.take_take, List.drop_take]
  · rw [Bool.eq_iff_iff]
    simp only [Bool.or_eq_true, decide_eq_true_eq]
    omega

theorem findMarker_done (start now : TimePoint) (before : ℕ)
    (h : o.startMarker = [] ∨ c.result.startup.isSome = true) :
    Capture.findMarker o start now before c = c := if_pos h

/-- The search after a read, as long as the marker has not been found. -/
theorem findMarker_search (start now : TimePoint) {s : Bytes} (hmarker : o.startMarker ≠ [])
    (hstartup : c.result.startup.isSome = false) (hbefore : markerAt o s = none)
    (houtput : c.result.output = (s ++ more).take o.maxOutputBytes) :
    let after := Capture.findMarker o start now (s.take o.maxOutputBytes).length c
    after.result.startup.isSome = (markerAt o (s ++ more)).isSome ∧
      after.result.outputTruncated = c.result.outputTruncated ∧
      after.result.output = match markerAt o (s ++ more) with
        | none => c.result.output
        | some p => c.result.output.take p ++ c.result.output.drop (p + o.startMarker.length) := by
  have hsearch : findFrom c.result.output o.startMarker
      ((s.take o.maxOutputBytes).length - o.startMarker.length) = markerAt o (s ++ more) := by
    rw [markerAt_eq_findFrom hmarker] at hbefore
    rw [markerAt_eq_findFrom hmarker, houtput, ← take_fill, findFrom_append hmarker hbefore]
  unfold Capture.findMarker
  rw [if_neg (by simp [hmarker, hstartup]), hsearch]
  cases markerAt o (s ++ more) with
  | none => exact ⟨hstartup, rfl, rfl⟩
  | some p => exact ⟨rfl, rfl, rfl⟩

/-- One read. -/
theorem Capped.read (start now : TimePoint) (h : Capped o c chunks) {c' : Capture}
    (hresult : c'.result = Capture.append o c.result more) :
    Capped o (Capture.findMarker o start now c.result.output.length c') (chunks ++ [more]) := by
  have hflat : (chunks ++ [more]).flatten = chunks.flatten ++ more := by
    rw [List.flatten_append, List.flatten_singleton]
  have hstartup : c'.result.startup.isSome = (markerAt o chunks.flatten).isSome := by
    rw [hresult, ← h.startup]
    rfl
  cases hfound : markerAt o chunks.flatten with
  | some p =>
    obtain ⟨houtput, htruncated⟩ := h.read_after more hfound
    rw [← hresult] at houtput htruncated
    rw [hfound] at hstartup
    rw [findMarker_done start now _ (Or.inr hstartup)]
    refine ⟨houtput, ?_, htruncated⟩
    rw [hflat, markerAt_append hfound, hstartup]
  | none =>
    obtain ⟨houtput, htruncated⟩ := h.read_before more hfound
    rw [← hresult] at houtput htruncated
    rw [hfound] at hstartup
    by_cases hmarker : o.startMarker = []
    · have hnever : markerAt o (chunks ++ [more]).flatten = none := if_pos hmarker
      rw [findMarker_done start now _ (Or.inl hmarker)]
      refine ⟨?_, ?_, ?_⟩
      · rw [houtput, cappedOutput, hnever, hflat]
      · rw [hnever, hstartup]
      · rw [htruncated, cappedTruncated, hnever, hflat]
    · have hlength : c.result.output = chunks.flatten.take o.maxOutputBytes := by
        rw [h.output, cappedOutput, hfound]
      have hafter := findMarker_search start now hmarker hstartup hfound houtput
      rw [← hlength] at hafter
      obtain ⟨hsome, hsame, hkept⟩ := hafter
      rw [← hflat] at hsome hkept houtput htruncated
      refine ⟨?_, hsome, ?_⟩
      · rw [hkept, houtput]
        cases hnow : markerAt o (chunks ++ [more]).flatten with
        | none => rw [cappedOutput, hnow]
        | some p => rw [(cappedOutput_found hfound hnow).1]
      · rw [hsame, htruncated]
        cases hnow : markerAt o (chunks ++ [more]).flatten with
        | none => rw [cappedTruncated, hnow]
        | some p => rw [(cappedOutput_found hfound hnow).2]

/-- One step of the loop. -/
theorem Capped.step {start : TimePoint} {m : Moment} (h : Capped o c chunks) :
    Capped o (c.step o start m)
      (if c.bytesRead m = [] then chunks else chunks ++ [c.bytesRead m]) := by
  split_ifs with hnone
  · obtain ⟨houtput, hstartup, htruncated⟩ := step_of_no_data o start hnone
    exact ⟨houtput.trans h.output, (congrArg Option.isSome hstartup).trans h.startup,
      htruncated.trans h.truncated⟩
  · rw [step_of_data o start hnone]
    exact h.read start m.now rfl

/-- All steps. -/
theorem capped_readChunks (o : ProcessOptions) (start : TimePoint) (moments : ℕ → Moment) (n : ℕ) :
    Capped o (capture o start moments n) (readChunks o start moments n) := by
  induction n with
  | zero =>
    have hempty : markerAt o [] = none := by
      by_cases hmarker : o.startMarker = []
      · exact if_pos hmarker
      · rw [markerAt_eq_findFrom hmarker, List.take_nil, findFrom_eq_none hmarker]
        intro i _ hoccurs
        have hle := hoccurs.length_le hmarker
        have hpos := List.length_pos_iff.mpr hmarker
        rw [List.length_nil] at hle
        omega
    refine ⟨?_, ?_, ?_⟩
    · change [] = cappedOutput o []
      rw [cappedOutput, List.flatten_nil, hempty, List.take_nil]
    · change false = (markerAt o []).isSome
      rw [hempty]
      rfl
    · change false = cappedTruncated o []
      rw [cappedTruncated, List.flatten_nil, hempty]
      simp
  | succ n ih => exact ih.step

end

/-- The output is the start of the stream without the marker, it fits, and it is marked as
truncated if and only if something is missing. -/
structure NoHoles (o : ProcessOptions) (r : ProcessResult) (stream : Bytes) : Prop where
  pre : r.output <+: withoutFirst o.startMarker stream
  fits : r.output.length ≤ o.maxOutputBytes
  truncated : r.outputTruncated = true ↔
    r.output.length < (withoutFirst o.startMarker stream).length

/-- When the output has no holes. -/
def Intact (o : ProcessOptions) (chunks : List Bytes) : Prop :=
  o.startMarker ≠ [] → ∀ p, findFrom chunks.flatten o.startMarker 0 = some p →
    if p + o.startMarker.length ≤ o.maxOutputBytes then
      refill o chunks p <+: chunks.flatten.drop o.maxOutputBytes
    else
      -- what is kept of the marker is repeated after it
      o.startMarker.take (o.maxOutputBytes - p) <+:
          chunks.flatten.drop (p + o.startMarker.length) ∧
        o.maxOutputBytes + o.startMarker.length < chunks.flatten.length

section
variable {o : ProcessOptions} {c : Capture} {chunks : List Bytes}

theorem take_append_prefix_iff (s t : Bytes) (k : ℕ) :
    s.take k ++ t <+: s ↔ t <+: s.drop k := by
  have hsplit : s.take k ++ t <+: s.take k ++ s.drop k ↔ t <+: s.drop k :=
    List.prefix_append_right_inj _
  rw [List.take_append_drop] at hsplit
  exact hsplit

/-- The marker is within the cap. -/
theorem noHoles_iff_of_found (h : Capped o c chunks) {p : ℕ}
    (hfound : markerAt o chunks.flatten = some p) :
    NoHoles o c.result chunks.flatten ↔
      refill o chunks p <+: chunks.flatten.drop o.maxOutputBytes := by
  obtain ⟨-, -, hfits, hle⟩ := markerAt_eq_some hfound
  have hlength := length_withoutFirst_of_found hfound
  have hread := (readEnd_bounds hle).2
  have houtput : c.result.output = (withoutFirst o.startMarker chunks.flatten).take
      (o.maxOutputBytes - o.startMarker.length) ++ refill o chunks p := by
    rw [h.output, cappedOutput, hfound]
  have htruncated : c.result.outputTruncated = true ↔
      o.maxOutputBytes < readEnd chunks (p + o.startMarker.length) ∨
        o.maxOutputBytes + o.startMarker.length < chunks.flatten.length := by
    rw [h.truncated, cappedTruncated, hfound]
    dsimp only
    rw [Bool.or_eq_true, decide_eq_true_eq, decide_eq_true_eq]
  have hrefill : (refill o chunks p).length = min o.startMarker.length
      (chunks.flatten.length -
        max o.maxOutputBytes (readEnd chunks (p + o.startMarker.length))) := by
    rw [refill, List.length_take, List.length_drop]
  rw [← drop_withoutFirst hfound, ← take_append_prefix_iff, ← houtput]
  constructor
  · exact fun hholes => hholes.pre
  · intro hpre
    refine ⟨hpre, ?_, ?_⟩
    · rw [houtput, List.length_append, List.length_take, hrefill]
      omega
    · rw [htruncated, houtput, List.length_append, List.length_take, hrefill]
      omega

theorem findFrom_nil (s : Bytes) : findFrom s [] 0 = some 0 := by
  unfold findFrom
  rw [List.find?_range_eq_some]
  refine ⟨rfl, ?_, ?_⟩
  · rw [List.mem_range]
    omega
  · intro j hj
    omega

/-- There is no marker. -/
theorem noHoles_of_absent (h : Capped o c chunks)
    (habsent : o.startMarker = [] ∨ findFrom chunks.flatten o.startMarker 0 = none) :
    NoHoles o c.result chunks.flatten := by
  have hnone : markerAt o chunks.flatten = none := by
    unfold markerAt
    split_ifs with hmarker
    · rfl
    · rw [habsent.resolve_left hmarker, Option.filter_none]
  have hall : withoutFirst o.startMarker chunks.flatten = chunks.flatten := by
    unfold withoutFirst
    rcases habsent with hmarker | hfind
    · rw [hmarker, findFrom_nil]
      rfl
    · rw [hfind]
  have houtput : c.result.output = chunks.flatten.take o.maxOutputBytes := by
    rw [h.output, cappedOutput, hnone]
  have htruncated : c.result.outputTruncated = true ↔
      o.maxOutputBytes < chunks.flatten.length := by
    rw [h.truncated, cappedTruncated, hnone]
    exact decide_eq_true_iff
  refine ⟨?_, ?_, ?_⟩
  · rw [houtput, hall]
    exact List.take_prefix ..
  · rw [houtput, List.length_take]
    omega
  · rw [htruncated, houtput, hall, List.length_take]
    omega

/-- The marker ends after the cap. -/
theorem noHoles_iff_of_late (h : Capped o c chunks) (hmarker : o.startMarker ≠ []) {p : ℕ}
    (hfind : findFrom chunks.flatten o.startMarker 0 = some p)
    (hlate : o.maxOutputBytes < p + o.startMarker.length) :
    NoHoles o c.result chunks.flatten ↔
      o.startMarker.take (o.maxOutputBytes - p) <+:
          chunks.flatten.drop (p + o.startMarker.length) ∧
        o.maxOutputBytes + o.startMarker.length < chunks.flatten.length := by
  have hoccurs := ((findFrom_zero_eq_some hmarker).mp hfind).occurs
  have hle := hoccurs.length_le hmarker
  have hnone : markerAt o chunks.flatten = none := by
    unfold markerAt
    rw [if_neg hmarker, hfind, Option.filter_some, if_neg (by simp; omega)]
  have houtput : c.result.output = chunks.flatten.take o.maxOutputBytes := by
    rw [h.output, cappedOutput, hnone]
  have htruncated : c.result.outputTruncated = true := by
    rw [h.truncated, cappedTruncated, hnone]
    exact decide_eq_true (by omega)
  have hwithout : withoutFirst o.startMarker chunks.flatten = chunks.flatten.take p ++
      chunks.flatten.drop (p + o.startMarker.length) := by
    rw [withoutFirst, hfind]
  have hpre : c.result.output <+: withoutFirst o.startMarker chunks.flatten ↔
      o.startMarker.take (o.maxOutputBytes - p) <+:
        chunks.flatten.drop (p + o.startMarker.length) := by
    rw [houtput, hwithout]
    by_cases hbefore : o.maxOutputBytes ≤ p
    · have htake : chunks.flatten.take o.maxOutputBytes =
          (chunks.flatten.take p).take o.maxOutputBytes := by
        rw [List.take_take, Nat.min_eq_left hbefore]
      rw [htake, Nat.sub_eq_zero_of_le hbefore, List.take_zero]
      exact ⟨fun _ => List.nil_prefix,
        fun _ => (List.take_prefix ..).trans (List.prefix_append ..)⟩
    · obtain ⟨rest, hrest⟩ := hoccurs
      have hcap : o.maxOutputBytes = p + (o.maxOutputBytes - p) := by omega
      have htake : chunks.flatten.take o.maxOutputBytes =
          chunks.flatten.take p ++ o.startMarker.take (o.maxOutputBytes - p) := by
        conv_lhs => rw [hcap, List.take_add, ← hrest]
        rw [List.take_append_of_le_length (by omega)]
      rw [htake]
      exact List.prefix_append_right_inj _
  have hlength : (withoutFirst o.startMarker chunks.flatten).length + o.startMarker.length =
      chunks.flatten.length := by
    rw [hwithout, List.length_append, List.length_take, List.length_drop]
    omega
  constructor
  · intro hholes
    have hmissing := hholes.truncated.mp htruncated
    rw [houtput, List.length_take] at hmissing
    exact ⟨hpre.mp hholes.pre, by omega⟩
  · intro hintact
    refine ⟨hpre.mpr hintact.1, ?_, ?_⟩
    · rw [houtput, List.length_take]
      omega
    · refine ⟨fun _ => ?_, fun _ => htruncated⟩
      rw [houtput, List.length_take]
      omega

theorem Capped.noHoles_iff (h : Capped o c chunks) :
    NoHoles o c.result chunks.flatten ↔ Intact o chunks := by
  unfold Intact
  by_cases hmarker : o.startMarker = []
  · exact ⟨fun _ hne => absurd hmarker hne, fun _ => noHoles_of_absent h (Or.inl hmarker)⟩
  · cases hfind : findFrom chunks.flatten o.startMarker 0 with
    | none =>
      refine ⟨?_, fun _ => noHoles_of_absent h (Or.inr hfind)⟩
      intro _ _ p hp
      cases hp
    | some p =>
      have hcase : NoHoles o c.result chunks.flatten ↔
          if p + o.startMarker.length ≤ o.maxOutputBytes then
            refill o chunks p <+: chunks.flatten.drop o.maxOutputBytes
          else
            o.startMarker.take (o.maxOutputBytes - p) <+:
                chunks.flatten.drop (p + o.startMarker.length) ∧
              o.maxOutputBytes + o.startMarker.length < chunks.flatten.length := by
        split_ifs with hfits
        · apply noHoles_iff_of_found h
          rw [markerAt, if_neg hmarker, hfind, Option.filter_some,
            if_pos (decide_eq_true hfits)]
        · exact noHoles_iff_of_late h hmarker hfind (by omega)
      rw [hcase]
      constructor
      · intro hintact _ p' hp'
        cases hp'
        exact hintact
      · exact fun hintact => hintact hmarker p rfl

end

/-- The room of the marker is filled with the same bytes. -/
def SameRefill (o : ProcessOptions) (chunks chunks' : List Bytes) : Prop :=
  ∀ p, markerAt o chunks.flatten = some p → refill o chunks' p = refill o chunks p

theorem Capped.output_eq_iff {o : ProcessOptions} {c c' : Capture} {chunks chunks' : List Bytes}
    (h : Capped o c chunks) (h' : Capped o c' chunks') (hsame : chunks'.flatten = chunks.flatten) :
    c'.result.output = c.result.output ↔ SameRefill o chunks chunks' := by
  rw [h.output, h'.output, cappedOutput, cappedOutput, hsame, SameRefill]
  cases markerAt o chunks.flatten with
  | none => exact ⟨fun _ p hp => (by cases hp), fun _ => rfl⟩
  | some p =>
    dsimp only
    rw [List.append_cancel_left_eq]
    constructor
    · intro heq p' hp'
      cases hp'
      exact heq
    · exact fun hall => hall p rfl

/-- The capped output has no holes if and only if what fills the room of the marker is what comes
after the cap; and two runs of one stream keep the same of it if and only if they fill this room
alike. -/
theorem capped_output_iff (o : ProcessOptions) (start : TimePoint) (moments : ℕ → Moment)
    (n : ℕ) :
    (NoHoles o (capture o start moments n).result (received o start moments n) ↔
        Intact o (readChunks o start moments n)) ∧
      ∀ start' moments' n', received o start' moments' n' = received o start moments n →
        ((capture o start' moments' n').result.output =
            (capture o start moments n).result.output ↔
          SameRefill o (readChunks o start moments n) (readChunks o start' moments' n')) := by
  have hcapped := capped_readChunks o start moments n
  constructor
  · have hholes := hcapped.noHoles_iff
    rw [flatten_readChunks] at hholes
    exact hholes
  · intro start' moments' n' hsame
    rw [← flatten_readChunks, ← flatten_readChunks] at hsame
    exact hcapped.output_eq_iff (capped_readChunks o start' moments' n') hsame

/-- A read that goes past the cap and completes the marker. -/
def holedOptions : ProcessOptions :=
  { argv := [ascii "sh"], cwd := [], timeout := 1000, maxOutputBytes := 10
    memoryLimitBytes := none, startMarker := ascii "MM", startupGrace := 0 }

def holedChunks : List Chunk :=
  [{ bytes := ascii "xxxxxxMMyyyy", nonempty := by decide, fits := by decide },
    { bytes := ascii "zz", nonempty := by decide, fits := by decide }]

/-- The same bytes in other reads. -/
def wholeChunks : List Chunk :=
  [{ bytes := ascii "xxxxxxMM", nonempty := by decide, fits := by decide },
    { bytes := ascii "yyyyzz", nonempty := by decide, fits := by decide }]

theorem capped_output_holed :
    let holed := (capture holedOptions 0 (delivering 0 holedChunks) 5).result
    let whole := (capture holedOptions 0 (delivering 0 wholeChunks) 5).result
    ¬NoHoles holedOptions holed (received holedOptions 0 (delivering 0 holedChunks) 5) ∧
      received holedOptions 0 (delivering 0 holedChunks) 5 =
        received holedOptions 0 (delivering 0 wholeChunks) 5 ∧
      holed.output = ascii "xxxxxxyyzz" ∧ whole.output = ascii "xxxxxxyyyy" := by
  refine ⟨?_, by decide +kernel, by decide +kernel, by decide +kernel⟩
  intro hholes
  have hpre := hholes.pre
  rw [← List.isPrefixOf_iff_prefix] at hpre
  revert hpre
  decide +kernel

end GeminiCpp.Eval
