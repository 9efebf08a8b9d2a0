import GeminiCpp.Client.Attempts
import GeminiCpp.Wire.Returns

/-! How the retry hints of the server become delays. A hint is converted to milliseconds in a
signed 64-bit integer, where a large one does not fit; the seconds of a `RetryInfo` are rounded to
a double before. -/
namespace GeminiCpp

namespace Wire
open Nearest

/-- A retry hint, as it is read. -/
inductive Hint
  /-- The seconds of a `RetryInfo`, exactly: a sign and a number. -/
  | delay (negative : Bool) (x : ℚ)
  /-- The seconds of a `Retry-After` header. -/
  | header (seconds : ℤ)
deriving DecidableEq

namespace Hint

/-- The seconds of a numeral. -/
def seconds (negative : Bool) (x : ℚ) : ℚ := if negative then -x else x

/-- The double that `std::ceil` gives for the milliseconds of a numeral. -/
def ceilMillis (negative : Bool) (x : ℚ) : UInt64 :=
  Binary64.ceil (Binary64.mul (Binary64.ofMagnitude negative x) thousand)

/-- The announced time in milliseconds, the last of which may be a part of one. -/
def announced : Hint → ℤ
  | delay negative x => ⌈1000 * seconds negative x⌉
  | header s => s * 1000

/-- The value that the code computes from a hint. -/
def millis : Hint → Millis
  | delay negative x => castInt64 (ceilMillis negative x)
  | header s => secondsToMillis s

/-- The result of the conversion to 64 bits; out of range it is undefined. -/
def converted : Hint → Option ℤ
  | delay negative x => Binary64.toInt64 (ceilMillis negative x)
  | header s => if -2 ^ 63 ≤ s * 1000 ∧ s * 1000 < 2 ^ 63 then some (s * 1000) else none

/-- The announced time fits in 64 bits, and rounding the seconds of a `RetryInfo` to a double and
their product with 1000 to another does not lead out of the announced millisecond. -/
def Fits : Hint → Prop
  | delay negative x =>
    let n := ⌈1000 * seconds negative x⌉
    n < 2 ^ 63 ∧ (n : ℚ) - 1 < nearest (nearest (seconds negative x) * 1000) ∧
      nearest (nearest (seconds negative x) * 1000) ≤ n
  | header s => s ≤ 9223372036854775

end Hint

/-- The announced time, cut off at the largest 64-bit integer. -/
def saturated (v : ℤ) : ℤ := min v (2 ^ 63 - 1)

/-- The hint in the text of a protobuf duration. -/
def delayHint (text : Bytes) : Option Hint :=
  if text.length < 2 ∨ text.getLast? ≠ some 's'.toUInt8 then none
  else
    match Strtod.readNumeral text.dropLast with
    | some (.number negative x, []) =>
      let seconds := Binary64.ofMagnitude negative x
      if !Binary64.isFinite seconds ∨ Binary64.less seconds Binary64.zero then none
      else some (.delay negative x)
    | _ => none

/-- A later `RetryInfo` replaces the hint, even if its delay cannot be read. -/
def detailHint (hint : Option Hint) (d : Json) : Option Hint :=
  if (ascii "google.rpc.RetryInfo").isSuffixOf (textField d (ascii "@type") []) then
    delayHint (textField d (ascii "retryDelay") [])
  else hint

def bodyHint (text : JsonText) (body : Bytes) : Option Hint :=
  match errorDocument text body with
  | some (.obj fields) =>
    match findIf (.obj fields) (ascii "error") Json.isObject with
    | some e => (elemsUnder e (ascii "details")).foldl detailHint none
    | none => none
  | _ => none

def headerSeconds (headers : HttpHeaders) : Option Hint :=
  ((headers.lookup (ascii "retry-after")).bind fromChars).bind fun seconds =>
    if 0 ≤ seconds then some (.header seconds) else none

/-- The hint of an error response: its body comes before its headers. -/
def retryHint (text : JsonText) (body : Bytes) (headers : HttpHeaders) :
    Option Hint :=
  (bodyHint text body).or (headerSeconds headers)

theorem parseProtoDuration_eq (text : Bytes) :
    parseProtoDuration text = (delayHint text).map Hint.millis := by
  unfold parseProtoDuration delayHint
  by_cases hshort : text.length < 2 ∨ text.getLast? ≠ some 's'.toUInt8
  · rw [if_pos hshort, if_pos hshort]
    rfl
  rw [if_neg hshort, if_neg hshort]
  have hne : text.dropLast ≠ [] := by
    intro hnil
    have hlength := congrArg List.length hnil
    rw [List.length_dropLast] at hlength
    have hlong := not_lt.mp (not_or.mp hshort).1
    simp only [List.length_nil] at hlength
    omega
  have hwhole := Strtod.strtod_eq_length_iff hne
  dsimp only
  by_cases hread : ∃ numeral, Strtod.readNumeral text.dropLast = some (numeral, [])
  · have hlength := hwhole.mpr hread
    obtain ⟨numeral, hnumeral⟩ := hread
    have hbits : (Strtod.strtod text.dropLast).1 = numeral.bits := by
      unfold Strtod.strtod
      rw [hnumeral]
    rw [hnumeral, hlength, hbits]
    cases numeral with
    | number negative x =>
      simp only [ne_eq, not_true_eq_false, false_or, Strtod.Numeral.bits]
      split_ifs <;> rfl
    | infinite negative =>
      have hinfinite : Binary64.isFinite (Binary64.infinity negative) = false := by
        cases negative <;> decide +kernel
      simp only [ne_eq, not_true_eq_false, false_or, Strtod.Numeral.bits, hinfinite, Bool.not_false,
        true_or, if_true]
      rfl
    | nan =>
      have hnan : Binary64.isFinite Binary64.quietNaN = false := by decide +kernel
      simp only [ne_eq, not_true_eq_false, false_or, Strtod.Numeral.bits, hnan, Bool.not_false,
        true_or, if_true]
      rfl
  · rw [if_pos (Or.inl fun hlength => hread (hwhole.mp hlength))]
    symm
    rw [Option.map_eq_none_iff]
    split
    · next negative x hnumeral => exact absurd ⟨_, hnumeral⟩ hread
    · rfl

theorem headerHint_eq (headers : HttpHeaders) :
    headerHint headers = (headerSeconds headers).map Hint.millis := by
  unfold headerHint headerSeconds
  cases headers.lookup (ascii "retry-after") with
  | none => rfl
  | some v =>
    dsimp only
    rw [Option.bind_some]
    cases fromChars v with
    | none => rfl
    | some seconds =>
      rw [Option.bind_some]
      dsimp only
      split_ifs <;> rfl

theorem applyDetail_eq (hint : Option Hint) (d : Json) :
    applyDetail (hint.map Hint.millis) d =
      .ok ((detailHint hint d).map Hint.millis) := by
  unfold applyDetail detailHint
  simp only [stringOr_eq, MayThrow.ok_bind, parseProtoDuration_eq]
  split_ifs <;> rfl

theorem foldlM_applyDetail (details : List Json) (hint : Option Hint) :
    details.foldlM applyDetail (hint.map Hint.millis) =
      .ok ((details.foldl detailHint hint).map Hint.millis) := by
  induction details generalizing hint with
  | nil => rfl
  | cons d details ih =>
    rw [List.foldlM_cons, List.foldl_cons, applyDetail_eq, MayThrow.ok_bind, ih]

/-- `parse_api_error` sets `retry_after` to what the hint is converted to. -/
theorem parseApiError_retryAfter {text : JsonText} {httpStatus : ℤ} {body : Bytes}
    {headers : HttpHeaders} {e : Error}
    (h : parseApiError text httpStatus body headers = .ok e) :
    e.retryAfter = (retryHint text body headers).map Hint.millis := by
  have hor : ∀ hint : Option Hint, (hint.map Hint.millis).or (headerHint headers) =
      (hint.or (headerSeconds headers)).map Hint.millis := by
    intro hint
    rw [headerHint_eq]
    cases hint <;> rfl
  unfold parseApiError at h
  unfold retryHint bodyHint
  generalize errorDocument text body = document at h
  -- only an object can have details
  by_cases hobject : ∃ fields, document = some (.obj fields)
  · obtain ⟨fields, rfl⟩ := hobject
    cases hfind : findIf (.obj fields) (ascii "error") Json.isObject with
    | none =>
      simp only [hfind, MayThrow.pure_eq, MayThrow.ok_bind] at h
      rw [← Except.ok.inj h]
      simp only [hfind]
      exact hor none
    | some error =>
      have hdetails := foldlM_applyDetail (elemsUnder error (ascii "details")) none
      rw [Option.map_none] at hdetails
      simp only [hfind, parseErrorObject, stringOr_eq, hdetails, MayThrow.pure_eq,
        MayThrow.ok_bind] at h
      rw [← Except.ok.inj h]
      simp only [hfind]
      exact hor _
  · have hnone : (match document with
        | some (.obj fields) =>
          match findIf (.obj fields) (ascii "error") Json.isObject with
          | some e => (elemsUnder e (ascii "details")).foldl detailHint none
          | none => none
        | _ => none) = none := by
      split
      · rename_i fields
        exact absurd ⟨fields, rfl⟩ hobject
      · rfl
    rw [hnone]
    split at h
    · rename_i fields
      exact absurd ⟨fields, rfl⟩ hobject
    · split_ifs at h
      · simp only [MayThrow.pure_eq, MayThrow.ok_bind] at h
        rw [← Except.ok.inj h]
        exact hor none
      · simp only [MayThrow.pure_eq, MayThrow.ok_bind] at h
        rw [← Except.ok.inj h]
        exact hor none

/-- A hint that can be taken: its double is finite and not negative, a header is not negative. -/
def Hint.Accepted : Hint → Prop
  | .delay negative x => 0 ≤ x ∧ Binary64.isFinite (Binary64.ofMagnitude negative x) = true ∧
    Binary64.less (Binary64.ofMagnitude negative x) Binary64.zero = false
  | .header seconds => 0 ≤ seconds

theorem accepted_of_delayHint {text : Bytes} {hint : Hint} (h : delayHint text = some hint) :
    hint.Accepted := by
  unfold delayHint at h
  split_ifs at h
  split at h
  · next negative x hnumeral =>
    dsimp only at h
    split_ifs at h with hrefused
    obtain rfl := Option.some.inj h
    refine ⟨Strtod.nonneg_of_readNumeral hnumeral, ?_, ?_⟩
    · simpa using (not_or.mp hrefused).1
    · simpa using (not_or.mp hrefused).2
  · cases h

theorem accepted_of_foldl (details : List Json) {before : Option Hint}
    (hbefore : ∀ hint, before = some hint → hint.Accepted) {hint : Hint}
    (h : details.foldl detailHint before = some hint) : hint.Accepted := by
  induction details generalizing before with
  | nil => exact hbefore hint h
  | cons d details ih =>
    refine ih ?_ h
    intro hint' hdetail
    unfold detailHint at hdetail
    split_ifs at hdetail
    · exact accepted_of_delayHint hdetail
    · exact hbefore hint' hdetail

theorem accepted_of_retryHint {text : JsonText} {body : Bytes} {headers : HttpHeaders}
    {hint : Hint} (h : retryHint text body headers = some hint) : hint.Accepted := by
  rcases Option.or_eq_some_iff.mp h with hbody | ⟨-, hheader⟩
  · unfold bodyHint at hbody
    split at hbody
    · split at hbody
      · exact accepted_of_foldl _ (by simp) hbody
      · cases hbody
    · cases hbody
  · unfold headerSeconds at hheader
    obtain ⟨seconds, -, hseconds⟩ := Option.bind_eq_some_iff.mp hheader
    split_ifs at hseconds with hpos
    obtain rfl := Option.some.inj hseconds
    exact hpos

section Delay
variable {negative : Bool} {x : ℚ} (h : (Hint.delay negative x).Accepted)
include h

/-- The double of the seconds is the nearest one, and not negative. -/
theorem nearest_seconds :
    Binary64.toRat (Binary64.ofMagnitude negative x) = nearest (Hint.seconds negative x) ∧
      0 ≤ nearest (Hint.seconds negative x) := by
  obtain ⟨hx, hfinite, hsign⟩ := h
  have hvalue : Binary64.toRat (Binary64.ofMagnitude negative x) =
      nearest (Hint.seconds negative x) := by
    rw [Binary64.toRat_ofMagnitude hx ((Binary64.isFinite_ofMagnitude_iff hx).mp hfinite)]
    cases negative with
    | false => rfl
    | true => exact (nearest_neg x).symm
  refine ⟨hvalue, ?_⟩
  rw [← hvalue]
  have hnumber := Binary64.isNaN_of_isFinite hfinite
  rw [← Bool.not_eq_true, Binary64.less_zero_iff hnumber, not_lt] at hsign
  exact hsign

/-- The conversion of a delay gives the milliseconds after two roundings, if they fit. -/
theorem converted_delay {z : ℚ} (hz : nearest (nearest (Hint.seconds negative x) * 1000) = z) :
    0 ≤ z ∧ (Hint.delay negative x).converted = if ⌈z⌉ < 2 ^ 63 then some ⌈z⌉ else none := by
  obtain ⟨hvalue, hnonneg⟩ := nearest_seconds h
  obtain ⟨hx, hfinite, -⟩ := h
  have hthousand : Binary64.isFinite thousand = true ∧ Binary64.toRat thousand = 1000 := by
    decide +kernel
  have hzpos : 0 ≤ z := hz ▸ nearest_nonneg (mul_nonneg hnonneg (by norm_num))
  have hrange : ∀ n : ℤ, 0 ≤ n → (-2 ^ 63 ≤ n ∧ n < 2 ^ 63 ↔ n < 2 ^ 63) := by
    intro n hn
    exact and_iff_right (by omega)
  refine ⟨hzpos, ?_⟩
  simp only [Hint.converted, Hint.ceilMillis]
  by_cases hproduct : Binary64.isFinite
      (Binary64.mul (Binary64.ofMagnitude negative x) thousand) = true
  · have hmul := Binary64.toRat_mul hfinite hthousand.1 hproduct
    rw [hvalue, hthousand.2, hz] at hmul
    obtain ⟨hceilFinite, hceil⟩ := Binary64.toRat_ceil hproduct
    rw [hmul] at hceil
    rw [Binary64.toInt64_of_eq hceilFinite hceil]
    simp only [hrange _ (Int.ceil_nonneg hzpos)]
  · -- the product is too large for a double
    have hsize : (2 : ℚ) ^ 1024 ≤ z := by
      have hmagnitude : Binary64.magnitude (Binary64.ofMagnitude negative x) *
          Binary64.magnitude thousand = nearest (Hint.seconds negative x) * 1000 := by
        rw [← Binary64.abs_toRat, ← Binary64.abs_toRat, hvalue, hthousand.2,
          abs_of_nonneg hnonneg]
        norm_num
      rw [Binary64.mul_of_finite hfinite hthousand.1, hmagnitude,
        Binary64.isFinite_ofMagnitude_iff (mul_nonneg hnonneg (by norm_num)), hz, not_lt]
        at hproduct
      exact hproduct
    have hlarge : ¬ ⌈z⌉ < 2 ^ 63 := by
      have hpower : (2 : ℚ) ^ 63 ≤ 2 ^ 1024 := pow_le_pow_right₀ (by norm_num) (by norm_num)
      have hceil : ((2 ^ 63 : ℤ) : ℚ) ≤ ⌈z⌉ := by
        push_cast
        exact (hpower.trans hsize).trans (Int.le_ceil z)
      exact not_lt.mpr (by exact_mod_cast hceil)
    have hceil : Binary64.ceil (Binary64.mul (Binary64.ofMagnitude negative x) thousand) =
        Binary64.mul (Binary64.ofMagnitude negative x) thousand := by
      unfold Binary64.ceil
      rw [if_neg hproduct]
    rw [hceil, if_neg hlarge]
    unfold Binary64.toInt64
    rw [if_neg fun hrefused => hproduct hrefused.1]

/-- A delay fits if and only if its conversion gives the announced time as far as it fits. -/
theorem fits_delay_iff : (Hint.delay negative x).Fits ↔
    (Hint.delay negative x).converted = some (saturated (Hint.delay negative x).announced) := by
  generalize hz : nearest (nearest (Hint.seconds negative x) * 1000) = z
  obtain ⟨hzpos, hconverted⟩ := converted_delay h hz
  rw [hconverted]
  simp only [Hint.Fits, Hint.announced, saturated, hz]
  generalize ⌈1000 * Hint.seconds negative x⌉ = n
  constructor
  · intro hfits
    obtain ⟨hn, hlow, hhigh⟩ := hfits
    have hceil : ⌈z⌉ = n := Int.ceil_eq_iff.mpr ⟨hlow, hhigh⟩
    rw [hceil, if_pos hn, min_eq_left (by omega)]
  · intro hsame
    split_ifs at hsame with hfits
    have hceil := Option.some.inj hsame
    rcases lt_or_ge n (2 ^ 63) with hn | hn
    · rw [min_eq_left (by omega)] at hceil
      exact ⟨hn, Int.ceil_eq_iff.mp hceil⟩
    · -- no double above 2^53 is odd
      exfalso
      rw [min_eq_right (by omega)] at hceil
      obtain ⟨hlow, hhigh⟩ := Int.ceil_eq_iff.mp hceil
      have hlarge : (2 : ℚ) ^ 53 < |z| := by
        rw [abs_of_nonneg hzpos]
        push_cast at hlow
        linarith
      obtain ⟨k, hk⟩ := even_of_representable (hz ▸ representable_nearest _) hlarge
      have hceilk : ⌈z⌉ = 2 * k := by
        rw [hk]
        exact_mod_cast Int.ceil_intCast (2 * k)
      omega

end Delay

/-- What the code computes is the result of the conversion, where there is one. -/
theorem Hint.millis_of_converted {hint : Hint} {v : ℤ} (h : hint.converted = some v) :
    hint.millis = v := by
  cases hint with
  | delay negative x =>
    have hcast : Binary64.toInt64 (Hint.ceilMillis negative x) = some v := h
    show castInt64 (Hint.ceilMillis negative x) = v
    unfold castInt64
    rw [hcast, Option.getD_some]
  | header seconds =>
    simp only [Hint.converted] at h
    split_ifs at h with hrange
    obtain rfl := Option.some.inj h
    show secondsToMillis seconds = seconds * 1000
    unfold secondsToMillis
    apply Int.bmod_eq_of_le <;> omega

/-- A hint fits if and only if its conversion gives the announced time as far as it fits. -/
theorem Hint.Accepted.fits_iff {hint : Hint} (h : hint.Accepted) :
    hint.Fits ↔ hint.converted = some (saturated hint.announced) := by
  cases hint with
  | delay negative x => exact fits_delay_iff h
  | header seconds =>
    have hpos : 0 ≤ seconds := h
    simp only [Hint.Fits, Hint.converted, Hint.announced, saturated]
    constructor
    · intro hle
      rw [if_pos (by omega), min_eq_left (by omega)]
    · intro hsame
      split_ifs at hsame with hrange
      omega

/-- The announced time of a hint that fits is not negative. -/
theorem Hint.Accepted.announced_nonneg {hint : Hint} (h : hint.Accepted) (hfits : hint.Fits) :
    0 ≤ hint.announced := by
  cases hint with
  | delay negative x =>
    obtain ⟨hzpos, -⟩ := converted_delay h rfl
    have hle : (0 : ℚ) ≤ ⌈1000 * Hint.seconds negative x⌉ := hzpos.trans hfits.2.2
    exact_mod_cast hle
  | header seconds =>
    have hpos : 0 ≤ seconds := h
    show 0 ≤ seconds * 1000
    omega

end Wire

open Wire

/-- A hint is honoured: its conversion is defined, `retry_after` is the announced time as far as
it fits, and the delay before the retry lies within the limits. -/
structure HonouredHint (hint : Hint) (e : Error) (maxBackoff delay : Millis) : Prop where
  converted : hint.converted = e.retryAfter
  value : e.retryAfter = some (saturated hint.announced)
  nonneg : 0 ≤ saturated hint.announced
  delay_nonneg : 0 ≤ delay
  delay_le : delay ≤ maxBackoff

/-- The backoff lies within the limits if and only if it is a number, and less than one above the
largest delay before its fraction is dropped. -/
theorem RetryPolicy.backoff_within_iff (p : RetryPolicy) (hmax : 0 ≤ p.maxBackoff) (i : ℕ)
    (r : UInt64) : 0 ≤ p.backoff i r ∧ p.backoff i r ≤ p.maxBackoff ↔
      Binary64.isNaN (p.jittered i r) = false ∧
        Binary64.toRat (p.jittered i r) < (min (p.maxBackoff + 1) (2 ^ 63) : ℤ) := by
  have hlimit : (0 : ℚ) < (min (p.maxBackoff + 1) (2 ^ 63) : ℤ) := by
    have hint : (0 : ℤ) < min (p.maxBackoff + 1) (2 ^ 63) :=
      lt_min (Int.lt_add_one_iff.mpr hmax) (by norm_num)
    exact_mod_cast hint
  have hsize : ((min (p.maxBackoff + 1) (2 ^ 63) : ℤ) : ℚ) ≤ 2 ^ 1024 := by
    have hle : ((min (p.maxBackoff + 1) (2 ^ 63) : ℤ) : ℚ) ≤ ((2 ^ 63 : ℤ) : ℚ) := by
      exact_mod_cast min_le_right _ _
    have hpower : (2 : ℚ) ^ 63 ≤ 2 ^ 1024 := pow_le_pow_right₀ (by norm_num) (by norm_num)
    push_cast at hle ⊢
    exact hle.trans hpower
  have hnegativeLimit : ¬ (0 : ℤ) ≤ -2 ^ 63 := by norm_num
  have hundefined : ∀ x : UInt64, Binary64.isFinite x = false → castInt64 x = -2 ^ 63 := by
    intro x hx
    unfold castInt64 Binary64.toInt64
    rw [if_neg fun hrange => by simp [hx] at hrange, Option.getD_none]
  unfold RetryPolicy.backoff
  generalize p.jittered i r = x
  by_cases hnumber : Binary64.isNaN x = false
  · rw [and_iff_right hnumber]
    by_cases hnegative : Binary64.toRat x < 0
    · -- a delay below zero is none
      have hcast : castInt64 Binary64.zero = 0 := by decide +kernel
      dsimp only
      rw [if_pos ((Binary64.less_zero_iff hnumber).mpr hnegative), hcast]
      exact iff_of_true ⟨le_rfl, hmax⟩ (hnegative.trans hlimit)
    have hpos := not_lt.mp hnegative
    dsimp only
    rw [if_neg fun hless => hnegative ((Binary64.less_zero_iff hnumber).mp hless)]
    by_cases hfinite : Binary64.isFinite x = true
    · have hfloor := Int.floor_nonneg.mpr hpos
      unfold castInt64
      rw [Binary64.toInt64_of_nonneg hfinite hpos, ← Int.floor_lt, lt_min_iff, Int.lt_add_one_iff]
      split_ifs with hrange
      · rw [Option.getD_some]
        exact ⟨fun hleft => ⟨hleft.2, hrange⟩, fun hright => ⟨hfloor, hright.1⟩⟩
      · rw [Option.getD_none]
        exact iff_of_false (fun hleft => hnegativeLimit hleft.1) fun hright => hrange hright.2
    · rw [hundefined x (by simpa using hfinite)]
      have hinfinite := Binary64.abs_toRat_of_infinite (by simpa using hfinite) hnumber
      rw [abs_of_nonneg hpos] at hinfinite
      exact iff_of_false (fun hleft => hnegativeLimit hleft.1)
        (not_lt.mpr (hsize.trans hinfinite.ge))
  · have hnan : Binary64.isNaN x = true := by simpa using hnumber
    have hinfinite : Binary64.isFinite x = false := by
      unfold Binary64.isNaN at hnan
      simpa using (Bool.and_eq_true_iff.mp hnan).1
    have hless : Binary64.less x Binary64.zero = false := by
      unfold Binary64.less
      rw [hnan]
      rfl
    dsimp only
    rw [hless, if_neg Bool.false_ne_true, hundefined x hinfinite]
    exact iff_of_false (fun hleft => hnegativeLimit hleft.1) fun hright => hnumber hright.1

/-- The hint of an error response is honoured if and only if it fits. Without a hint the delay is
the exponential backoff, which the jitter may raise above the largest delay. -/
theorem hints_honoured_iff {ω : Type} (text : JsonText) (policy : RetryPolicy)
    (hmax : 0 ≤ policy.maxBackoff) (httpStatus : ℤ) (body : Bytes) (headers : HttpHeaders)
    (e : Error) (he : parseApiError text httpStatus body headers = .ok e) (host : Host ω) (i : ℕ)
    (w : ω) :
    ((∀ hint, retryHint text body headers = some hint →
        ∃ delay, (host.delayFor policy i e w).result = .ok delay ∧
          HonouredHint hint e policy.maxBackoff delay) ↔
      ∀ hint, retryHint text body headers = some hint → hint.Fits) ∧
    (retryHint text body headers = none → e.retryAfter = none ∧
      ∃ r, (host.delayFor policy i e w).result = .ok (policy.backoff i r) ∧
        (0 ≤ policy.backoff i r ∧ policy.backoff i r ≤ policy.maxBackoff ↔
          Binary64.isNaN (policy.jittered i r) = false ∧
            Binary64.toRat (policy.jittered i r) < (min (policy.maxBackoff + 1) (2 ^ 63) : ℤ))) := by
  have hafter := parseApiError_retryAfter he
  have hdelay : (host.delayFor policy i e w).result = .ok (host.delay policy i e w).1 := by
    rw [host.delayFor_run]
  refine ⟨⟨?_, ?_⟩, ?_⟩
  · intro h hint hhint
    obtain ⟨delay, -, hhonoured⟩ := h hint hhint
    rw [(accepted_of_retryHint hhint).fits_iff, hhonoured.converted, hhonoured.value]
  · intro h hint hhint
    have haccepted := accepted_of_retryHint hhint
    have hfits := h hint hhint
    have hconverted := haccepted.fits_iff.mp hfits
    have hretry : e.retryAfter = some (saturated hint.announced) := by
      rw [hafter, hhint, Option.map_some, Hint.millis_of_converted hconverted]
    have hnonneg : 0 ≤ saturated hint.announced :=
      le_min (haccepted.announced_nonneg hfits) (by norm_num)
    have hcapped :
        (host.delay policy i e w).1 = min (saturated hint.announced) policy.maxBackoff := by
      unfold Host.delay
      rw [hretry]
    refine ⟨(host.delay policy i e w).1, hdelay, ?_⟩
    exact { converted := by rw [hconverted, hretry]
            value := hretry
            nonneg := hnonneg
            delay_nonneg := by rw [hcapped]; exact le_min hnonneg hmax
            delay_le := by rw [hcapped]; exact min_le_right _ _ }
  · intro hnone
    have hretry : e.retryAfter = none := by rw [hafter, hnone, Option.map_none]
    have hbackoff : (host.delay policy i e w).1 = (host.backoff policy i w).1 := by
      unfold Host.delay
      rw [hretry]
    refine ⟨hretry, ?_⟩
    rw [hdelay, hbackoff]
    unfold Host.backoff
    split_ifs
    · exact ⟨_, rfl, policy.backoff_within_iff hmax i _⟩
    · exact ⟨_, rfl, policy.backoff_within_iff hmax i _⟩

/-- A delay of a double whose milliseconds are a double, such as whole seconds, fits if they do. -/
theorem Wire.fits_of_representable {x : ℚ} (hx : Nearest.Representable x)
    (hmillis : Nearest.Representable (x * 1000)) (hsize : ⌈1000 * x⌉ < 2 ^ 63) :
    (Hint.delay false x).Fits := by
  have hseconds : Hint.seconds false x = x := rfl
  have hproduct : Nearest.nearest (Nearest.nearest x * 1000) = 1000 * x := by
    rw [Nearest.nearest_of_representable hx, Nearest.nearest_of_representable hmillis, mul_comm]
  simp only [Hint.Fits, hseconds, hproduct]
  refine ⟨hsize, ?_, Int.le_ceil _⟩
  have hceil := Int.ceil_lt_add_one (1000 * x)
  linarith

/-- The default policy. -/
def defaultPolicy : RetryPolicy :=
  { maxAttempts := 4, initialBackoff := 500, maxBackoff := 30000
    multiplier := 0x4000000000000000, jitter := 0x3FC999999999999A }

/-- An error response with a document and a header. -/
def tooManyRequests (document : Json) (retryAfter : Bytes) : MayThrow Error :=
  parseApiError (.known [(ascii "d", document)] []) 429 (ascii "d")
    [(ascii "retry-after", retryAfter)]

/-- The document of an error with a `RetryInfo`. -/
def retryInfo (delay : String) : Json :=
  Json.object [(ascii "error", Json.object [(ascii "details", .arr [Json.object [
    (ascii "@type", .str (ascii "type.googleapis.com/google.rpc.RetryInfo")),
    (ascii "retryDelay", .str (ascii delay))]])])]

/-- The largest header that is read at all asks for a time in the past, and gets it. -/
theorem largest_header_wraps :
    (tooManyRequests (.obj []) (ascii "9223372036854775807")).map (fun e =>
      (e.retryAfter, (Host.still.delayFor defaultPolicy 0 e ()).result.toOption)) =
      .ok (some (-1000), some (-1000)) := by
  decide +kernel

/-- A `RetryInfo` of 2007 milliseconds is one of 2008 after two roundings. -/
example : (tooManyRequests (retryInfo "2.007s") []).map (·.retryAfter) = .ok (some 2008) := by
  decide +kernel

/-- One and a half seconds are one and a half seconds, and win over a header. -/
theorem hints_honoured_retryInfo :
    ∃ e delay, tooManyRequests (retryInfo "1.5s") (ascii "9223372036854775807") = .ok e ∧
      (Host.still.delayFor defaultPolicy 0 e ()).result = .ok delay ∧
      HonouredHint (.delay false (3 / 2)) e 30000 delay := by
  let text : JsonText := .known [(ascii "d", retryInfo "1.5s")] []
  let headers := [(ascii "retry-after", ascii "9223372036854775807")]
  obtain ⟨e, he⟩ := parseApiError_ok text 429 (ascii "d") headers
  have hhint : retryHint text (ascii "d") headers = some (.delay false (3 / 2)) := by
    decide +kernel
  have hfits : ∀ hint, retryHint text (ascii "d") headers = some hint → hint.Fits := by
    intro hint h
    rw [hhint] at h
    rw [← Option.some.inj h]
    exact fits_of_representable ⟨3, -1, by decide, by decide, by norm_num⟩
      ⟨1500, 0, by decide, by decide, by norm_num⟩ (by decide +kernel)
  have hhonoured := (hints_honoured_iff text defaultPolicy (by decide) 429 (ascii "d") headers e he
    Host.still 0 ()).1.mpr hfits
  obtain ⟨delay, hdelay, hall⟩ := hhonoured _ hhint
  exact ⟨e, delay, he, hdelay, hall⟩

end GeminiCpp
