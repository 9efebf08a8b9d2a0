import GeminiCpp.Tasks.Duration.Scan

/-! The strings that `parse_duration` accepts: those of the grammar whose value is in range. -/
namespace GeminiCpp.ParseDuration
open Decimal MachineInt

theorem unitOf_name (unit : TimeUnit) : unitOf unit.name = some unit := by
  cases unit <;> decide

theorem name_of_unitOf {name : Bytes} {unit : TimeUnit} (h : unitOf name = some unit) :
    unit.name = name := by
  have hfound := List.find?_some h
  exact of_decide_eq_true hfound

theorem TimeUnit.name_bytes (unit : TimeUnit) : ∀ c ∈ unit.name, isUnitByte c = true := by
  apply List.all_eq_true.mp
  cases unit <;> decide

theorem TimeUnit.name_ne_nil (unit : TimeUnit) : unit.name ≠ [] := by
  cases unit <;> decide

/-- A number stands first: what is left does not go on with the name of a unit. -/
def AtNumber (s : Bytes) : Prop := ∀ c, s.head? = some c → isUnitByte c = false

theorem atNumber_nil : AtNumber [] := by
  intro c hc
  cases hc

namespace Pair
variable (p : Pair)

theorem number_ne_nil : p.number ≠ [] := by
  intro h
  obtain ⟨hwhole, hfrac⟩ := List.append_eq_nil_iff.mp h
  rcases p.hasDigit with hdigit | hdigit
  · exact hdigit hwhole
  · cases hds : p.frac with
    | none =>
      rw [hds] at hdigit
      exact hdigit rfl
    | some ds =>
      rw [hds] at hfrac
      cases hfrac

/-- The text opens with a digit or a dot. -/
theorem atNumber_text (rest : Bytes) : AtNumber (p.text ++ rest) := by
  intro c hc
  unfold text number at hc
  cases hwhole : p.whole with
  | cons d ds =>
    rw [hwhole] at hc
    have hd : isDigit d = true := p.whole_digits d (by simp [hwhole])
    obtain rfl : d = c := by simpa using hc
    simp [isUnitByte, hd]
  | nil =>
    rcases p.hasDigit with hdigit | hdigit
    · exact absurd hwhole hdigit
    · cases hds : p.frac with
      | none =>
        rw [hds] at hdigit
        exact absurd rfl hdigit
      | some ds =>
        rw [hwhole, hds] at hc
        obtain rfl : dot = c := by simpa using hc
        rfl

/-- The name of the unit ends the digits. -/
theorem not_isDigit_head_unit (unit : TimeUnit) (rest : Bytes) :
    ∃ c name, unit.name ++ rest = c :: name ∧ isDigit c = false ∧ c ≠ dot := by
  obtain ⟨c, name, hname⟩ := List.exists_cons_of_ne_nil unit.name_ne_nil
  have hc : isUnitByte c = true := unit.name_bytes c (by simp [hname])
  refine ⟨c, name ++ rest, by rw [hname, List.cons_append], ?_⟩
  simpa [isUnitByte, and_comm] using hc

theorem splitNumber_text (rest : Bytes) :
    (p.text ++ rest).takeWhile isDigit = p.whole ∧
      splitNumber (p.text ++ rest) = (p.whole, p.frac, p.unit.name ++ rest) := by
  obtain ⟨c, name, hname, hc, hdot⟩ := not_isDigit_head_unit p.unit rest
  have hhead : ∀ d, (p.unit.name ++ rest).head? = some d → isDigit d = false := by
    intro d hd
    rw [hname] at hd
    obtain rfl : c = d := by simpa using hd
    exact hc
  unfold text number splitNumber
  cases hfrac : p.frac with
  | none =>
    rw [List.append_nil, List.append_assoc, takeWhile_append p.whole_digits hhead,
      dropWhile_append p.whole_digits hhead, hname]
    simp [hdot]
  | some ds =>
    have hds : Digits ds := by
      have hdigits := p.frac_digits
      rw [hfrac] at hdigits
      exact hdigits
    have hdothead : ∀ d, (dot :: (ds ++ (p.unit.name ++ rest))).head? = some d →
        isDigit d = false := by
      intro d hd
      obtain rfl : dot = d := by simpa using hd
      rfl
    simp only [List.append_assoc, List.cons_append]
    rw [takeWhile_append p.whole_digits hdothead, dropWhile_append p.whole_digits hdothead]
    simp only [if_true]
    rw [takeWhile_append hds hhead, dropWhile_append hds hhead]
    exact ⟨trivial, rfl⟩

theorem readNanos_eq : readNanos p.whole (p.frac.getD []) p.unit = p.cut.nanos := by
  rw [nanos_split]
  simp only [whole_cut, unit_cut, fracDigits_cut]
  rfl

end Pair

section Round
variable {A : Arithmetic} (hA : A.Exact) {total : ℕ} (htotal : total ≤ limit)
include hA htotal

theorem addPair_text (p : Pair) {rest : Bytes} (hrest : AtNumber rest) :
    addPair A total (p.text ++ rest) = .ok
      (if total + p.cut.nanos ≤ limit then some (total + p.cut.nanos, rest) else none) := by
  obtain ⟨hwhole, hsplit⟩ := p.splitNumber_text rest
  have hnone : ¬(p.whole = [] ∧ p.frac.getD [] = []) :=
    fun h => p.hasDigit.elim (fun hdigit => hdigit h.1) fun hdigit => hdigit h.2
  have hge : value p.whole ≤ p.cut.nanos := by
    have hunit := p.unit.nanos_pos_le.1
    have hmul := Nat.le_mul_of_pos_right (value p.whole) hunit
    rw [Pair.nanos_split, Pair.whole_cut, Pair.unit_cut]
    exact hmul.trans (Nat.le_add_right _ _)
  rw [addPair_eq hA htotal, hwhole, hsplit]
  dsimp only
  rw [takeWhile_append p.unit.name_bytes hrest, dropWhile_append p.unit.name_bytes hrest,
    unitOf_name, Option.bind_some, p.readNanos_eq, if_neg hnone]
  by_cases hfits : total + p.cut.nanos ≤ limit
  · rw [if_neg (by omega), if_neg (by omega), if_pos hfits]
  · rw [if_neg hfits, if_pos (Nat.not_le.mp hfits)]
    split_ifs <;> rfl

/-- A round that goes on has read a pair. -/
theorem addPair_sound {s rest : Bytes} {t : ℕ} (h : addPair A total s = .ok (some (t, rest))) :
    ∃ p : Pair, s = p.text ++ rest ∧ t = total + p.cut.nanos ∧ t ≤ limit := by
  rw [addPair_eq hA htotal, Except.ok.injEq] at h
  split_ifs at h with hwhole hnone
  obtain ⟨unit, hunit, h⟩ := Option.bind_eq_some_iff.mp h
  split_ifs at h with hbig
  obtain ⟨rfl, rfl⟩ := Prod.mk.inj (Option.some.inj h)
  let p : Pair :=
    { whole := s.takeWhile isDigit, frac := (splitNumber s).2.1, unit
      whole_digits := digits_takeWhile s
      frac_digits := splitNumber_digits s
      hasDigit := by
        by_contra hdigit
        rw [not_or, not_not, not_not] at hdigit
        exact hnone hdigit }
  have hnanos : readNanos (s.takeWhile isDigit) ((splitNumber s).2.1.getD []) unit =
      p.cut.nanos := p.readNanos_eq
  refine ⟨p, ?_, by rw [hnanos], by omega⟩
  have hnumber : s = p.number ++ (splitNumber s).2.2 := splitNumber_append s
  have hname : p.unit.name = (splitNumber s).2.2.takeWhile isUnitByte := name_of_unitOf hunit
  rw [Pair.text, hname, List.append_assoc, List.takeWhile_append_dropWhile, ← hnumber]

end Round

section Loop
variable {A : Arithmetic}

theorem addPairs_nil (fuel total : ℕ) : addPairs A fuel total [] = .ok (some total) := by
  cases fuel <;> rfl

theorem addPairs_succ (fuel total : ℕ) {s : Bytes} (hs : s ≠ []) :
    addPairs A (fuel + 1) total s = addPair A total s >>= fun next =>
      match next with
      | none => .ok none
      | some (total, s) => addPairs A fuel total s := by
  cases s with
  | nil => exact absurd rfl hs
  | cons c s => rfl

/-- A round returns, and what is left is shorter. -/
theorem addPair_returns (hA : A.Exact) {total : ℕ} (htotal : total ≤ limit) (s : Bytes) :
    ∃ next, addPair A total s = .ok next ∧
      ∀ t rest, next = some (t, rest) → rest.length < s.length := by
  refine ⟨_, addPair_eq hA htotal s, ?_⟩
  intro t rest hnext
  obtain ⟨p, rfl, -, -⟩ := addPair_sound hA htotal ((addPair_eq hA htotal s).trans
    (congrArg Except.ok hnext))
  have hnumber := List.length_pos_of_ne_nil p.number_ne_nil
  rw [Pair.text, List.length_append, List.length_append]
  omega

/-- The loop ends within as many rounds as there are bytes, and it has read pairs. -/
theorem addPairs_returns (hA : A.Exact) {fuel total : ℕ} (htotal : total ≤ limit) {s : Bytes}
    (hfuel : s.length ≤ fuel) :
    ∃ r, addPairs A fuel total s = .ok r ∧ ∀ t, r = some t → t ≤ limit ∧
      ∃ pairs : List Pair, s = pairs.flatMap Pair.text ∧
        t = total + (pairs.map fun p => p.cut.nanos).sum := by
  induction fuel generalizing total s with
  | zero =>
    have hnil : s = [] := List.eq_nil_of_length_eq_zero (by omega)
    subst hnil
    refine ⟨_, addPairs_nil _ _, fun t ht => ?_⟩
    obtain rfl := Option.some.inj ht
    exact ⟨htotal, [], rfl, rfl⟩
  | succ fuel ih =>
    by_cases hs : s = []
    · subst hs
      refine ⟨_, addPairs_nil _ _, fun t ht => ?_⟩
      obtain rfl := Option.some.inj ht
      exact ⟨htotal, [], rfl, rfl⟩
    · obtain ⟨next, hnext, hshorter⟩ := addPair_returns hA htotal s
      rw [addPairs_succ fuel total hs, hnext, ok_bind]
      rcases next with _ | ⟨t, rest⟩
      · exact ⟨none, rfl, fun t ht => by cases ht⟩
      · obtain ⟨p, hp, hsum, ht⟩ := addPair_sound hA htotal hnext
        have hlength := hshorter t rest rfl
        obtain ⟨r, hr, hread⟩ := ih ht (s := rest) (by omega)
        refine ⟨r, hr, fun t' ht' => ?_⟩
        obtain ⟨hlimit, pairs, hpairs, hsum'⟩ := hread t' ht'
        refine ⟨hlimit, p :: pairs, by rw [List.flatMap_cons, ← hpairs, ← hp], ?_⟩
        rw [List.map_cons, List.sum_cons, hsum', hsum]
        omega

theorem atNumber_flatMap (pairs : List Pair) : AtNumber (pairs.flatMap Pair.text) := by
  cases pairs with
  | nil => exact atNumber_nil
  | cons p pairs => exact p.atNumber_text _

theorem addPairs_text (hA : A.Exact) {fuel total : ℕ} (htotal : total ≤ limit)
    (pairs : List Pair) (hfuel : (pairs.flatMap Pair.text).length ≤ fuel) :
    addPairs A fuel total (pairs.flatMap Pair.text) = .ok
      (if total + (pairs.map fun p => p.cut.nanos).sum ≤ limit then
        some (total + (pairs.map fun p => p.cut.nanos).sum)
      else none) := by
  induction pairs generalizing fuel total with
  | nil =>
    rw [List.map_nil, List.sum_nil, Nat.add_zero, if_pos htotal]
    exact addPairs_nil fuel total
  | cons p pairs ih =>
    have hnumber := List.length_pos_of_ne_nil p.number_ne_nil
    rw [List.flatMap_cons, List.length_append, Pair.text, List.length_append] at hfuel
    obtain ⟨fuel, rfl⟩ := Nat.exists_eq_succ_of_ne_zero (n := fuel) (by omega)
    have hne : p.text ++ pairs.flatMap Pair.text ≠ [] := by
      intro h
      exact p.number_ne_nil (List.append_eq_nil_iff.mp (List.append_eq_nil_iff.mp h).1).1
    rw [List.flatMap_cons, addPairs_succ fuel total hne,
      addPair_text hA htotal p (atNumber_flatMap pairs), ok_bind, List.map_cons, List.sum_cons,
      ← Nat.add_assoc]
    by_cases hfits : total + p.cut.nanos ≤ limit
    · rw [if_pos hfits]
      exact ih hfits (by omega)
    · rw [if_neg hfits, if_neg (by omega)]

/-- The result does not depend on how results that do not fit are treated: there are none. -/
theorem addPairs_congr {B : Arithmetic} (hA : A.Exact) (hB : B.Exact) {fuel total : ℕ}
    (htotal : total ≤ limit) (s : Bytes) :
    addPairs A fuel total s = addPairs B fuel total s := by
  induction fuel generalizing total s with
  | zero => cases s <;> rfl
  | succ fuel ih =>
    by_cases hs : s = []
    · rw [hs, addPairs_nil, addPairs_nil]
    · obtain ⟨next, hnext, -⟩ := addPair_returns hA htotal s
      have hsame : addPair B total s = .ok next := by
        rw [← hnext, addPair_eq hA htotal, addPair_eq hB htotal]
      rw [addPairs_succ fuel total hs, addPairs_succ fuel total hs, hnext, hsame, ok_bind, ok_bind]
      rcases next with _ | ⟨t, rest⟩
      · rfl
      · obtain ⟨p, -, -, ht⟩ := addPair_sound hA htotal hnext
        exact ih ht rest

end Loop

/-! The sign and the range. -/

theorem splitSign_append (s : Bytes) : ∃ sign : Sign, s = sign.text ++ (splitSign s).2 ∧
    (splitSign s).1 = decide (sign = .minus) := by
  unfold splitSign
  cases s with
  | nil => exact ⟨.none, rfl, rfl⟩
  | cons c rest =>
    dsimp only
    by_cases hc : c = plus ∨ c = minus
    · rw [if_pos hc]
      rcases hc with rfl | rfl
      · exact ⟨.plus, rfl, rfl⟩
      · exact ⟨.minus, rfl, rfl⟩
    · rw [if_neg hc]
      exact ⟨.none, rfl, rfl⟩

theorem splitSign_text (sign : Sign) {s : Bytes} (hs : AtNumber s) :
    splitSign (sign.text ++ s) = (decide (sign = .minus), s) := by
  cases sign with
  | none =>
    cases s with
    | nil => rfl
    | cons c rest =>
      have hc := hs c rfl
      have hsign : ¬(c = plus ∨ c = minus) := by
        rintro (rfl | rfl)
        · exact absurd hc (by decide)
        · exact absurd hc (by decide)
      exact if_neg hsign
  | plus => rfl
  | minus => rfl

theorem signedTotal_eq {A : Arithmetic} (hA : A.Exact) {total : ℕ} (htotal : total ≤ limit)
    (sign : Sign) : signedTotal A (decide (sign = .minus)) total = .ok
      (if InRange (sign.apply total) then some (sign.apply total) else none) := by
  have hlimit : limit = 9223372036854775808 := by decide
  have hmin : int64Min = -9223372036854775808 := rfl
  have hfits : ∀ z : ℤ, -9223372036854775808 ≤ z → z < 9223372036854775808 →
      A.signed 64 z = .ok z := fun z hlow hhigh => hA.signed 64 z (by omega) hlow hhigh
  by_cases hminus : sign = .minus
  · subst hminus
    have happly : Sign.minus.apply total = -(total : ℤ) := rfl
    have hrange : InRange (Sign.minus.apply total) := by
      unfold InRange
      omega
    have hdecide : decide (Sign.minus = Sign.minus) = true := rfl
    rw [if_pos hrange, signedTotal, hdecide, if_neg (by simp), if_pos rfl]
    by_cases hfull : total = limit
    · rw [if_pos hfull, hfull, hlimit]
      rfl
    · rw [if_neg hfull, hfits total (by omega) (by omega), ok_bind,
        hfits (-total) (by omega) (by omega)]
      rfl
  · have happly : sign.apply total = total := by
      cases sign <;> first | rfl | exact absurd rfl hminus
    rw [happly, signedTotal, decide_eq_false hminus]
    by_cases hfull : total = limit
    · have hrange : ¬InRange (total : ℤ) := by
        unfold InRange
        omega
      rw [if_pos ⟨rfl, hfull⟩, if_neg hrange]
      rfl
    · have hrange : InRange (total : ℤ) := by
        unfold InRange
        omega
      rw [if_neg (fun h => hfull h.2), if_neg (by simp), hfits total (by omega) (by omega),
        ok_bind, if_pos hrange]
      rfl

theorem limit_lt_not_inRange {sign : Sign} {total : ℕ} (h : limit < total) :
    ¬InRange (sign.apply total) := by
  have hlimit : limit = 9223372036854775808 := by decide
  have hmin : int64Min = -9223372036854775808 := rfl
  unfold InRange
  cases sign <;> simp only [Sign.apply] <;> omega

theorem parseWith_zero (A : Arithmetic) (sign : Sign) :
    parseWith A (sign.text ++ ascii "0") = .ok (some 0) := by
  cases sign <;> rfl

section Parse
variable {A : Arithmetic} (hA : A.Exact)
include hA

/-- A duration is accepted if and only if its sum is in range; then that is the result. -/
theorem parseWith_text (d : Duration) :
    parseWith A d.text = .ok (if InRange d.cut then some d.cut else none) := by
  have hzero : d.pairs.flatMap Pair.text ≠ ascii "0" := by
    intro h
    obtain ⟨p, pairs, hpairs⟩ := List.exists_cons_of_ne_nil d.nonempty
    have hlength := congrArg List.length h
    have hnumber := List.length_pos_of_ne_nil p.number_ne_nil
    have hunit := List.length_pos_of_ne_nil p.unit.name_ne_nil
    have hone : (ascii "0").length = 1 := by decide
    rw [hpairs, List.flatMap_cons, List.length_append, Pair.text, List.length_append, hone]
      at hlength
    omega
  have hnil : d.pairs.flatMap Pair.text ≠ [] := by
    intro h
    obtain ⟨p, pairs, hpairs⟩ := List.exists_cons_of_ne_nil d.nonempty
    rw [hpairs, List.flatMap_cons] at h
    exact p.number_ne_nil (List.append_eq_nil_iff.mp (List.append_eq_nil_iff.mp h).1).1
  unfold parseWith Duration.text
  rw [splitSign_text d.sign (atNumber_flatMap d.pairs)]
  dsimp only
  rw [if_neg hzero, if_neg hnil, addPairs_text hA (Nat.zero_le _) d.pairs (Nat.le_refl _),
    Nat.zero_add, ok_bind]
  by_cases hfits : (d.pairs.map fun p => p.cut.nanos).sum ≤ limit
  · rw [if_pos hfits]
    exact signedTotal_eq hA hfits d.sign
  · have hrange : ¬InRange d.cut := limit_lt_not_inRange (Nat.not_le.mp hfits)
    rw [if_neg hfits, if_neg hrange]
    rfl

/-- Parsing returns, without a result that wraps around, and what it accepts is in the grammar. -/
theorem parseWith_returns (text : Bytes) :
    ∃ r, parseWith A text = .ok r ∧ ∀ v, r = some v → ∃ z, Denotes text z := by
  obtain ⟨sign, htext, hsign⟩ := splitSign_append text
  unfold parseWith
  dsimp only
  by_cases hzero : (splitSign text).2 = ascii "0"
  · rw [if_pos hzero]
    refine ⟨_, rfl, fun v _ => ?_⟩
    rw [htext, hzero]
    exact ⟨0, .zero sign⟩
  · rw [if_neg hzero]
    by_cases hnil : (splitSign text).2 = []
    · rw [if_pos hnil]
      exact ⟨none, rfl, fun v hv => by cases hv⟩
    · obtain ⟨r, hr, hread⟩ := addPairs_returns hA (Nat.zero_le limit) (s := (splitSign text).2)
        (Nat.le_refl _)
      rw [if_neg hnil, hr, ok_bind]
      cases r with
      | none => exact ⟨none, rfl, fun v hv => by cases hv⟩
      | some total =>
        obtain ⟨hlimit, pairs, hpairs, -⟩ := hread total rfl
        dsimp only
        rw [hsign, signedTotal_eq hA hlimit sign]
        refine ⟨_, rfl, fun v _ => ?_⟩
        have hne : pairs ≠ [] := by
          rintro rfl
          exact hnil hpairs
        rw [htext, hpairs]
        exact ⟨_, .duration ⟨sign, pairs, hne⟩⟩

theorem parseWith_congr {B : Arithmetic} (hB : B.Exact) (text : Bytes) :
    parseWith A text = parseWith B text := by
  obtain ⟨sign, -, hsign⟩ := splitSign_append text
  obtain ⟨r, hr, hread⟩ := addPairs_returns hA (Nat.zero_le limit) (s := (splitSign text).2)
    (Nat.le_refl _)
  have hsame := hr
  rw [addPairs_congr hA hB (Nat.zero_le limit)] at hsame
  unfold parseWith
  dsimp only
  rw [hr, hsame, ok_bind, ok_bind]
  cases r with
  | none => rfl
  | some total =>
    obtain ⟨hlimit, -⟩ := hread total rfl
    dsimp only
    rw [hsign, signedTotal_eq hA hlimit sign, signedTotal_eq hB hlimit sign]

end Parse

end GeminiCpp.ParseDuration
