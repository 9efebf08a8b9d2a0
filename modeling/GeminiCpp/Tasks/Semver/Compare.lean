import GeminiCpp.Lib.ThreeWay
import GeminiCpp.Tasks.Semver.Parse

/-! The reference solution of the task `semver-compare`, and the precedence of versions as a
lexicographic order. -/
namespace GeminiCpp.Semver
open Decimal ThreeWay

/-- The sign of `a.compare(b)`. -/
def compareBytes (a b : Bytes) : ℤ := (if b < a then 1 else 0) - (if a < b then 1 else 0)

/-- Both are digit strings without leading zeros: longer means larger. -/
def compareNumbers (a b : Bytes) : ℤ :=
  if a.length ≠ b.length then if a.length < b.length then -1 else 1 else compareBytes a b

def compareIdents (x y : Bytes) : ℤ :=
  if allDigits x && allDigits y then compareNumbers x y
  else if allDigits x then -1
  else if allDigits y then 1
  else compareBytes x y

def compareVersions (va vb : Version) : ℤ :=
  match first (List.zipWith compareNumbers va.core vb.core) with
  | some c => c
  | none =>
    if va.pre = [] ∨ vb.pre = [] then
      if va.pre = [] ∧ vb.pre = [] then 0 else if va.pre = [] then 1 else -1
    else
      match first (List.zipWith compareIdents va.pre vb.pre) with
      | some c => c
      | none =>
        if va.pre.length = vb.pre.length then 0
        else if va.pre.length < vb.pre.length then -1 else 1

def compareSemver (a b : Bytes) : Option ℤ :=
  match parse a, parse b with
  | some va, some vb => some (compareVersions va vb)
  | _, _ => none

/-! The precedence. -/

/-- Numbers are below the other identifiers, which are in ASCII order. -/
abbrev IdentKey := ℕ ⊕ₗ List ℕ

def identKey (s : Bytes) : IdentKey :=
  if allDigits s then toLex (.inl (value s)) else toLex (.inr (s.map UInt8.toNat))

/-- A release is above all its prereleases. -/
def preKey (pre : List Bytes) : WithTop (List IdentKey) :=
  if pre = [] then ⊤ else ((pre.map identKey : List IdentKey) : WithTop (List IdentKey))

/-- Lists are in lexicographic order, a prefix below the longer list. -/
def SemVer.key (v : SemVer) : List ℕ ×ₗ WithTop (List IdentKey) :=
  toLex (v.core.map value, preKey (v.pre.map Subtype.val))

/-- The sign of the comparison of two versions. -/
def precedence (a b : SemVer) : ℤ := threeWay a.key b.key

/-! The comparisons of the code agree with the orders of the keys. -/

theorem map_toNat_lt_iff (a b : Bytes) : a.map UInt8.toNat < b.map UInt8.toNat ↔ a < b := by
  induction a generalizing b with
  | nil => cases b <;> simp
  | cons c a ih =>
    cases b with
    | nil => simp
    | cons d b =>
      rw [List.map_cons, List.map_cons, List.cons_lt_cons_iff, List.cons_lt_cons_iff, ih,
        UInt8.lt_iff_toNat_lt, UInt8.toNat_inj]

theorem compareBytes_eq (a b : Bytes) :
    compareBytes a b = threeWay (a.map UInt8.toNat) (b.map UInt8.toNat) := by
  unfold compareBytes
  rcases lt_trichotomy (a.map UInt8.toNat) (b.map UInt8.toNat) with h | h | h
  · have hlt : a < b := (map_toNat_lt_iff a b).mp h
    have hnot : ¬b < a := fun hgt => lt_asymm h ((map_toNat_lt_iff b a).mpr hgt)
    rw [threeWay_of_lt h, if_neg hnot, if_pos hlt]
    rfl
  · have hlt : ¬a < b := fun hlt => ne_of_lt ((map_toNat_lt_iff a b).mpr hlt) h
    have hgt : ¬b < a := fun hgt => ne_of_lt ((map_toNat_lt_iff b a).mpr hgt) h.symm
    rw [h, threeWay_self, if_neg hgt, if_neg hlt]
    rfl
  · have hgt : b < a := (map_toNat_lt_iff b a).mp h
    have hnot : ¬a < b := fun hlt => lt_asymm h ((map_toNat_lt_iff a b).mpr hlt)
    rw [threeWay_of_gt h, if_pos hgt, if_neg hnot]
    rfl

theorem compareNumbers_eq {a b : Bytes} (ha : Numeral a) (hb : Numeral b) :
    compareNumbers a b = threeWay (value a) (value b) := by
  unfold compareNumbers
  rcases Nat.lt_trichotomy a.length b.length with h | h | h
  · rw [if_pos (by omega), if_pos h, threeWay_of_lt (value_lt_of_length ha.digits ha.ne_nil hb h)]
  · rw [if_neg (by omega), compareBytes_eq]
    unfold threeWay
    simp only [map_toNat_lt_iff, value_lt_iff ha.digits hb.digits h,
      value_lt_iff hb.digits ha.digits h.symm]
  · rw [if_pos (by omega), if_neg (by omega),
      threeWay_of_gt (value_lt_of_length hb.digits hb.ne_nil ha h)]

theorem compareIdents_eq {x y : Bytes} (hx : PreIdent x) (hy : PreIdent y) :
    compareIdents x y = threeWay (identKey x) (identKey y) := by
  unfold compareIdents identKey
  by_cases hxn : allDigits x = true
  · have hnx : Numeral x := hx.2 (allDigits_iff.mp hxn).2
    by_cases hyn : allDigits y = true
    · have hny : Numeral y := hy.2 (allDigits_iff.mp hyn).2
      rw [hxn, hyn, if_pos rfl, if_pos rfl, if_pos rfl, compareNumbers_eq hnx hny]
      exact (threeWay_map Sum.Lex.inl_strictMono (value x) (value y)).symm
    · rw [hxn, if_neg (by simpa using hyn), if_pos rfl, if_pos rfl, if_neg hyn]
      exact (threeWay_of_lt (Sum.Lex.inl_lt_inr _ _)).symm
  · by_cases hyn : allDigits y = true
    · rw [if_neg (by simp [hxn]), if_neg hxn, if_pos hyn, if_neg hxn, if_pos hyn]
      exact (threeWay_of_gt (Sum.Lex.inl_lt_inr _ _)).symm
    · rw [if_neg (by simp [hxn]), if_neg hxn, if_neg hyn, if_neg hxn, if_neg hyn, compareBytes_eq]
      exact (threeWay_map Sum.Lex.inr_strictMono (x.map UInt8.toNat) (y.map UInt8.toNat)).symm

theorem threeWay_preKey {xs ys : List Bytes} (hxs : ∀ x ∈ xs, PreIdent x)
    (hys : ∀ y ∈ ys, PreIdent y) (hx : xs ≠ []) (hy : ys ≠ []) :
    threeWay (preKey xs) (preKey ys) =
      (first (List.zipWith compareIdents xs ys)).getD (threeWay xs.length ys.length) := by
  have hlists : threeWay (xs.map identKey) (ys.map identKey) =
      (first (List.zipWith compareIdents xs ys)).getD (threeWay xs.length ys.length) :=
    threeWay_lists_map fun x hmem y hmem' => compareIdents_eq (hxs x hmem) (hys y hmem')
  unfold preKey
  rw [if_neg hx, if_neg hy, threeWay_map WithTop.coe_strictMono, hlists]

/-- A prerelease is below the release. -/
theorem threeWay_preKey_nil {xs : List Bytes} (hx : xs ≠ []) :
    threeWay (preKey xs) (preKey []) = -1 := by
  unfold preKey
  rw [if_neg hx, if_pos rfl]
  exact threeWay_of_lt (WithTop.coe_lt_top _)

theorem compareVersions_eq (a b : SemVer) :
    compareVersions a.version b.version = precedence a b := by
  have hcore : threeWay (a.core.map value) (b.core.map value) =
      (first (List.zipWith compareNumbers a.core b.core)).getD 0 :=
    threeWay_lists_map fun x hx y hy =>
      compareNumbers_eq (a.numeral_core x hx) (b.numeral_core y hy)
  have hpreA : ∀ x ∈ a.pre.map Subtype.val, PreIdent x :=
    List.forall_mem_map.mpr fun id _ => id.property
  have hpreB : ∀ y ∈ b.pre.map Subtype.val, PreIdent y :=
    List.forall_mem_map.mpr fun id _ => id.property
  unfold precedence SemVer.key compareVersions SemVer.version
  rw [threeWay_prod, hcore]
  dsimp only
  cases hfirst : first (List.zipWith compareNumbers a.core b.core) with
  | some c =>
    rw [Option.getD_some, if_pos (first_ne_zero hfirst)]
  | none =>
    have hequal : ¬((0 : ℤ) ≠ 0) := fun hne => hne rfl
    rw [Option.getD_none, if_neg hequal]
    dsimp only
    generalize a.pre.map Subtype.val = xs at hpreA ⊢
    generalize b.pre.map Subtype.val = ys at hpreB ⊢
    by_cases hx : xs = []
    · by_cases hy : ys = []
      · rw [if_pos (.inl hx), if_pos ⟨hx, hy⟩, hx, hy, threeWay_self]
      · rw [if_pos (.inl hx), if_neg (fun h => hy h.2), if_pos hx, hx, threeWay_swap,
          threeWay_preKey_nil hy]
        rfl
    · by_cases hy : ys = []
      · rw [if_pos (.inr hy), if_neg (fun h => hx h.1), if_neg hx, hy, threeWay_preKey_nil hx]
      · rw [if_neg (by simp [hx, hy]), threeWay_preKey hpreA hpreB hx hy]
        cases first (List.zipWith compareIdents xs ys) with
        | some c => rfl
        | none =>
          rw [Option.getD_none]
          rcases Nat.lt_trichotomy xs.length ys.length with h | h | h
          · rw [threeWay_of_lt h]
            dsimp only
            rw [if_neg (by omega), if_pos h]
          · rw [h, threeWay_self]
            exact if_pos rfl
          · rw [threeWay_of_gt h]
            dsimp only
            rw [if_neg (by omega), if_neg (by omega)]

theorem compareSemver_text (a b : SemVer) :
    compareSemver a.text b.text = some (precedence a b) := by
  unfold compareSemver
  rw [a.parse_text, b.parse_text, ← compareVersions_eq]

/-- The comparison is a total preorder on valid versions, the precedence of their keys; build
metadata does not matter, and numbers compare by their values. -/
theorem compareSemver_totalPreorder (a b c : SemVer) :
    compareSemver a.text b.text = some (precedence a b) ∧
    compareSemver b.text a.text = some (-precedence a b) ∧
    (∀ r s t, compareSemver a.text b.text = some r → compareSemver b.text c.text = some s →
      compareSemver a.text c.text = some t → r ≤ 0 → s ≤ 0 → t ≤ 0) ∧
    (compareSemver a.text b.text = some 0 →
      compareSemver a.text c.text = compareSemver b.text c.text ∧
        compareSemver c.text a.text = compareSemver c.text b.text) ∧
    (a.version = b.version → compareSemver a.text b.text = some 0) ∧
    (∀ x y, Numeral x → Numeral y → compareNumbers x y = threeWay (value x) (value y)) := by
  simp only [compareSemver_text, Option.some.injEq, true_and]
  refine ⟨threeWay_swap a.key b.key, ?_, ?_, ?_, fun x y => compareNumbers_eq⟩
  · rintro r s t rfl rfl rfl hab hbc
    exact threeWay_nonpos_iff.mpr
      (le_trans (threeWay_nonpos_iff.mp hab) (threeWay_nonpos_iff.mp hbc))
  · intro hzero
    have hkey : a.key = b.key := threeWay_eq_zero_iff.mp hzero
    unfold precedence
    rw [hkey]
    exact ⟨rfl, rfl⟩
  · intro hversion
    have hcore : a.core = b.core := congrArg Version.core hversion
    have hpre : a.pre.map Subtype.val = b.pre.map Subtype.val := congrArg Version.pre hversion
    have hkey : a.key = b.key := by
      unfold SemVer.key
      rw [hcore, hpre]
    unfold precedence
    rw [hkey, threeWay_self]

end GeminiCpp.Semver
