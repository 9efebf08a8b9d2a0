import Mathlib.Data.List.TakeWhile
import GeminiCpp.Bytes
import GeminiCpp.Lib.Decimal

/-! The parser of the reference solution of the task `semver-compare`, and the grammar that it
accepts. -/
namespace GeminiCpp.Semver
open Decimal

def dot : UInt8 := 0x2E
def plus : UInt8 := 0x2B
def dash : UInt8 := 0x2D
def zero : UInt8 := 0x30

def isIdentChar (c : UInt8) : Bool :=
  isDigit c || (0x61 ≤ c && c ≤ 0x7A) || (0x41 ≤ c && c ≤ 0x5A) || c = dash

def allDigits (s : Bytes) : Bool := if s = [] then false else s.all isDigit

def validNumber (s : Bytes) : Bool := allDigits s && (s.length = 1 || s.head? ≠ some zero)

def validIdent (s : Bytes) : Bool := if s = [] then false else s.all isIdentChar

/-- The parts between separators, from the part that has been read so far. -/
def splitFrom (sep : UInt8) (part : Bytes) : Bytes → List Bytes
  | [] => [part]
  | c :: s => if c = sep then part :: splitFrom sep [] s else splitFrom sep (part ++ [c]) s

def split (s : Bytes) (sep : UInt8) : List Bytes := splitFrom sep [] s

/-- What is before the first separator, and what is after it, if there is one. -/
def cutAt (s : Bytes) (sep : UInt8) : Bytes × Option Bytes :=
  match s.dropWhile (· ≠ sep) with
  | [] => (s, none)
  | _ :: rest => (s.takeWhile (· ≠ sep), some rest)

/-- The identifiers of a part that may be missing. -/
def identifiers : Option Bytes → List Bytes
  | none => []
  | some s => split s dot

structure Version where
  core : List Bytes
  pre : List Bytes
deriving DecidableEq

def parse (v : Bytes) : Option Version :=
  let (v, build) := cutAt v plus
  let (v, pre) := cutAt v dash
  if (identifiers build).all validIdent then
    if (identifiers pre).all fun id => validIdent id && !(allDigits id && !validNumber id) then
      if (split v dot).length = 3 && (split v dot).all validNumber then
        some { core := split v dot, pre := identifiers pre }
      else none
    else none
  else none

/-! The grammar. -/

/-- A non-empty identifier over letters, digits and `-`. -/
def Ident (s : Bytes) : Prop := s ≠ [] ∧ ∀ c ∈ s, isIdentChar c = true

/-- An identifier of a prerelease; a number has no leading zeros. -/
def PreIdent (s : Bytes) : Prop := Ident s ∧ (Digits s → Numeral s)

/-- `MAJOR.MINOR.PATCH[-prerelease][+build]` -/
structure SemVer where
  major : {s : Bytes // Numeral s}
  minor : {s : Bytes // Numeral s}
  patch : {s : Bytes // Numeral s}
  pre : List {s : Bytes // PreIdent s}
  build : List {s : Bytes // Ident s}

def dotted (parts : List Bytes) : Bytes := [dot].intercalate parts

/-- Identifiers with the byte that introduces them. -/
def suffix (intro : UInt8) (parts : List Bytes) : Bytes :=
  if parts = [] then [] else intro :: dotted parts

namespace SemVer
variable (v : SemVer)

def core : List Bytes := [v.major.val, v.minor.val, v.patch.val]

def text : Bytes :=
  dotted v.core ++ suffix dash (v.pre.map Subtype.val) ++ suffix plus (v.build.map Subtype.val)

def version : Version := { core := v.core, pre := v.pre.map Subtype.val }

end SemVer

/-! Pieces of a text. -/

theorem splitFrom_eq (sep : UInt8) (part s : Bytes) :
    splitFrom sep part s = (s.splitOn sep).modifyHead (part ++ ·) := by
  induction s generalizing part with
  | nil => simp [splitFrom, List.splitOn_nil]
  | cons c s ih =>
    rw [splitFrom, List.splitOn_cons_eq_if_modifyHead]
    by_cases hc : c = sep
    · rw [if_pos hc, if_pos (beq_iff_eq.mpr hc), ih]
      cases s.splitOn sep <;> simp
    · rw [if_neg hc, if_neg (by simpa using hc), ih]
      cases s.splitOn sep <;> simp

theorem split_eq (s : Bytes) (sep : UInt8) : split s sep = s.splitOn sep := by
  rw [split, splitFrom_eq]
  cases s.splitOn sep <;> simp

theorem split_dotted {parts : List Bytes} (h : ∀ part ∈ parts, dot ∉ part) (hne : parts ≠ []) :
    split (dotted parts) dot = parts := by
  rw [split_eq]
  exact List.splitOn_intercalate dot h hne

theorem dotted_split (s : Bytes) : dotted (split s dot) = s := by
  rw [split_eq]
  exact List.intercalate_splitOn dot

theorem mem_dotted {parts : List Bytes} {c : UInt8} (h : c ∈ dotted parts) :
    c = dot ∨ ∃ part ∈ parts, c ∈ part := by
  induction parts with
  | nil => cases h
  | cons part parts ih =>
    cases parts with
    | nil =>
      rw [dotted, List.intercalate_singleton] at h
      exact .inr ⟨part, by simp, h⟩
    | cons second parts =>
      rw [dotted, List.intercalate_cons_cons, List.append_assoc, List.mem_append,
        List.mem_append, List.mem_singleton] at h
      rcases h with h | h | h
      · exact .inr ⟨part, by simp, h⟩
      · exact .inl h
      · rcases ih h with h | ⟨other, hmem, hc⟩
        · exact .inl h
        · exact .inr ⟨other, List.mem_cons_of_mem _ hmem, hc⟩

theorem cutAt_of_notMem {s : Bytes} {sep : UInt8} (h : sep ∉ s) : cutAt s sep = (s, none) := by
  unfold cutAt
  have hall : ∀ c ∈ s, decide (c ≠ sep) = true := by
    intro c hc
    rw [decide_eq_true_eq]
    rintro rfl
    exact h hc
  rw [List.dropWhile_eq_nil_iff.mpr hall]

theorem cutAt_append {s : Bytes} {sep : UInt8} (h : sep ∉ s) (rest : Bytes) :
    cutAt (s ++ sep :: rest) sep = (s, some rest) := by
  have hall : ∀ c ∈ s, decide (c ≠ sep) = true := by
    intro c hc
    rw [decide_eq_true_eq]
    rintro rfl
    exact h hc
  have hend : ∀ c, (sep :: rest).head? = some c → decide (c ≠ sep) = false := by
    intro c hc
    obtain rfl : sep = c := by simpa using hc
    simp
  unfold cutAt
  rw [dropWhile_append hall hend, takeWhile_append hall hend]

/-- A text is what is before the separator, with the identifiers after it. -/
theorem cutAt_suffix (s : Bytes) (sep : UInt8) :
    (cutAt s sep).1 ++ suffix sep (identifiers (cutAt s sep).2) = s := by
  unfold cutAt
  have hsplit := List.takeWhile_append_dropWhile (p := (· ≠ sep)) (l := s)
  cases hdrop : s.dropWhile (· ≠ sep) with
  | nil => exact List.append_nil s
  | cons c rest =>
    have hc : c = sep := by
      have hne : s.dropWhile (· ≠ sep) ≠ [] := by
        rw [hdrop]
        exact List.cons_ne_nil c rest
      have hhead := List.head_dropWhile_not (· ≠ sep) hne
      simp only [hdrop, List.head_cons] at hhead
      simpa using hhead
    have hne : split rest dot ≠ [] := by
      rw [split_eq]
      exact List.splitOn_ne_nil dot rest
    rw [hdrop, hc] at hsplit
    change s.takeWhile (· ≠ sep) ++ suffix sep (split rest dot) = s
    rw [suffix, if_neg hne, dotted_split]
    exact hsplit

/-- Identifiers are found again where the separator is not in the text before them. -/
theorem cutAt_append_suffix {s : Bytes} {sep : UInt8} {parts : List Bytes} (hs : sep ∉ s)
    (hparts : ∀ part ∈ parts, dot ∉ part) :
    (cutAt (s ++ suffix sep parts) sep).1 = s ∧
      identifiers (cutAt (s ++ suffix sep parts) sep).2 = parts := by
  unfold suffix
  by_cases hne : parts = []
  · rw [if_pos hne, List.append_nil, cutAt_of_notMem hs, hne]
    exact ⟨rfl, rfl⟩
  · rw [if_neg hne, cutAt_append hs]
    exact ⟨rfl, split_dotted hparts hne⟩

/-! What the checks of the parser say. -/

theorem allDigits_iff {s : Bytes} : allDigits s = true ↔ s ≠ [] ∧ Digits s := by
  unfold allDigits Digits
  split_ifs with h
  · simp [h]
  · simp [h]

theorem validIdent_iff {s : Bytes} : validIdent s = true ↔ Ident s := by
  unfold validIdent Ident
  split_ifs with h
  · simp [h]
  · simp [h]

theorem validNumber_iff {s : Bytes} : validNumber s = true ↔ Numeral s := by
  rw [numeral_iff, validNumber, Bool.and_eq_true, allDigits_iff, Bool.or_eq_true,
    decide_eq_true_eq, decide_eq_true_eq]
  exact ⟨fun h => ⟨h.1.2, h.1.1, h.2⟩, fun h => ⟨⟨h.2.1, h.1⟩, h.2.2⟩⟩

theorem validPre_iff {s : Bytes} :
    (validIdent s && !(allDigits s && !validNumber s)) = true ↔ PreIdent s := by
  rw [Bool.and_eq_true, validIdent_iff, Bool.not_eq_true', Bool.and_eq_false_iff,
    Bool.not_eq_false', validNumber_iff, ← Bool.not_eq_true, allDigits_iff, PreIdent]
  constructor
  · rintro ⟨hident, hnumber⟩
    refine ⟨hident, fun hdigits => ?_⟩
    rcases hnumber with hnot | hnumeral
    · exact absurd ⟨hident.1, hdigits⟩ hnot
    · exact hnumeral
  · rintro ⟨hident, hnumber⟩
    refine ⟨hident, ?_⟩
    by_cases hdigits : Digits s
    · exact .inr (hnumber hdigits)
    · exact .inl fun h => hdigits h.2

theorem notMem_ident {s : Bytes} (h : ∀ c ∈ s, isIdentChar c = true) : dot ∉ s ∧ plus ∉ s :=
  ⟨fun hmem => absurd (h dot hmem) (by decide), fun hmem => absurd (h plus hmem) (by decide)⟩

theorem notMem_numeral {s : Bytes} (h : Numeral s) : dot ∉ s ∧ plus ∉ s ∧ dash ∉ s := by
  have hdigits := h.digits
  exact ⟨fun hmem => absurd (hdigits dot hmem) (by decide),
    fun hmem => absurd (hdigits plus hmem) (by decide),
    fun hmem => absurd (hdigits dash hmem) (by decide)⟩

namespace SemVer
variable (v : SemVer)

theorem numeral_core : ∀ part ∈ v.core, Numeral part := by
  intro part hpart
  simp only [core, List.mem_cons, List.not_mem_nil, or_false] at hpart
  rcases hpart with rfl | rfl | rfl
  · exact v.major.property
  · exact v.minor.property
  · exact v.patch.property

theorem notMem_core : plus ∉ dotted v.core ∧ dash ∉ dotted v.core := by
  constructor
  · intro hmem
    rcases mem_dotted hmem with h | ⟨part, hpart, hc⟩
    · exact absurd h (by decide)
    · exact (notMem_numeral (v.numeral_core part hpart)).2.1 hc
  · intro hmem
    rcases mem_dotted hmem with h | ⟨part, hpart, hc⟩
    · exact absurd h (by decide)
    · exact (notMem_numeral (v.numeral_core part hpart)).2.2 hc

/-- There is no `+` before the build metadata. -/
theorem notMem_front : plus ∉ dotted v.core ++ suffix dash (v.pre.map Subtype.val) := by
  intro hmem
  rcases List.mem_append.mp hmem with h | h
  · exact v.notMem_core.1 h
  · unfold suffix at h
    split_ifs at h
    · cases h
    · rcases List.mem_cons.mp h with h | h
      · exact absurd h (by decide)
      · rcases mem_dotted h with h | ⟨part, hpart, hc⟩
        · exact absurd h (by decide)
        · obtain ⟨id, -, rfl⟩ := List.mem_map.mp hpart
          exact (notMem_ident id.property.1.2).2 hc

theorem parse_text : parse v.text = some v.version := by
  have hbuild : ∀ part ∈ v.build.map Subtype.val, dot ∉ part := by
    intro part hpart
    obtain ⟨id, -, rfl⟩ := List.mem_map.mp hpart
    exact (notMem_ident id.property.2).1
  have hpre : ∀ part ∈ v.pre.map Subtype.val, dot ∉ part := by
    intro part hpart
    obtain ⟨id, -, rfl⟩ := List.mem_map.mp hpart
    exact (notMem_ident id.property.1.2).1
  have hcore : ∀ part ∈ v.core, dot ∉ part :=
    fun part hpart => (notMem_numeral (v.numeral_core part hpart)).1
  obtain ⟨hfront, hbuildIds⟩ := cutAt_append_suffix v.notMem_front hbuild
  obtain ⟨hback, hpreIds⟩ := cutAt_append_suffix v.notMem_core.2 hpre
  have hvalidBuild : (v.build.map Subtype.val).all validIdent = true := by
    rw [List.all_eq_true, List.forall_mem_map]
    exact fun id _ => validIdent_iff.mpr id.property
  have hvalidPre : (v.pre.map Subtype.val).all
      (fun id => validIdent id && !(allDigits id && !validNumber id)) = true := by
    rw [List.all_eq_true, List.forall_mem_map]
    exact fun id _ => validPre_iff.mpr id.property
  have hvalidCore : v.core.all validNumber = true := by
    rw [List.all_eq_true]
    exact fun part hpart => validNumber_iff.mpr (v.numeral_core part hpart)
  have hsplit : split (dotted v.core) dot = v.core := split_dotted hcore (List.cons_ne_nil _ _)
  unfold parse text
  simp only [hfront, hbuildIds, hback, hpreIds, hvalidBuild, hvalidPre, if_true, hsplit,
    hvalidCore]
  rfl

end SemVer

/-- Values with a property, as values of a subtype. -/
theorem exists_map_val {P : Bytes → Prop} {parts : List Bytes} (h : ∀ part ∈ parts, P part) :
    ∃ ids : List {s : Bytes // P s}, ids.map Subtype.val = parts :=
  ⟨parts.attachWith P h, List.attachWith_map_subtype_val h⟩

theorem exists_semVer_of_parse {v : Bytes} {out : Version} (h : parse v = some out) :
    ∃ g : SemVer, g.text = v ∧ g.version = out := by
  have houter := cutAt_suffix v plus
  have hinner := cutAt_suffix (cutAt v plus).1 dash
  unfold parse at h
  dsimp only at h
  split_ifs at h with hbuild hpre hcore
  obtain rfl := Option.some.inj h
  rw [Bool.and_eq_true, decide_eq_true_eq, List.all_eq_true] at hcore
  rw [List.all_eq_true] at hbuild hpre
  obtain ⟨build, hbuild'⟩ := exists_map_val fun id hid => validIdent_iff.mp (hbuild id hid)
  obtain ⟨pre, hpre'⟩ := exists_map_val fun id hid => validPre_iff.mp (hpre id hid)
  obtain ⟨hlength, hnumbers⟩ := hcore
  have hback := dotted_split (cutAt (cutAt v plus).1 dash).1
  generalize split (cutAt (cutAt v plus).1 dash).1 dot = core at *
  obtain ⟨major, minor, patch, rfl⟩ := List.length_eq_three.mp hlength
  have hnumeral : ∀ part ∈ [major, minor, patch], Numeral part :=
    fun part hpart => validNumber_iff.mp (hnumbers part hpart)
  refine ⟨{ major := ⟨major, hnumeral _ (by simp)⟩, minor := ⟨minor, hnumeral _ (by simp)⟩
            patch := ⟨patch, hnumeral _ (by simp)⟩, pre, build }, ?_, ?_⟩
  · rw [SemVer.text, SemVer.core, hback, hpre', hbuild', hinner, houter]
  · rw [SemVer.version, hpre']
    rfl

/-- The parser accepts the texts of the grammar, with their numbers and identifiers, and no other
string. -/
theorem parse_eq_some_iff (v : Bytes) (out : Version) :
    parse v = some out ↔ ∃ g : SemVer, g.text = v ∧ g.version = out := by
  constructor
  · exact exists_semVer_of_parse
  · rintro ⟨g, rfl, rfl⟩
    exact g.parse_text

end GeminiCpp.Semver
