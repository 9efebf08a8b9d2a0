import Mathlib.Data.List.Infix
import Mathlib.Data.List.TakeWhile
import Mathlib.Data.UInt

/-! The parameters of a URL: its query is split at `&` and `=`, and names and values are decoded
from their percent and plus forms. -/
namespace FormQuery

def hexValue (c : UInt8) : Option UInt8 :=
  if 0x30 ≤ c ∧ c ≤ 0x39 then some (c - 0x30)
  else if 0x41 ≤ c ∧ c ≤ 0x46 then some (c - 0x37)
  else if 0x61 ≤ c ∧ c ≤ 0x66 then some (c - 0x57)
  else none

/-- A plus sign stands for a space and `%` with two digits for a byte; anything else, also a `%`
that no digits follow, stands for itself. -/
def decode : List UInt8 → List UInt8
  | [] => []
  | 0x2B :: rest => 0x20 :: decode rest
  | 0x25 :: a :: b :: rest =>
    match hexValue a, hexValue b with
    | some x, some y => (16 * x + y) :: decode rest
    | _, _ => 0x25 :: decode (a :: b :: rest)
  | c :: rest => c :: decode rest

/-- Strings in which every character stands for itself. -/
structure Plain (s : List UInt8) : Prop where
  no_plus : 0x2B ∉ s
  no_escape : ∀ a b, (hexValue a).isSome → (hexValue b).isSome → ¬ [0x25, a, b] <:+: s

/-- What stands between the first `?` and the first `#`. -/
def query (url : List UInt8) : List UInt8 :=
  ((url.takeWhile (· ≠ 0x23)).dropWhile (· ≠ 0x3F)).drop 1

/-- A part of a query is split at its first `=`. -/
def parameter (part : List UInt8) : List UInt8 × List UInt8 :=
  (decode (part.takeWhile (· ≠ 0x3D)), decode ((part.dropWhile (· ≠ 0x3D)).drop 1))

def parseQuery (q : List UInt8) : List (List UInt8 × List UInt8) :=
  ((q.splitOn 0x26).filter (· ≠ [])).map parameter

def parameters (url : List UInt8) : List (List UInt8 × List UInt8) := parseQuery (query url)

theorem decode_length_le (s : List UInt8) : (decode s).length ≤ s.length := by
  fun_induction decode s with
  | case1 => exact le_refl 0
  | case2 rest ih => exact Nat.succ_le_succ ih
  | case3 a b rest x y ha hb ih =>
    simp only [List.length_cons]
    omega
  | case4 a b rest hnot ih => exact Nat.succ_le_succ ih
  | case5 c rest hplus hpercent ih => exact Nat.succ_le_succ ih

theorem Plain.nil : Plain [] := ⟨by simp, fun a b _ _ h => by simp at h⟩

theorem plain_cons {c : UInt8} {s : List UInt8} :
    Plain (c :: s) ↔ c ≠ 0x2B ∧
      (∀ a b, (hexValue a).isSome → (hexValue b).isSome → ¬ [0x25, a, b] <+: c :: s) ∧ Plain s := by
  constructor
  · intro h
    refine ⟨fun hc => h.no_plus (by simp [hc]), fun a b ha hb hinit => ?_, ?_,
      fun a b ha hb hin => ?_⟩
    · exact h.no_escape a b ha hb hinit.isInfix
    · exact fun hs => h.no_plus (List.mem_cons_of_mem _ hs)
    · exact h.no_escape a b ha hb (List.infix_cons hin)
  · rintro ⟨hc, hinit, hs⟩
    refine ⟨fun hplus => ?_, fun a b ha hb hin => ?_⟩
    · rcases List.mem_cons.mp hplus with rfl | hmem
      · exact hc rfl
      · exact hs.no_plus hmem
    · rcases List.infix_cons_iff.mp hin with hfirst | hrest
      · exact hinit a b ha hb hfirst
      · exact hs.no_escape a b ha hb hrest

/-- Exactly the plain strings decode to themselves. -/
theorem decode_eq_self_iff (s : List UInt8) : decode s = s ↔ Plain s := by
  fun_induction decode s with
  | case1 => exact ⟨fun _ => .nil, fun _ => rfl⟩
  | case2 rest ih =>
    constructor
    · intro h
      exact absurd (List.cons.inj h).1 (by decide)
    · intro h
      exact absurd rfl (plain_cons.mp h).1
  | case3 a b rest x y ha hb ih =>
    constructor
    · intro h
      have hlength := congrArg List.length h
      have hle := decode_length_le rest
      simp only [List.length_cons] at hlength
      omega
    · intro h
      have hfirst : [0x25, a, b] <+: 0x25 :: a :: b :: rest := ⟨rest, rfl⟩
      exact absurd hfirst ((plain_cons.mp h).2.1 a b (by simp [*]) (by simp [*]))
  | case4 a b rest hnot ih =>
    rw [List.cons_inj_right, ih, plain_cons (c := 0x25)]
    refine ⟨fun h => ⟨by decide, fun a' b' ha' hb' hfirst => ?_, h⟩, fun h => h.2.2⟩
    obtain ⟨x, hx⟩ := Option.isSome_iff_exists.mp ha'
    obtain ⟨y, hy⟩ := Option.isSome_iff_exists.mp hb'
    simp only [List.cons_prefix_cons, true_and] at hfirst
    obtain ⟨rfl, rfl, -⟩ := hfirst
    exact hnot x y hx hy
  | case5 c rest hplus hpercent ih =>
    rw [List.cons_inj_right, ih, plain_cons]
    refine ⟨fun h => ⟨hplus, fun a b ha hb hfirst => ?_, h⟩, fun h => h.2.2⟩
    obtain ⟨t, ht⟩ := hfirst
    obtain ⟨hc, hrest⟩ := List.cons.inj ht
    exact hpercent a b t hc.symm hrest.symm

/-- A character that is not part of any escape is kept. -/
theorem mem_decode {c : UInt8} (hhex : hexValue c = none) (hplus : c ≠ 0x2B) (hpercent : c ≠ 0x25)
    {s : List UInt8} (h : c ∈ s) : c ∈ decode s := by
  fun_induction decode s with
  | case1 => exact h
  | case2 rest ih =>
    have hrest := (List.mem_cons.mp h).resolve_left hplus
    exact List.mem_cons_of_mem _ (ih hrest)
  | case3 a b rest x y ha hb ih =>
    have hne : ∀ d, (hexValue d).isSome → c ≠ d := by
      intro d hd hcd
      rw [← hcd, hhex] at hd
      cases hd
    simp only [List.mem_cons, hpercent, hne a (by simp [*]), hne b (by simp [*]), false_or] at h
    exact List.mem_cons_of_mem _ (ih h)
  | case4 a b rest hnot ih =>
    have hrest := (List.mem_cons.mp h).resolve_left hpercent
    exact List.mem_cons_of_mem _ (ih hrest)
  | case5 d rest _ _ ih =>
    rcases List.mem_cons.mp h with rfl | hrest
    · exact List.mem_cons_self
    · exact List.mem_cons_of_mem _ (ih hrest)

theorem Plain.decode_eq {s : List UInt8} (h : Plain s) : decode s = s :=
  (decode_eq_self_iff s).mpr h

theorem takeWhile_ne_of_not_mem {c : UInt8} {s : List UInt8} (h : c ∉ s) :
    s.takeWhile (· ≠ c) = s := by
  apply List.takeWhile_eq_self_iff.mpr
  intro d hd
  exact decide_eq_true fun hdc => h (hdc ▸ hd)

theorem takeWhile_ne_append {c : UInt8} {s : List UInt8} (h : c ∉ s) (t : List UInt8) :
    (s ++ t).takeWhile (· ≠ c) = s ++ t.takeWhile (· ≠ c) := by
  apply List.takeWhile_append_of_pos
  intro d hd
  exact decide_eq_true fun hdc => h (hdc ▸ hd)

theorem takeWhile_ne_append_of_mem {c : UInt8} {s : List UInt8} (h : c ∈ s) (t : List UInt8) :
    (s ++ t).takeWhile (· ≠ c) = s.takeWhile (· ≠ c) := by
  rw [List.takeWhile_append, if_neg]
  intro hlength
  have hself := (List.takeWhile_prefix _).eq_of_length hlength
  have hall := List.takeWhile_eq_self_iff.mp hself c h
  simp at hall

theorem dropWhile_ne_append {c : UInt8} {s : List UInt8} (h : c ∉ s) (t : List UInt8) :
    (s ++ t).dropWhile (· ≠ c) = t.dropWhile (· ≠ c) := by
  apply List.dropWhile_append_of_pos
  intro d hd
  exact decide_eq_true fun hdc => h (hdc ▸ hd)

theorem query_append {base : List UInt8} (hquestion : 0x3F ∉ base) (hhash : 0x23 ∉ base)
    (rest : List UInt8) : query (base ++ 0x3F :: rest) = rest.takeWhile (· ≠ 0x23) := by
  unfold query
  rw [takeWhile_ne_append hhash, dropWhile_ne_append hquestion]
  rfl

/-- A query that has begun goes on up to the next `#`. -/
theorem query_append_of_mem {base : List UInt8} (hquestion : 0x3F ∈ base) (hhash : 0x23 ∉ base)
    (rest : List UInt8) : query (base ++ rest) = query base ++ rest.takeWhile (· ≠ 0x23) := by
  obtain ⟨before, after, rfl, hbefore⟩ := List.eq_append_cons_of_mem hquestion
  have hbefore' : 0x23 ∉ before := fun hmem => hhash (List.mem_append_left _ hmem)
  have hafter : 0x23 ∉ after := fun hmem => hhash (by simp [hmem])
  rw [List.append_assoc, List.cons_append, query_append hbefore hbefore',
    query_append hbefore hbefore', takeWhile_ne_append hafter, takeWhile_ne_of_not_mem hafter]

theorem query_append_of_hash {base : List UInt8} (h : 0x23 ∈ base) (rest : List UInt8) :
    query (base ++ rest) = query base := by
  unfold query
  rw [takeWhile_ne_append_of_mem h]

theorem parseQuery_append_cons (q q' : List UInt8) :
    parseQuery (q ++ 0x26 :: q') = parseQuery q ++ parseQuery q' := by
  unfold parseQuery
  rw [List.splitOn_append_cons_self, List.filter_append, List.map_append]

theorem parseQuery_of_not_mem {part : List UInt8} (h : 0x26 ∉ part) (hne : part ≠ []) :
    parseQuery part = [parameter part] := by
  unfold parseQuery
  rw [List.splitOn_eq_singleton h, List.filter_cons_of_pos (by simpa using hne)]
  rfl

theorem parameter_append {name : List UInt8} (hname : 0x3D ∉ name) (value : List UInt8) :
    parameter (name ++ 0x3D :: value) = (decode name, decode value) := by
  unfold parameter
  rw [takeWhile_ne_append hname, dropWhile_ne_append hname]
  simp

theorem parameter_cases (part : List UInt8) :
    0x3D ∉ part ∧ parameter part = (decode part, []) ∨
      ∃ name value, 0x3D ∉ name ∧ part = name ++ 0x3D :: value ∧
        parameter part = (decode name, decode value) := by
  by_cases h : 0x3D ∈ part
  · obtain ⟨name, value, rfl, hname⟩ := List.eq_append_cons_of_mem h
    exact Or.inr ⟨name, value, hname, rfl, parameter_append hname value⟩
  · left
    refine ⟨h, ?_⟩
    unfold parameter
    have hdrop := dropWhile_ne_append h []
    rw [List.append_nil] at hdrop
    rw [takeWhile_ne_of_not_mem h, hdrop]
    rfl

theorem mem_parameter {c : UInt8} (hhex : hexValue c = none) (hplus : c ≠ 0x2B)
    (hpercent : c ≠ 0x25) (hequals : c ≠ 0x3D) {part : List UInt8} (h : c ∈ part) :
    c ∈ (parameter part).1 ∨ c ∈ (parameter part).2 := by
  rcases parameter_cases part with ⟨-, hparameter⟩ | ⟨name, value, -, rfl, hparameter⟩
  · rw [hparameter]
    exact Or.inl (mem_decode hhex hplus hpercent h)
  · rw [hparameter]
    simp only [List.mem_append, List.mem_cons, hequals, false_or] at h
    exact h.imp (mem_decode hhex hplus hpercent) (mem_decode hhex hplus hpercent)

/-- What stands in a query, other than separators and escapes, shows up in a parameter. -/
theorem mem_parseQuery {c : UInt8} (hhex : hexValue c = none) (hplus : c ≠ 0x2B)
    (hpercent : c ≠ 0x25) (hand : c ≠ 0x26) (hequals : c ≠ 0x3D) {q : List UInt8} (h : c ∈ q) :
    ∃ p ∈ parseQuery q, c ∈ p.1 ∨ c ∈ p.2 := by
  have hpart : ∀ part : List UInt8, 0x26 ∉ part → c ∈ part →
      ∃ p ∈ parseQuery part, c ∈ p.1 ∨ c ∈ p.2 := by
    intro part hnot hc
    rw [parseQuery_of_not_mem hnot (List.ne_nil_of_mem hc)]
    exact ⟨_, List.mem_singleton_self _, mem_parameter hhex hplus hpercent hequals hc⟩
  induction hn : q.length using Nat.strong_induction_on generalizing q with
  | _ n ih =>
    by_cases hsep : 0x26 ∈ q
    · obtain ⟨part, rest, rfl, hnot⟩ := List.eq_append_cons_of_mem hsep
      rw [parseQuery_append_cons]
      simp only [List.mem_append, List.mem_cons, hand, false_or] at h
      rcases h with hfirst | hrest
      · obtain ⟨p, hp, hc⟩ := hpart part hnot hfirst
        exact ⟨p, List.mem_append_left _ hp, hc⟩
      · have hlt : rest.length < n := by
          rw [← hn, List.length_append, List.length_cons]
          omega
        obtain ⟨p, hp, hc⟩ := ih _ hlt hrest rfl
        exact ⟨p, List.mem_append_right _ hp, hc⟩
    · exact hpart q hsep h

/-- A value that follows a name in a query is read back exactly if it is plain and neither ends the
query nor the part. -/
theorem parseQuery_value_iff {name value : List UInt8} (hname : Plain name) (hand : 0x26 ∉ name)
    (hequals : 0x3D ∉ name) :
    parseQuery (name ++ 0x3D :: value.takeWhile (· ≠ 0x23)) = [(name, value)] ↔
      0x23 ∉ value ∧ 0x26 ∉ value ∧ Plain value := by
  have hwhole : ∀ {v : List UInt8}, 0x26 ∉ v →
      parseQuery (name ++ 0x3D :: v) = [(name, decode v)] := by
    intro v hv
    rw [parseQuery_of_not_mem (by simp [hand, hv]) (by simp), parameter_append hequals,
      hname.decode_eq]
  constructor
  · intro h
    have hinit : value.takeWhile (· ≠ 0x23) <+: value := List.takeWhile_prefix _
    have hhash : 0x23 ∉ value.takeWhile (· ≠ 0x23) := fun hmem => by
      simpa using List.mem_takeWhile_imp hmem
    generalize value.takeWhile (· ≠ 0x23) = v at h hinit hhash
    have hle := hinit.length_le
    by_cases hv : 0x26 ∈ v
    · obtain ⟨part, rest, rfl, hpart⟩ := List.eq_append_cons_of_mem hv
      rw [← List.cons_append, ← List.append_assoc, parseQuery_append_cons, hwhole hpart,
        List.singleton_append, List.cons.injEq, Prod.mk.injEq] at h
      have hshort := decode_length_le part
      rw [h.1.2] at hshort
      rw [List.length_append, List.length_cons] at hle
      omega
    · rw [hwhole hv, List.cons.injEq, Prod.mk.injEq] at h
      have hdecode := h.1.2
      have hshort := decode_length_le v
      rw [hdecode] at hshort
      obtain rfl := hinit.eq_of_length (by omega)
      exact ⟨hhash, hv, (decode_eq_self_iff v).mp hdecode⟩
  · rintro ⟨hhash, hvalue, hplain⟩
    rw [takeWhile_ne_of_not_mem hhash, hwhole hvalue, hplain.decode_eq]

end FormQuery
