import Mathlib.Data.Int.Notation
import Mathlib.Data.List.Basic
import GeminiCpp.Lib.Utf8

/-! Byte strings, the `std::string` of the library. -/
namespace GeminiCpp

abbrev Bytes := List UInt8

/-- An ASCII string literal. -/
def ascii (s : String) : Bytes := s.toList.map fun c => UInt8.ofNat c.toNat

theorem ascii_append (s t : String) : ascii (s ++ t) = ascii s ++ ascii t := by
  unfold ascii
  rw [String.toList_append, List.map_append]

/-- `std::to_string` of a signed integer. -/
def toDecimal (n : ℤ) : Bytes := ascii (toString n)

def lf : UInt8 := 0x0A
def cr : UInt8 := 0x0D
def colon : UInt8 := 0x3A
def space : UInt8 := 0x20

/-- Milliseconds of a `std::chrono` duration. -/
abbrev Millis := ℤ

/-- `find`: the first position from `start` on at which `needle` stands in `s`. -/
def findFrom (s needle : Bytes) (start : ℕ) : Option ℕ :=
  (List.range (s.length + 1)).find? fun i => start ≤ i && needle.isPrefixOf (s.drop i)

/-- `starts_with`. -/
def startsWith (s p : Bytes) : Bool := p.isPrefixOf s

/-- Whether `needle` stands somewhere in `s`. -/
def contains (s needle : Bytes) : Bool := (findFrom s needle 0).isSome

/-- A test that the first byte of `r` fails ends there. -/
theorem takeWhile_append {test : UInt8 → Bool} {m r : Bytes} (hm : ∀ c ∈ m, test c = true)
    (hr : ∀ c, r.head? = some c → test c = false) : (m ++ r).takeWhile test = m := by
  have hnone : r.takeWhile test = [] := by
    cases r with
    | nil => rfl
    | cons c r => exact List.takeWhile_cons_of_neg (by simp [hr c rfl])
  rw [List.takeWhile_append_of_pos hm, hnone, List.append_nil]

theorem dropWhile_append {test : UInt8 → Bool} {m r : Bytes} (hm : ∀ c ∈ m, test c = true)
    (hr : ∀ c, r.head? = some c → test c = false) : (m ++ r).dropWhile test = r := by
  rw [List.dropWhile_append_of_pos hm]
  cases r with
  | nil => rfl
  | cons c r => exact List.dropWhile_cons_of_neg (by simp [hr c rfl])

/-- The parts between separators. -/
theorem of_mem_splitOn {sep : UInt8} {payload value : Bytes} (h : value ∈ payload.splitOn sep) :
    sep ∉ value ∧ ∀ b ∈ value, b ∈ payload := by
  induction payload generalizing value with
  | nil =>
    rw [List.splitOn_nil] at h
    rw [List.mem_singleton.mp h]
    exact ⟨List.not_mem_nil, fun b hb => hb⟩
  | cons a payload ih =>
    rw [List.splitOn_cons_eq_if_modifyHead] at h
    obtain ⟨first, rest, hsplit⟩ := List.exists_cons_of_ne_nil (List.splitOn_ne_nil sep payload)
    rw [hsplit] at h ih
    have hlater : value ∈ first :: rest → sep ∉ value ∧ ∀ b ∈ value, b ∈ a :: payload := by
      intro hmem
      obtain ⟨hsep, hin⟩ := ih hmem
      exact ⟨hsep, fun b hb => List.mem_cons_of_mem _ (hin b hb)⟩
    by_cases ha : a = sep
    · rw [if_pos (beq_iff_eq.mpr ha)] at h
      rcases List.mem_cons.mp h with rfl | h
      · exact ⟨List.not_mem_nil, fun b hb => by cases hb⟩
      · exact hlater h
    · rw [if_neg (by simpa using ha), List.modifyHead_cons] at h
      rcases List.mem_cons.mp h with rfl | h
      · obtain ⟨hsep, hin⟩ := ih (List.mem_cons_self ..)
        constructor
        · intro hmem
          rcases List.mem_cons.mp hmem with heq | hmem
          · exact ha heq.symm
          · exact hsep hmem
        · intro b hb
          rcases List.mem_cons.mp hb with rfl | hb
          · exact List.mem_cons_self ..
          · exact List.mem_cons_of_mem _ (hin b hb)
      · exact hlater (List.mem_cons_of_mem _ h)

/-- A 7-bit separator is never inside an encoded character. -/
theorem valid_splitOn {sep : UInt8} (hsep : sep ≤ 0x7F) {s : Bytes} (h : Utf8.valid s = true) :
    ∀ part ∈ s.splitOn sep, Utf8.valid part = true := by
  have hbyte : Utf8.valid [sep] = true := Utf8.valid_of_ascii (by simpa using hsep)
  have hparts : ∀ parts : List Bytes, Utf8.valid ([sep].intercalate parts) = true →
      ∀ part ∈ parts, Utf8.valid part = true := by
    intro parts
    induction parts with
    | nil => exact fun _ part hmem => by cases hmem
    | cons first parts ih =>
      intro hvalid part hmem
      cases parts with
      | nil =>
        rw [List.intercalate_singleton] at hvalid
        rw [List.mem_singleton.mp hmem]
        exact hvalid
      | cons second parts =>
        rw [List.intercalate_cons_cons, List.append_assoc] at hvalid
        obtain ⟨hfirst, hrest⟩ := (Utf8.valid_append_append (by simp) hbyte).mp hvalid
        rcases List.mem_cons.mp hmem with rfl | hmem
        · exact hfirst
        · exact ih hrest part hmem
  exact hparts _ (by rwa [List.intercalate_splitOn])

theorem valid_ascii_of_forall {s : String} (h : ∀ c ∈ s.toList, c.toNat ≤ 0x7F) :
    Utf8.valid (ascii s) = true := by
  apply Utf8.valid_of_ascii
  intro b hb
  obtain ⟨c, hc, rfl⟩ := List.mem_map.mp hb
  have hle := h c hc
  rw [UInt8.le_iff_toNat_le, UInt8.toNat_ofNat]
  change c.toNat % 256 ≤ 127
  omega

/-- A literal is the string of its characters, so `decide` need not decode it. -/
theorem valid_ascii {cs : List Char} (h : cs.all (fun c => c.toNat ≤ 0x7F) = true) :
    Utf8.valid (ascii (String.ofList cs)) = true := by
  apply valid_ascii_of_forall
  rw [String.toList_ofList]
  intro c hc
  have hle := List.all_eq_true.mp h c hc
  exact of_decide_eq_true hle

/-- A number is printed with digits, and a sign. -/
theorem of_mem_toDecimal {n : ℤ} {b : UInt8} (h : b ∈ toDecimal n) : 0x2D ≤ b ∧ b ≤ 0x39 := by
  have hdigits : ∀ m : ℕ, ∀ c ∈ m.repr.toList, 0x30 ≤ c.toNat ∧ c.toNat ≤ 0x39 := by
    intro m c hc
    rw [Nat.toList_repr] at hc
    have hdigit := Nat.isDigit_of_mem_toDigits (by omega) (by omega) hc
    simp only [Char.isDigit, Bool.and_eq_true, decide_eq_true_eq, UInt32.le_iff_toNat_le] at hdigit
    have hchar : c.toNat = c.val.toNat := rfl
    have hzero : '0'.val.toNat = 48 := rfl
    have hnine : '9'.val.toNat = 57 := rfl
    omega
  have hbounds : ∀ c : Char, 0x2D ≤ c.toNat → c.toNat ≤ 0x39 →
      0x2D ≤ UInt8.ofNat c.toNat ∧ UInt8.ofNat c.toNat ≤ 0x39 := by
    intro c hlo hhi
    rw [UInt8.le_iff_toNat_le, UInt8.le_iff_toNat_le, UInt8.toNat_ofNat]
    change 45 ≤ c.toNat % 256 ∧ c.toNat % 256 ≤ 57
    omega
  obtain ⟨c, hc, rfl⟩ := List.mem_map.mp h
  cases n with
  | ofNat m =>
    have hdigit := hdigits m c hc
    exact hbounds c (by omega) hdigit.2
  | negSucc m =>
    have hrepr : (toString (Int.negSucc m)).toList = '-' :: (m + 1).repr.toList := by
      change ("-" ++ (m + 1).repr).toList = _
      rw [String.toList_append]
      rfl
    rw [hrepr] at hc
    rcases List.mem_cons.mp hc with rfl | hc
    · exact hbounds '-' (by decide) (by decide)
    · have hdigit := hdigits (m + 1) c hc
      exact hbounds c (by omega) hdigit.2

theorem valid_toDecimal (n : ℤ) : Utf8.valid (toDecimal n) = true := by
  apply Utf8.valid_of_ascii
  intro b hb
  exact UInt8.le_trans (of_mem_toDecimal hb).2 (by decide)

end GeminiCpp
