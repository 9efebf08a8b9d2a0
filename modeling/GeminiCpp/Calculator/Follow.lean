import GeminiCpp.Calculator.Tokens

/-! States named by what is left of the text, what is accepted there, and which texts may follow a
tree. -/
namespace GeminiCpp.ExpressionParser
open Traced Traced.Prog

variable {ν α : Type} {A : Arith ν} {text : Bytes}

/-- The state at a depth when `r` is left of the text. -/
def stateBefore (text r : Bytes) (d : ℕ) : ExpressionParser :=
  { pos := text.length - r.length, depth := d }

section
variable {r : Bytes} {d : ℕ}

theorem rest_stateBefore (hr : r <:+ text) : (stateBefore text r d).rest text = r :=
  (List.suffix_iff_eq_drop.mp hr).symm

theorem stateBefore_pos_le : (stateBefore text r d).pos ≤ text.length := Nat.sub_le ..

theorem advance_stateBefore {m : Bytes} (hr : m ++ r <:+ text) :
    (stateBefore text (m ++ r) d).advance m.length = stateBefore text r d := by
  have hle := hr.length_le
  have hpos : text.length - (m ++ r).length + m.length = text.length - r.length := by
    rw [List.length_append] at hle ⊢
    omega
  unfold stateBefore advance
  rw [hpos]

theorem dropWhile_suffix (hr : r <:+ text) : r.dropWhile isBlank <:+ text :=
  (List.dropWhile_suffix _).trans hr

theorem skipBlanks_stateBefore (hr : r <:+ text) :
    (stateBefore text r d).skipBlanks text = stateBefore text (r.dropWhile isBlank) d := by
  have hsplit : r.takeWhile isBlank ++ r.dropWhile isBlank = r := List.takeWhile_append_dropWhile
  unfold skipBlanks
  rw [rest_stateBefore hr]
  have hadvance := @advance_stateBefore text (r.dropWhile isBlank) d (r.takeWhile isBlank)
  rw [hsplit] at hadvance
  exact hadvance hr

end

section
variable {h d : ℕ} {r r' : Bytes} {c : UInt8}

theorem returns_accept_yes {Q : ExpressionParser → Bool → Prop} (hr : r <:+ text)
    (hc : r.dropWhile isBlank = c :: r') (hQ : Q (stateBefore text r' d) true) :
    Returns (Safe text.length h) (accept text c) (stateBefore text r d) Q := by
  apply returns_accept
  · intro r'' _
    have hsuffix := dropWhile_suffix hr
    rw [skipBlanks_stateBefore hr, hc]
    rw [hc] at hsuffix
    have hadvance := @advance_stateBefore text r' d [c] hsuffix
    rw [List.singleton_append] at hadvance
    change Q ((stateBefore text (c :: r') d).advance [c].length) true
    rw [hadvance]
    exact hQ
  · intro hne
    rw [rest_stateBefore hr, hc] at hne
    exact absurd rfl hne

theorem returns_accept_no {Q : ExpressionParser → Bool → Prop} (hr : r <:+ text)
    (hc : (r.dropWhile isBlank).head? ≠ some c)
    (hQ : Q (stateBefore text (r.dropWhile isBlank) d) false) :
    Returns (Safe text.length h) (accept text c) (stateBefore text r d) Q := by
  apply returns_accept
  · intro r'' hr''
    rw [rest_stateBefore hr] at hr''
    rw [hr''] at hc
    exact absurd rfl hc
  · intro _
    rw [skipBlanks_stateBefore hr]
    exact hQ

theorem returns_acceptAny_some {op : UInt8 × α} {ops : List (UInt8 × α)} {a : α}
    {Q : ExpressionParser → Option α → Prop} (hr : r <:+ text)
    (hc : r.dropWhile isBlank = c :: r') (ha : (op :: ops).lookup c = some a)
    (hQ : Q (stateBefore text r' d) (some a)) :
    Returns (Safe text.length h) (acceptAny text (op :: ops)) (stateBefore text r d) Q := by
  apply returns_acceptAny
  · intro c' r'' a' hr'' ha'
    rw [rest_stateBefore hr, hc] at hr''
    obtain ⟨rfl, rfl⟩ := List.cons.inj hr''
    obtain rfl := Option.some.inj (ha.symm.trans ha')
    have hsuffix := dropWhile_suffix hr
    rw [hc] at hsuffix
    rw [skipBlanks_stateBefore hr, hc]
    change Q ((stateBefore text ([c] ++ r') d).advance [c].length) (some a)
    rw [advance_stateBefore hsuffix]
    exact hQ
  · intro hnone
    rw [rest_stateBefore hr] at hnone
    rw [hnone c r' hc] at ha
    cases ha

theorem returns_acceptAny_none {op : UInt8 × α} {ops : List (UInt8 × α)}
    {Q : ExpressionParser → Option α → Prop} (hr : r <:+ text)
    (hnone : ∀ c, (r.dropWhile isBlank).head? = some c → (op :: ops).lookup c = none)
    (hQ : Q (stateBefore text (r.dropWhile isBlank) d) none) :
    Returns (Safe text.length h) (acceptAny text (op :: ops)) (stateBefore text r d) Q := by
  apply returns_acceptAny
  · intro c' r'' a' hr'' ha'
    rw [rest_stateBefore hr] at hr''
    rw [hnone c' (by rw [hr'']; rfl)] at ha'
    cases ha'
  · intro _
    rw [skipBlanks_stateBefore hr]
    exact hQ

end

/-- The next token is none of some operators, and no word goes on. -/
structure Follow (ops r : Bytes) : Prop where
  word : ∀ c, r.head? = some c → isWord c = false
  token : ∀ c, (r.dropWhile isBlank).head? = some c → c ∉ ops

/-- The operators that go on with a term, or with an expression. -/
def powOps : Bytes := ascii "^"

def termOps : Bytes := ascii "^*/%"

def exprOps : Bytes := ascii "^*/%+-"

theorem powOps_prefix : powOps <+: termOps := ⟨ascii "*/%", rfl⟩

theorem termOps_prefix : termOps <+: exprOps := ⟨ascii "+-", rfl⟩

theorem dropWhile_blanks (b : Blanks) {m : Bytes}
    (hm : ∀ c, m.head? = some c → isBlank c = false) : (b.1 ++ m).dropWhile isBlank = m :=
  dropWhile_append b.2 hm

theorem Follow.mono {ops ops' r : Bytes} (h : Follow ops r) (hops : ops' <+: ops) :
    Follow ops' r :=
  ⟨h.word, fun c hc hmem => h.token c hc (hops.subset hmem)⟩

theorem isWord_of_isBlank {c : UInt8} (hc : isBlank c = true) : isWord c = false := by
  simp only [isBlank, Bool.or_eq_true, decide_eq_true_eq] at hc
  rcases hc with rfl | rfl
  · rfl
  · rfl

/-- A token that is no word may follow, after blanks. -/
theorem follow_cons (b : Blanks) {ops r : Bytes} {c : UInt8} (hword : isWord c = false)
    (hblank : isBlank c = false) (hc : c ∉ ops) : Follow ops (b.1 ++ c :: r) := by
  constructor
  · intro c' hc'
    rcases b with ⟨_ | ⟨c'', b⟩, hb⟩
    · obtain rfl := Option.some.inj hc'
      exact hword
    · obtain rfl := Option.some.inj hc'
      exact isWord_of_isBlank (hb _ List.mem_cons_self)
  · intro c' hc'
    rw [dropWhile_blanks b (fun c'' h => by rw [← Option.some.inj h]; exact hblank)] at hc'
    obtain rfl := Option.some.inj hc'
    exact hc

end GeminiCpp.ExpressionParser
