import Mathlib.Data.List.Basic

/-! Blocks of a document between an opening and a closing line, as a line automaton finds them. -/
namespace LineBlocks

variable {α φ ψ : Type}

/-- Which lines open a block, and which lines close the block that is open. -/
structure Rule (α φ : Type) where
  opens : α → Option φ
  closes : φ → α → Bool

inductive Kind
  /-- A line outside all blocks. -/
  | text
  | opens
  | code
  | closes
deriving DecidableEq

structure Block (α : Type) where
  opening : α
  lines : List α
  closed : Bool

/-- What has been found before a line: the blocks that are closed, and the opening line and the
lines of the block that is open. -/
structure Scan (α φ : Type) where
  blocks : List (Block α)
  current : Option (φ × α × List α)

namespace Scan

def init : Scan α φ := { blocks := [], current := none }

/-- What opened the block that is open. -/
def fence (s : Scan α φ) : Option φ := s.current.map fun c => c.1

/-- The block that is open at the end is kept. -/
def all (s : Scan α φ) : List (Block α) :=
  match s.current with
  | none => s.blocks
  | some (_, opening, lines) => s.blocks ++ [{ opening, lines, closed := false }]

end Scan

namespace Rule

variable (r : Rule α φ) (q : Rule α ψ)

def next : Option φ → α → Option φ
  | none, line => r.opens line
  | some f, line => if r.closes f line then none else some f

def kind : Option φ → α → Kind
  | none, line => if (r.opens line).isSome then .opens else .text
  | some f, line => if r.closes f line then .closes else .code

def kinds : Option φ → List α → List Kind
  | _, [] => []
  | fence, line :: lines => r.kind fence line :: kinds (r.next fence line) lines

/-- The fence after some lines. -/
def run (fence : Option φ) (lines : List α) : Option φ := lines.foldl r.next fence

def step (s : Scan α φ) (line : α) : Scan α φ :=
  match s.current with
  | none =>
    match r.opens line with
    | none => s
    | some f => { s with current := some (f, line, []) }
  | some (f, opening, lines) =>
    if r.closes f line then
      { blocks := s.blocks ++ [{ opening, lines, closed := true }], current := none }
    else { s with current := some (f, opening, lines ++ [line]) }

def scan (s : Scan α φ) (lines : List α) : Scan α φ := lines.foldl r.step s

def blocks (lines : List α) : List (Block α) := (r.scan .init lines).all

/-- `p` holds of each line and of the fence before it. -/
def Always (p : Option φ → α → Prop) : Option φ → List α → Prop
  | _, [] => True
  | fence, line :: lines => p fence line ∧ Always p (r.next fence line) lines

theorem always_iff {p : Option φ → α → Prop} {fence : Option φ} {lines : List α} :
    r.Always p fence lines ↔
      ∀ before line after, lines = before ++ line :: after → p (r.run fence before) line := by
  induction lines generalizing fence with
  | nil =>
    refine ⟨?_, fun _ => trivial⟩
    intro _ before line after h
    exact absurd h.symm (by simp)
  | cons first lines ih =>
    rw [Always, ih]
    constructor
    · intro h before line after hlines
      obtain ⟨hfirst, hrest⟩ := h
      cases before with
      | nil =>
        obtain ⟨rfl, rfl⟩ := List.cons.inj hlines
        exact hfirst
      | cons b before =>
        have hafter := hrest before line after (List.cons.inj hlines).2
        rw [(List.cons.inj hlines).1] at hafter
        exact hafter
    · intro h
      refine ⟨h [] first lines rfl, ?_⟩
      intro before line after hlines
      exact h (first :: before) line after (by rw [hlines, List.cons_append])

section
variable {r}

theorem step_fence (s : Scan α φ) (line : α) : (r.step s line).fence = r.next s.fence line := by
  unfold step next Scan.fence
  cases hcurrent : s.current with
  | none =>
    cases hopens : r.opens line with
    | none => simp [hcurrent, hopens]
    | some f => simp [hopens]
  | some current =>
    by_cases hcloses : r.closes current.1 line = true
    · simp [hcloses]
    · simp [hcloses]

theorem scan_fence (s : Scan α φ) (lines : List α) :
    (r.scan s lines).fence = r.run s.fence lines := by
  induction lines generalizing s with
  | nil => rfl
  | cons line lines ih =>
    change (r.scan (r.step s line) lines).fence = r.run (r.next s.fence line) lines
    rw [ih, step_fence]

theorem kinds_append_singleton (fence : Option φ) (lines : List α) (line : α) :
    r.kinds fence (lines ++ [line]) =
      r.kinds fence lines ++ [r.kind (r.run fence lines) line] := by
  induction lines generalizing fence with
  | nil => rfl
  | cons first lines ih =>
    rw [List.cons_append, kinds, kinds, ih, List.cons_append]
    rfl

theorem scan_append (s : Scan α φ) (before after : List α) :
    r.scan s (before ++ after) = r.scan (r.scan s before) after := List.foldl_append

/-- A block that is closed stays as it is. -/
theorem blocks_prefix_step (s : Scan α φ) (line : α) : s.blocks <+: (r.step s line).blocks := by
  unfold step
  cases s.current with
  | none => cases r.opens line <;> exact List.prefix_rfl
  | some current =>
    dsimp only
    split_ifs
    · exact List.prefix_append ..
    · exact List.prefix_rfl

theorem blocks_prefix_scan (s : Scan α φ) (lines : List α) :
    s.blocks <+: (r.scan s lines).blocks := by
  induction lines generalizing s with
  | nil => exact List.prefix_rfl
  | cons line lines ih => exact (blocks_prefix_step s line).trans (ih (r.step s line))

theorem blocks_prefix_all (s : Scan α φ) : s.blocks <+: s.all := by
  unfold Scan.all
  cases s.current with
  | none => exact List.prefix_rfl
  | some current => exact List.prefix_append ..

/-- Lines that do not close the block are added to it. -/
theorem scan_code {f : φ} {opening : α} {lines : List α} (blocks : List (Block α))
    {code : List α} (h : ∀ line ∈ code, r.closes f line = false) :
    r.scan { blocks, current := some (f, opening, lines) } code =
      { blocks, current := some (f, opening, lines ++ code) } := by
  induction code generalizing lines with
  | nil => rw [List.append_nil]; rfl
  | cons line code ih =>
    have hline : r.closes f line = false := h line List.mem_cons_self
    have hstep : r.step { blocks, current := some (f, opening, lines) } line =
        { blocks, current := some (f, opening, lines ++ [line]) } := by
      simp [step, hline]
    change r.scan (r.step _ line) code = _
    rw [hstep, ih fun l hl => h l (List.mem_cons_of_mem _ hl), List.append_assoc]
    rfl

/-- A line that opens no block changes nothing outside a block. -/
theorem step_text {blocks : List (Block α)} {line : α} (h : r.opens line = none) :
    r.step { blocks, current := none } line = { blocks, current := none } := by
  simp [step, h]

/-- The block ends with the line that closes it. -/
theorem scan_close {f : φ} {opening closing : α} {code : List α} (blocks : List (Block α))
    (hcode : ∀ line ∈ code, r.closes f line = false) (hcloses : r.closes f closing = true)
    (rest : List α) :
    r.scan { blocks, current := some (f, opening, []) } (code ++ closing :: rest) =
      r.scan { blocks := blocks ++ [{ opening, lines := code, closed := true }], current := none }
        rest := by
  rw [scan_append, scan_code blocks hcode, List.nil_append]
  change r.scan (r.step _ closing) rest = _
  congr 1
  simp [step, hcloses]

/-- A whole block. -/
theorem scan_block {f : φ} {opening closing : α} {code : List α} (blocks : List (Block α))
    (hopens : r.opens opening = some f) (hcode : ∀ line ∈ code, r.closes f line = false)
    (hcloses : r.closes f closing = true) :
    r.scan { blocks, current := none } (opening :: (code ++ [closing])) =
      { blocks := blocks ++ [{ opening, lines := code, closed := true }], current := none } := by
  have hopen : r.step { blocks, current := none } opening =
      { blocks, current := some (f, opening, []) } := by
    simp [step, hopens]
  change r.scan (r.step _ opening) (code ++ [closing]) = _
  rw [hopen, scan_close blocks hcode hcloses]
  rfl

/-- A block ends at the first line that closes it. -/
theorem exists_first_close {f : φ} {code : List α} (h : ∃ line ∈ code, r.closes f line = true) :
    ∃ before line after, code = before ++ line :: after ∧
      (∀ l ∈ before, r.closes f l = false) ∧ r.closes f line = true := by
  have hfound : (code.find? (r.closes f)).isSome = true := List.find?_isSome.mpr h
  obtain ⟨line, hline⟩ := Option.isSome_iff_exists.mp hfound
  obtain ⟨hcloses, before, after, hcode, hbefore⟩ := List.find?_eq_some_iff_append.mp hline
  refine ⟨before, line, after, hcode, ?_, hcloses⟩
  intro l hl
  have hnot := hbefore l hl
  rw [Bool.not_eq_true'] at hnot
  exact hnot

/-- Two scans that have found the same, up to what opened the open block. -/
structure SameSoFar (s : Scan α φ) (t : Scan α ψ) : Prop where
  blocks : s.blocks = t.blocks
  current : s.current.map (fun c => c.2) = t.current.map fun c => c.2

variable {q : Rule α ψ}

theorem SameSoFar.all {s : Scan α φ} {t : Scan α ψ} (h : SameSoFar s t) : s.all = t.all := by
  obtain ⟨blocks, current⟩ := s
  obtain ⟨blocks', current'⟩ := t
  obtain ⟨rfl, hcurrent⟩ := h
  cases current with
  | none =>
    cases current' with
    | none => rfl
    | some d => simp at hcurrent
  | some c =>
    cases current' with
    | none => simp at hcurrent
    | some d =>
      obtain ⟨f, found⟩ := c
      obtain ⟨g, found'⟩ := d
      have hfound : found = found' := Option.some.inj hcurrent
      rw [hfound]
      rfl

/-- One line that both rules read alike. -/
theorem SameSoFar.step {s : Scan α φ} {t : Scan α ψ} (h : SameSoFar s t) {line : α}
    (hkind : r.kind s.fence line = q.kind t.fence line) :
    SameSoFar (r.step s line) (q.step t line) := by
  obtain ⟨blocks, current⟩ := s
  obtain ⟨blocks', current'⟩ := t
  obtain ⟨rfl, hcurrent⟩ := h
  cases current with
  | none =>
    cases current' with
    | some d => simp at hcurrent
    | none =>
      change (if (r.opens line).isSome then Kind.opens else .text) =
        if (q.opens line).isSome then Kind.opens else .text at hkind
      cases hr : r.opens line <;> cases hq : q.opens line <;> simp [hr, hq] at hkind
      · rw [step_text hr, step_text hq]
        exact ⟨rfl, rfl⟩
      · simp only [Rule.step, hr, hq]
        exact ⟨rfl, rfl⟩
  | some c =>
    cases current' with
    | none => simp at hcurrent
    | some d =>
      obtain ⟨f, opening, code⟩ := c
      obtain ⟨g, found⟩ := d
      have hfound : (opening, code) = found := Option.some.inj hcurrent
      subst found
      change (if r.closes f line then Kind.closes else .code) =
        if q.closes g line then Kind.closes else .code at hkind
      cases hr : r.closes f line <;> cases hq : q.closes g line <;> simp [hr, hq] at hkind <;>
        · simp only [Rule.step, hr, hq]
          exact ⟨rfl, rfl⟩

theorem SameSoFar.scan {s : Scan α φ} {t : Scan α ψ} (h : SameSoFar s t) {lines : List α}
    (hkinds : r.kinds s.fence lines = q.kinds t.fence lines) :
    SameSoFar (r.scan s lines) (q.scan t lines) := by
  induction lines generalizing s t with
  | nil => exact h
  | cons line lines ih =>
    obtain ⟨hfirst, hrest⟩ := List.cons.inj hkinds
    rw [← step_fence, ← step_fence] at hrest
    exact ih (h.step hfirst) hrest

/-- Two rules that read all lines alike find the same blocks. -/
theorem blocks_eq_of_kinds {lines : List α} (h : r.kinds none lines = q.kinds none lines) :
    r.blocks lines = q.blocks lines := by
  have hinit : SameSoFar (Scan.init : Scan α φ) (Scan.init : Scan α ψ) := ⟨rfl, rfl⟩
  exact (hinit.scan h).all

/-- Two rules read the lines alike as long as they agree on each of them: `related` holds of what
is open under the two rules, and `agrees` says on which lines they agree then. -/
theorem kinds_eq_iff {related : Option φ → Option ψ → Prop} {agrees : Option ψ → α → Prop}
    (hkind : ∀ f g line, related f g → (r.kind f line = q.kind g line ↔ agrees g line))
    (hnext : ∀ f g line, related f g → agrees g line → related (r.next f line) (q.next g line))
    {f : Option φ} {g : Option ψ} (h : related f g) (lines : List α) :
    r.kinds f lines = q.kinds g lines ↔ q.Always agrees g lines := by
  induction lines generalizing f g with
  | nil => exact ⟨fun _ => trivial, fun _ => rfl⟩
  | cons line lines ih =>
    rw [kinds, kinds, Always, List.cons.injEq, hkind f g line h]
    constructor
    · intro hboth
      obtain ⟨hagrees, hrest⟩ := hboth
      exact ⟨hagrees, (ih (hnext f g line h hagrees)).mp hrest⟩
    · intro hboth
      obtain ⟨hagrees, hrest⟩ := hboth
      exact ⟨hagrees, (ih (hnext f g line h hagrees)).mpr hrest⟩

end

end Rule

end LineBlocks
