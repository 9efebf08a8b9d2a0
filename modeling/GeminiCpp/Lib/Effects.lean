import GeminiCpp.Lib.Traced

/-! Effects: what the runs of a program may do to the state, in view of their events. An effect
holds of a run in sequence when it holds of its pieces, so it is checked on the basic steps of
a program only, whether the run returns or throws. -/
namespace Traced

/-- A relation between the state before a run, its events and the state after it. -/
structure Effect (ε σ : Type) where
  rel : σ → List ε → σ → Prop
  nil : ∀ s, rel s [] s
  append : ∀ {s s' s'' es es'}, rel s es s' → rel s' es' s'' → rel s (es ++ es') s''

variable {ε χ σ τ α β : Type}

/-- The effect on the second component of a state; the first may change freely. -/
def Effect.beside (E : Effect ε σ) (τ : Type) : Effect ε (τ × σ) where
  rel s es s' := E.rel s.2 es s'.2
  nil s := E.nil s.2
  append h h' := E.append h h'

/-- The effect of events with a property; the state may change freely. -/
def Effect.ofEvents (P : ε → Prop) : Effect ε σ where
  rel _ es _ := ∀ e ∈ es, P e
  nil _ e he := by cases he
  append h h' e he := (List.mem_append.mp he).elim (h e) (h' e)

namespace Prog

/-- Every run of the program stays within the effect. -/
def Within (E : Effect ε σ) (p : Prog ε χ σ α) : Prop := ∀ s, wp p s fun es s' _ => E.rel s es s'

variable {E : Effect ε σ} {p : Prog ε χ σ α}

theorem within_pure (a : α) : Within E (pure a : Prog ε χ σ α) := E.nil

theorem within_ofExcept (r : Except χ α) : Within E (ofExcept r : Prog ε χ σ α) := E.nil

theorem within_get : Within E (get : Prog ε χ σ σ) := E.nil

theorem within_emit {e : ε} (h : ∀ s, E.rel s [e] s) : Within E (emit e : Prog ε χ σ Unit) := h

theorem within_modify {f : σ → σ} (h : ∀ s, E.rel s [] (f s)) :
    Within E (modify f : Prog ε χ σ Unit) := h

theorem within_call {f : σ → Except χ α × σ} (h : ∀ s, E.rel s [] (f s).2) :
    Within E (call f : Prog ε χ σ α) := h

theorem within_ask {f : σ → α × σ} (h : ∀ s, E.rel s [] (f s).2) :
    Within E (ask f : Prog ε χ σ α) := h

theorem within_bind {f : α → Prog ε χ σ β} (hp : Within E p) (hf : ∀ a, Within E (f a)) :
    Within E (p >>= f) := by
  intro s
  rw [wp_bind]
  refine wp_mono (hp s) fun es s' r h => ?_
  cases r with
  | error x => exact h
  | ok a => exact wp_mono (hf a s') fun es' s'' _ h' => E.append h h'

theorem within_map (g : α → β) (hp : Within E p) : Within E (g <$> p) := by
  rw [← bind_pure_comp]
  exact within_bind hp fun a => within_pure (g a)

theorem within_lift (hp : Within E p) : Within (E.beside τ) (lift p : Prog ε χ (τ × σ) α) :=
  fun s => hp s.2

theorem within_withLocals {p : Prog ε χ (τ × σ) α} (v : τ) (hp : Within (E.beside τ) p) :
    Within E (withLocals v p) :=
  fun s => hp (v, s)

theorem within_mapM {f : α → Prog ε χ σ β} (hf : ∀ a, Within E (f a)) (l : List α) :
    Within E (l.mapM f) := by
  induction l with
  | nil =>
    rw [List.mapM_nil]
    exact within_pure []
  | cons a l ih =>
    rw [List.mapM_cons]
    exact within_bind (hf a) fun b => within_bind ih fun bs => within_pure (b :: bs)

/-- A program in which each choice stays within the effect. -/
theorem within_ite {c : Prop} [Decidable c] {q : Prog ε χ σ α} (hp : c → Within E p)
    (hq : ¬ c → Within E q) : Within E (if c then p else q) := by
  split_ifs with h
  · exact hp h
  · exact hq h

/-- Every value that the program returns has the property. -/
def Yields (P : α → Prop) (p : Prog ε χ σ α) : Prop :=
  ∀ s, wp p s fun _ _ r => ∀ a, r = .ok a → P a

variable {P : β → Prop}

theorem yields_pure {b : β} (h : P b) : Yields P (pure b : Prog ε χ σ β) := by
  intro s a ha
  rw [← Except.ok.inj ha]
  exact h

/-- The last program of a sequence gives its value. -/
theorem yields_bind {f : α → Prog ε χ σ β} (hf : ∀ a, Yields P (f a)) : Yields P (p >>= f) := by
  intro s
  rw [wp_bind, wp_iff]
  generalize p s = ran
  obtain ⟨es, s', r⟩ := ran
  cases r with
  | error x => exact fun b h => by cases h
  | ok a => exact hf a s'

theorem yields_map {g : α → β} (h : Yields (fun a => P (g a)) p) : Yields P (g <$> p) := by
  intro s
  rw [wp_map]
  refine wp_mono (h s) fun es s' r hr b hb => ?_
  cases r with
  | error x => cases hb
  | ok a =>
    rw [← Except.ok.inj hb]
    exact hr a rfl

end Prog
end Traced
