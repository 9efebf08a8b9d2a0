import GeminiCpp.Lib.Effects
import GeminiCpp.Lib.Returns

/-! Exceptions that are announced: a run throws exactly if one of its events is of a bad kind, and
that event is its last. A run without one returns, and what it returns is specified as for a program
that always does. -/
namespace Traced.Prog
variable {ε χ σ τ α β : Type}

/-- How a run ends, in view of its events. -/
def Blamed (bad : ε → Prop) (Q : σ → α → Prop) (es : List ε) (s : σ) : Except χ α → Prop
  | .ok a => (∀ e ∈ es, ¬ bad e) ∧ Q s a
  | .error _ => ∃ es' e, es = es' ++ [e] ∧ bad e ∧ ∀ e' ∈ es', ¬ bad e'

/-- The run of `p` from `s` returns as `Q` says, or throws after its only bad event. -/
def Blames (bad : ε → Prop) (p : Prog ε χ σ α) (s : σ) (Q : σ → α → Prop) : Prop :=
  wp p s (Blamed bad Q)

variable {bad : ε → Prop} {p : Prog ε χ σ α} {s : σ} {Q Q' : σ → α → Prop}

/-- A run throws if and only if it has a bad event, which is then its last. -/
theorem Blames.throws_iff (h : Blames bad p s Q) :
    wp p s fun es _ r => ((∃ x, r = .error x) ↔ ∃ e ∈ es, bad e) ∧
      ∀ e es' es'', es = es' ++ e :: es'' → bad e → es'' = [] := by
  refine wp_mono h fun es s' r hr => ?_
  cases r with
  | error x =>
    obtain ⟨before, last, rfl, hlast, hbefore⟩ := hr
    refine ⟨iff_of_true ⟨x, rfl⟩ ⟨last, List.mem_append_right _ (List.mem_singleton_self _), hlast⟩, ?_⟩
    intro e es' es'' hsplit hbad
    rcases List.eq_nil_or_concat es'' with rfl | ⟨init, final, rfl⟩
    · rfl
    · rw [List.concat_eq_append, ← List.cons_append, ← List.append_assoc] at hsplit
      obtain ⟨rfl, -⟩ := List.append_inj' hsplit rfl
      exact absurd hbad (hbefore e (by simp))
  | ok a =>
    refine ⟨iff_of_false (by simp) fun hbad => ?_, fun e es' es'' hsplit hbad => ?_⟩
    · obtain ⟨e, he, hbad⟩ := hbad
      exact hr.1 e he hbad
    · exact absurd hbad (hr.1 e (by rw [hsplit]; simp))

theorem Blames.mono (h : Blames bad p s Q) (hQ : ∀ s' a, Q s' a → Q' s' a) : Blames bad p s Q' := by
  refine wp_mono h fun es s' r hr => ?_
  cases r with
  | error x => exact hr
  | ok a => exact ⟨hr.1, hQ s' a hr.2⟩

theorem composes_forall (P : ε → Prop) : Composes fun es : List ε => ∀ e ∈ es, P e :=
  ⟨fun e he => (by cases he), fun h h' e he => (List.mem_append.mp he).elim (h e) (h' e)⟩

theorem blames_of_returns (h : Returns (fun es => ∀ e ∈ es, ¬ bad e) p s Q) : Blames bad p s Q := by
  refine wp_mono h fun es s' r hr => ?_
  obtain ⟨hes, a, rfl, hQ⟩ := hr
  exact ⟨hes, hQ⟩

/-- A run that returns, of a program that has no bad events. -/
theorem blames_of_within (h : Returns (fun _ => True) p s Q)
    (hp : Within (Effect.ofEvents fun e => ¬ bad e) p) : Blames bad p s Q := by
  obtain ⟨-, a, ha, hQ⟩ := h
  exact blames_of_returns ⟨hp s, a, ha, hQ⟩

theorem blames_pure {a : α} (h : Q s a) : Blames bad (pure a : Prog ε χ σ α) s Q :=
  blames_of_returns (returns_pure (composes_forall _) h)

theorem blames_bind {f : α → Prog ε χ σ β} {R : σ → β → Prop}
    (h : Blames bad p s fun s' a => Blames bad (f a) s' R) : Blames bad (p >>= f) s R := by
  unfold Blames
  rw [wp_bind]
  refine wp_mono h fun es s' r hr => ?_
  cases r with
  | error x => exact hr
  | ok a =>
    obtain ⟨hes, hf⟩ := hr
    rw [then_ok]
    refine wp_mono hf fun es' s'' r' hr' => ?_
    cases r' with
    | error x =>
      obtain ⟨before, last, rfl, hlast, hbefore⟩ := hr'
      refine ⟨es ++ before, last, (List.append_assoc ..).symm, hlast, fun e he => ?_⟩
      exact (List.mem_append.mp he).elim (hes e) (hbefore e)
    | ok b =>
      refine ⟨fun e he => ?_, hr'.2⟩
      exact (List.mem_append.mp he).elim (hes e) (hr'.1 e)

theorem blames_map {g : α → β} {R : σ → β → Prop} (h : Blames bad p s fun s' a => R s' (g a)) :
    Blames bad (g <$> p) s R := by
  rw [← bind_pure_comp]
  exact blames_bind (h.mono fun s' a hR => blames_pure hR)

theorem blames_get {Q : σ → σ → Prop} (h : Q s s) : Blames bad (get : Prog ε χ σ σ) s Q :=
  blames_of_returns (returns_get (composes_forall _) h)

theorem blames_modify {f : σ → σ} {Q : σ → Unit → Prop} (h : Q (f s) ()) :
    Blames bad (modify f : Prog ε χ σ Unit) s Q :=
  blames_of_returns (returns_modify (composes_forall _) h)

theorem blames_ask {f : σ → α × σ} (h : Q (f s).2 (f s).1) :
    Blames bad (ask f : Prog ε χ σ α) s Q :=
  blames_of_returns (returns_ask (composes_forall _) h)

theorem blames_call {f : σ → Except χ α × σ} {a : α} (hr : (f s).1 = .ok a) (h : Q (f s).2 a) :
    Blames bad (call f : Prog ε χ σ α) s Q :=
  blames_of_returns (returns_call (composes_forall _) hr h)

theorem blames_ofExcept {r : Except χ α} {a : α} (hr : r = .ok a) (h : Q s a) :
    Blames bad (ofExcept r : Prog ε χ σ α) s Q :=
  blames_of_returns (returns_ofExcept (composes_forall _) hr h)

theorem blames_emit {e : ε} (he : ¬ bad e) {Q : σ → Unit → Prop} (h : Q s ()) :
    Blames bad (emit e : Prog ε χ σ Unit) s Q :=
  ⟨List.forall_mem_singleton.mpr he, h⟩

/-- After a bad event the rest of the program has to throw at once. -/
theorem blames_emit_bind {e : ε} {f : Unit → Prog ε χ σ β} {R : σ → β → Prop}
    (hbad : bad e → wp (f ()) s fun es _ r => es = [] ∧ ∃ x, r = .error x)
    (h : ¬ bad e → Blames bad (f ()) s R) : Blames bad (emit e >>= f) s R := by
  by_cases he : bad e
  · unfold Blames
    rw [wp_bind, wp_emit, then_ok]
    refine wp_mono (hbad he) fun es s' r hr => ?_
    obtain ⟨rfl, x, rfl⟩ := hr
    exact ⟨[], e, rfl, he, List.forall_mem_nil _⟩
  · exact blames_bind (blames_emit he (h he))

theorem blames_lift {v : τ} {R : τ × σ → α → Prop} (h : Blames bad p s fun s' a => R (v, s') a) :
    Blames bad (lift p : Prog ε χ (τ × σ) α) (v, s) R := by
  unfold Blames
  rw [wp_lift]
  refine wp_mono h fun es s' r hr => ?_
  cases r <;> exact hr

theorem blames_withLocals {v : τ} {p : Prog ε χ (τ × σ) α}
    (h : Blames bad p (v, s) fun s' a => Q s'.2 a) : Blames bad (withLocals v p) s Q := by
  unfold Blames
  rw [wp_withLocals]
  refine wp_mono h fun es s' r hr => ?_
  cases r <;> exact hr

/-- A loop whose body keeps an invariant of the state, and gives values with a property. -/
theorem blames_mapM {f : α → Prog ε χ σ β} {I : σ → Prop} {R : β → Prop} {l : List α}
    (hf : ∀ a ∈ l, ∀ s, I s → Blames bad (f a) s fun s' b => I s' ∧ R b) (hs : I s) :
    Blames bad (l.mapM f) s fun s' bs => I s' ∧ ∀ b ∈ bs, R b := by
  induction l generalizing s with
  | nil =>
    rw [List.mapM_nil]
    exact blames_pure ⟨hs, fun b hb => by cases hb⟩
  | cons a l ih =>
    rw [List.mapM_cons]
    refine blames_bind ((hf a (List.mem_cons_self ..) s hs).mono fun s' b hb => ?_)
    have hrest := ih (fun a ha => hf a (List.mem_cons_of_mem _ ha)) hb.1
    refine blames_bind (hrest.mono fun s'' bs hbs => blames_pure ⟨hbs.1, ?_⟩)
    exact List.forall_mem_cons.mpr ⟨hb.2, hbs.2⟩

end Traced.Prog
