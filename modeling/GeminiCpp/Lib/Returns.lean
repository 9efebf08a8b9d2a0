import GeminiCpp.Lib.Traced

/-! Total specifications: a run returns without an exception, and its events have a property that
programs in sequence keep. -/
namespace Traced.Prog
variable {ε χ σ τ α β : Type}

/-- A property that no events have, and that two traces one after the other have with each. -/
structure Composes (P : List ε → Prop) : Prop where
  nil : P []
  append : ∀ {es es'}, P es → P es' → P (es ++ es')

/-- The run of `p` from `s` returns a value, with events of which `P` holds. -/
def Returns (P : List ε → Prop) (p : Prog ε χ σ α) (s : σ) (Q : σ → α → Prop) : Prop :=
  wp p s fun es s' r => P es ∧ ∃ a, r = .ok a ∧ Q s' a

variable {P : List ε → Prop} {p : Prog ε χ σ α} {s : σ} {Q Q' : σ → α → Prop}

theorem Returns.mono (h : Returns P p s Q) (hQ : ∀ s' a, Q s' a → Q' s' a) : Returns P p s Q' := by
  obtain ⟨hP, a, hr, hq⟩ := h
  exact ⟨hP, a, hr, hQ _ a hq⟩

/-- Two things that are known of the same run. -/
theorem Returns.and (h : Returns P p s Q) (h' : Returns P p s Q') :
    Returns P p s fun s' a => Q s' a ∧ Q' s' a := by
  obtain ⟨hP, a, ha, hQ⟩ := h
  obtain ⟨-, b, hb, hQ'⟩ := h'
  obtain rfl := Except.ok.inj (ha.symm.trans hb)
  exact ⟨hP, a, ha, hQ, hQ'⟩

theorem returns_pure (hP : Composes P) {a : α} (h : Q s a) :
    Returns P (pure a : Prog ε χ σ α) s Q :=
  ⟨hP.nil, a, rfl, h⟩

theorem returns_bind (hP : Composes P) {f : α → Prog ε χ σ β} {R : σ → β → Prop}
    (h : Returns P p s fun s' a => Returns P (f a) s' R) : Returns P (p >>= f) s R := by
  obtain ⟨hes, a, hr, hes', b, hr', hR⟩ := h
  unfold Returns
  rw [wp_bind, wp_iff, hr]
  exact ⟨hP.append hes hes', b, hr', hR⟩

theorem returns_map (hP : Composes P) {g : α → β} {R : σ → β → Prop}
    (h : Returns P p s fun s' a => R s' (g a)) : Returns P (g <$> p) s R := by
  rw [← bind_pure_comp]
  exact returns_bind hP (h.mono fun s' a hR => returns_pure hP hR)

theorem returns_get (hP : Composes P) {Q : σ → σ → Prop} (h : Q s s) :
    Returns P (get : Prog ε χ σ σ) s Q :=
  ⟨hP.nil, s, rfl, h⟩

theorem returns_modify (hP : Composes P) {f : σ → σ} {Q : σ → Unit → Prop} (h : Q (f s) ()) :
    Returns P (modify f : Prog ε χ σ Unit) s Q :=
  ⟨hP.nil, (), rfl, h⟩

theorem returns_emit {e : ε} (he : P [e]) {Q : σ → Unit → Prop} (h : Q s ()) :
    Returns P (emit e : Prog ε χ σ Unit) s Q :=
  ⟨he, (), rfl, h⟩

theorem returns_ofExcept (hP : Composes P) {r : Except χ α} {a : α} (hr : r = .ok a) (h : Q s a) :
    Returns P (ofExcept r : Prog ε χ σ α) s Q :=
  ⟨hP.nil, a, hr, h⟩

theorem returns_ask (hP : Composes P) {f : σ → α × σ} (h : Q (f s).2 (f s).1) :
    Returns P (ask f : Prog ε χ σ α) s Q :=
  ⟨hP.nil, _, rfl, h⟩

theorem returns_call (hP : Composes P) {f : σ → Except χ α × σ} {a : α} (hr : (f s).1 = .ok a)
    (h : Q (f s).2 a) : Returns P (call f : Prog ε χ σ α) s Q :=
  ⟨hP.nil, a, hr, h⟩

theorem returns_lift {v : τ} {R : τ × σ → α → Prop} (h : Returns P p s fun s' a => R (v, s') a) :
    Returns P (lift p : Prog ε χ (τ × σ) α) (v, s) R :=
  h

theorem returns_withLocals {v : τ} {p : Prog ε χ (τ × σ) α}
    (h : Returns P p (v, s) fun s' a => Q s'.2 a) : Returns P (withLocals v p) s Q :=
  h

/-- What is known of a program under a map is known of the program. -/
theorem Returns.of_map {g : α → β} {R : σ → β → Prop} (h : Returns P (g <$> p) s R) :
    Returns P p s fun s' a => R s' (g a) := by
  unfold Returns at h ⊢
  rw [wp_map] at h
  refine wp_mono h fun es s' r hr => ?_
  obtain ⟨hes, b, hb, hR⟩ := hr
  cases r with
  | error x => cases hb
  | ok a =>
    obtain rfl := Except.ok.inj hb
    exact ⟨hes, a, rfl, hR⟩

/-- A list is offered to a handler until it refuses one element. -/
theorem returns_allM (hP : Composes P) {handler : α → Prog ε χ σ Bool} {I : σ → Bool → Prop}
    {l : List α} (hhandler : ∀ a ∈ l, ∀ s, I s true → Returns P (handler a) s I) {s : σ}
    (hs : I s true) : Returns P (l.allM handler) s I := by
  induction l generalizing s with
  | nil => exact returns_pure hP hs
  | cons a l ih =>
    have hfirst := hhandler a (List.mem_cons_self ..) s hs
    refine returns_bind hP (hfirst.mono fun s' go hgo => ?_)
    cases go with
    | false => exact returns_pure hP hgo
    | true => exact ih (fun a ha => hhandler a (List.mem_cons_of_mem _ ha)) hgo

theorem composes_true : Composes fun _ : List ε => True := ⟨trivial, fun _ _ => trivial⟩

/-- What is known of a run that returns is known of its result. -/
theorem Returns.of_result (h : Returns P p s Q) {a : α} (hr : (p s).result = .ok a) :
    Q (p s).state a := by
  obtain ⟨-, b, hb, hQ⟩ := h
  obtain rfl := Except.ok.inj (hb.symm.trans hr)
  exact hQ

end Traced.Prog
