import Mathlib.Data.List.Forall2

/-! Programs that read and write a state, emit events and may throw. The events of a run
and the state it reached survive an exception, as they do in an imperative program.
Specifications are weakest preconditions over all three results of a run. -/
namespace Traced

/-- What one run leaves behind: its events in order, the last state, and a value or an
exception. -/
structure Outcome (ε χ σ α : Type) where
  events : List ε
  state : σ
  result : Except χ α

/-- A program with events `ε`, exceptions `χ`, state `σ` and values `α`. -/
def Prog (ε χ σ α : Type) := σ → Outcome ε χ σ α

variable {ε χ σ τ α β : Type}

/-- Continues a normal outcome with `f`; an exception passes through. -/
def Outcome.andThen (o : Outcome ε χ σ α) (f : α → Prog ε χ σ β) : Outcome ε χ σ β :=
  match o with
  | ⟨es, s, .ok a⟩ => ⟨es ++ (f a s).events, (f a s).state, (f a s).result⟩
  | ⟨es, s, .error x⟩ => ⟨es, s, .error x⟩

namespace Prog

instance : Monad (Prog ε χ σ) where
  pure a := fun s => ⟨[], s, .ok a⟩
  bind p f := fun s => (p s).andThen f

theorem bind_def (p : Prog ε χ σ α) (f : α → Prog ε χ σ β) (s : σ) :
    (p >>= f) s = (p s).andThen f := rfl

private theorem id_map_prog (p : Prog ε χ σ α) : id <$> p = p := by
  funext s
  change (p s).andThen (fun a s => ⟨[], s, .ok a⟩) = p s
  rcases p s with ⟨es, s', x | a⟩ <;> simp [Outcome.andThen]

private theorem pure_bind_prog (a : α) (f : α → Prog ε χ σ β) : pure a >>= f = f a := by
  funext s
  change Outcome.andThen ⟨[], s, .ok a⟩ f = f a s
  simp [Outcome.andThen]

private theorem bind_assoc_prog {γ : Type} (p : Prog ε χ σ α) (f : α → Prog ε χ σ β)
    (g : β → Prog ε χ σ γ) : p >>= f >>= g = p >>= fun a => f a >>= g := by
  funext s
  change ((p s).andThen f).andThen g = (p s).andThen (fun a s => (f a s).andThen g)
  rcases p s with ⟨es, s', x | a⟩
  · rfl
  · simp only [Outcome.andThen]
    rcases f a s' with ⟨es', s'', x | b⟩ <;> simp

instance : LawfulMonad (Prog ε χ σ) :=
  LawfulMonad.mk' _ id_map_prog pure_bind_prog bind_assoc_prog

/-- Emits one event. -/
def emit (e : ε) : Prog ε χ σ Unit := fun s => ⟨[e], s, .ok ()⟩

/-- Continues with the value, or throws the exception. -/
def ofExcept (r : Except χ α) : Prog ε χ σ α := fun s => ⟨[], s, r⟩

def get : Prog ε χ σ σ := fun s => ⟨[], s, .ok s⟩

def modify (f : σ → σ) : Prog ε χ σ Unit := fun s => ⟨[], f s, .ok ()⟩

/-- A call to code outside the program: it may change the state and may throw. -/
def call (f : σ → Except χ α × σ) : Prog ε χ σ α := fun s => ⟨[], (f s).2, (f s).1⟩

/-- A call to code outside the program that always returns. -/
def ask (f : σ → α × σ) : Prog ε χ σ α := fun s => ⟨[], (f s).2, .ok (f s).1⟩

/-- Runs a program on the second component of a state, next to local variables `τ`. -/
def lift (p : Prog ε χ σ α) : Prog ε χ (τ × σ) α := fun s =>
  ⟨(p s.2).events, (s.1, (p s.2).state), (p s.2).result⟩

/-- Runs a program with local variables `v`, which go out of scope with it. -/
def withLocals (v : τ) (p : Prog ε χ (τ × σ) α) : Prog ε χ σ α := fun s =>
  ⟨(p (v, s)).events, (p (v, s)).state.2, (p (v, s)).result⟩

/-- The weakest precondition: `Q` holds of the events, the last state and the result of
the run of `p` from `s`. -/
def wp (p : Prog ε χ σ α) (s : σ) (Q : List ε → σ → Except χ α → Prop) : Prop :=
  Q (p s).events (p s).state (p s).result

variable {p : Prog ε χ σ α} {s : σ} {Q Q' : List ε → σ → Except χ α → Prop}

theorem wp_iff : wp p s Q ↔ Q (p s).events (p s).state (p s).result := Iff.rfl

/-- A run is given by its events, its last state and its result. -/
theorem run_eq_iff {o : Outcome ε χ σ α} : p s = o ↔ wp p s fun es s' r => ⟨es, s', r⟩ = o :=
  Iff.rfl

theorem wp_mono (h : wp p s Q) (hQ : ∀ es s' r, Q es s' r → Q' es s' r) : wp p s Q' :=
  hQ _ _ _ h

theorem wp_and : wp p s (fun es s' r => Q es s' r ∧ Q' es s' r) ↔ wp p s Q ∧ wp p s Q' :=
  Iff.rfl

/-- The postcondition of the first of two programs in sequence. -/
def Then (f : α → Prog ε χ σ β) (Q : List ε → σ → Except χ β → Prop) (es : List ε) (s : σ) :
    Except χ α → Prop
  | .ok a => wp (f a) s (fun es' s' r => Q (es ++ es') s' r)
  | .error x => Q es s (.error x)

@[simp] theorem then_ok (f : α → Prog ε χ σ β) (Q : List ε → σ → Except χ β → Prop)
    (es : List ε) (s : σ) (a : α) :
    Then f Q es s (.ok a) ↔ wp (f a) s (fun es' s' r => Q (es ++ es') s' r) := Iff.rfl

@[simp] theorem then_error (f : α → Prog ε χ σ β) (Q : List ε → σ → Except χ β → Prop)
    (es : List ε) (s : σ) (x : χ) : Then f Q es s (.error x) ↔ Q es s (.error x) := Iff.rfl

@[simp] theorem wp_bind (f : α → Prog ε χ σ β) (Q : List ε → σ → Except χ β → Prop) :
    wp (p >>= f) s Q ↔ wp p s (Then f Q) := by
  unfold wp
  rw [bind_def]
  rcases p s with ⟨es, s', x | a⟩ <;> rfl

/-- A program in sequence with another one emits its own events first. -/
theorem events_bind (p : Prog ε χ σ α) (f : α → Prog ε χ σ β) (s : σ) :
    ∃ rest, ((p >>= f) s).events = (p s).events ++ rest := by
  rw [bind_def]
  rcases p s with ⟨es, s', x | a⟩
  · exact ⟨[], (List.append_nil es).symm⟩
  · exact ⟨_, rfl⟩

@[simp] theorem wp_pure (a : α) : wp (pure a) s Q ↔ Q [] s (.ok a) := Iff.rfl

@[simp] theorem wp_map (g : α → β) (Q : List ε → σ → Except χ β → Prop) :
    wp (g <$> p) s Q ↔ wp p s (fun es s' r => Q es s' (r.map g)) := by
  rw [← bind_pure_comp, wp_bind]
  unfold wp
  rcases p s with ⟨es, s', x | a⟩
  · rfl
  · simp [Then, wp, Except.map, pure]

@[simp] theorem wp_emit (e : ε) {Q : List ε → σ → Except χ Unit → Prop} :
    wp (emit e) s Q ↔ Q [e] s (.ok ()) := Iff.rfl

@[simp] theorem wp_ofExcept (r : Except χ α) : wp (ofExcept r) s Q ↔ Q [] s r := Iff.rfl

@[simp] theorem wp_get {Q : List ε → σ → Except χ σ → Prop} :
    wp get s Q ↔ Q [] s (.ok s) := Iff.rfl

@[simp] theorem wp_modify (f : σ → σ) {Q : List ε → σ → Except χ Unit → Prop} :
    wp (modify f) s Q ↔ Q [] (f s) (.ok ()) := Iff.rfl

@[simp] theorem wp_call (f : σ → Except χ α × σ) :
    wp (call f) s Q ↔ Q [] (f s).2 (f s).1 := Iff.rfl

@[simp] theorem wp_ask (f : σ → α × σ) :
    wp (ask f) s Q ↔ Q [] (f s).2 (.ok (f s).1) := Iff.rfl

@[simp] theorem wp_lift {s : τ × σ} {Q : List ε → τ × σ → Except χ α → Prop} :
    wp (lift p) s Q ↔ wp p s.2 (fun es s' r => Q es (s.1, s') r) := Iff.rfl

@[simp] theorem wp_withLocals (v : τ) (p : Prog ε χ (τ × σ) α) :
    wp (withLocals v p) s Q ↔ wp p (v, s) (fun es s' r => Q es s'.2 r) := Iff.rfl

/-- A loop over a list: `R` relates each element to its value, and `P` holds of every event. -/
theorem wp_mapM {f : α → Prog ε χ σ β} {R : α → β → Prop} {P : ε → Prop}
    (hf : ∀ a s, wp (f a) s fun es _ r => (∀ e ∈ es, P e) ∧ ∀ b, r = .ok b → R a b)
    (l : List α) (s : σ) :
    wp (l.mapM f) s fun es _ r => (∀ e ∈ es, P e) ∧ ∀ bs, r = .ok bs → List.Forall₂ R l bs := by
  induction l generalizing s with
  | nil =>
    rw [List.mapM_nil, wp_pure]
    exact ⟨by simp, fun bs h => by cases h; exact .nil⟩
  | cons a l ih =>
    rw [List.mapM_cons, wp_bind]
    refine wp_mono (hf a s) fun es s₁ r h => ?_
    obtain ⟨hes, hr⟩ := h
    cases r with
    | error x => exact ⟨hes, fun bs h => by cases h⟩
    | ok b =>
      rw [then_ok, wp_bind]
      refine wp_mono (ih s₁) fun es' s₂ r' h => ?_
      obtain ⟨hes', hr'⟩ := h
      have happend : ∀ e ∈ es ++ es', P e := by
        intro e he
        exact (List.mem_append.mp he).elim (hes e) (hes' e)
      cases r' with
      | error x => exact ⟨happend, fun bs h => by cases h⟩
      | ok bs =>
        rw [then_ok, wp_pure, List.append_nil]
        exact ⟨happend, fun bs' h => by cases h; exact .cons (hr b rfl) (hr' bs rfl)⟩

/-- A loop whose body keeps an invariant of the state. -/
theorem wp_mapM_state {f : α → Prog ε χ σ β} {I : σ → Prop}
    (hf : ∀ a s, I s → wp (f a) s fun _ s' _ => I s') (l : List α) (s : σ) (hs : I s) :
    wp (l.mapM f) s fun _ s' _ => I s' := by
  induction l generalizing s with
  | nil => rwa [List.mapM_nil, wp_pure]
  | cons a l ih =>
    rw [List.mapM_cons, wp_bind]
    refine wp_mono (hf a s hs) fun es s₁ r h₁ => ?_
    cases r with
    | error x => exact h₁
    | ok b =>
      rw [then_ok, wp_bind]
      refine wp_mono (ih s₁ h₁) fun es' s₂ r' h₂ => ?_
      cases r' <;> exact h₂

/-- A loop whose body announces its value in its events. -/
theorem wp_mapM_filterMap {f : α → Prog ε χ σ β} {g : ε → Option β}
    (hf : ∀ a s, wp (f a) s fun es _ r => ∀ b, r = .ok b → es.filterMap g = [b])
    (l : List α) (s : σ) :
    wp (l.mapM f) s fun es _ r => ∀ bs, r = .ok bs → es.filterMap g = bs := by
  induction l generalizing s with
  | nil =>
    rw [List.mapM_nil, wp_pure]
    exact fun bs h => by cases h; rfl
  | cons a l ih =>
    rw [List.mapM_cons, wp_bind]
    refine wp_mono (hf a s) fun es s₁ r h₁ => ?_
    cases r with
    | error x => exact fun bs h => by cases h
    | ok b =>
      rw [then_ok, wp_bind]
      refine wp_mono (ih s₁) fun es' s₂ r' h₂ => ?_
      cases r' with
      | error x => exact fun bs h => by cases h
      | ok bs =>
        rw [then_ok, wp_pure, List.append_nil, List.filterMap_append, h₁ b rfl, h₂ bs rfl]
        exact fun bs' h => by cases h; rfl

/-- The program returns a value. -/
def Completes (p : Prog ε χ σ α) (s : σ) : Prop := wp p s fun _ _ r => ∃ a, r = .ok a

theorem not_completes_of_error {x : χ} {es : List ε} {s' : σ} (h : p s = ⟨es, s', .error x⟩) :
    ¬ Completes p s := by
  intro hcompletes
  obtain ⟨a, ha⟩ := hcompletes
  rw [h] at ha
  cases ha

theorem completes_of_ok {a : α} {es : List ε} {s' : σ} (h : p s = ⟨es, s', .ok a⟩) :
    Completes p s := ⟨a, by rw [h]⟩

/-- In a sequence of programs that starts with a returning one, the rest decides. -/
theorem completes_bind_of_ok {f : α → Prog ε χ σ β} {a : α} {es : List ε} {s' : σ}
    (h : p s = ⟨es, s', .ok a⟩) : Completes (p >>= f) s ↔ Completes (f a) s' := by
  rw [Completes, wp_bind, wp_iff, h, then_ok]
  rfl

theorem not_completes_bind_of_error {f : α → Prog ε χ σ β} {x : χ} {es : List ε} {s' : σ}
    (h : p s = ⟨es, s', .error x⟩) : ¬ Completes (p >>= f) s := by
  have hbind : (p >>= f) s = ⟨es, s', .error x⟩ := by
    rw [bind_def, h]
    rfl
  exact not_completes_of_error hbind

theorem completes_map (g : α → β) : Completes (g <$> p) s ↔ Completes p s := by
  rw [Completes, wp_map, Completes]
  unfold wp
  cases (p s).result with
  | error x => exact iff_of_false (by simp [Except.map]) (by simp)
  | ok a => exact ⟨fun _ => ⟨a, rfl⟩, fun _ => ⟨g a, rfl⟩⟩

/-- The runs of the body of a loop over a list: the body runs on `c` in the state `t`, when the
runs before it have returned. -/
inductive Visits (f : α → Prog ε χ σ β) : List α → σ → α → σ → Prop
  | here {a l s} : Visits f (a :: l) s a s
  | later {a b c l es s s' t} (hrun : f a s = ⟨es, s', .ok b⟩) (h : Visits f l s' c t) :
      Visits f (a :: l) s c t

/-- A loop returns when each run of its body does. -/
theorem mapM_completes_iff {f : α → Prog ε χ σ β} {l : List α} {s : σ} :
    Completes (l.mapM f) s ↔ ∀ a t, Visits f l s a t → Completes (f a) t := by
  induction l generalizing s with
  | nil =>
    rw [List.mapM_nil]
    exact ⟨fun _ a t h => (by cases h), fun _ => ⟨[], rfl⟩⟩
  | cons a l ih =>
    rw [List.mapM_cons]
    rcases hrun : f a s with ⟨es, s', x | b⟩
    · apply iff_of_false (not_completes_bind_of_error hrun)
      intro h
      exact not_completes_of_error hrun (h a s .here)
    · rw [completes_bind_of_ok hrun, bind_pure_comp, completes_map, ih]
      constructor
      · intro h c t hvisits
        cases hvisits with
        | here => exact completes_of_ok hrun
        | later hrun' hvisits =>
          rw [hrun] at hrun'
          cases hrun'
          exact h c t hvisits
      · intro h c t hvisits
        exact h c t (.later hrun hvisits)

end Prog
end Traced
