import Mathlib.Data.List.Basic

/-! Machines that answer operations, and the simulation of one by another. -/
namespace Answers

variable {σ τ ι ω : Type}

/-- The state after some operations, with their answers. -/
def run (step : τ → ι → τ × ω) (t : τ) : List ι → τ × List ω
  | [] => (t, [])
  | op :: ops =>
    let rest := run step (step t op).1 ops
    (rest.1, (step t op).2 :: rest.2)

/-- The same for a machine whose operations may fail. -/
def tryRun (step : σ → ι → Option (σ × ω)) (s : σ) : List ι → Option (σ × List ω)
  | [] => some (s, [])
  | op :: ops => do
    let (s', answer) ← step s op
    let (final, answers) ← tryRun step s' ops
    return (final, answer :: answers)

variable {step : σ → ι → Option (σ × ω)} {s s' : σ} {ops ops' : List ι} {answers answers' : List ω}

theorem tryRun_cons (step : σ → ι → Option (σ × ω)) (s : σ) (op : ι) (ops : List ι) :
    tryRun step s (op :: ops) = (step s op).bind fun next =>
      (tryRun step next.1 ops).map fun final => (final.1, next.2 :: final.2) := by
  rw [tryRun]
  apply congrArg (Option.bind (step s op))
  funext next
  obtain ⟨next, answer⟩ := next
  dsimp only
  cases tryRun step next ops <;> rfl

theorem tryRun_cons_eq_some_iff {op : ι} : tryRun step s (op :: ops) = some (s', answers) ↔
    ∃ next answer rest, step s op = some (next, answer) ∧
      tryRun step next ops = some (s', rest) ∧ answers = answer :: rest := by
  rw [tryRun_cons, Option.bind_eq_some_iff]
  constructor
  · rintro ⟨⟨next, answer⟩, hop, h⟩
    obtain ⟨⟨final, rest⟩, hrun, hlast⟩ := Option.map_eq_some_iff.mp h
    cases hlast
    exact ⟨next, answer, rest, hop, hrun, rfl⟩
  · rintro ⟨next, answer, rest, hop, hrun, rfl⟩
    exact ⟨(next, answer), hop, Option.map_eq_some_iff.mpr ⟨(s', rest), hrun, rfl⟩⟩

/-- Where each operation succeeds, so does every run. -/
theorem exists_tryRun (hstep : ∀ s op, (step s op).isSome) (s : σ) (ops : List ι) :
    ∃ final answers, tryRun step s ops = some (final, answers) := by
  induction ops generalizing s with
  | nil => exact ⟨s, [], rfl⟩
  | cons op ops ih =>
    obtain ⟨⟨next, answer⟩, hop⟩ := Option.isSome_iff_exists.mp (hstep s op)
    obtain ⟨final, rest, hrest⟩ := ih next
    exact ⟨final, answer :: rest,
      tryRun_cons_eq_some_iff.mpr ⟨next, answer, rest, hop, hrest, rfl⟩⟩

/-- Where each operation succeeds with the answer of the other machine and keeps a relation
between the states, so does every run. -/
theorem tryRun_eq {spec : τ → ι → τ × ω} {R : σ → τ → Prop}
    (hstep : ∀ s t op, R s t → ∃ s', step s op = some (s', (spec t op).2) ∧ R s' (spec t op).1)
    {t : τ} (hinit : R s t) (ops : List ι) :
    ∃ final, tryRun step s ops = some (final, (run spec t ops).2) ∧
      R final (run spec t ops).1 := by
  induction ops generalizing s t with
  | nil => exact ⟨s, rfl, hinit⟩
  | cons op ops ih =>
    obtain ⟨s', hop, hnext⟩ := hstep s t op hinit
    obtain ⟨final, hrest, hfinal⟩ := ih hnext
    exact ⟨final, tryRun_cons_eq_some_iff.mpr ⟨s', _, _, hop, hrest, rfl⟩, hfinal⟩

/-- What holds at the start and is kept by each step holds at the end; it may speak of the
answers so far. -/
theorem tryRun_invariant {P : List ω → σ → Prop} (hinit : P [] s)
    (hstep : ∀ events s op next answer, P events s → step s op = some (next, answer) →
      P (events ++ [answer]) next)
    (h : tryRun step s ops = some (s', answers)) : P answers s' := by
  have hfrom : ∀ events, P events s → P (events ++ answers) s' := by
    clear hinit
    induction ops generalizing s answers with
    | nil =>
      cases h
      intro events hevents
      rwa [List.append_nil]
    | cons op ops ih =>
      obtain ⟨next, answer, rest, hop, hrest, rfl⟩ := tryRun_cons_eq_some_iff.mp h
      intro events hevents
      have hnext := ih hrest (events ++ [answer]) (hstep _ _ _ _ _ hevents hop)
      rwa [List.append_assoc] at hnext
  exact hfrom [] hinit

theorem tryRun_append {final : σ} (h : tryRun step s ops = some (s', answers))
    (h' : tryRun step s' ops' = some (final, answers')) :
    tryRun step s (ops ++ ops') = some (final, answers ++ answers') := by
  induction ops generalizing s answers with
  | nil =>
    cases h
    exact h'
  | cons op ops ih =>
    obtain ⟨next, answer, rest, hop, hrest, rfl⟩ := tryRun_cons_eq_some_iff.mp h
    exact tryRun_cons_eq_some_iff.mpr ⟨next, answer, rest ++ answers', hop, ih hrest, rfl⟩

/-- The first answers of a run are those of a run. -/
theorem exists_tryRun_of_append
    (h : tryRun step s ops = some (s', answers ++ answers')) :
    ∃ before after middle, ops = before ++ after ∧
      tryRun step s before = some (middle, answers) ∧
      tryRun step middle after = some (s', answers') := by
  induction answers generalizing s ops with
  | nil => exact ⟨[], ops, s, rfl, rfl, h⟩
  | cons answer answers ih =>
    cases ops with
    | nil => cases h
    | cons op ops =>
      obtain ⟨next, _, rest, hop, hrun, hcons⟩ := tryRun_cons_eq_some_iff.mp h
      obtain ⟨rfl, rfl⟩ := List.cons.inj hcons
      obtain ⟨before, after, middle, rfl, hbefore, hafter⟩ := ih hrun
      exact ⟨op :: before, after, middle, rfl,
        tryRun_cons_eq_some_iff.mpr ⟨next, answer, answers, hop, hbefore, rfl⟩, hafter⟩

end Answers
