import Dytan.Lib.Run

/-!
# Runs that follow each other

`emitted_simulation`: when every step of one system is followed by a step of another that keeps a
relation between their states and what the first has put out, every run is followed by a run. The
steps need to be followed only as long as the output meets a condition `F`.

Where the first system takes steps of its own, its output is what the second one does:
`emitted_run`: a run is followed by the run of its output. `exists_emitted`: conversely, when every
step of the second system is the output of some steps of the first, so is every run.
-/

namespace Lib

variable {σ τ ε ε' β : Type*} {step : σ → ε → Option σ} {step' : τ → ε' → Option τ}
  {out : σ → ε → List β} {f : ε → ε'} {s s₁ : σ} {t : τ} {events : List ε}

/-- Every step is followed, as long as the output meets `F`. -/
theorem emitted_simulation {R : List β → σ → τ → Prop} {F : List β → Prop}
    (hF : ∀ before after, F (before ++ after) → F before)
    (hstep : ∀ before s t event s₁, R before s t → step s event = some s₁ →
      F (before ++ out s event) →
      ∃ t₁, step' t (f event) = some t₁ ∧ R (before ++ out s event) s₁ t₁)
    {before : List β} (h : R before s t) (hr : run step s events = some s₁)
    (hout : F (before ++ emitted step out s events)) :
    ∃ t₁, run step' t (events.map f) = some t₁ ∧
      R (before ++ emitted step out s events) s₁ t₁ := by
  induction events generalizing s t before with
  | nil =>
    cases hr
    exact ⟨t, rfl, by rwa [emitted, List.append_nil]⟩
  | cons event events ih =>
    rw [run_cons] at hr
    obtain ⟨s', hs, hr⟩ := Option.bind_eq_some_iff.1 hr
    rw [emitted_cons_of hs, ← List.append_assoc] at hout ⊢
    obtain ⟨t', ht, h'⟩ := hstep before s t event s' h hs (hF _ _ hout)
    rw [List.map_cons, run_cons_of ht]
    exact ih h' hr hout

/-! ## Steps that are not seen -/

section
variable {step' : τ → ε' → Option τ} {out : σ → ε → List ε'} {R : σ → τ → Prop} {t₁ : τ}
  {events' : List ε'}

/-- A step is followed by the events it puts out. -/
theorem emitted_run
    (hstep : ∀ s t event s₁, R s t → step s event = some s₁ →
      ∃ t₁, run step' t (out s event) = some t₁ ∧ R s₁ t₁)
    (h : R s t) (hr : run step s events = some s₁) :
    ∃ t₁, run step' t (emitted step out s events) = some t₁ ∧ R s₁ t₁ := by
  induction events generalizing s t with
  | nil =>
    cases hr
    exact ⟨t, rfl, h⟩
  | cons event events ih =>
    rw [run_cons] at hr
    obtain ⟨s', hs, hr⟩ := Option.bind_eq_some_iff.1 hr
    obtain ⟨t', ht, h'⟩ := hstep s t event s' h hs
    rw [emitted_cons_of hs, run_append, ht]
    exact ih h' hr

theorem emitted_append {pre post : List ε} (hr : run step s pre = some s₁) :
    emitted step out s (pre ++ post) = emitted step out s pre ++ emitted step out s₁ post := by
  induction pre generalizing s with
  | nil =>
    cases hr
    rfl
  | cons event pre ih =>
    rw [run_cons] at hr
    obtain ⟨s', hs, hr⟩ := Option.bind_eq_some_iff.1 hr
    rw [List.cons_append, emitted_cons_of hs, emitted_cons_of hs, ih hr, List.append_assoc]

/-- Every step of the second system is what some steps of the first put out. -/
theorem exists_emitted
    (hstep : ∀ s t event t₁, R s t → step' t event = some t₁ →
      ∃ events s₁, run step s events = some s₁ ∧ emitted step out s events = [event] ∧ R s₁ t₁)
    (h : R s t) (hr : run step' t events' = some t₁) :
    ∃ events s₁, run step s events = some s₁ ∧ emitted step out s events = events' ∧ R s₁ t₁ := by
  induction events' generalizing s t with
  | nil =>
    cases hr
    exact ⟨[], s, rfl, rfl, h⟩
  | cons event events' ih =>
    rw [run_cons] at hr
    obtain ⟨t', ht, hr⟩ := Option.bind_eq_some_iff.1 hr
    obtain ⟨pre, s', hpre, hout, h'⟩ := hstep s t event t' h ht
    obtain ⟨post, s₁, hpost, hout', h₁⟩ := ih h' hr
    refine ⟨pre ++ post, s₁, ?_, ?_, h₁⟩
    · rw [run_append, hpre]
      exact hpost
    · rw [emitted_append hpre, hout, hout']
      rfl

end

end Lib
