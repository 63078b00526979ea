import Mathlib.Tactic.Cases
import Mathlib.Tactic.TypeStar

/-!
# Runs of a partial step function

`run step s events`: the state after `events`, when every step is possible. `Throughout step I s
events` says that `I` holds in every state the run visits, `Along step Q s events` that every step
the run takes meets `Q` in the state it is taken in.

`Along.invariant`: an invariant that every step meeting `Q` keeps holds after a run along `Q`;
`run_invariant`: one that every step keeps holds after every run.
`throughout_iff_along`: when the steps meeting `Q` are exactly those that keep the invariant, the two
are the same. `along_congr` and `along_iff_along`: two conditions on steps are the same along a run
when they are the same in every state with an invariant that they keep.

`exists_end`: a step that makes a well-founded measure less can be taken only so often.
`run_some_iff`: a run is possible when each of its steps is.

`run_guarded_iff`: a run of a step that is possible for the events with `ok`, whatever the state.

`emitted step out s events` is what the steps of a run put out, `out s event` for each, and
`emitted_invariant` the rule for a property of the state and of what was put out before it.
-/

namespace Lib

variable {σ ε : Type*} {step : σ → ε → Option σ} {I : σ → Prop} {Q : σ → ε → Prop} {s s' : σ}
  {event : ε} {events : List ε}

/-- The state after `events`. -/
def run (step : σ → ε → Option σ) (s : σ) (events : List ε) : Option σ := events.foldlM step s

@[simp] theorem run_nil : run step s [] = some s := rfl

theorem run_cons : run step s (event :: events) = (step s event).bind (run step · events) := by
  rw [run, List.foldlM_cons]
  rfl

theorem run_cons_of (h : step s event = some s') :
    run step s (event :: events) = run step s' events := by rw [run_cons, h, Option.bind_some]

theorem run_append {pre post : List ε} :
    run step s (pre ++ post) = (run step s pre).bind (run step · post) := by
  rw [run, List.foldlM_append]
  rfl

/-- A step that does `f` for the events with `ok`, and is not possible for others. -/
theorem run_guarded_iff {ok : ε → Prop} {f : σ → ε → σ}
    (hstep : ∀ s event s', step s event = some s' ↔ ok event ∧ f s event = s') :
    run step s events = some s' ↔ (∀ event ∈ events, ok event) ∧ events.foldl f s = s' := by
  induction events generalizing s with
  | nil => simp
  | cons event events ih =>
    rw [run_cons, Option.bind_eq_some_iff, List.forall_mem_cons, List.foldl_cons]
    constructor
    · rintro ⟨s₁, hs, hr⟩
      obtain ⟨hok, rfl⟩ := (hstep s event s₁).1 hs
      obtain ⟨hall, hr⟩ := ih.1 hr
      exact ⟨⟨hok, hall⟩, hr⟩
    · rintro ⟨⟨hok, hall⟩, hr⟩
      exact ⟨_, (hstep s event _).2 ⟨hok, rfl⟩, ih.2 ⟨hall, hr⟩⟩

/-- `I` holds in every state the run visits. -/
def Throughout (step : σ → ε → Option σ) (I : σ → Prop) (s : σ) (events : List ε) : Prop :=
  ∀ pre post, events = pre ++ post → ∀ t, run step s pre = some t → I t

/-- Every step the run takes meets `Q` in the state it is taken in. -/
def Along (step : σ → ε → Option σ) (Q : σ → ε → Prop) (s : σ) (events : List ε) : Prop :=
  ∀ pre event post, events = pre ++ event :: post → ∀ t, run step s pre = some t → Q t event

theorem Along.nil : Along step Q s [] := by
  intro pre event post h
  simp at h

theorem Throughout.nil : Throughout step I s [] ↔ I s := by
  constructor
  · intro h
    exact h [] [] rfl s rfl
  · intro h pre post he t ht
    obtain ⟨rfl, rfl⟩ := List.append_eq_nil_iff.1 he.symm
    cases ht
    exact h

theorem Throughout.cons (hs : step s event = some s') :
    Throughout step I s (event :: events) ↔ I s ∧ Throughout step I s' events := by
  constructor
  · intro h
    refine ⟨h [] _ rfl s rfl, fun pre post he t ht => ?_⟩
    exact h (event :: pre) post (by rw [he, List.cons_append]) t (by rw [run_cons_of hs, ht])
  · rintro ⟨h0, h⟩ pre post he t ht
    cases pre with
    | nil => cases ht; exact h0
    | cons e pre =>
      obtain ⟨rfl, rfl⟩ := List.cons.inj he
      rw [run_cons_of hs] at ht
      exact h pre post rfl t ht

theorem Along.cons (hs : step s event = some s') :
    Along step Q s (event :: events) ↔ Q s event ∧ Along step Q s' events := by
  constructor
  · intro h
    refine ⟨h [] event events rfl s rfl, fun pre e post he t ht => ?_⟩
    exact h (event :: pre) e post (by rw [he, List.cons_append]) t (by rw [run_cons_of hs, ht])
  · rintro ⟨h0, h⟩ pre e post he t ht
    cases pre with
    | nil => obtain ⟨rfl, -⟩ := List.cons.inj he; cases ht; exact h0
    | cons e' pre =>
      obtain ⟨rfl, rfl⟩ := List.cons.inj he
      rw [run_cons_of hs] at ht
      exact h pre e post rfl t ht

/-- A condition on the events alone. -/
theorem along_forall {P : ε → Prop} (hr : run step s events = some s') :
    Along step (fun _ event => P event) s events ↔ ∀ event ∈ events, P event := by
  induction events generalizing s with
  | nil => exact iff_of_true Along.nil (by simp)
  | cons event events ih =>
    rw [run_cons] at hr
    obtain ⟨s₁, hs, hr⟩ := Option.bind_eq_some_iff.1 hr
    rw [Along.cons hs, ih hr, List.forall_mem_cons]

/-- A run is possible when each of its steps is. -/
theorem run_some_iff : (∃ s', run step s events = some s') ↔
    Along step (fun s event => ∃ s', step s event = some s') s events := by
  induction events generalizing s with
  | nil => exact iff_of_true ⟨s, rfl⟩ Along.nil
  | cons event events ih =>
    cases hs : step s event with
    | none =>
      rw [run_cons, hs]
      constructor
      · rintro ⟨s', h⟩
        cases h
      · intro h
        obtain ⟨s', h⟩ := h [] event events rfl s rfl
        cases hs.symm.trans h
    | some s₁ =>
      rw [run_cons_of hs, ih, Along.cons hs]
      exact ⟨fun h => ⟨⟨s₁, hs⟩, h⟩, And.right⟩

/-- An invariant every step meeting `Q` keeps holds after a run along `Q`. -/
theorem Along.invariant (hstep : ∀ s event s', I s → Q s event → step s event = some s' → I s')
    (h : I s) (ha : Along step Q s events) (hr : run step s events = some s') : I s' := by
  induction events generalizing s with
  | nil => cases hr; exact h
  | cons event events ih =>
    rw [run_cons] at hr
    obtain ⟨s₁, hs, hr⟩ := Option.bind_eq_some_iff.1 hr
    obtain ⟨hq, ha⟩ := (Along.cons hs).1 ha
    exact ih (hstep s event s₁ h hq hs) ha hr

theorem run_invariant (hstep : ∀ s event s', I s → step s event = some s' → I s') (h : I s)
    (hr : run step s events = some s') : I s' :=
  Along.invariant (Q := fun _ _ => True) (fun s event s' hi _ => hstep s event s' hi) h
    (fun _ _ _ _ _ _ => trivial) hr

/-- Two conditions on the events of a run that are the same in every state with `I` are the same
along it, whether or not it ends. -/
theorem along_congr {V : ε → Prop} {R : σ → ε → Prop}
    (hkeep : ∀ s event s', I s → V event → step s event = some s' → I s')
    (hiff : ∀ s event, I s → V event → (Q s event ↔ R s event))
    (h : I s) (hv : ∀ event ∈ events, V event) : Along step Q s events ↔ Along step R s events := by
  have hreached : ∀ pre event post, events = pre ++ event :: post → ∀ t,
      run step s pre = some t → I t := by
    intro pre event post he t ht
    have hpre : Along step (fun _ event => V event) s pre :=
      (along_forall ht).2 fun e hm => hv e (he ▸ List.mem_append_left _ hm)
    exact hpre.invariant (fun s event s' hi hve hs => hkeep s event s' hi hve hs) h ht
  constructor
  · intro ha pre event post he t ht
    exact (hiff t event (hreached pre event post he t ht) (hv event (by simp [he]))).1
      (ha pre event post he t ht)
  · intro ha pre event post he t ht
    exact (hiff t event (hreached pre event post he t ht) (hv event (by simp [he]))).2
      (ha pre event post he t ht)

/-- Along a run whose steps meet `V`, two conditions on the steps are the same when they are the same
in every state with `I`, and the steps that meet them keep `I`. -/
theorem along_iff_along {V R : σ → ε → Prop}
    (hkeep : ∀ s event s', I s → V s event → Q s event → step s event = some s' → I s')
    (hiff : ∀ s event s', I s → V s event → step s event = some s' → (Q s event ↔ R s event))
    (h : I s) (hv : Along step V s events) (hr : run step s events = some s') :
    Along step Q s events ↔ Along step R s events := by
  induction events generalizing s with
  | nil => exact iff_of_true Along.nil Along.nil
  | cons event events ih =>
    rw [run_cons] at hr
    obtain ⟨s₁, hs, hr⟩ := Option.bind_eq_some_iff.1 hr
    obtain ⟨hve, hv⟩ := (Along.cons hs).1 hv
    rw [Along.cons hs, Along.cons hs, ← hiff s event s₁ h hve hs]
    refine and_congr_right fun hq => ?_
    exact ih (hkeep s event s₁ h hve hq hs) hv hr

/-- When every step keeps `J`, and among states with `J` the steps that meet `Q` are exactly those
that keep `I`, then `I` holds throughout the runs along `Q` and no others. -/
theorem throughout_iff_along {J : σ → Prop} (hJ : ∀ s event s', J s → step s event = some s' → J s')
    (hstep : ∀ s event s', J s → I s → step s event = some s' → (I s' ↔ Q s event))
    (hj : J s) (h : I s) (hr : run step s events = some s') :
    Throughout step I s events ↔ Along step Q s events := by
  induction events generalizing s with
  | nil => exact iff_of_true (Throughout.nil.2 h) Along.nil
  | cons event events ih =>
    rw [run_cons] at hr
    obtain ⟨s₁, hs, hr⟩ := Option.bind_eq_some_iff.1 hr
    have hj₁ : J s₁ := hJ s event s₁ hj hs
    rw [Throughout.cons hs, Along.cons hs, ← hstep s event s₁ hj h hs]
    constructor
    · rintro ⟨-, hth⟩
      have h₁ : I s₁ := hth [] events rfl s₁ rfl
      exact ⟨h₁, (ih hj₁ h₁ hr).1 hth⟩
    · rintro ⟨h₁, ha⟩
      exact ⟨h, (ih hj₁ h₁ hr).2 ha⟩

/-- When a step for `event` makes a measure less, there are not more of them than some number. -/
theorem exists_end {α : Type*} {r : α → α → Prop} (hr : WellFounded r) (measure : σ → α)
    (hkeep : ∀ s s', I s → step s event = some s' → I s')
    (hless : ∀ s s', I s → step s event = some s' → r (measure s') (measure s)) (h : I s) :
    ∃ n s', run step s (List.replicate n event) = some s' ∧ step s' event = none := by
  induction s using (InvImage.wf measure hr).induction with
  | _ s ih =>
    cases hs : step s event with
    | none => exact ⟨0, s, rfl, hs⟩
    | some s₁ =>
      obtain ⟨n, s', hn, hend⟩ := ih s₁ (hless s s₁ h hs) (hkeep s s₁ h hs)
      exact ⟨n + 1, s', by rw [List.replicate_succ, run_cons_of hs, hn], hend⟩

/-! ## Output -/

section
variable {β : Type*} {out : σ → ε → List β}

/-- What the steps of a run put out, in order. -/
def emitted (step : σ → ε → Option σ) (out : σ → ε → List β) (s : σ) : List ε → List β
  | [] => []
  | event :: events =>
    out s event ++ match step s event with
      | some s' => emitted step out s' events
      | none => []

theorem emitted_cons_of (h : step s event = some s') :
    emitted step out s (event :: events) = out s event ++ emitted step out s' events := by
  rw [emitted, h]

/-- What each step keeps of the state and the output so far, a run keeps. -/
theorem emitted_invariant {I : List β → σ → Prop}
    (hstep : ∀ before s event s', I before s → step s event = some s' →
      I (before ++ out s event) s')
    {before : List β} (h : I before s) (hr : run step s events = some s') :
    I (before ++ emitted step out s events) s' := by
  induction events generalizing s before with
  | nil =>
    cases hr
    rwa [emitted, List.append_nil]
  | cons event events ih =>
    rw [run_cons] at hr
    obtain ⟨s₁, hs, hr⟩ := Option.bind_eq_some_iff.1 hr
    rw [emitted_cons_of hs, ← List.append_assoc]
    exact ih (hstep before s event s₁ h hs) hr

end

end Lib
