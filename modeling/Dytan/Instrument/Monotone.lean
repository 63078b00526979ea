import Dytan.Instrument.Scratch

/-!
# More taint in, more taint out

`Event`: an instrumented instruction, or the `PushControl` call inserted before a branch. `runEvents`
runs them and keeps a log of the handler calls that execute (an `ifThen` call only when its check
holds).

States are ordered by their maps (`TaintState.Le`). `runEvents_monotone`: from ordered states the
same calls execute and the resulting states are ordered.
-/

namespace Dytan

open Insertion TaintState

variable {w : Nat}

/-- An instrumented instruction, or `PushControl` for the branch at `addr`. -/
inductive Event (w : Nat)
  | ins (e : Executed w)
  | push (addr : ADDRINT w)

/-- A state and the handler calls that executed so far. -/
structure Logged (w : Nat) where
  state : TaintState w
  log : List (Call w)

/-- `Call.run`, with what executes added to the log. -/
def Call.runLogged (ctx : Context w) (l : Logged w) : Call w → Option (Logged w)
  | .ifThen check call => if check.holds ctx then call.runLogged ctx l else some l
  | call => do
    let st ← call.run ctx l.state
    return ⟨st, l.log ++ [call]⟩

def runCallsLogged (ctx : Context w) (l : Logged w) (calls : List (Call w)) : Option (Logged w) :=
  calls.foldlM (Call.runLogged ctx) l

def Event.run (l : Logged w) : Event w → Option (Logged w)
  | .ins e =>
    match (dataflow e.ins : Insertion w Unit).exit with
    | .error (.aborted _) => none
    | _ => runCallsLogged e.ctx l (dataflow e.ins).calls
  | .push addr => do
    let st ← l.state.pushControl addr
    return { l with state := st }

def runEvents (st : TaintState w) (events : List (Event w)) : Option (Logged w) :=
  events.foldlM Event.run ⟨st, []⟩

/-- The handler of an instruction of `events` aborts. -/
def Aborts (events : List (Event w)) : Prop :=
  ∃ e, .ins e ∈ events ∧ ¬ (dataflow e.ins : Insertion w Unit).Accepted

/-- Every entry of `st` is one of `st'`, with at least its marks. -/
structure TaintState.Le (st st' : TaintState w) : Prop where
  reg : ∀ r s, st.regTaintMap r = some s → ∃ s', st'.regTaintMap r = some s' ∧ s.marks ⊆ s'.marks
  mem : ∀ a s, st.memTaintMap a = some s → ∃ s', st'.memTaintMap a = some s' ∧ s.marks ⊆ s'.marks
  control : ∀ (a : ADDRINT w) s, st.controlTaintMap[a]? = some s →
    ∃ s', st'.controlTaintMap[a]? = some s' ∧ s.marks ⊆ s'.marks

/-! ## The log -/

/-- The calls that execute when `c` is reached: a matter of the machine's values alone. -/
def Call.executed (ctx : Context w) : Call w → List (Call w)
  | .ifThen check call => if check.holds ctx then call.executed ctx else []
  | call => [call]

def Event.executed : Event w → List (Call w)
  | .ins e => (dataflow e.ins).calls.flatMap (Call.executed e.ctx)
  | .push _ => []

/-- `Event.run` without the log. -/
def Event.step (st : TaintState w) : Event w → Option (TaintState w)
  | .ins e => executeINS st e
  | .push addr => st.pushControl addr

theorem Call.runLogged_eq (ctx : Context w) (l : Logged w) (c : Call w) :
    c.runLogged ctx l = (c.run ctx l.state).map (⟨·, l.log ++ c.executed ctx⟩) := by
  induction c with
  | ifThen check call ih =>
    simp only [Call.runLogged, Call.run, Call.executed]
    split
    · exact ih
    · simp
  | _ => simp [Call.runLogged, Call.executed, Option.map_eq_bind]

theorem runCallsLogged_eq (ctx : Context w) (calls : List (Call w)) (l : Logged w) :
    runCallsLogged ctx l calls =
      (runCalls ctx l.state calls).map (⟨·, l.log ++ calls.flatMap (Call.executed ctx)⟩) := by
  induction calls generalizing l with
  | nil => simp [runCallsLogged, runCalls]
  | cons c calls ih =>
    simp only [runCallsLogged, runCalls, List.foldlM_cons, c.runLogged_eq]
    cases c.run ctx l.state with
    | none => rfl
    | some st =>
      have h := ih ⟨st, l.log ++ c.executed ctx⟩
      rw [List.append_assoc, ← List.flatMap_cons] at h
      exact h

theorem Event.run_eq (l : Logged w) (ev : Event w) :
    ev.run l = (ev.step l.state).map (⟨·, l.log ++ ev.executed⟩) := by
  cases ev with
  | ins e =>
    simp only [Event.run, Event.step, executeINS, Event.executed]
    rcases (dataflow e.ins : Insertion w Unit).exit with (_ | message) | _
    · exact runCallsLogged_eq e.ctx _ l
    · rfl
    · exact runCallsLogged_eq e.ctx _ l
  | push addr =>
    simp only [Event.run, Event.step, Event.executed, List.append_nil]
    cases l.state.pushControl addr <;> rfl

theorem runEvents_eq (events : List (Event w)) (l : Logged w) :
    events.foldlM Event.run l = (events.foldlM Event.step l.state).map
      (⟨·, l.log ++ events.flatMap Event.executed⟩) := by
  induction events generalizing l with
  | nil => simp
  | cons ev events ih =>
    simp only [List.foldlM_cons, ev.run_eq]
    cases ev.step l.state with
    | none => rfl
    | some st =>
      have h := ih ⟨st, l.log ++ ev.executed⟩
      rw [List.append_assoc, ← List.flatMap_cons] at h
      exact h

/-! ## The order -/

section
variable {α : Type} {map map' : α → Option Bitset}

theorem entriesLe_iff : EntriesLe (fun a => (map a).map Bitset.marks)
    (fun a => (map' a).map Bitset.marks) ↔
    ∀ a s, map a = some s → ∃ s', map' a = some s' ∧ s.marks ⊆ s'.marks := by
  constructor
  · intro h a s hs
    obtain ⟨S', hS', hle⟩ := h a s.marks (by simp only [hs, Option.map_some])
    obtain ⟨s', hs', rfl⟩ := Option.map_eq_some_iff.1 hS'
    exact ⟨s', hs', hle⟩
  · intro h a S hS
    obtain ⟨s, hs, rfl⟩ := Option.map_eq_some_iff.1 hS
    obtain ⟨s', hs', hle⟩ := h a s hs
    exact ⟨s'.marks, by simp only [hs', Option.map_some], hle⟩

end

theorem TaintState.le_iff {st st' : TaintState w} : st.Le st' ↔ Below ∅ st.taint st'.taint := by
  constructor
  · intro h
    exact ⟨entriesLe_iff.2 h.reg, entriesLe_iff.2 h.mem, entriesLe_iff.2 h.control,
      fun s hs => absurd hs (Set.notMem_empty s)⟩
  · intro h
    exact ⟨entriesLe_iff.1 h.reg, entriesLe_iff.1 h.mem, entriesLe_iff.1 h.control⟩

theorem Below.pushControl {L : Set Scratch} {t t' : Taint w} (h : Below L t t')
    (addr : ADDRINT w) : Below L (t.pushControl addr) (t'.pushControl addr) := by
  have hle : t.regMarks .EFLAGS ⊆ t'.regMarks .EFLAGS := h.regMarks .EFLAGS
  unfold Taint.pushControl
  by_cases he : t.regMarks .EFLAGS = ∅
  · rw [if_pos he]
    -- the larger state may push a branch that the smaller one does not
    split
    · exact h
    · exact ⟨h.reg, h.mem, h.control.update_right Set.subset_union_left, h.scratch⟩
  · have he' : t'.regMarks .EFLAGS ≠ ∅ := fun h0 => he (Set.subset_empty_iff.1 (h0 ▸ hle))
    rw [if_neg he, if_neg he']
    exact ⟨h.reg, h.mem, h.control.update (Set.union_subset_union (h.control.getD addr) hle),
      h.scratch⟩

/-! ## Two runs -/

section
variable {n : Nat} {st st' : TaintState w}

/-- One event whose handler does not abort. -/
theorem Event.step_monotone (h : st.WidthOk n) (h' : st'.WidthOk n) (hle : st.Le st')
    {ev : Event w} (ha : ¬ Aborts [ev]) :
    ∃ r r', ev.step st = some r ∧ ev.step st' = some r' ∧ r.WidthOk n ∧ r'.WidthOk n ∧ r.Le r' := by
  have hb : Below ∅ st.taint st'.taint := le_iff.1 hle
  cases ev with
  | ins e =>
    have hacc : (dataflow e.ins : Insertion w Unit).Accepted := by
      by_contra hc
      exact ha ⟨e, List.mem_singleton_self _, hc⟩
    obtain ⟨r, hr, hrok, hrt⟩ := executeINS_gives h hacc
    obtain ⟨r', hr', hrok', hrt'⟩ := executeINS_gives h' hacc
    have hcalls := hb.calls e.ctx (dataflow_loads e.ins).calls
    rw [← hrt, ← hrt'] at hcalls
    exact ⟨r, r', hr, hr', hrok, hrok', le_iff.2 hcalls⟩
  | push addr =>
    obtain ⟨r, hr, hrok, hrt⟩ := pushControl_gives h addr
    obtain ⟨r', hr', hrok', hrt'⟩ := pushControl_gives h' addr
    have hpush := hb.pushControl addr
    rw [← hrt, ← hrt'] at hpush
    exact ⟨r, r', hr, hr', hrok, hrok', le_iff.2 hpush⟩

/-- A handler that aborts ends the run. -/
theorem Event.step_aborts {ev : Event w} (ha : Aborts [ev]) (st : TaintState w) :
    ev.step st = none := by
  obtain ⟨e, he, hacc⟩ := ha
  obtain rfl := List.mem_singleton.1 he
  simp only [Insertion.Accepted, not_forall, not_not] at hacc
  obtain ⟨message, hm⟩ := hacc
  simp only [Event.step, executeINS, hm]

theorem aborts_cons {ev : Event w} {events : List (Event w)} :
    Aborts (ev :: events) ↔ Aborts [ev] ∨ Aborts events := by
  unfold Aborts
  simp only [List.mem_cons, List.not_mem_nil, or_false, or_and_right, exists_or]

theorem foldlM_step_monotone (h : st.WidthOk n) (h' : st'.WidthOk n) (hle : st.Le st')
    (events : List (Event w)) (ha : ¬ Aborts events) :
    ∃ r r', events.foldlM Event.step st = some r ∧ events.foldlM Event.step st' = some r' ∧
      r.Le r' := by
  induction events generalizing st st' with
  | nil => exact ⟨st, st', rfl, rfl, hle⟩
  | cons ev events ih =>
    rw [aborts_cons, not_or] at ha
    obtain ⟨r, r', hr, hr', hrok, hrok', hrle⟩ := Event.step_monotone h h' hle ha.1
    simp only [List.foldlM_cons, hr, hr']
    exact ih hrok hrok' hrle ha.2

theorem foldlM_step_aborts (events : List (Event w)) (ha : Aborts events) (st : TaintState w) :
    events.foldlM Event.step st = none := by
  induction events generalizing st with
  | nil =>
    obtain ⟨e, he, -⟩ := ha
    cases he
  | cons ev events ih =>
    rw [List.foldlM_cons]
    rcases aborts_cons.1 ha with hev | hevents
    · rw [Event.step_aborts hev]
      rfl
    · cases ev.step st with
      | none => rfl
      | some r => exact ih hevents r

end

/-! ## Monotonicity -/

/-- From ordered states the same calls execute and the resulting states are ordered; when a handler
aborts, it does so in both runs. -/
theorem runEvents_monotone {n : Nat} {st st' : TaintState w} (h : st.WidthOk n)
    (h' : st'.WidthOk n) (hle : st.Le st') (events : List (Event w)) :
    (¬ Aborts events → ∃ r r', runEvents st events = some r ∧ runEvents st' events = some r' ∧
      r.state.Le r'.state ∧ r.log = r'.log) ∧
    (Aborts events → runEvents st events = none ∧ runEvents st' events = none) := by
  simp only [runEvents, runEvents_eq]
  refine ⟨fun ha => ?_, fun ha => ?_⟩
  · obtain ⟨r, r', hr, hr', hrle⟩ := foldlM_step_monotone h h' hle events ha
    rw [hr, hr']
    exact ⟨_, _, rfl, rfl, hrle, rfl⟩
  · rw [foldlM_step_aborts events ha, foldlM_step_aborts events ha]
    exact ⟨rfl, rfl⟩

/-- `ADD EAX, EBX` after a branch at 16, without taint and with mark 0 on `EBX` and on `EFLAGS`. -/
theorem runEvents_monotone_add :
    ∃ r r' : Logged 32,
      runEvents (.initial 2)
        [.push 16, .ins ⟨⟨.ADD, [⟨.reg .EAX, false, 32⟩, ⟨.reg .EBX, false, 32⟩], false, false,
          false, false, false, ""⟩, ⟨0, 0, 0, 0, 0, fun _ => 0, fun _ => 0⟩⟩] = some r ∧
      runEvents { TaintState.initial 2 with
          regTaintMap := fun r => if r = .EBX ∨ r = .EFLAGS then some ⟨[1], 2⟩ else none }
        [.push 16, .ins ⟨⟨.ADD, [⟨.reg .EAX, false, 32⟩, ⟨.reg .EBX, false, 32⟩], false, false,
          false, false, false, ""⟩, ⟨0, 0, 0, 0, 0, fun _ => 0, fun _ => 0⟩⟩] = some r' ∧
      r.state.Le r'.state ∧ r.log = r'.log := by
  have h := TaintState.initial_ok (w := 32) 2
  refine (runEvents_monotone h ?_ ?_ _).1 ?_
  · refine ⟨fun r s hs => ?_, h.mem, h.control, h.scratch, h.marks⟩
    simp only at hs
    split at hs
    · exact Option.some.inj hs ▸ Bitset.single_ok
    · cases hs
  · refine ⟨fun r s hs => (nomatch hs), fun a s hs => (nomatch hs), fun a s hs => ?_⟩
    simp [TaintState.initial] at hs
  · rintro ⟨e, he, hacc⟩
    obtain rfl : e = _ := by simpa using he
    refine hacc fun message hexit => ?_
    cases hexit

end Dytan
