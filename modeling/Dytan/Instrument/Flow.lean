import Dytan.Instrument.Monotone
import Dytan.Instrument.Renaming
import Mathlib.Data.FinEnum
import Mathlib.Tactic.DeriveCountable

/-!
# Where marks flow

A `Place` is what keeps marks between instructions: a register, a byte of memory, an active branch.
`Flows st events l l'`: when `l` alone is marked, and the entries are those of `st`, then `l'` is
marked after `events`.

The marks do not influence each other: `l'` has a mark after `events` if and only if the mark was
at a place that flows to `l'` (`runEvents_flows`), so one flow relation says what a run does to
every state with these entries. The flow of a run is the flow of its parts one after the other
(`flows_append`).

The proof runs the calls on a state in which every place has a mark of its own (`coded`): the
states above are renamings of it (`Dytan/Instrument/Renaming.lean`).
-/

namespace Dytan

open TaintState

variable {w n : Nat}

/-- A register, a byte of memory or a branch. -/
inductive Place (w : Nat)
  | reg (r : REG)
  | mem (addr : ADDRINT w)
  | branch (addr : ADDRINT w)
deriving DecidableEq, Repr

namespace TaintState

/-- The set at a place. -/
def setAt (st : TaintState w) : Place w → Option Bitset
  | .reg r => st.regTaintMap r
  | .mem addr => st.memTaintMap addr
  | .branch addr => st.controlTaintMap[addr]?

/-- The place has the mark. -/
def HasMark (st : TaintState w) (l : Place w) (m : ℕ) : Prop := ∃ s ∈ st.setAt l, m ∈ s.marks

/-- The set with the one mark there is. -/
def oneMark : Bitset := ⟨[1], 1⟩

/-- The registers and bytes that have an entry in `st`, with one mark, at `l`. -/
def only (st : TaintState w) (l : Place w) : TaintState w where
  regTaintMap r := (st.regTaintMap r).map fun _ => if l = .reg r then oneMark else .init 1
  memTaintMap addr := (st.memTaintMap addr).map fun _ => if l = .mem addr then oneMark else .init 1
  controlTaintMap :=
    match l with
    | .branch addr => (∅ : Std.ExtTreeMap (ADDRINT w) Bitset).insert addr oneMark
    | _ => ∅
  scratch _ := .init 1
  numberOfTaintMarks := 1

/-- The same registers and bytes have an entry. -/
def SameEntries (st st' : TaintState w) : Prop :=
  (∀ r, (st.regTaintMap r).isSome = (st'.regTaintMap r).isSome) ∧
  ∀ addr, (st.memTaintMap addr).isSome = (st'.memTaintMap addr).isSome

end TaintState

/-- A mark at `l`, and nowhere else, is at `l'` after the events. -/
def Flows (st : TaintState w) (events : List (Event w)) (l l' : Place w) : Prop :=
  ∃ r, runEvents (st.only l) events = some r ∧ r.state.HasMark l' 0

/-! ## One mark -/

section
variable {st st' : TaintState w} {l : Place w}

theorem oneMark_ok : oneMark.Ok 1 ∧ oneMark.marks = {0} :=
  Bitset.single_spec (by decide) (by decide)

theorem only_ok (st : TaintState w) (l : Place w) : (st.only l).WidthOk 1 := by
  have hite : ∀ (P : Prop) [Decidable P] (o : Option Bitset) (s : Bitset),
      o.map (fun _ => if P then oneMark else .init 1) = some s → s.Ok 1 := by
    intro P _ o s hs
    obtain ⟨_, -, rfl⟩ := Option.map_eq_some_iff.1 hs
    split
    · exact oneMark_ok.1
    · exact Bitset.init_ok 1
  refine ⟨fun r s hs => hite _ _ s hs, fun a s hs => hite _ _ s hs, fun a s hs => ?_,
    fun _ => Bitset.init_ok 1, rfl⟩
  cases l with
  | branch addr =>
    simp only [only, getElem?_insert_eq] at hs
    split at hs
    · exact Option.some.inj hs ▸ oneMark_ok.1
    · simp at hs
  | _ => simp [only] at hs

theorem TaintState.SameEntries.only_eq (h : st.SameEntries st') (l : Place w) :
    st.only l = st'.only l := by
  have hmap : ∀ {o o' : Option Bitset} (s : Bitset), o.isSome = o'.isSome →
      o.map (fun _ => s) = o'.map (fun _ => s) := by
    intro o o' s ho
    cases o <;> cases o' <;> simp_all
  simp only [only, TaintState.mk.injEq, and_true]
  exact ⟨funext fun r => hmap _ (h.1 r), funext fun a => hmap _ (h.2 a)⟩

end

/-! ## A mark for every place -/

noncomputable section

namespace Taint

/-- The marks at a place. -/
def marksAt (t : Taint w) : Place w → Set ℕ
  | .reg r => t.regMarks r
  | .mem addr => t.memMarks addr
  | .branch addr => (t.control addr).getD ∅

/-- The entries of `t`, where each place has its own mark. -/
def coded (t : Taint w) (code : Place w → ℕ) : Taint w where
  reg r := (t.reg r).map fun _ => {code (.reg r)}
  mem addr := (t.mem addr).map fun _ => {code (.mem addr)}
  control addr := some {code (.branch addr)}
  scratch _ := ∅

end Taint

theorem TaintState.hasMark_iff {st : TaintState w} {l : Place w} {m : ℕ} :
    st.HasMark l m ↔ m ∈ st.taint.marksAt l := by
  have hopt : ∀ o : Option Bitset,
      (∃ s ∈ o, m ∈ s.marks) ↔ m ∈ (o.map Bitset.marks).getD ∅ := by
    intro o
    cases o <;> simp
  cases l <;> exact hopt _

/-- An event on `Taint`. -/
def Event.taint (t : Taint w) : Event w → Taint w
  | .ins e => stepCalls e.ctx t (dataflow e.ins).calls
  | .push addr => t.pushControl addr

theorem Event.step_gives {st : TaintState w} (h : st.WidthOk n) {ev : Event w}
    (ha : ¬ Aborts [ev]) : Gives n (ev.step st) (ev.taint st.taint) := by
  cases ev with
  | ins e =>
    refine executeINS_gives h ?_
    by_contra hc
    exact ha ⟨e, List.mem_singleton_self _, hc⟩
  | push addr => exact pushControl_gives h addr

theorem events_gives {st : TaintState w} (h : st.WidthOk n) {events : List (Event w)}
    (ha : ¬ Aborts events) :
    Gives n (events.foldlM Event.step st) (events.foldl Event.taint st.taint) := by
  induction events generalizing st with
  | nil => exact h.gives
  | cons ev events ih =>
    rw [aborts_cons, not_or] at ha
    rw [List.foldlM_cons, List.foldl_cons]
    refine (Event.step_gives h ha.1).bind fun st' h' ht => ?_
    rw [← ht]
    exact ih h' ha.2

/-- The run of the events: its state has width `n` and means what the events do to `st`. -/
theorem runEvents_gives {st : TaintState w} (h : st.WidthOk n) {events : List (Event w)}
    (ha : ¬ Aborts events) :
    ∃ r, runEvents st events = some r ∧ r.state.WidthOk n ∧
      r.state.taint = events.foldl Event.taint st.taint := by
  obtain ⟨st', hr, hok, ht⟩ := events_gives h ha
  exact ⟨⟨st', events.flatMap Event.executed⟩, by simp [runEvents, runEvents_eq, hr], hok, ht⟩

theorem Renamed.events {ρ : SetRel ℕ ℕ} {t t' : Taint w} (h : Renamed ρ ∅ t t')
    (events : List (Event w)) :
    Renamed ρ ∅ (events.foldl Event.taint t) (events.foldl Event.taint t') := by
  induction events generalizing t t' with
  | nil => exact h
  | cons ev events ih =>
    refine ih ?_
    cases ev with
    | ins e => exact h.calls e.ctx (dataflow_loads e.ins).calls
    | push addr => exact h.pushControl addr

theorem Renamed.marksAt {ρ : SetRel ℕ ℕ} {L : Set Scratch} {t t' : Taint w}
    (h : Renamed ρ L t t') (l : Place w) : t'.marksAt l = ρ.image (t.marksAt l) := by
  cases l with
  | reg r => exact h.reg.getD r
  | mem addr => exact h.mem.getD addr
  | branch addr => exact h.control addr

/-! ## The states as renamings of the coded one -/

section
variable {code : Place w → ℕ} {st : TaintState w}

/-- The mark of a place stands for the marks that `t` has there. -/
def Taint.decoding (t : Taint w) (code : Place w → ℕ) : SetRel ℕ ℕ :=
  {p | ∃ l, p.1 = code l ∧ p.2 ∈ t.marksAt l}

theorem image_code {ρ : SetRel ℕ ℕ} {c : ℕ} : ρ.image {c} = {m | (c, m) ∈ ρ} := by
  ext m
  simp

theorem image_decoding (hcode : Function.Injective code) (t : Taint w) (l : Place w) :
    (t.decoding code).image {code l} = t.marksAt l := by
  rw [image_code]
  ext m
  constructor
  · rintro ⟨l', hl, hm⟩
    rwa [hcode hl]
  · intro hm
    exact ⟨l, rfl, hm⟩

theorem renamed_decoding (hcode : Function.Injective code) (t : Taint w) :
    Renamed (t.decoding code) ∅ (t.coded code) t := by
  refine ⟨fun r => ?_, fun a => ?_, fun a => ?_, fun s hs => absurd hs (Set.notMem_empty s)⟩
  · have himage := image_decoding hcode t (.reg r)
    cases hr : t.reg r with
    | none => simp [Taint.coded, hr]
    | some S => simpa [Taint.coded, hr, Taint.marksAt, Taint.regMarks] using himage.symm
  · have himage := image_decoding hcode t (.mem a)
    cases ha : t.mem a with
    | none => simp [Taint.coded, ha]
    | some S => simpa [Taint.coded, ha, Taint.marksAt, Taint.memMarks] using himage.symm
  · exact (image_decoding hcode t (.branch a)).symm

theorem image_one (hcode : Function.Injective code) (l l' : Place w) :
    SetRel.image {(code l, 0)} {code l'} = if l = l' then ({0} : Set ℕ) else ∅ := by
  rw [image_code]
  ext m
  by_cases hl : l = l'
  · simp [hl]
  · have hne : code l' ≠ code l := fun h => hl (hcode h).symm
    simp [hl, hne]

theorem renamed_only (hcode : Function.Injective code) (st : TaintState w) (l : Place w) :
    Renamed {(code l, 0)} ∅ (st.taint.coded code) (st.only l).taint := by
  have hset : ∀ P : Prop, [Decidable P] → (if P then oneMark else .init 1 : Bitset).marks =
      if P then ({0} : Set ℕ) else ∅ := by
    intro P _
    split
    · exact oneMark_ok.2
    · exact Bitset.marks_init 1
  refine ⟨fun r => ?_, fun a => ?_, fun a => ?_, fun s hs => absurd hs (Set.notMem_empty s)⟩
  · simp only [Taint.coded, taint_reg, only, Option.map_map]
    refine congrArg (fun f => (st.regTaintMap r).map f) (funext fun _ => ?_)
    exact (hset _).trans (image_one hcode l (.reg r)).symm
  · simp only [Taint.coded, taint_mem, only, Option.map_map]
    refine congrArg (fun f => (st.memTaintMap a).map f) (funext fun _ => ?_)
    exact (hset _).trans (image_one hcode l (.mem a)).symm
  · refine Eq.trans ?_ (image_one hcode l (.branch a)).symm
    cases l with
    | branch addr =>
      simp only [taint_control, only, getElem?_insert_eq, Place.branch.injEq]
      by_cases ha : a = addr
      · simp [ha, oneMark_ok.2]
      · simp [ha, Ne.symm ha]
    | _ => simp [only]

/-- A place has a mark after the events if its place before flows to it. -/
theorem marksAt_events (hcode : Function.Injective code) {t : Taint w} {events : List (Event w)}
    {l' : Place w} {m : ℕ} :
    m ∈ (events.foldl Event.taint t).marksAt l' ↔
      ∃ l, m ∈ t.marksAt l ∧
        code l ∈ (events.foldl Event.taint (t.coded code)).marksAt l' := by
  rw [((renamed_decoding hcode t).events events).marksAt]
  constructor
  · rintro ⟨c, hc, l, rfl, hm⟩
    exact ⟨l, hm, hc⟩
  · rintro ⟨l, hm, hc⟩
    exact ⟨code l, hc, l, rfl, hm⟩

theorem flows_iff (hcode : Function.Injective code) {events : List (Event w)}
    (ha : ¬ Aborts events) {l l' : Place w} :
    Flows st events l l' ↔
      code l ∈ (events.foldl Event.taint (st.taint.coded code)).marksAt l' := by
  obtain ⟨r, hr, -, ht⟩ := runEvents_gives (only_ok st l) ha
  have himage := ((renamed_only hcode st l).events events).marksAt l'
  have hzero : r.state.HasMark l' 0 ↔
      code l ∈ (events.foldl Event.taint (st.taint.coded code)).marksAt l' := by
    rw [hasMark_iff, ht, himage]
    simp
  rw [← hzero, Flows, hr]
  simp

/-- A run neither adds nor removes entries by what the marks are. -/
theorem sameEntries_events {code : Place w → ℕ} (hcode : Function.Injective code)
    {l : Place w} {events : List (Event w)} {r o : Logged w} (h : st.WidthOk n)
    (ha : ¬ Aborts events) (hr : runEvents st events = some r)
    (ho : runEvents (st.only l) events = some o) : o.state.SameEntries r.state := by
  obtain ⟨r', hr', -, htr⟩ := runEvents_gives h ha
  obtain rfl := Option.some.inj (hr.symm.trans hr')
  obtain ⟨o', ho', -, hto⟩ := runEvents_gives (only_ok st l) ha
  obtain rfl := Option.some.inj (ho.symm.trans ho')
  have hfull := (renamed_decoding hcode st.taint).events events
  have hone := (renamed_only hcode st l).events events
  rw [← htr] at hfull
  rw [← hto] at hone
  constructor
  · intro x
    have hx := (hone.reg.isSome x).trans (hfull.reg.isSome x).symm
    simpa using hx
  · intro x
    have hx := (hone.mem.isSome x).trans (hfull.mem.isSome x).symm
    simpa using hx

end

end

/-! ## The flow of a run -/

section
variable {st : TaintState w}

deriving instance Countable for REG
deriving instance Countable for Place

/-- A place has a mark after the events if and only if the mark was at a place that flows to it. -/
theorem runEvents_flows (h : st.WidthOk n) {events : List (Event w)} (ha : ¬ Aborts events) :
    ∃ r, runEvents st events = some r ∧ ∀ l' m,
      r.state.HasMark l' m ↔ ∃ l, st.HasMark l m ∧ Flows st events l l' := by
  obtain ⟨code, hcode⟩ := Countable.exists_injective_nat (Place w)
  obtain ⟨r, hr, -, ht⟩ := runEvents_gives h ha
  refine ⟨r, hr, fun l' m => ?_⟩
  rw [hasMark_iff, ht, marksAt_events hcode]
  exact exists_congr fun l => and_congr hasMark_iff.symm (flows_iff hcode ha).symm

/-- A branch at 16 and `ADD EAX, EBX`. -/
def branchAdd : List (Event 32) :=
  [.push 16, .ins ⟨⟨.ADD, [⟨.reg .EAX, false, 32⟩, ⟨.reg .EBX, false, 32⟩], false, false, false,
    false, false, ""⟩, ⟨0, 0, 0, 0, 0, fun _ => 0, fun _ => 0⟩⟩]

/-- A mark on `EBX` and on `EFLAGS`. -/
def markedEBX : TaintState 32 :=
  { TaintState.initial 1 with
    regTaintMap := fun r => if r = .EBX ∨ r = .EFLAGS then some oneMark else none }

theorem markedEBX_ok : markedEBX.WidthOk 1 := by
  have h := TaintState.initial_ok (w := 32) 1
  refine ⟨fun r s hs => ?_, h.mem, h.control, h.scratch, h.marks⟩
  obtain ⟨-, hs⟩ := Option.ite_none_right_eq_some.1 hs
  exact Option.some.inj hs ▸ oneMark_ok.1

theorem branchAdd_accepted : ¬ Aborts branchAdd := by
  rintro ⟨e, he, hacc⟩
  obtain rfl : e = _ := by simpa [branchAdd] using he
  refine hacc fun message hexit => ?_
  cases hexit

theorem runEvents_flows_add : ∃ r, runEvents markedEBX branchAdd = some r ∧ ∀ l' m,
    r.state.HasMark l' m ↔ ∃ l, markedEBX.HasMark l m ∧ Flows markedEBX branchAdd l l' :=
  runEvents_flows markedEBX_ok branchAdd_accepted

theorem runEvents_append {events events' : List (Event w)} {r : Logged w}
    (hr : runEvents st events = some r) :
    (runEvents st (events ++ events')).map Logged.state =
      (runEvents r.state events').map Logged.state := by
  have hstate : ∀ (l : Logged w) (evs : List (Event w)),
      (evs.foldlM Event.run l).map Logged.state = evs.foldlM Event.step l.state := by
    intro l evs
    rw [runEvents_eq, Option.map_map]
    exact Option.map_id'
  have hfirst := hstate ⟨st, []⟩ events
  rw [show events.foldlM Event.run ⟨st, []⟩ = some r from hr, Option.map_some] at hfirst
  rw [runEvents, runEvents, hstate, hstate, List.foldlM_append, ← hfirst]
  rfl

/-- A run of two parts: what the first part moves, the second moves on from there. The first part
decides through `st'` which entries the second one finds. -/
theorem flows_append (h : st.WidthOk n) {events events' : List (Event w)}
    (ha : ¬ Aborts (events ++ events')) :
    ∃ r, runEvents st events = some r ∧ ∀ l l',
      Flows st (events ++ events') l l' ↔
        ∃ k, Flows st events l k ∧ Flows r.state events' k l' := by
  obtain ⟨code, hcode⟩ := Countable.exists_injective_nat (Place w)
  obtain ⟨ha₁, ha₂⟩ : ¬ Aborts events ∧ ¬ Aborts events' := by
    constructor
    · rintro ⟨e, he, hacc⟩
      exact ha ⟨e, List.mem_append_left _ he, hacc⟩
    · rintro ⟨e, he, hacc⟩
      exact ha ⟨e, List.mem_append_right _ he, hacc⟩
  obtain ⟨r, hr, -, -⟩ := runEvents_gives h ha₁
  refine ⟨r, hr, fun l l' => ?_⟩
  obtain ⟨o, ho, hook, -⟩ := runEvents_gives (only_ok st l) ha₁
  obtain ⟨o', ho', hmarks⟩ := runEvents_flows hook ha₂
  have hsame := sameEntries_events hcode h ha₁ hr ho
  have hwhole : Flows st (events ++ events') l l' ↔ o'.state.HasMark l' 0 := by
    have hstate : (runEvents (st.only l) (events ++ events')).map Logged.state =
        (runEvents o.state events').map Logged.state := runEvents_append ho
    rw [ho', Option.map_some, Option.map_eq_some_iff] at hstate
    obtain ⟨o₂, ho₂, he⟩ := hstate
    rw [Flows, ho₂, ← he]
    simp
  have hfirst : ∀ k, Flows st events l k ↔ o.state.HasMark k 0 := by
    intro k
    rw [Flows, ho]
    simp
  rw [hwhole, hmarks l' 0]
  refine exists_congr fun k => and_congr (hfirst k).symm ?_
  rw [Flows, Flows, hsame.only_eq k]

/-- `ADD EAX, EBX` twice. -/
theorem flows_append_add : ∃ r, runEvents markedEBX branchAdd = some r ∧ ∀ l l',
    Flows markedEBX (branchAdd ++ branchAdd) l l' ↔
      ∃ k, Flows markedEBX branchAdd l k ∧ Flows r.state branchAdd k l' := by
  refine flows_append markedEBX_ok ?_
  rintro ⟨e, he, hacc⟩
  exact branchAdd_accepted ⟨e, (List.mem_append.1 he).elim id id, hacc⟩

end

end Dytan
