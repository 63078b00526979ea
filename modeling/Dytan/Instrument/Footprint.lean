import Dytan.Instrument.Flow
import Dytan.Instrument.SavedFlags
import Dytan.Lib.Footprint

/-!
# Footprints of instructions

`TaintLocation w`: a register, a byte of memory, or the control taint map as a whole. From the calls
inserted for an instruction and from what Pin passes to them one reads off which locations the
instruction reads and writes (`Between.reads`, `Between.writes`); scratch sets are none of them,
since handlers load them before they use them (`dataflow_loads`).

`run_reordered`: instructions, `PushControl` and `PopControl` calls in an order that keeps each
behind those that it conflicts with leave the same maps. `run_slice`: what some locations hold after
a run comes from its slice for them, and from what the locations where the slice starts held before.
-/

namespace Dytan

open Insertion TaintState

variable {w n : Nat}

/-- A register, a byte of memory, or the control taint map. -/
inductive TaintLocation (w : Nat)
  | reg (r : REG)
  | mem (addr : ADDRINT w)
  | control
deriving DecidableEq, Repr

/-- What a call reads or writes. -/
abbrev CallLocation (w : Nat) := TaintLocation w ⊕ Scratch

/-! ## Calls -/

def regLocations (regs : List REG) : List (CallLocation w) := regs.map fun r => .inl (.reg r)

def memLocations (addrs : List (ADDRINT w)) : List (CallLocation w) :=
  addrs.map fun a => .inl (.mem a)

/-- What a call reads. A call that clears looks which of the entries there are. -/
def Call.reads (ctx : Context w) : Call w → List (CallLocation w)
  | .clearTaintSet _ => []
  | .taintForRegister reg _ => regLocations [reg]
  | .taintForMemory ea baseReg indexReg _ =>
    memLocations (ctx.readRange ea) ++ regLocations ([baseReg, indexReg].filter REG.valid)
  | .setTaintForRegister dest args =>
    if dest = .ESP ∨ dest = .EBP then [] else .inl .control :: args.map .inr
  | .setTaintForMemory args => .inl .control :: args.map .inr
  | .clearTaintForRegister reg => .inl .control :: regLocations (containedRegs reg ++ [reg])
  | .clearTaintForMemory => .inl .control :: memLocations ctx.writeRange
  | .ifThen check call => if check.holds ctx then call.reads ctx else []

def Call.writes (ctx : Context w) : Call w → List (CallLocation w)
  | .clearTaintSet set | .taintForRegister _ set | .taintForMemory _ _ _ set => [.inr set]
  | .setTaintForRegister dest _ =>
    if dest = .ESP ∨ dest = .EBP then [] else regLocations (containedRegs dest ++ [dest])
  | .setTaintForMemory _ | .clearTaintForMemory => memLocations ctx.writeRange
  | .clearTaintForRegister reg => regLocations (containedRegs reg ++ [reg])
  | .ifThen check call => if check.holds ctx then call.writes ctx else []

/-! ## Instructions and control calls -/

/-- What it reads from the maps. -/
def Between.reads : Between w → List (TaintLocation w)
  | .ins e =>
    (Lib.readsOf (Call.reads e.ctx) (Call.writes e.ctx) (dataflow e.ins).calls).filterMap
      Sum.getLeft?
  | .pushControl _ => [.reg .EFLAGS, .control]
  | .popControl _ => [.control]

/-- What it may change in the maps. -/
def Between.writes : Between w → List (TaintLocation w)
  | .ins e => ((dataflow e.ins).calls.flatMap (Call.writes e.ctx)).filterMap Sum.getLeft?
  | .pushControl _ | .popControl _ => [.control]

/-- Neither changes what the other reads or changes. -/
def Between.Independent (event event' : Between w) : Prop :=
  Lib.Independent Between.reads Between.writes event event'

/-- The events that change what is still needed of `A`, and what they need before the first. -/
def Between.slice (events : List (Between w)) (A : List (TaintLocation w)) :
    List (Between w) × List (TaintLocation w) := Lib.slice Between.reads Between.writes events A

/-! ## What a state holds at a location -/

namespace TaintState

/-- The states hold the same set at a location. -/
def SameAt (st st' : TaintState w) : TaintLocation w → Prop
  | .reg r => st.regTaintMap r = st'.regTaintMap r
  | .mem addr => st.memTaintMap addr = st'.memTaintMap addr
  | .control => st.controlTaintMap = st'.controlTaintMap

end TaintState

noncomputable section

namespace Taint

def sameAt : TaintLocation w → Setoid (Taint w)
  | .reg r => .ker fun t => t.reg r
  | .mem addr => .ker fun t => t.mem addr
  | .control => .ker fun t => t.control

def sameIn : CallLocation w → Setoid (Taint w)
  | .inl l => sameAt l
  | .inr s => .ker fun t => t.scratch s

variable {t t' : Taint w} {regs : List REG} {addrs : List (ADDRINT w)} {args : List Scratch}
  {R : List (CallLocation w)} {S : Taint w → Set ℕ} {r : REG} {a : ADDRINT w} {s set : Scratch}

@[simp] theorem sameIn_reg : sameIn (.inl (.reg r)) t t' ↔ t.reg r = t'.reg r := Iff.rfl
@[simp] theorem sameIn_mem : sameIn (.inl (.mem a)) t t' ↔ t.mem a = t'.mem a := Iff.rfl
@[simp] theorem sameIn_control : sameIn (.inl .control) t t' ↔ t.control = t'.control := Iff.rfl
@[simp] theorem sameIn_scratch : sameIn (.inr s) t t' ↔ t.scratch s = t'.scratch s := Iff.rfl

theorem agree_regs :
    Lib.Agree sameIn (regLocations regs) t t' ↔ ∀ r ∈ regs, t.reg r = t'.reg r := by
  simp only [Lib.Agree, regLocations, List.forall_mem_map, sameIn_reg]

theorem agree_mems :
    Lib.Agree sameIn (memLocations addrs) t t' ↔ ∀ a ∈ addrs, t.mem a = t'.mem a := by
  simp only [Lib.Agree, memLocations, List.forall_mem_map, sameIn_mem]

@[simp] theorem reg_mem_regLocations :
    (.inl (.reg r) : CallLocation w) ∈ regLocations regs ↔ r ∈ regs := by
  simp [regLocations]

@[simp] theorem mem_mem_memLocations : .inl (.mem a) ∈ memLocations addrs ↔ a ∈ addrs := by
  simp [memLocations]

theorem active_eq (h : t.control = t'.control) : t.active = t'.active := by
  unfold active
  rw [h]

/-- What a call that sets writes. -/
theorem union_active_eq (h : Lib.Agree sameIn (.inl .control :: args.map .inr) t t') :
    t.scratchMarks args ∪ t.active = t'.scratchMarks args ∪ t'.active := by
  obtain ⟨hcontrol, hargs⟩ := List.forall_mem_cons.1 h
  have hscratch : t.scratchMarks args = t'.scratchMarks args := by
    ext m
    refine exists_congr fun s => and_congr_right fun hs => ?_
    rw [sameIn_scratch.1 (hargs (.inr s) (List.mem_map_of_mem hs))]
  rw [hscratch, active_eq hcontrol]

/-- What a call that loads from memory collects. -/
theorem readMarks_eq {b i : REG}
    (h : Lib.Agree sameIn (memLocations addrs ++ regLocations ([b, i].filter REG.valid)) t t') :
    t.readMarks addrs b i = t'.readMarks addrs b i := by
  have hmem := agree_mems.1 (h.mono (List.subset_append_left ..))
  have hreg := agree_regs.1 (h.mono (List.subset_append_right ..))
  have hbytes : t.bytesMarks addrs = t'.bytesMarks addrs := by
    ext m
    refine exists_congr fun a => and_congr_right fun ha => ?_
    rw [memMarks, memMarks, hmem a ha]
  have haddress : ∀ r ∈ [b, i], t.addressMarks r = t'.addressMarks r := by
    intro r hr
    unfold addressMarks
    split
    · rename_i hvalid
      rw [regMarks, regMarks, hreg r (List.mem_filter.2 ⟨hr, hvalid⟩)]
    · rfl
  rw [readMarks, readMarks, hbytes, haddress b (by simp), haddress i (by simp)]

/-! ### The operations -/

theorem load_footprint (hS : ∀ t t', Lib.Agree sameIn R t t' → S t = S t') (set : Scratch) :
    Lib.HasFootprint sameIn (fun t => t.load set (S t)) R [.inr set] := by
  constructor
  · rintro t (l | s) hi
    · cases l <;> rfl
    · exact load_scratch_other t (S t) (by simpa using hi)
  · intro t t' h i hi
    obtain rfl := List.mem_singleton.1 hi
    simpa using hS t t' h

/-- The entries of `regs` are overwritten. -/
theorem putRegs_footprint {f : Taint w → Taint w} {V : Taint w → REG → Option (Set ℕ)}
    (hreg : ∀ t r, (f t).reg r = if r ∈ regs then V t r else t.reg r)
    (hmem : ∀ t, (f t).mem = t.mem) (hcontrol : ∀ t, (f t).control = t.control)
    (hscratch : ∀ t, (f t).scratch = t.scratch)
    (hV : ∀ t t', Lib.Agree sameIn R t t' → ∀ r ∈ regs, V t r = V t' r) :
    Lib.HasFootprint sameIn f R (regLocations regs) := by
  constructor
  · rintro t ((r | a | _) | s) hi
    · rw [reg_mem_regLocations] at hi
      simp [hreg, hi]
    · simp [hmem]
    · simp [hcontrol]
    · simp [hscratch]
  · intro t t' h
    refine agree_regs.2 fun r hr => ?_
    rw [hreg, hreg, if_pos hr, if_pos hr, hV t t' h r hr]

/-- The entries of `addrs` are overwritten. -/
theorem putMems_footprint {f : Taint w → Taint w} {V : Taint w → ADDRINT w → Option (Set ℕ)}
    (hmem : ∀ t a, (f t).mem a = if a ∈ addrs then V t a else t.mem a)
    (hreg : ∀ t, (f t).reg = t.reg) (hcontrol : ∀ t, (f t).control = t.control)
    (hscratch : ∀ t, (f t).scratch = t.scratch)
    (hV : ∀ t t', Lib.Agree sameIn R t t' → ∀ a ∈ addrs, V t a = V t' a) :
    Lib.HasFootprint sameIn f R (memLocations addrs) := by
  constructor
  · rintro t ((r | a | _) | s) hi
    · simp [hreg]
    · rw [mem_mem_memLocations] at hi
      simp [hmem, hi]
    · simp [hcontrol]
    · simp [hscratch]
  · intro t t' h
    refine agree_mems.2 fun a ha => ?_
    rw [hmem, hmem, if_pos ha, if_pos ha, hV t t' h a ha]

end Taint

open Taint

/-- A call reads and writes what it says. -/
theorem Call.hasFootprint (ctx : Context w) (c : Call w) :
    Lib.HasFootprint sameIn (fun t => c.step ctx t) (c.reads ctx) (c.writes ctx) := by
  induction c with
  | clearTaintSet set => exact load_footprint (fun _ _ _ => rfl) set
  | taintForRegister reg set =>
    refine load_footprint (fun t t' h => ?_) set
    rw [regMarks, regMarks, agree_regs.1 h reg (List.mem_singleton_self reg)]
  | taintForMemory ea b i set => exact load_footprint (fun t t' h => readMarks_eq h) set
  | setTaintForRegister dest args =>
    simp only [Call.reads, Call.writes, Call.step, Taint.setReg]
    split
    · exact .id
    · exact putRegs_footprint (fun _ _ => rfl) (fun _ => rfl) (fun _ => rfl) (fun _ => rfl)
        fun t t' h _ _ => congrArg some (union_active_eq h)
  | setTaintForMemory args =>
    exact putMems_footprint (fun _ _ => rfl) (fun _ => rfl) (fun _ => rfl) (fun _ => rfl)
      fun t t' h _ _ => congrArg some (union_active_eq h)
  | clearTaintForRegister reg =>
    refine putRegs_footprint (V := fun t r => if (t.reg r).isSome then some t.active else t.reg r)
      (fun t r => ?_) (fun _ => rfl) (fun _ => rfl) (fun _ => rfl) fun t t' h r hr => ?_
    · exact ite_and ..
    · obtain ⟨hcontrol, hregs⟩ := List.forall_mem_cons.1 h
      rw [active_eq hcontrol, agree_regs.1 hregs r hr]
  | clearTaintForMemory =>
    refine putMems_footprint (V := fun t a => if (t.mem a).isSome then some t.active else t.mem a)
      (fun t a => ?_) (fun _ => rfl) (fun _ => rfl) (fun _ => rfl) fun t t' h a ha => ?_
    · exact ite_and ..
    · obtain ⟨hcontrol, hmems⟩ := List.forall_mem_cons.1 h
      rw [active_eq hcontrol, agree_mems.1 hmems a ha]
  | ifThen check call ih =>
    simp only [Call.reads, Call.writes, Call.step]
    split
    · exact ih
    · exact .id

/-! ## Instructions -/

theorem Call.mem_uses (ctx : Context w) {c : Call w} {s : Scratch} (hs : .inr s ∈ c.reads ctx) :
    s ∈ c.uses := by
  induction c with
  | setTaintForRegister dest args =>
    simp only [Call.reads] at hs
    split at hs
    · cases hs
    · simpa [Call.uses] using hs
  | ifThen check call ih =>
    simp only [Call.reads] at hs
    split at hs
    · exact ih hs
    · cases hs
  | setTaintForMemory args => simpa [Call.reads, Call.uses] using hs
  | _ => simp [Call.reads, regLocations, memLocations] at hs

theorem Call.mem_loads (ctx : Context w) {c : Call w} {L : Set Scratch} {s : Scratch}
    (hs : s ∈ c.loads L) (hw : .inr s ∉ c.writes ctx) : s ∈ L := by
  cases c with
  | clearTaintSet set | taintForRegister _ set | taintForMemory _ _ _ set =>
    exact hs.resolve_left (by simpa [Call.writes] using hw)
  | _ => exact hs

/-- Calls that load before they use read no other scratch sets than those in `L`. -/
theorem LoadsFirst.mem_readsOf (ctx : Context w) {L : Set Scratch} {calls : List (Call w)}
    (h : LoadsFirst L calls) {s : Scratch}
    (hs : .inr s ∈ Lib.readsOf (Call.reads ctx) (Call.writes ctx) calls) : s ∈ L := by
  induction calls generalizing L with
  | nil => cases hs
  | cons c calls ih =>
    rcases List.mem_append.1 hs with hs | hs
    · exact h.1 s (c.mem_uses ctx hs)
    · obtain ⟨hs, hw⟩ := List.mem_filter.1 hs
      exact c.mem_loads ctx (ih h.2 hs) (by simpa using hw)

/-! ## Control calls -/

/-- An action that changes the control taint map only. -/
theorem Taint.control_footprint {f : Taint w → Taint w} {R : List (TaintLocation w)}
    (hreg : ∀ t, (f t).reg = t.reg) (hmem : ∀ t, (f t).mem = t.mem)
    (hcontrol : ∀ t t', Lib.Agree sameAt R t t' → (f t).control = (f t').control) :
    Lib.HasFootprint sameAt f R [.control] := by
  constructor
  · rintro t (r | a | _) hi
    · exact congrFun (hreg t) r
    · exact congrFun (hmem t) a
    · exact absurd (List.mem_singleton_self _) hi
  · intro t t' h l hl
    obtain rfl := List.mem_singleton.1 hl
    exact hcontrol t t' h

theorem Taint.pushControl_footprint (addr : ADDRINT w) :
    Lib.HasFootprint sameAt (fun t : Taint w => t.pushControl addr) [.reg .EFLAGS, .control]
      [.control] := by
  refine control_footprint (by simp) (by simp) fun t t' h => ?_
  have hflags : t.regMarks .EFLAGS = t'.regMarks .EFLAGS :=
    congrArg (Option.getD · ∅) (h (.reg .EFLAGS) (by simp))
  have hcontrol : t.control = t'.control := h .control (by simp)
  unfold Taint.pushControl
  rw [hflags, hcontrol]
  split
  · exact hcontrol
  · rfl

theorem Taint.popControl_frame (t : Taint w) (addrs : List (ADDRINT w)) :
    (t.popControl addrs).reg = t.reg ∧ (t.popControl addrs).mem = t.mem := by
  induction addrs generalizing t with
  | nil => exact ⟨rfl, rfl⟩
  | cons addr addrs ih =>
    rw [Taint.popControl]
    split
    · exact ih _
    · exact ⟨rfl, rfl⟩

theorem Taint.popControl_footprint (addrs : List (ADDRINT w)) :
    Lib.HasFootprint sameAt (fun t : Taint w => t.popControl addrs) [.control] [.control] := by
  refine control_footprint (fun t => (t.popControl_frame addrs).1)
    (fun t => (t.popControl_frame addrs).2) fun t t' h => ?_
  have hcontrol : t.control = t'.control := h .control (List.mem_singleton_self _)
  clear h
  induction addrs generalizing t t' with
  | nil => exact hcontrol
  | cons addr addrs ih =>
    simp only [Taint.popControl, hcontrol]
    split
    · exact ih _ _ rfl
    · exact hcontrol

/-! ## Runs -/

/-- What an event does to `Taint`. -/
def Between.taint (t : Taint w) : Between w → Taint w
  | .ins e => stepCalls e.ctx t (dataflow e.ins).calls
  | .pushControl addr => t.pushControl addr
  | .popControl addrs => t.popControl addrs

theorem Between.hasFootprint (event : Between w) :
    Lib.HasFootprint sameAt (fun t => event.taint t) event.reads event.writes := by
  cases event with
  | ins e =>
    have hloads := (dataflow_loads e.ins : Loads ∅ (dataflow e.ins : Insertion w Unit) ∅).calls
    have hcalls := Lib.HasFootprint.foldl (Call.hasFootprint e.ctx) (dataflow e.ins).calls
    refine hcalls.comap Sum.inl ?_ ?_
    · rintro (l | s) hi
      · exact List.mem_map_of_mem (List.mem_filterMap.2 ⟨_, hi, rfl⟩)
      · exact absurd (hloads.mem_readsOf e.ctx hi) (Set.notMem_empty s)
    · intro l
      simp [Between.writes]
  | pushControl addr => exact pushControl_footprint addr
  | popControl addrs => exact popControl_footprint addrs

/-- The handler of an instruction does not abort. -/
def Between.Accepted : Between w → Prop
  | .ins e => (dataflow e.ins : Insertion w Unit).Accepted
  | .pushControl _ | .popControl _ => True

theorem Between.step_gives {st : TaintState w} (h : st.WidthOk n) {event : Between w}
    (ha : event.Accepted) : Gives n (event.step st) (event.taint st.taint) := by
  cases event with
  | ins e => exact executeINS_gives h ha
  | pushControl addr => exact pushControl_gives h addr
  | popControl addrs => exact popControl_gives h addrs

theorem Between.accepted_of_step {st st' : TaintState w} {event : Between w}
    (hs : event.step st = some st') : event.Accepted := by
  cases event with
  | ins e =>
    intro message hm
    rw [Between.step, executeINS, hm] at hs
    cases hs
  | _ => trivial

theorem Between.run_gives {st : TaintState w} (h : st.WidthOk n) {events : List (Between w)}
    (ha : ∀ event ∈ events, event.Accepted) :
    Gives n (Lib.run Between.step st events) (events.foldl Between.taint st.taint) := by
  induction events generalizing st with
  | nil => exact h.gives
  | cons event events ih =>
    rw [List.forall_mem_cons] at ha
    rw [Lib.run_cons, List.foldl_cons]
    refine (Between.step_gives h ha.1).bind fun st' h' ht => ?_
    rw [← ht]
    exact ih h' ha.2

theorem Between.accepted_of_run {st r : TaintState w} {events : List (Between w)}
    (hr : Lib.run Between.step st events = some r) : ∀ event ∈ events, event.Accepted := by
  induction events generalizing st with
  | nil => exact fun _ he => absurd he List.not_mem_nil
  | cons event events ih =>
    rw [Lib.run_cons] at hr
    obtain ⟨st', hs, hr⟩ := Option.bind_eq_some_iff.1 hr
    exact List.forall_mem_cons.2 ⟨Between.accepted_of_step hs, ih hr⟩

section
variable {st st' r : TaintState w} {events order : List (Between w)}

/-- States of one width that mean the same at a location hold the same there. -/
theorem sameAt_iff (h : st.WidthOk n) (h' : st'.WidthOk n) (l : TaintLocation w) :
    Taint.sameAt l st.taint st'.taint ↔ st.SameAt st' l := by
  have key : ∀ {o o' : Option Bitset}, (∀ s ∈ o, s.Ok n) → (∀ s ∈ o', s.Ok n) →
      (o.map Bitset.marks = o'.map Bitset.marks ↔ o = o') := by
    intro o o' ho ho'
    refine ⟨fun he => ?_, fun he => he ▸ rfl⟩
    cases o with
    | none => cases o' with
      | none => rfl
      | some _ => simp at he
    | some s => cases o' with
      | none => simp at he
      | some s' =>
        rw [(ho s rfl).ext_marks (ho' s' rfl) (Option.some.inj he)]
  cases l with
  | reg r => exact key (h.reg r) (h'.reg r)
  | mem a => exact key (h.mem a) (h'.mem a)
  | control =>
    refine ⟨(h.ext_taint h').2.2, fun he => funext fun a => ?_⟩
    change st.taint.control a = st'.taint.control a
    rw [taint_control, taint_control, show st.controlTaintMap = st'.controlTaintMap from he]

/-- The state after a run, and what it means. -/
theorem Between.run_taint (h : st.WidthOk n) (hr : Lib.run Between.step st events = some r) :
    r.WidthOk n ∧ r.taint = events.foldl Between.taint st.taint := by
  obtain ⟨r', hr', hok, ht⟩ := Between.run_gives h (Between.accepted_of_run hr)
  obtain rfl := Option.some.inj (hr.symm.trans hr')
  exact ⟨hok, ht⟩

/-- The events of a run in another order that keeps each behind those it is not independent of: they
run too, and leave the same in every register, every byte and the control taint map. -/
theorem run_reordered (h : st.WidthOk n) (hr : Lib.run Between.step st events = some r)
    (ho : Lib.Reordered Between.Independent events order) :
    ∃ r', Lib.run Between.step st order = some r' ∧ ∀ l, r.SameAt r' l := by
  have ha : ∀ event ∈ order, event.Accepted := fun event he =>
    Between.accepted_of_run hr event (ho.perm.mem_iff.2 he)
  obtain ⟨r', hr', hok', ht'⟩ := Between.run_gives h ha
  obtain ⟨hok, ht⟩ := Between.run_taint h hr
  refine ⟨r', hr', fun l => (sameAt_iff hok hok' l).1 ?_⟩
  rw [ht, ht']
  exact ho.agree Between.hasFootprint (fun l => (Taint.sameAt l).refl' st.taint) l

/-- `MOV dest, src`. -/
def moveReg (dest src : REG) : Between 32 :=
  .ins ⟨⟨.MOV, [⟨.reg dest, false, 32⟩, ⟨.reg src, false, 32⟩], false, false, false, false, false,
    ""⟩, ⟨0, 0, 0, 0, 0, fun _ => 0, fun _ => 0⟩⟩

/-- `MOV EAX, EBX` and `MOV ECX, EDX`. -/
def moves : List (Between 32) := [moveReg .EAX .EBX, moveReg .ECX .EDX]

theorem moves_accepted : ∀ event ∈ moves, event.Accepted := by
  intro event he
  simp only [moves, List.mem_cons, List.not_mem_nil, or_false] at he
  rcases he with rfl | rfl
  all_goals
    intro message hm
    cases hm

theorem moves_swapped :
    Lib.Reordered Between.Independent moves [moveReg .ECX .EDX, moveReg .EAX .EBX] := by
  have hindep : Between.Independent (moveReg .EAX .EBX) (moveReg .ECX .EDX) := by
    unfold Between.Independent Lib.Independent
    decide
  refine .cons [moveReg .EAX .EBX] _ [] _ (fun e he => ?_) (.cons [] _ [] _ (by simp) .nil)
  obtain rfl := List.mem_singleton.1 he
  exact hindep

/-- The two moves in either order. -/
theorem run_reordered_moves : ∃ r r', Lib.run Between.step markedEBX moves = some r ∧
    Lib.run Between.step markedEBX [moveReg .ECX .EDX, moveReg .EAX .EBX] = some r' ∧
    ∀ l, r.SameAt r' l := by
  obtain ⟨r, hr, -, -⟩ := Between.run_gives markedEBX_ok moves_accepted
  obtain ⟨r', hr', hsame⟩ := run_reordered markedEBX_ok hr moves_swapped
  exact ⟨r, r', hr, hr', hsame⟩

/-- The slice of a run for `A`, from any state that holds the same where the slice starts, leaves at
`A` what the run leaves there. -/
theorem run_slice {A : List (TaintLocation w)} (h : st.WidthOk n) (h' : st'.WidthOk n)
    (hr : Lib.run Between.step st events = some r)
    (hstart : ∀ l ∈ (Between.slice events A).2, st.SameAt st' l) :
    ∃ r', Lib.run Between.step st' (Between.slice events A).1 = some r' ∧
      ∀ l ∈ A, r.SameAt r' l := by
  have ha : ∀ event ∈ (Between.slice events A).1, event.Accepted := fun event he =>
    Between.accepted_of_run hr event ((Lib.slice_sublist ..).subset he)
  obtain ⟨r', hr', hok', ht'⟩ := Between.run_gives h' ha
  obtain ⟨hok, ht⟩ := Between.run_taint h hr
  have hagree : Lib.Agree Taint.sameAt A (events.foldl Between.taint st.taint)
      ((Between.slice events A).1.foldl Between.taint st'.taint) :=
    Lib.slice_agree Between.hasFootprint fun l hl => (sameAt_iff h h' l).2 (hstart l hl)
  refine ⟨r', hr', fun l hl => (sameAt_iff hok hok' l).1 ?_⟩
  rw [ht, ht']
  exact hagree l hl

/-- `markedEBX` and a mark at the byte 16. -/
def markedByte : TaintState 32 :=
  { markedEBX with memTaintMap := fun a => if a = 16 then some oneMark else none }

theorem markedByte_ok : markedByte.WidthOk 1 := by
  have h := markedEBX_ok
  refine ⟨h.reg, fun a s hs => ?_, h.control, h.scratch, h.marks⟩
  obtain ⟨-, hs⟩ := Option.ite_none_right_eq_some.1 hs
  exact Option.some.inj hs ▸ oneMark_ok.1

/-- The slice for `EAX` is the first move. -/
theorem run_slice_moves : ∃ r r', Lib.run Between.step markedEBX moves = some r ∧
    Lib.run Between.step markedByte [moveReg .EAX .EBX] = some r' ∧ r.SameAt r' (.reg .EAX) := by
  have hslice : Between.slice moves [.reg .EAX] = ([moveReg .EAX .EBX], [.reg .EBX, .control]) := rfl
  obtain ⟨r, hr, -, -⟩ := Between.run_gives markedEBX_ok moves_accepted
  have hstart : ∀ l ∈ (Between.slice moves [.reg .EAX]).2, markedEBX.SameAt markedByte l := by
    rw [hslice]
    simp [SameAt, markedByte]
  obtain ⟨r', hr', hsame⟩ := run_slice markedEBX_ok markedByte_ok hr hstart
  rw [hslice] at hr'
  exact ⟨r, r', hr, hr', hsame _ (List.mem_singleton_self _)⟩

end

end

end Dytan
