import Dytan.IMA.Trace
import Dytan.Lib.Simulation

/-!
# What is inserted does not show

`SourceState.step`: executing the module as it is before the pass, with what is left open as in
`Dytan/IMA/Memory.lean`. `MemoryState.erase` takes away what belongs to the pass: the instructions it
inserted, their values, the counter and the numbers of the allocations.

`MemoryState.erase_step`: a step at an instruction of the source is a step of the module before the
pass, and a step at an inserted one is none. So the instrumented module does nothing that the module
did not do before.
-/

namespace Dytan.IMA

/-! ## The module before the pass -/

structure SourceState where
  frames : List Frame
  memory : Memory

/-- A function of the module as it is before the pass, about to run. -/
def Module.sourceEntry (m : Module) (name : String) (arguments : List (BitVec 32)) :
    Option Frame := do
  let f ← m name
  some ⟨f.blocks, f.blocks.headD [], fun _ => none, arguments, fun _ => none⟩

namespace SourceState

/-- The step at the instruction `i`. There is no counter, and no instruction mentions it. -/
def stepAt (m : Module) (fr : Frame) (frames : List Frame) (i : Instruction)
    (rest : List Instruction) (choice : Choice) : Option (List Frame) :=
  match i.opcode, choice with
  | .ReturnInst, .value v => m.returns 0 v frames
  | .BranchInst successors, .successor n =>
    if n ∈ successors then do
      let b ← fr.blocks[n]?
      some ({ fr with rest := b } :: frames)
    else none
  | .BranchInst _, _ => none
  | .CallInst _, .enter name arguments =>
    if i.opcode.allocates then none
    else if ∀ f ∈ m.defines i.opcode, f = name then do
      let callee ← m.sourceEntry name arguments
      some (callee :: fr :: frames)
    else none
  | _, .value v =>
    if !i.opcode.allocates ∧ (m.defines i.opcode).isSome then none
    else do
      let fr ← fr.execute 0 i rest v
      some (fr :: frames)
  | _, _ => none

/-- No allocation call is executed on an undefined size. -/
def asks (address : String → BitVec 32) (fr : Frame) (i : Instruction) : Choice → Bool
  | .value _ => !i.opcode.allocates || (fr.requested address i).isSome
  | _ => true

/-- A step, unless the execution is over. -/
def step (m : Module) (address : String → BitVec 32) (s : SourceState)
    (event : Choice × Effect) : Option SourceState :=
  match s.frames with
  | [] => none
  | fr :: frames =>
    match fr.rest with
    | [] => none
    | i :: rest => do
      let memory ← fr.memoryAfter address s.memory i event.2
      if fr.casts address i event.1 && asks address fr i event.1 then do
        let frames ← stepAt m fr frames i rest event.1
        some ⟨frames, memory⟩
      else none

end SourceState

/-! ## Erasure -/

/-- The frame of the function before the pass. -/
def Frame.erase (fr : Frame) : Frame where
  blocks := fr.blocks.map (List.filter Instruction.fromSource)
  rest := fr.rest.filter Instruction.fromSource
  value id :=
    match id with
    | .source n => fr.value (.source n)
    | _ => none
  arguments := fr.arguments
  allocation _ := none

def MemoryState.erase (t : MemoryState) : SourceState where
  frames := t.state.frames.map Frame.erase
  memory := t.memory

/-- What is seen of a step: nothing, at an inserted instruction. -/
def MemoryState.seen (t : MemoryState) (event : Choice × Effect) : List (Choice × Effect) :=
  match t.state.next with
  | some (_, i) => if i.fromSource then [event] else []
  | none => []

section
variable {m : Module} {address : String → BitVec 32} {src : SourceFunction} {fr fr' : Frame}
  {frames frames' : List Frame} {i x : Instruction} {rest : List Instruction} {counter v : BitVec 32}

theorem Frame.erase_value (hx : x.fromSource = true) : fr.erase.value x.id = fr.value x.id := by
  obtain ⟨n, hn⟩ := fromSource_iff.1 hx
  rw [hn]
  rfl

/-- An inserted instruction gives no value to an instruction of the source. -/
theorem Frame.erase_update (hi : i.fromSource = false) (result : BitVec 32) :
    ({ fr with rest := rest, value := Function.update fr.value i.id (some result) } : Frame).erase =
      { fr with rest := rest }.erase := by
  simp only [Frame.erase, Frame.mk.injEq, true_and, and_true]
  funext id
  cases id with
  | source n =>
    refine Function.update_of_ne (fun he => ?_) _ _
    have hsource : i.fromSource = true := fromSource_iff.2 ⟨n, he.symm⟩
    cases hi.symm.trans hsource
  | _ => rfl

/-- An instruction of the source gets its value in both. -/
theorem Frame.update_erase (hx : x.fromSource = true) (result : BitVec 32) :
    ({ fr with rest := rest, value := Function.update fr.value x.id (some result) } : Frame).erase =
      { fr.erase with
        rest := rest.filter Instruction.fromSource
        value := Function.update fr.erase.value x.id (some result) } := by
  obtain ⟨n, hn⟩ := fromSource_iff.1 hx
  simp only [Frame.erase, Frame.mk.injEq, true_and, and_true]
  funext id
  by_cases hid : id = x.id
  · rw [hid, Function.update_self, hn]
    exact Function.update_self ..
  · rw [Function.update_of_ne hid]
    cases id with
    | source k =>
      rw [hn] at hid
      exact Function.update_of_ne (hn ▸ hid) _ _
    | _ => rfl

/-! ### What an instruction of the source reads -/

/-- Its operands have the same values. -/
theorem Frame.passed_erase (hc : src.Closed) (hx : x ∈ src.instructions) (n : Nat) :
    fr.erase.passed address x n = fr.passed address x n := by
  have harguments : fr.erase.arguments = fr.arguments := rfl
  have hvalue : ∀ d ∈ src.instructions, .instruction d.id ∈ x.operands →
      fr.erase.value d.id = fr.value d.id := fun d hd _ => Frame.erase_value (src.given d hd).1
  exact passed_congr hc hx harguments hvalue n

theorem Frame.eval_erase (hc : src.Closed) (hx : x ∈ src.instructions) (n : Nat) :
    fr.erase.eval (x.getOperand n) = fr.eval (x.getOperand n) := by
  have hpassed : fr.erase.passed (fun _ => 0) x n = fr.passed (fun _ => 0) x n :=
    Frame.passed_erase hc hx n
  unfold Frame.passed at hpassed
  rw [show x.getOperand n = x.getArgOperand n from rfl]
  cases hop : x.getArgOperand n with
  | global name => rfl
  | _ => simpa only [hop] using hpassed

theorem Frame.result_erase (hc : src.Closed) (hx : x ∈ src.instructions) :
    fr.erase.result 0 x v = fr.result counter x v := by
  have hne : x.getOperand 0 ≠ ima_tag_count := (getOperand_ne (src.given x hx).2 0).1
  unfold Frame.result
  cases x.opcode with
  | LoadInst => simp only [if_neg hne]
  | Add | Mul => simp only [Frame.eval_erase hc hx]
  | _ => rfl

theorem Frame.execute_erase (hc : src.Closed) (hx : x ∈ src.instructions) :
    fr.erase.execute 0 x (rest.filter Instruction.fromSource) v =
      (fr.execute counter x rest v).map Frame.erase := by
  have hresult : fr.erase.result 0 x v = fr.result counter x v := Frame.result_erase hc hx
  unfold Frame.execute
  rw [hresult, Option.map_map]
  exact congrArg (fun f => (fr.result counter x v).map f)
    (funext fun result => (Frame.update_erase (src.given x hx).1 result).symm)

theorem Frame.requested_erase (hc : src.Closed) (hx : x ∈ src.instructions) :
    fr.erase.requested address x = fr.requested address x :=
  requested_congr fun n => Frame.passed_erase hc hx n

theorem Frame.casts_erase (hc : src.Closed) (hx : x ∈ src.instructions) (choice : Choice) :
    fr.erase.casts address x choice = fr.casts address x choice := by
  cases choice with
  | value v => simp only [Frame.casts, Frame.passed_erase hc hx]
  | _ => rfl

theorem Frame.mem_erase {j : Instruction} :
    j ∈ fr.erase.blocks.flatten ↔ j ∈ fr.blocks.flatten ∧ j.fromSource = true := by
  simp only [Frame.erase, List.mem_flatten, List.mem_map]
  constructor
  · rintro ⟨_, ⟨b, hb, rfl⟩, hj⟩
    obtain ⟨hj, hsource⟩ := List.mem_filter.1 hj
    exact ⟨⟨b, hb, hj⟩, hsource⟩
  · rintro ⟨⟨b, hb, hj⟩, hsource⟩
    exact ⟨_, ⟨b, hb, rfl⟩, List.mem_filter.2 ⟨hj, hsource⟩⟩

/-- An operand of the source is the result of an allocation in the one if it is in the other: the
casts that are inserted have other names. -/
theorem Frame.result_iff (hc : src.Closed) (hx : x ∈ src.instructions) (ci : InstId) (n : Nat) :
    fr.erase.Result ci (x.getOperand n) ↔ fr.Result ci (x.getOperand n) := by
  unfold Frame.Result
  refine or_congr Iff.rfl ⟨?_, ?_⟩
  · rintro ⟨u, hu, hcast⟩
    exact ⟨u, (Frame.mem_erase.1 hu).1, hcast⟩
  · rintro ⟨u, hu, hop, hoperand, hv⟩
    refine ⟨u, Frame.mem_erase.2 ⟨hu, ?_⟩, hop, hoperand, hv⟩
    obtain ⟨d, hd, hid⟩ := hc x hx u.id (getArgOperand_mem hv)
    obtain ⟨k, hk⟩ := fromSource_iff.1 (src.given d hd).1
    exact fromSource_iff.2 ⟨k, hid.symm.trans hk⟩

theorem Frame.stores_erase (hc : src.Closed) (hx : x ∈ src.instructions)
    (hfun : fr.blocks = (runOnFunction src.toFunction).function.blocks) (bytes : List (BitVec 8)) :
    fr.erase.stores address x bytes = fr.stores address x bytes := by
  have hany : (fr.erase.blocks.flatten.any fun ci =>
      ci.opcode.allocates && fr.erase.Result ci.id (x.getOperand 0)) =
      fr.blocks.flatten.any fun ci =>
        ci.opcode.allocates && fr.Result ci.id (x.getOperand 0) := by
    rw [Bool.eq_iff_iff, List.any_eq_true, List.any_eq_true]
    simp only [Bool.and_eq_true, decide_eq_true_eq, Frame.result_iff hc hx]
    constructor
    · rintro ⟨ci, hci, hal, hr⟩
      exact ⟨ci, (Frame.mem_erase.1 hci).1, hal, hr⟩
    · rintro ⟨ci, hci, hal, hr⟩
      refine ⟨ci, Frame.mem_erase.2 ⟨hci, ?_⟩, hal, hr⟩
      rw [hfun] at hci
      exact (src.given ci (runOnFunction_allocates src ci hci hal)).1
  unfold Frame.stores
  rw [hany, Frame.passed_erase hc hx]

theorem Frame.memoryAfter_erase (hc : src.Closed) (hx : x ∈ src.instructions)
    (hfun : fr.blocks = (runOnFunction src.toFunction).function.blocks) (memory : Memory)
    (effect : Effect) :
    fr.erase.memoryAfter address memory x effect = fr.memoryAfter address memory x effect := by
  cases effect with
  | store bytes =>
    simp only [Frame.memoryAfter, Frame.stores_erase hc hx hfun, Frame.passed_erase hc hx]
  | _ => rfl

/-! ### Steps at instructions of the source -/

theorem Frame.events_source (hx : x.fromSource = true) : fr.events counter x = some [] := by
  obtain ⟨n, hn⟩ := fromSource_iff.1 hx
  rw [Frame.events, hn]

theorem Frame.counter_source (hx : x ∈ src.instructions) : fr.counter counter x = some counter := by
  have hne : x.getOperand 1 ≠ ima_tag_count := (getOperand_ne (src.given x hx).2 1).1
  unfold Frame.counter
  split
  · exact if_neg hne
  · rfl

/-- A function starts with its own first instruction. -/
theorem Module.entry_erase (hm : m.Verified) (name : String) (arguments : List (BitVec 32)) :
    m.sourceEntry name arguments = (m.entry name arguments).map Frame.erase := by
  unfold Module.sourceEntry Module.entry
  cases hsrc : m name with
  | none => rfl
  | some src =>
    have hsources := runOnFunction_source (hm name src hsrc).closed
    have hhead : ((runOnFunction src.toFunction).function.blocks.headD []).filter
        Instruction.fromSource = src.blocks.headD [] := by
      rw [← hsources, Function.sources]
      cases (runOnFunction src.toFunction).function.blocks <;> rfl
    simp only [Option.bind_eq_bind, Option.bind_some, Option.map_some, Option.some.injEq,
      Frame.erase, hhead, Frame.mk.injEq, true_and, and_true]
    refine ⟨hsources.symm, funext fun id => ?_⟩
    cases id <;> rfl

/-- The frame a call returns to. -/
theorem Module.returns_erase {allocations : Nat} {blocks : Nat → Option Block}
    (hw : ∀ g ∈ frames, g.Suspended address allocations blocks) :
    m.returns 0 v (frames.map Frame.erase) =
      (m.returns counter v frames).map (List.map Frame.erase) := by
  cases frames with
  | nil => rfl
  | cons caller frames =>
    obtain ⟨⟨src, trace, call, rest, htrace, hr, hcall, -⟩, -⟩ := List.forall_mem_cons.1 hw
    have hrest : caller.erase.rest = call :: rest.filter Instruction.fromSource := by
      rw [Frame.erase, hr, List.filter_cons, if_pos (src.given call hcall).1]
    simp only [List.map_cons, Module.returns, hr, hrest]
    cases m.defines call.opcode with
    | none => rfl
    | some name =>
      have hexec : caller.erase.execute 0 call (rest.filter Instruction.fromSource) v =
          (caller.execute counter call rest v).map Frame.erase :=
        Frame.execute_erase htrace.verified.closed hcall
      simp only [hexec]
      cases caller.execute counter call rest v <;> rfl

/-- At an instruction of the source both do the same. -/
theorem SourceState.stepAt_erase (hm : m.Verified) (hc : src.Closed) (hx : x ∈ src.instructions)
    {s : State} {allocations : Nat} {blocks : Nat → Option Block}
    (hw : ∀ g ∈ frames, g.Suspended address allocations blocks) (choice : Choice) :
    SourceState.stepAt m fr.erase (frames.map Frame.erase) x
        (rest.filter Instruction.fromSource) choice =
      (s.stepAt m fr frames x rest choice).map fun s' => s'.frames.map Frame.erase := by
  have hsource : x.fromSource = true := (src.given x hx).1
  have hvalue : ∀ v : BitVec 32,
      (if (!x.opcode.allocates) = true ∧ (m.defines x.opcode).isSome = true then none
        else do
          let fr ← fr.erase.execute 0 x (rest.filter Instruction.fromSource) v
          some (fr :: frames.map Frame.erase)) =
      (if x.opcode.allocates = true then do
          let fr ← fr.execute s.ima_tag_count x rest v
          let allocation := Function.update fr.allocation x.id (some s.allocations)
          some { s with
            allocations := s.allocations + 1
            frames := { fr with allocation := allocation } :: frames }
        else if x.fromSource = true ∧ (m.defines x.opcode).isSome = true then none
        else do
          let fr' ← fr.execute s.ima_tag_count x rest v
          let counter ← fr.counter s.ima_tag_count x
          some { s with ima_tag_count := counter, frames := fr' :: frames }).map
        fun s' => s'.frames.map Frame.erase := by
    intro v
    have hexec : fr.erase.execute 0 x (rest.filter Instruction.fromSource) v =
        (fr.execute s.ima_tag_count x rest v).map Frame.erase := Frame.execute_erase hc hx
    rw [hexec, Frame.counter_source hx]
    by_cases hal : x.opcode.allocates = true
    · rw [if_pos hal, if_neg fun hn => by simp [hal] at hn]
      cases fr.execute s.ima_tag_count x rest v <;> rfl
    · rw [if_neg hal]
      by_cases hdefines : (m.defines x.opcode).isSome = true
      · rw [if_pos ⟨by simpa using hal, hdefines⟩, if_pos ⟨hsource, hdefines⟩]
        rfl
      · rw [if_neg fun hn => hdefines hn.2, if_neg fun hn => hdefines hn.2]
        cases fr.execute s.ima_tag_count x rest v <;> rfl
  unfold SourceState.stepAt State.stepAt
  cases hop : x.opcode with
  | ReturnInst =>
    cases choice with
    | value v =>
      have hreturns : m.returns 0 v (frames.map Frame.erase) =
          (m.returns s.ima_tag_count v frames).map (List.map Frame.erase) :=
        Module.returns_erase hw
      simp only [hreturns]
      cases m.returns s.ima_tag_count v frames <;> rfl
    | _ => rfl
  | BranchInst successors =>
    cases choice with
    | successor n =>
      have hblock : fr.erase.blocks[n]? = (fr.blocks[n]?).map (List.filter Instruction.fromSource) :=
        List.getElem?_map ..
      simp only [hblock]
      split
      · cases fr.blocks[n]? <;> rfl
      · rfl
    | _ => rfl
  | CallInst callee =>
    cases choice with
    | enter name arguments =>
      simp only [hsource, true_and, Module.entry_erase hm]
      split_ifs
      · rfl
      · cases m.entry name arguments <;> rfl
      · rfl
    | value v => simpa only [hop] using hvalue v
    | successor n => rfl
  | _ =>
    cases choice with
    | value v => simpa only [hop] using hvalue v
    | _ => rfl

theorem SourceState.asks_erase (hc : src.Closed) (hx : x ∈ src.instructions) (t : MemoryState)
    (choice : Choice) :
    SourceState.asks address fr.erase x choice = (t.record address fr x choice).isSome := by
  unfold SourceState.asks MemoryState.record
  cases choice with
  | value v =>
    simp only [Frame.requested_erase hc hx]
    by_cases hal : x.opcode.allocates = true
    · rw [if_pos hal, hal]
      cases fr.requested address x <;> rfl
    · rw [if_neg hal]
      simp [hal]
  | _ => rfl

end

namespace MemoryState

variable {m : Module} {address : String → BitVec 32} {t t' : MemoryState} {fr : Frame}
  {frames : List Frame} {x i : Instruction} {rest : List Instruction} {event : Choice × Effect}
  {events : List (Choice × Effect)}

/-- At an instruction of the source, the module before the pass takes the same step. -/
theorem step_erase (hm : m.Verified) (h : t.Invariant address) (hf : t.state.frames = fr :: frames)
    (hr : fr.rest = x :: rest) (hx : x.fromSource = true) (event : Choice × Effect) :
    SourceState.step m address t.erase event = (t.step m address event).map erase := by
  unfold Invariant at h
  rw [hf] at h
  obtain ⟨⟨src, trace, known, hat⟩, hw⟩ := h
  obtain ⟨hmem, -⟩ := (hr ▸ hat.attached).source_inv hx
  have hc := hat.traced.verified.closed
  have hrest : fr.erase.rest = x :: rest.filter Instruction.fromSource := by
    rw [Frame.erase, hr, List.filter_cons, if_pos hx]
  have hnext : t.state.next = some (fr, x) := by
    rw [State.next, hf]
    simp [hr]
  have hstep : t.state.step m event.1 = t.state.stepAt m fr frames x rest event.1 := by
    unfold State.step
    simp only [hf, hr, Frame.events_source hx]
    rfl
  have hstepAt : SourceState.stepAt m fr.erase (frames.map Frame.erase) x
      (rest.filter Instruction.fromSource) event.1 =
      (t.state.stepAt m fr frames x rest event.1).map fun s' => s'.frames.map Frame.erase :=
    SourceState.stepAt_erase hm hc hmem hw event.1
  unfold SourceState.step MemoryState.step
  simp only [erase, hf, List.map_cons, hrest, hnext, Frame.memoryAfter_erase hc hmem
    hat.traced.function, Frame.casts_erase hc hmem, SourceState.asks_erase hc hmem t, hstep, hstepAt,
    Option.bind_eq_bind, Option.bind_some]
  cases fr.memoryAfter address t.memory x event.2 with
  | none => rfl
  | some memory =>
    cases t.record address fr x event.1 with
    | none => simp
    | some blocks =>
      simp only [Option.bind_some, Option.isSome_some, Bool.and_true]
      split_ifs
      · cases t.state.stepAt m fr frames x rest event.1 <;> rfl
      · rfl

/-- A step at an inserted instruction does not show. -/
theorem erase_inserted (h : t.Invariant address) (hf : t.state.frames = fr :: frames)
    (hr : fr.rest = i :: rest) (hi : i.fromSource = false)
    (hs : t.step m address event = some t') : t'.erase = t.erase := by
  obtain ⟨fr', i', frames', rest', _, -, hf', hr', -, hmemory, -, -, hs⟩ := step_spec hs
  obtain ⟨rfl, rfl⟩ := List.cons.inj (hf.symm.trans hf')
  obtain ⟨rfl, rfl⟩ := List.cons.inj (hr.symm.trans hr')
  unfold Invariant at h
  rw [hf] at h
  obtain ⟨⟨src, trace, known, hat⟩, -⟩ := h
  obtain ⟨hal, hreturn, hbranch⟩ := (hr ▸ hat.attached).inserted hi
  rcases State.stepAt_cases hs with ⟨_, _, -, hal', -⟩ | ⟨fr', v, c', -, -, hfr', -, hs'⟩ |
    ⟨_, hop, -⟩ | ⟨_, _, _, hsource, -⟩ | ⟨hop, -⟩
  · cases hal.symm.trans hal'
  · obtain ⟨result, rfl, -, -⟩ := Frame.execute_spec hfr'
    have hrest : ({ fr with rest := rest } : Frame).erase = fr.erase := by
      simp only [Frame.erase, hr, List.filter_cons, hi, if_neg Bool.false_ne_true]
    simp only [erase, memoryAfter_inserted hi hmemory, hs', hf, List.map_cons,
      Frame.erase_update hi, hrest]
  · exact absurd hop (hbranch _)
  · cases hi.symm.trans hsource
  · exact absurd hop hreturn

/-- What is seen of a step is what the module before the pass does. -/
theorem erase_step (hm : m.Verified) (h : t.Invariant address)
    (hs : t.step m address event = some t') :
    Lib.run (SourceState.step m address) t.erase (t.seen event) = some t'.erase := by
  obtain ⟨fr, i, frames, rest, _, hnext, hf, hr, -⟩ := step_spec hs
  unfold seen
  rw [hnext]
  cases hi : i.fromSource with
  | false =>
    simp only [hi, Bool.false_eq_true, if_false, Lib.run_nil, erase_inserted h hf hr hi hs]
  | true =>
    simp only [hi, if_true]
    have hone := step_erase hm h hf hr hi event
    rw [hs, Option.map_some] at hone
    rw [Lib.run_cons_of hone, Lib.run_nil]

/-- The run of an instrumented module, without what is inserted, is a run of the module. -/
theorem run_erased (hm : m.Verified) (h : t.Invariant address)
    (hr : Lib.run (MemoryState.step m address) t events = some t') :
    Lib.run (SourceState.step m address) t.erase
        (Lib.emitted (MemoryState.step m address) seen t events) = some t'.erase ∧
      t'.Invariant address := by
  have hstep : ∀ (t : MemoryState) (s : SourceState) (event : Choice × Effect) (t' : MemoryState),
      (t.Invariant address ∧ s = t.erase) → t.step m address event = some t' →
      ∃ s', Lib.run (SourceState.step m address) s (t.seen event) = some s' ∧
        t'.Invariant address ∧ s' = t'.erase := by
    rintro t _ event t' ⟨h, rfl⟩ hs
    exact ⟨t'.erase, erase_step hm h hs, h.step hm hs, rfl⟩
  obtain ⟨s', hrun, hinv, rfl⟩ := Lib.emitted_run hstep ⟨h, rfl⟩ hr
  exact ⟨hrun, hinv⟩

end MemoryState

end Dytan.IMA
