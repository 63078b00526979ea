import Dytan.IMA.Execution
import Dytan.IMA.Grouped

/-!
# The ids of allocations

`State.step_invariant`: whatever an execution does with the counter is a `Lib.Ticket.History`: the tag
calls of an execution of an allocation call pass what was loaded right after it, and the counter is
advanced after a tag call, to one more than that. `Frame.Position` says where a frame is in between.

`State.ids_iff`: the ids are as they should be if and only if the allocations are `InOrder`.
-/

namespace Dytan.IMA

open Lib.Ticket

/-! ## A step -/

section
variable {m : Module} {s s' : State} {fr fr' : Frame} {frames : List Frame} {i : Instruction}
  {rest : List Instruction} {choice : Choice} {c v : BitVec 32}

theorem Frame.execute_spec (h : fr.execute c i rest v = some fr') :
    ∃ result, fr' = { fr with rest := rest, value := Function.update fr.value i.id (some result) } ∧
      (i.opcode = .LoadInst → i.getOperand 0 = ima_tag_count → result = c) ∧
      (i.opcode = .Add → ∃ x y, fr.eval (i.getOperand 0) = some x ∧
        fr.eval (i.getOperand 1) = some y ∧ result = x + y) := by
  obtain ⟨result, hresult, rfl⟩ := Option.map_eq_some_iff.1 h
  unfold Frame.result at hresult
  refine ⟨result, rfl, fun hop hcounter => ?_, fun hop => ?_⟩
  · rw [hop] at hresult
    simpa only [hcounter, if_true, Option.some.injEq, eq_comm] using hresult
  · rw [hop] at hresult
    obtain ⟨x, hx, hresult⟩ := Option.bind_eq_some_iff.1 hresult
    obtain ⟨y, hy, hresult⟩ := Option.bind_eq_some_iff.1 hresult
    exact ⟨x, y, hx, hy, (Option.some.inj hresult).symm⟩

/-- What a step can do: an allocation, another instruction of the frame, a branch, a call of a
function of the module, and a return. -/
theorem State.stepAt_cases (h : s.stepAt m fr frames i rest choice = some s') :
    (∃ fr' v, choice = .value v ∧ i.opcode.allocates = true ∧
      fr.execute s.ima_tag_count i rest v = some fr' ∧ s' = { s with
        allocations := s.allocations + 1
        frames := { fr' with
          allocation := Function.update fr'.allocation i.id (some s.allocations) } :: frames }) ∨
    (∃ fr' v counter, choice = .value v ∧ i.opcode.allocates = false ∧
      fr.execute s.ima_tag_count i rest v = some fr' ∧ fr.counter s.ima_tag_count i = some counter ∧
      s' = { s with ima_tag_count := counter, frames := fr' :: frames }) ∨
    (∃ successors, i.opcode = .BranchInst successors ∧ ∃ n ∈ successors, ∃ b,
      fr.blocks[n]? = some b ∧ s' = { s with frames := { fr with rest := b } :: frames }) ∨
    (∃ name arguments callee, i.fromSource ∧ i.opcode.allocates = false ∧
      m.entry name arguments = some callee ∧ s' = { s with frames := callee :: fr :: frames }) ∨
    (i.opcode = .ReturnInst ∧ ∃ v frames', m.returns s.ima_tag_count v frames = some frames' ∧
      s' = { s with frames := frames' }) := by
  unfold State.stepAt at h
  split at h
  · rename_i v hop
    obtain ⟨frames', hframes, h⟩ := Option.bind_eq_some_iff.1 h
    exact .inr (.inr (.inr (.inr ⟨hop, v, frames', hframes, (Option.some.inj h).symm⟩)))
  · rename_i successors n hop
    split_ifs at h with hn
    obtain ⟨b, hb, h⟩ := Option.bind_eq_some_iff.1 h
    exact .inr (.inr (.inl ⟨successors, hop, n, hn, b, hb, (Option.some.inj h).symm⟩))
  · cases h
  · rename_i name arguments hop
    split_ifs at h with hal henter
    obtain ⟨callee, hcallee, h⟩ := Option.bind_eq_some_iff.1 h
    exact .inr (.inr (.inr (.inl ⟨name, arguments, callee, henter.1, Bool.eq_false_of_not_eq_true hal,
      hcallee, (Option.some.inj h).symm⟩)))
  · rename_i v _ _
    split_ifs at h with hal hdef
    · obtain ⟨fr', hfr', h⟩ := Option.bind_eq_some_iff.1 h
      exact .inl ⟨fr', v, rfl, hal, hfr', (Option.some.inj h).symm⟩
    · obtain ⟨fr', hfr', h⟩ := Option.bind_eq_some_iff.1 h
      obtain ⟨counter, hcounter, h⟩ := Option.bind_eq_some_iff.1 h
      exact .inr (.inl ⟨fr', v, counter, rfl, Bool.eq_false_of_not_eq_true hal, hfr', hcounter,
        (Option.some.inj h).symm⟩)
  · cases h

end

/-! ## Where a frame is -/

section
variable {loaded : Set InstId} {events new : List (Event 32)} {allocations allocations' : Nat}
  {fr : Frame} {ci : InstId} {i : Instruction} {rest : List Instruction}

/-- What is loaded for the call `ci`, if anything, is the ticket of its last execution. -/
def Frame.Holds (loaded : Set InstId) (events : List (Event 32)) (fr : Frame) (ci : InstId) : Prop :=
  ∀ v, fr.value (.load_ima_tag_count ci) = some v →
    ci ∈ loaded ∧ ∃ n, fr.allocation ci = some n ∧ .draw n v ∈ events

/-- Where the frame at work is: between the instructions of the source and whole groups, after an
allocation call, after a last tag, after the addition. -/
inductive Frame.Position (loaded : Set InstId) (events : List (Event 32)) (allocations : Nat)
    (fr : Frame) : Prop
  | between : Grouped loaded fr.rest → (∀ c, fr.Holds loaded events c) →
      Position loaded events allocations fr
  | allocated {ci : InstId} {n : Nat} {rest : List Instruction} :
      fr.rest = loadCounter ci :: rest → Grouped loaded rest → ci ∈ loaded →
      (∀ c, c ≠ ci → fr.Holds loaded events c) → fr.allocation ci = some n → n < allocations →
      (∀ m v, .draw m v ∈ events → m < n) → Position loaded events allocations fr
  | tagged {ci : InstId} {n : Nat} {v : BitVec 32} {rest : List Instruction} :
      fr.rest = incCounter ci :: storeCounter ci :: rest → Grouped loaded rest →
      (∀ c, fr.Holds loaded events c) → fr.allocation ci = some n →
      fr.value (.load_ima_tag_count ci) = some v → .use n v ∈ events →
      Position loaded events allocations fr
  | incremented {ci : InstId} {n : Nat} {v : BitVec 32} {rest : List Instruction} :
      fr.rest = storeCounter ci :: rest → Grouped loaded rest →
      (∀ c, fr.Holds loaded events c) → fr.allocation ci = some n →
      fr.value (.inc_ima_tag_count ci) = some (v + 1) → .draw n v ∈ events → .use n v ∈ events →
      Position loaded events allocations fr

/-- The frame at work. -/
def Frame.Running (events : List (Event 32)) (allocations : Nat) (fr : Frame) : Prop :=
  ∃ loaded, (∀ b ∈ fr.blocks, Grouped loaded b) ∧ fr.Position loaded events allocations

/-- A frame that waits for a call of the source to return. -/
def Frame.Waiting (events : List (Event 32)) (fr : Frame) : Prop :=
  ∃ loaded, (∀ b ∈ fr.blocks, Grouped loaded b) ∧ (∀ c, fr.Holds loaded events c) ∧
    ∃ call rest, fr.rest = call :: rest ∧ call.Plain loaded ∧ call.fromSource ∧
      call.opcode.allocates = false ∧ Grouped loaded rest

theorem Frame.Holds.mono (h : fr.Holds loaded events ci) :
    fr.Holds loaded (events ++ new) ci := by
  intro v hv
  obtain ⟨hci, n, hn, hdraw⟩ := h v hv
  exact ⟨hci, n, hn, List.mem_append_left _ hdraw⟩

theorem Frame.Waiting.mono (h : fr.Waiting events) : fr.Waiting (events ++ new) := by
  obtain ⟨loaded, hblocks, hholds, hcall⟩ := h
  exact ⟨loaded, hblocks, fun c => (hholds c).mono, hcall⟩

def Stack (events : List (Event 32)) (allocations : Nat) : List Frame → Prop
  | [] => True
  | fr :: frames => fr.Running events allocations ∧ ∀ g ∈ frames, g.Waiting events

/-- What an execution has done so far with a counter that was `c`. -/
structure State.Invariant (c : BitVec 32) (events : List (Event 32)) (s : State) : Prop where
  history : History c events
  counter : s.ima_tag_count = counter c events
  drawn : ∀ n v, .draw n v ∈ events → n < s.allocations
  frames : Stack events s.allocations s.frames

/-- A call that is not followed leaves what is loaded alone, and so does an instruction that loads
nothing. -/
theorem Frame.Holds.update (h : fr.Holds loaded events ci) {result : BitVec 32}
    (hid : i.id ≠ .load_ima_tag_count ci) {rest : List Instruction} :
    Frame.Holds loaded events
      { fr with rest := rest, value := Function.update fr.value i.id (some result) } ci := by
  intro v hv
  have hv' : fr.value (.load_ima_tag_count ci) = some v :=
    (Function.update_of_ne hid.symm (some result) fr.value).symm.trans hv
  exact h v hv'

theorem Frame.Holds.allocate {n : Nat} (h : fr.Holds loaded events ci) (hne : ci ≠ i.id) :
    Frame.Holds loaded events
      { fr with allocation := Function.update fr.allocation i.id (some n) } ci := by
  intro v hv
  obtain ⟨hci, k, hk, hdraw⟩ := h v hv
  exact ⟨hci, k, (Function.update_of_ne hne _ _).trans hk, hdraw⟩

theorem Frame.Holds.of_notMem (h : fr.Holds loaded events ci) (hci : ci ∉ loaded)
    {allocation : InstId → Option Nat} :
    Frame.Holds loaded events { fr with allocation := allocation } ci := by
  intro v hv
  exact absurd (h v hv).1 hci

end

/-! ## Steps keep the invariant -/

section
variable {m : Module} {s s' : State} {fr fr' : Frame} {frames : List Frame} {i : Instruction}
  {rest : List Instruction} {choice : Choice} {c v : BitVec 32} {events new : List (Event 32)}
  {loaded : Set InstId}

theorem events_tag {ci : InstId}
    (htag : (∃ si, i = tagPointer ci si) ∨ ∃ si second, i = tagMemory ci si second)
    (h : fr.events c i = some new) :
    ∃ n v, fr.allocation ci = some n ∧ fr.value (.load_ima_tag_count ci) = some v ∧
      new = [.use n v] := by
  have hevents : fr.events c i = (fr.allocation ci).bind fun n =>
      (fr.value (.load_ima_tag_count ci)).bind fun v => some [.use n v] := by
    rcases htag with ⟨si, rfl⟩ | ⟨si, second, rfl⟩ <;> rfl
  rw [hevents] at h
  obtain ⟨n, hn, h⟩ := Option.bind_eq_some_iff.1 h
  obtain ⟨v, hv, h⟩ := Option.bind_eq_some_iff.1 h
  exact ⟨n, v, hn, hv, (Option.some.inj h).symm⟩

/-- The events of an instruction that does not touch the counter: a tag call uses a ticket drawn for
the allocation it is for. -/
theorem events_plain (hi : i.Plain loaded) (hholds : ∀ ci, fr.Holds loaded events ci)
    (h : fr.events c i = some new) :
    new = [] ∨ ∃ n v, .draw n v ∈ events ∧ new = [.use n v] := by
  have htag : ∀ ci, (∃ si, i = tagPointer ci si) ∨ (∃ si second, i = tagMemory ci si second) →
      ∃ n v, .draw n v ∈ events ∧ new = [.use n v] := by
    intro ci hci
    obtain ⟨n, v, hn, hv, hnew⟩ := events_tag hci h
    obtain ⟨-, n', hn', hdraw⟩ := hholds ci v hv
    obtain rfl : n = n' := Option.some.inj (hn.symm.trans hn')
    exact ⟨n, v, hdraw, hnew⟩
  have hkind := hi.kind
  cases hid : i.id with
  | tag_pointer ci si =>
    rw [hid] at hkind
    exact .inr (htag ci (.inl ⟨si, hkind⟩))
  | tag_memory ci si =>
    rw [hid] at hkind
    exact .inr (htag ci (.inr ⟨si, hkind⟩))
  | load_ima_tag_count | inc_ima_tag_count | store_ima_tag_count =>
    rw [hid] at hkind
    exact hkind.elim
  | source | bitcast_inst | second | tag_free =>
    unfold Frame.events at h
    rw [hid] at h
    exact .inl (Option.some.inj h).symm

/-- A use of a ticket that was drawn. -/
theorem history_uses (h : History c events)
    (hnew : new = [] ∨ ∃ n v, .draw n v ∈ events ∧ new = [.use n v]) :
    History c (events ++ new) ∧ counter c (events ++ new) = counter c events ∧
      ∀ n v, .draw n v ∈ events ++ new → .draw n v ∈ events := by
  rcases hnew with rfl | ⟨n, v, hdraw, rfl⟩
  · rw [List.append_nil]
    exact ⟨h, rfl, fun _ _ hd => hd⟩
  · exact ⟨h.concat hdraw, counter_concat _, fun k u hd => by simpa using hd⟩

/-- An instruction that does not write the counter. -/
theorem Instruction.Plain.counter_eq (hi : i.Plain loaded) : fr.counter c i = some c := by
  have hne := (getOperand_ne hi.counter 1).1
  unfold Frame.counter
  split
  · rw [if_neg hne]
  · rfl

theorem Instruction.Plain.ne_load (hi : i.Plain loaded) (ci : InstId) :
    i.id ≠ .load_ima_tag_count ci := by
  intro hid
  have hkind := hi.kind
  rw [hid] at hkind
  exact hkind

theorem fromSource_ne_load (hi : i.fromSource) (ci : InstId) :
    i.id ≠ .load_ima_tag_count ci := by
  obtain ⟨n, hn⟩ := fromSource_iff.1 hi
  rw [hn]
  exact InstId.noConfusion

theorem Frame.Position.execute_plain {allocations : Nat} (hi : i.Plain loaded)
    (hrest : Grouped loaded rest) (hholds : ∀ ci, fr.Holds loaded events ci)
    (h : fr.execute c i rest v = some fr') :
    fr'.blocks = fr.blocks ∧ fr'.Position loaded (events ++ new) allocations := by
  obtain ⟨result, rfl, -, -⟩ := Frame.execute_spec h
  exact ⟨rfl, .between hrest fun ci => ((hholds ci).update (hi.ne_load ci)).mono⟩

/-- A frame of the instrumented module, about to run. -/
theorem Module.entry_running {name : String} {arguments : List (BitVec 32)} {allocations : Nat}
    (h : m.entry name arguments = some fr) : fr.Running events allocations := by
  obtain ⟨src, -, h⟩ := Option.bind_eq_some_iff.1 h
  obtain rfl := Option.some.inj h
  obtain ⟨loaded, hblocks⟩ := runOnFunction_grouped src
  refine ⟨loaded, hblocks, .between ?_ fun ci v hv => absurd hv (Option.some_ne_none v).symm⟩
  cases hb : (runOnFunction src.toFunction).function.blocks with
  | nil => exact .nil
  | cons b bs => exact hblocks b (hb ▸ List.mem_cons_self)

/-- The frame a call returns to runs on. -/
theorem Module.returns_frames {frames' : List Frame} {allocations : Nat}
    (h : m.returns c v frames = some frames') (hw : ∀ g ∈ frames, g.Waiting events) :
    Stack events allocations frames' := by
  cases frames with
  | nil =>
    obtain rfl := Option.some.inj h
    trivial
  | cons caller frames =>
    obtain ⟨⟨loaded, hblocks, hholds, call, rest, hcall, hplain, -, hal, hrest⟩, hw⟩ :=
      List.forall_mem_cons.1 hw
    unfold Module.returns at h
    simp only [hcall] at h
    split at h
    · obtain ⟨fr', hfr', h⟩ := Option.bind_eq_some_iff.1 h
      obtain rfl := Option.some.inj h
      obtain ⟨hb, hpos⟩ := @Frame.Position.execute_plain caller fr' call rest c v events [] loaded
        allocations hplain hrest hholds hfr'
      rw [List.append_nil] at hpos
      exact ⟨⟨loaded, hb ▸ hblocks, hpos⟩, hw⟩
    · obtain rfl := Option.some.inj h
      exact ⟨⟨loaded, hblocks, .between (hcall ▸ .plain hplain hrest) hholds⟩, hw⟩

theorem Frame.Waiting.mono_all (h : ∀ g ∈ frames, g.Waiting events) :
    ∀ g ∈ frames, g.Waiting (events ++ new) := fun g hg => (h g hg).mono

/-- A step at an instruction that is not inserted around the counter. -/
theorem State.Invariant.step_plain (h : s.Invariant c events) (hf : s.frames = fr :: frames)
    (hr : fr.rest = i :: rest) (hblocks : ∀ b ∈ fr.blocks, Grouped loaded b)
    (hholds : ∀ ci, fr.Holds loaded events ci) (hi : i.Plain loaded) (hrest : Grouped loaded rest)
    (hnew : fr.events s.ima_tag_count i = some new)
    (hs : s.stepAt m fr frames i rest choice = some s') : s'.Invariant c (events ++ new) := by
  have hframes := h.frames
  rw [hf] at hframes
  have hwaiting : ∀ g ∈ frames, g.Waiting (events ++ new) := Frame.Waiting.mono_all hframes.2
  obtain ⟨hhistory, hcounter, hdrawn⟩ := history_uses h.history (events_plain hi hholds hnew)
  rcases State.stepAt_cases hs with ⟨fr', v, -, -, hfr', rfl⟩ | ⟨fr', v, c', -, -, hfr', hc', rfl⟩ |
    ⟨-, -, n, -, b, hb, rfl⟩ | ⟨name, arguments, callee, hsource, hal, hcallee, rfl⟩ |
    ⟨-, v, frames', hframes', rfl⟩
  · -- an allocation call that is not instrumented
    obtain ⟨result, rfl, -, -⟩ := Frame.execute_spec hfr'
    refine ⟨hhistory, h.counter.trans hcounter.symm, fun n v hd => ?_, ⟨loaded, hblocks, ?_⟩,
      hwaiting⟩
    · exact Nat.lt_succ_of_lt (h.drawn n v (hdrawn n v hd))
    · refine .between hrest fun ci => ?_
      have hupdate : Frame.Holds loaded (events ++ new) { fr with
          rest := rest, value := Function.update fr.value i.id (some result) } ci :=
        ((hholds ci).update (hi.ne_load ci)).mono
      by_cases hci : ci = i.id
      · exact hupdate.of_notMem (hci ▸ hi.notLoaded)
      · exact hupdate.allocate hci
  · obtain rfl := Option.some.inj (hi.counter_eq.symm.trans hc')
    obtain ⟨hb, hpos⟩ := Frame.Position.execute_plain hi hrest hholds hfr'
    exact ⟨hhistory, h.counter.trans hcounter.symm, fun n v hd => h.drawn n v (hdrawn n v hd),
      ⟨loaded, hb ▸ hblocks, hpos⟩, hwaiting⟩
  · exact ⟨hhistory, h.counter.trans hcounter.symm, fun n v hd => h.drawn n v (hdrawn n v hd),
      ⟨loaded, hblocks, .between (hblocks b (List.mem_of_getElem? hb)) fun ci => (hholds ci).mono⟩, hwaiting⟩
  · refine ⟨hhistory, h.counter.trans hcounter.symm, fun n v hd => h.drawn n v (hdrawn n v hd),
      Module.entry_running hcallee, List.forall_mem_cons.2 ⟨?_, hwaiting⟩⟩
    exact ⟨loaded, hblocks, fun ci => (hholds ci).mono, i, rest, hr, hi, hsource, hal, hrest⟩
  · refine ⟨hhistory, h.counter.trans hcounter.symm, fun n v hd => h.drawn n v (hdrawn n v hd), ?_⟩
    exact Module.returns_frames hframes' hwaiting

/-- The steps at the instructions around the counter stay in the frame. -/
theorem State.stepAt_local (hs : s.stepAt m fr frames i rest choice = some s')
    (hal : i.opcode.allocates = false) (hsource : i.fromSource = false)
    (hbranch : ∀ successors, i.opcode ≠ .BranchInst successors) (hreturn : i.opcode ≠ .ReturnInst) :
    ∃ fr' v c', fr.execute s.ima_tag_count i rest v = some fr' ∧
      fr.counter s.ima_tag_count i = some c' ∧
      s' = { s with ima_tag_count := c', frames := fr' :: frames } := by
  rcases State.stepAt_cases hs with ⟨fr', v, -, hal', -, -⟩ | ⟨fr', v, c', -, -, hfr', hc', rfl⟩ |
    ⟨successors, hop, -⟩ | ⟨_, _, _, hsource', -⟩ | ⟨hop, -⟩
  · rw [hal] at hal'
    cases hal'
  · exact ⟨fr', v, c', hfr', hc', rfl⟩
  · exact absurd hop (hbranch successors)
  · rw [hsource] at hsource'
    cases hsource'
  · exact absurd hop hreturn

/-- An allocation call that is instrumented. -/
theorem State.Invariant.step_allocation (h : s.Invariant c events) (hf : s.frames = fr :: frames)
    (hblocks : ∀ b ∈ fr.blocks, Grouped loaded b) (hholds : ∀ ci, fr.Holds loaded events ci)
    (hi : i.id ∈ loaded) (hsource : i.fromSource) (hal : i.opcode.allocates)
    (hrest : Grouped loaded rest)
    (hs : s.stepAt m fr frames i (loadCounter i.id :: rest) choice = some s') :
    s'.Invariant c events := by
  have hframes := h.frames
  rw [hf] at hframes
  rcases State.stepAt_cases hs with ⟨fr', v, -, -, hfr', rfl⟩ | ⟨fr', v, c', -, hal', -⟩ |
    ⟨successors, hop, -⟩ | ⟨_, _, _, -, hal', -⟩ | ⟨hop, -⟩
  · obtain ⟨result, rfl, -, -⟩ := Frame.execute_spec hfr'
    refine ⟨h.history, h.counter, fun n v hd => Nat.lt_succ_of_lt (h.drawn n v hd),
      ⟨loaded, hblocks, .allocated rfl hrest hi (fun ci hne => ?_) (Function.update_self _ _ _)
        (Nat.lt_succ_self _) h.drawn⟩, hframes.2⟩
    exact ((hholds ci).update (fromSource_ne_load hsource ci)).allocate hne
  · rw [hal] at hal'
    cases hal'
  · rw [hop] at hal
    cases hal
  · rw [hal] at hal'
    cases hal'
  · rw [hop] at hal
    cases hal

/-- The load after it. -/
theorem State.Invariant.step_load {ci : InstId} {n : Nat} (h : s.Invariant c events)
    (hf : s.frames = fr :: frames)
    (hblocks : ∀ b ∈ fr.blocks, Grouped loaded b) (hrest : Grouped loaded rest) (hci : ci ∈ loaded)
    (hholds : ∀ x, x ≠ ci → fr.Holds loaded events x) (hn : fr.allocation ci = some n)
    (hlt : n < s.allocations) (hfresh : ∀ k v, .draw k v ∈ events → k < n)
    (hs : s.stepAt m fr frames (loadCounter ci) rest choice = some s') :
    s'.Invariant c (events ++ [.draw n s.ima_tag_count]) := by
  have hframes := h.frames
  rw [hf] at hframes
  obtain ⟨fr', v, c', hfr', hc', rfl⟩ := State.stepAt_local hs rfl rfl (fun _ => Opcode.noConfusion)
    Opcode.noConfusion
  obtain ⟨result, rfl, hload, -⟩ := Frame.execute_spec hfr'
  obtain rfl := Option.some.inj hc'
  obtain rfl : result = s.ima_tag_count := hload rfl rfl
  refine ⟨h.history.concat ⟨h.counter, hfresh⟩, ?_, ?_,
    ⟨loaded, hblocks, .between hrest fun x => ?_⟩, Frame.Waiting.mono_all hframes.2⟩
  · rw [counter_concat]
    exact h.counter
  · intro k v hd
    rcases List.mem_append.1 hd with hd | hd
    · exact h.drawn k v hd
    · obtain ⟨rfl, -⟩ := Event.draw.inj (List.mem_singleton.1 hd)
      exact hlt
  · by_cases hx : x = ci
    · subst hx
      intro v hv
      have hv' : some s.ima_tag_count = some v :=
        (Function.update_self (loadCounter x).id _ fr.value).symm.trans hv
      obtain rfl := Option.some.inj hv'
      exact ⟨hci, n, hn, by simp⟩
    · refine ((hholds x hx).update ?_).mono
      exact fun he => hx (InstId.load_ima_tag_count.inj he).symm

/-- The last tag. -/
theorem State.Invariant.step_last {ci si : InstId} {second : Value} (h : s.Invariant c events)
    (hf : s.frames = fr :: frames)
    (hblocks : ∀ b ∈ fr.blocks, Grouped loaded b) (hrest : Grouped loaded rest)
    (hholds : ∀ x, fr.Holds loaded events x)
    (hnew : fr.events s.ima_tag_count (tagMemory ci si second) = some new)
    (hs : s.stepAt m fr frames (tagMemory ci si second) (incCounter ci :: storeCounter ci :: rest)
      choice = some s') : s'.Invariant c (events ++ new) := by
  have hframes := h.frames
  rw [hf] at hframes
  obtain ⟨n, v, hn, hv, rfl⟩ := events_tag (.inr ⟨si, second, rfl⟩) hnew
  obtain ⟨-, n', hn', hdraw⟩ := hholds ci v hv
  obtain rfl : n = n' := Option.some.inj (hn.symm.trans hn')
  obtain ⟨hhistory, hcounter, hdrawn⟩ := history_uses h.history (.inr ⟨n, v, hdraw, rfl⟩)
  obtain ⟨fr', w, c', hfr', hc', rfl⟩ := State.stepAt_local hs rfl rfl (fun _ => Opcode.noConfusion)
    Opcode.noConfusion
  obtain ⟨result, rfl, -, -⟩ := Frame.execute_spec hfr'
  obtain rfl := Option.some.inj hc'
  have hload : Function.update fr.value (tagMemory ci si second).id (some result)
      (.load_ima_tag_count ci) = some v :=
    (Function.update_of_ne InstId.noConfusion _ _).trans hv
  refine ⟨hhistory, h.counter.trans hcounter.symm, fun k u hd => h.drawn k u (hdrawn k u hd),
    ⟨loaded, hblocks, .tagged rfl hrest (fun x => ?_) hn hload (by simp)⟩,
    Frame.Waiting.mono_all hframes.2⟩
  exact ((hholds x).update InstId.noConfusion).mono

/-- The addition. -/
theorem State.Invariant.step_inc {ci : InstId} {n : Nat} (h : s.Invariant c events)
    (hf : s.frames = fr :: frames)
    (hblocks : ∀ b ∈ fr.blocks, Grouped loaded b) (hrest : Grouped loaded rest)
    (hholds : ∀ x, fr.Holds loaded events x) (hn : fr.allocation ci = some n)
    (hv : fr.value (.load_ima_tag_count ci) = some v) (huse : .use n v ∈ events)
    (hs : s.stepAt m fr frames (incCounter ci) (storeCounter ci :: rest) choice = some s') :
    s'.Invariant c events := by
  have hframes := h.frames
  rw [hf] at hframes
  obtain ⟨fr', w, c', hfr', hc', rfl⟩ := State.stepAt_local hs rfl rfl (fun _ => Opcode.noConfusion)
    Opcode.noConfusion
  obtain ⟨result, rfl, -, hadd⟩ := Frame.execute_spec hfr'
  obtain rfl := Option.some.inj hc'
  obtain ⟨x, y, hx, hy, rfl⟩ := hadd rfl
  obtain rfl : v = x := Option.some.inj (hv.symm.trans hx)
  obtain rfl : 1 = y := Option.some.inj hy
  refine ⟨h.history, h.counter, h.drawn, ⟨loaded, hblocks, .incremented rfl hrest (fun x => ?_) hn
    (Function.update_self _ _ _) (h.history.drawn huse) huse⟩, hframes.2⟩
  exact (hholds x).update InstId.noConfusion

/-- The store of the counter. -/
theorem State.Invariant.step_store {ci : InstId} {n : Nat} (h : s.Invariant c events)
    (hf : s.frames = fr :: frames)
    (hblocks : ∀ b ∈ fr.blocks, Grouped loaded b) (hrest : Grouped loaded rest)
    (hholds : ∀ x, fr.Holds loaded events x)
    (hv : fr.value (.inc_ima_tag_count ci) = some (v + 1)) (hdraw : .draw n v ∈ events)
    (huse : .use n v ∈ events)
    (hs : s.stepAt m fr frames (storeCounter ci) rest choice = some s') :
    s'.Invariant c (events ++ [.advance n (v + 1)]) := by
  have hframes := h.frames
  rw [hf] at hframes
  obtain ⟨fr', w, c', hfr', hc', rfl⟩ := State.stepAt_local hs rfl rfl (fun _ => Opcode.noConfusion)
    Opcode.noConfusion
  obtain ⟨result, rfl, -, -⟩ := Frame.execute_spec hfr'
  obtain rfl : v + 1 = c' := Option.some.inj (hv.symm.trans hc')
  refine ⟨h.history.concat ⟨v, hdraw, huse, rfl⟩, ?_, fun k u hd => ?_,
    ⟨loaded, hblocks, .between hrest fun x => ?_⟩, Frame.Waiting.mono_all hframes.2⟩
  · rw [counter_concat]
    rfl
  · exact h.drawn k u (by simpa using hd)
  · exact ((hholds x).update InstId.noConfusion).mono

/-- What an execution does with the counter is a history of it. -/
theorem State.step_invariant (h : s.Invariant c events) (hs : s.step m choice = some s') :
    s'.Invariant c (events ++ s.out choice) := by
  unfold State.step at hs
  split at hs
  · cases hs
  · rename_i fr frames hf
    split at hs
    · cases hs
    · rename_i i rest hr
      obtain ⟨new, hnew, hs⟩ := Option.bind_eq_some_iff.1 hs
      have hout : s.out choice = new := by
        unfold State.out
        simp only [hf, hr, hnew, Option.getD_some]
      have hframes := h.frames
      rw [hf] at hframes
      obtain ⟨⟨loaded, hblocks, hpos⟩, -⟩ := hframes
      rw [hout]
      cases hpos with
      | between hgrouped hholds =>
        rw [hr] at hgrouped
        cases hgrouped with
        | plain hi hrest => exact h.step_plain hf hr hblocks hholds hi hrest hnew hs
        | allocation hi hsource hal hrest =>
          obtain ⟨n, hid⟩ := fromSource_iff.1 hsource
          obtain rfl : [] = new := by
            unfold Frame.events at hnew
            rw [hid] at hnew
            exact Option.some.inj hnew
          rw [List.append_nil]
          exact h.step_allocation hf hblocks hholds hi hsource hal hrest hs
        | last hrest => exact h.step_last hf hblocks hrest hholds hnew hs
      | @allocated ci n rest' hr' hrest hci hholds hn hlt hfresh =>
        obtain ⟨rfl, rfl⟩ := List.cons.inj (hr.symm.trans hr')
        have hevents : fr.events s.ima_tag_count (loadCounter ci) = some [.draw n s.ima_tag_count] :=
          by simp [Frame.events, loadCounter, hn]
        obtain rfl := Option.some.inj (hevents.symm.trans hnew)
        exact h.step_load hf hblocks hrest hci hholds hn hlt hfresh hs
      | @tagged ci n v rest' hr' hrest hholds hn hv huse =>
        obtain ⟨rfl, rfl⟩ := List.cons.inj (hr.symm.trans hr')
        obtain rfl : [] = new := Option.some.inj hnew
        rw [List.append_nil]
        exact h.step_inc hf hblocks hrest hholds hn hv huse hs
      | @incremented ci n v rest' hr' hrest hholds hn hv hdraw huse =>
        obtain ⟨rfl, rfl⟩ := List.cons.inj (hr.symm.trans hr')
        have hevents : fr.events s.ima_tag_count (storeCounter ci) = some [.advance n (v + 1)] := by
          simp [Frame.events, storeCounter, Instruction.getOperand, Frame.eval, hn, hv]
        obtain rfl := Option.some.inj (hevents.symm.trans hnew)
        exact h.step_store hf hblocks hrest hholds hv hdraw huse hs

end

/-! ## The ids -/

/-- A function of the module is about to run. -/
def State.Starts (m : Module) (s : State) : Prop :=
  ∃ name arguments fr, m.entry name arguments = some fr ∧ s.frames = [fr]

/-- The events of an execution. -/
def State.events (m : Module) (s : State) (choices : List Choice) : List (Event 32) :=
  Lib.emitted (State.step m) State.out s choices

theorem State.Starts.invariant {m : Module} {s : State} (h : s.Starts m) :
    s.Invariant s.ima_tag_count [] := by
  obtain ⟨name, arguments, fr, hentry, hframes⟩ := h
  refine ⟨.nil, rfl, fun n v hd => absurd hd List.not_mem_nil, ?_⟩
  rw [hframes]
  exact ⟨Module.entry_running hentry, fun g hg => absurd hg List.not_mem_nil⟩

/-- In every execution of an instrumented module in which the counter does not wrap: different
allocations have different ids, and all tag calls of an allocation the same, if and only if for two
allocations that are tagged the counter was last advanced for the earlier one or for one after it
when it is loaded for the later. -/
theorem State.ids_iff {m : Module} {s s' : State} {choices : List Choice} (h : s.Starts m)
    (hr : Lib.run (State.step m) s choices = some s') (hw : NoWrap (s.events m choices)) :
    Unique (s.events m choices) ∧ Stable (s.events m choices) ↔ InOrder (s.events m choices) := by
  have hrun : s'.Invariant s.ima_tag_count ([] ++ s.events m choices) :=
    Lib.emitted_invariant (fun _ _ _ _ h hs => State.step_invariant h hs) h.invariant hr
  have hhistory : History s.ima_tag_count (s.events m choices) := hrun.history
  rw [← unique_iff_inOrder hhistory hw]
  exact and_iff_left hhistory.stable

/-! ## Two calls of malloc -/

/-- Instructions 0 and 1 call `malloc`, 2 and 3 store the pointers they return, 4 returns. -/
def twoMallocs (n : Nat) : Instruction :=
  if n < 2 then ⟨.source n, .CallInst (some "malloc"), [.constant 4]⟩
  else if n < 4 then ⟨.source n, .StoreInst, [.instruction (.source (n - 2)), .argument (n - 2)]⟩
  else ⟨.source n, .ReturnInst, []⟩

/-- A function with one block and uses as they are met. -/
def SourceFunction.straight (is : List Instruction)
    (given : ∀ i ∈ is, i.fromSource ∧ ima_tag_count ∉ i.operands)
    (nodup : (is.map Instruction.id).Nodup) : SourceFunction where
  blocks := [is]
  uses v := (users v is).reverse
  given i hi := given i (by simpa [Function.instructions] using hi)
  nodup := by simpa [Function.instructions] using nodup
  uses_perm v := by simp [Function.instructions]

/-- The second call comes after the store for the first in one function, before it in the other. -/
def twoMallocsModule : Module
  | "stored" => some (.straight ([0, 2, 1, 3, 4].map twoMallocs) (by decide) (by decide))
  | "pending" => some (.straight ([0, 1, 2, 3, 4].map twoMallocs) (by decide) (by decide))
  | _ => none

def twoMallocsStart (name : String) : State :=
  ⟨0, 0, (twoMallocsModule.entry name [0x100, 0x200]).toList⟩

/-- The calls return the same pointer, which is of no importance. -/
def twoMallocsRun : List Choice := List.replicate 17 (.value 0x1000)

theorem stored_events : (twoMallocsStart "stored").events twoMallocsModule twoMallocsRun =
    [.draw 0 0, .use 0 0, .use 0 0, .advance 0 1,
      .draw 1 1, .use 1 1, .use 1 1, .advance 1 2] := by decide

theorem pending_events : (twoMallocsStart "pending").events twoMallocsModule twoMallocsRun =
    [.draw 0 0, .draw 1 0, .use 0 0, .use 0 0, .advance 0 1,
      .use 1 0, .use 1 0, .advance 1 1] := by decide

theorem ids_iff_stored :
    Unique ((twoMallocsStart "stored").events twoMallocsModule twoMallocsRun) ∧
      Stable ((twoMallocsStart "stored").events twoMallocsModule twoMallocsRun) := by
  have hr : (Lib.run (State.step twoMallocsModule) (twoMallocsStart "stored")
      twoMallocsRun).isSome := by decide
  obtain ⟨s', hs'⟩ := Option.isSome_iff_exists.1 hr
  refine (State.ids_iff ⟨"stored", [0x100, 0x200], _, rfl, rfl⟩ hs' ?_).2 ?_
  · rw [stored_events]
    intro user next h
    simp only [List.mem_cons, reduceCtorEq, Event.advance.injEq, List.not_mem_nil, or_false,
      false_or] at h
    rcases h with ⟨-, rfl⟩ | ⟨-, rfl⟩ <;> decide
  · rw [stored_events]
    intro pre v ticket post he hv u huv hu
    simp only [List.cons_eq_append_iff, List.cons.injEq, Event.draw.injEq, reduceCtorEq, false_and,
      and_false, false_or, List.nil_eq_append_iff, exists_false, or_false] at he
    rcases he with ⟨-, ⟨rfl, -⟩, -⟩ | ⟨_, rfl, _, rfl, _, rfl, _, rfl, rfl, ⟨rfl, -⟩, -⟩
    · omega
    · exact ⟨0, rfl, by omega⟩

/-- When `malloc` is called a second time before the first pointer is stored, both allocations have
the id 0. -/
theorem pending_same_id :
    (twoMallocsStart "pending").Starts twoMallocsModule ∧
      (Lib.run (State.step twoMallocsModule) (twoMallocsStart "pending") twoMallocsRun).isSome ∧
      NoWrap ((twoMallocsStart "pending").events twoMallocsModule twoMallocsRun) ∧
      ¬ (Unique ((twoMallocsStart "pending").events twoMallocsModule twoMallocsRun) ∧
        Stable ((twoMallocsStart "pending").events twoMallocsModule twoMallocsRun)) := by
  refine ⟨⟨"pending", [0x100, 0x200], _, rfl, rfl⟩, by decide, ?_, ?_⟩
  · rw [pending_events]
    intro user next h
    simp only [List.mem_cons, reduceCtorEq, Event.advance.injEq, List.not_mem_nil, or_false,
      false_or] at h
    rcases h with ⟨-, rfl⟩ | ⟨-, rfl⟩ <;> decide
  · rw [pending_events]
    rintro ⟨hunique, -⟩
    exact absurd (hunique 0 1 0 (by decide) (by decide)) (by decide)

end Dytan.IMA
