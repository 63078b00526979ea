import Dytan.IMA.AllocationIds
import Dytan.Tool.Tags

/-!
# Allocations that fail

`Monitored`: an execution of an instrumented module with the tool, which runs its own functions in
place of those the pass calls, and may change the taint at any time.

`Monitored.Invariant`: what an allocation call of a frame returned last is the value the frame has for
it, so the memory that is tagged for an allocation that failed begins at address 0
(`ForFailed.memory`). `Monitored.failed_iff`: along an execution the calls made for allocations that
returned `NULL` change no tags if and only if each of them is harmless.
-/

namespace Dytan.IMA

/-- An execution of a module, the tool, and what each execution of an allocation call returned. -/
structure Monitored where
  state : State
  tool : Tool 32
  returned : Nat → Option (BitVec 32)

inductive Monitored.Event
  | execute (choice : Choice)
  /-- Whatever else the tool does. -/
  | other (tool : Tool 32)

/-- The frame and the instruction a step is about. -/
def State.next (s : State) : Option (Frame × Instruction) :=
  match s.frames with
  | [] => none
  | fr :: _ => fr.rest.head?.map (fr, ·)

/-- The value of an argument; the global variables are at `address`. -/
def Frame.passed (address : String → BitVec 32) (fr : Frame) (i : Instruction) (n : Nat) :
    Option (BitVec 32) :=
  match i.getArgOperand n with
  | .global name => some (address name)
  | v => fr.eval v

/-- What `ReplaceUserFunctions` has put in place of the function that `i` calls. -/
def Frame.replaced (address : String → BitVec 32) (fr : Frame) (i : Instruction) (tool : Tool 32) :
    Option (Tool 32) :=
  match i.id with
  | .tag_pointer _ _ => do
    tool.assignPointerTagToByteRange (← fr.passed address i 0) (← fr.passed address i 1)
      (← fr.passed address i 2).toNat
  | .tag_memory _ _ => do
    tool.assignMemoryTagToByteRange (← fr.passed address i 0) (← fr.passed address i 1)
      (← fr.passed address i 2).toNat
  | .tag_free _ => do return tool.clearTagsForByteRange (← fr.passed address i 0)
  | _ => some tool

namespace Monitored

/-- What the instruction returns, if it is an allocation call. -/
def record (t : Monitored) (i : Instruction) : Choice → Nat → Option (BitVec 32)
  | .value v =>
    if i.opcode.allocates then Function.update t.returned t.state.allocations (some v)
    else t.returned
  | _ => t.returned

def step (m : Module) (address : String → BitVec 32) (t : Monitored) : Event → Option Monitored
  | .other tool => some { t with tool := tool }
  | .execute choice => do
    let (fr, i) ← t.state.next
    let tool ← fr.replaced address i t.tool
    let state ← t.state.step m choice
    return ⟨state, tool, t.record i choice⟩

/-- A function of the module is about to run. -/
def Starts (m : Module) (t : Monitored) : Prop := t.state.Starts m

/-- The next instruction is a `DYTAN_tag_memory` or `DYTAN_free` that the pass inserted for an allocation
call, and what this call returned last is `NULL`. -/
def ForFailed (t : Monitored) (fr : Frame) (i : Instruction) : Prop :=
  t.state.next = some (fr, i) ∧ ∃ ci n, (i.id = .tag_free ci ∨ ∃ si, i.id = .tag_memory ci si) ∧
    fr.allocation ci = some n ∧ t.returned n = some 0

/-- The memory tags of every address. -/
def tags (t : Monitored) : ADDRINT 32 → Set ℕ := t.tool.taint.taint.memMarks

/-- A call for a failed allocation changes no tags. -/
def Unchanged (m : Module) (address : String → BitVec 32) (t : Monitored) : Event → Prop
  | .other _ => True
  | .execute choice => ∀ fr i, t.ForFailed fr i →
      ∀ t', t.step m address (.execute choice) = some t' → t'.tags = t.tags

/-- The first `size` bytes of memory have the mark of the tag `id` and no other. -/
def TaggedFromNull (t : Monitored) (size id : BitVec 32) : Prop :=
  ∀ mark tool, t.tool.tagMark (toString id.toNat) = some (mark, tool) →
    ∀ a : ADDRINT 32, a < size → t.tags a = {mark}

/-- The chunk of addresses with entries that begins at `old` has no marks. -/
def UntaggedFrom (t : Monitored) (old : BitVec 32) : Prop :=
  ∀ a, Chunk t.tool.taint.memTaintMap old a → t.tags a = ∅

/-- A call for a failed allocation finds the tags that it would leave. -/
def Harmless (address : String → BitVec 32) (t : Monitored) : Event → Prop
  | .other _ => True
  | .execute _ => ∀ fr i, t.ForFailed fr i →
      (∀ ci, i.id = .tag_free ci → ∀ old, fr.passed address i 0 = some old → t.UntaggedFrom old) ∧
      ∀ ci si, i.id = .tag_memory ci si → ∀ size id, fr.passed address i 1 = some size →
        fr.passed address i 2 = some id → t.TaggedFromNull size id

end Monitored

/-! ## What the pass makes of a function -/

section
variable {src : SourceFunction} {f f' : Function} {second : Second} {name : String}
  {i j ci : Instruction} {is stores news : List Instruction}

/-- The allocation calls of a function at work are calls of the source. -/
def AllocatesOf (src : SourceFunction) (f : Function) : Prop :=
  ∀ i ∈ f.instructions, i.opcode.allocates = true → i ∈ src.instructions

theorem AllocatesOf.insertAfter (h : AllocatesOf src f) {x : InstId}
    (hnews : ∀ u ∈ news, u.opcode.allocates = false) : AllocatesOf src (f.insertAfter x news) := by
  intro i hi hal
  rcases mem_insertAfter hi with hi | hi
  · exact h i hi hal
  · rw [hnews i hi] at hal
    cases hal

theorem tagStore_allocates (hsecond : ∀ si, ∀ u ∈ (second ci si).1, u.opcode = .Mul) {si : Instruction}
    (last : Bool) : ∀ u ∈ tagStore second ci si last, u.opcode.allocates = false := by
  intro u hu
  simp only [tagStore, List.append_assoc, List.mem_append, List.mem_cons, List.not_mem_nil,
    or_false] at hu
  rcases hu with (rfl | rfl) | hu | rfl | hu
  · rfl
  · simp [tagPointer, Opcode.allocates]
  · rw [hsecond si.id u hu]
    rfl
  · simp [tagMemory, Opcode.allocates]
  · split_ifs at hu
    · simp only [List.mem_cons, List.not_mem_nil, or_false] at hu
      rcases hu with rfl | rfl <;> rfl
    · cases hu

theorem AllocatesOf.tagStores (h : AllocatesOf src f)
    (hsecond : ∀ si, ∀ u ∈ (second ci si).1, u.opcode = .Mul) :
    AllocatesOf src (tagStores second ci stores f) := by
  induction stores generalizing f with
  | nil => exact h
  | cons si stores ih => exact ih (h.insertAfter (tagStore_allocates hsecond _))

theorem AllocatesOf.instrumentAllocation (h : AllocatesOf src f) {frees : Bool}
    (hsecond : ∀ si, ∀ u ∈ (second ci si).1, u.opcode = .Mul)
    (hf : instrumentAllocation name frees second f ci = .ok f') : AllocatesOf src f' := by
  unfold IMA.instrumentAllocation at hf
  cases hs : storeinst_vector f name ci with
  | error message => rw [hs] at hf; cases hf
  | ok stores =>
    rw [hs] at hf
    obtain rfl := Except.ok.inj hf
    have hfree : AllocatesOf src (if frees then f.insertAfter ci.id [tagFree ci] else f) := by
      split_ifs
      · exact h.insertAfter (by simp [tagFree, Opcode.allocates])
      · exact h
    exact (hfree.insertAfter (by simp [loadCounter, Opcode.allocates])).tagStores hsecond

theorem AllocatesOf.instrumented {p : Pass} {r : Except String Function}
    (h : AllocatesOf src p.function) (hr : ∀ f, r = .ok f → AllocatesOf src f) :
    AllocatesOf src (p.instrumented r).function := by
  cases r with
  | ok f => exact hr f rfl
  | error message => exact h

theorem AllocatesOf.visit {p : Pass} (h : AllocatesOf src p.function) :
    AllocatesOf src (p.visit i).function := by
  unfold Pass.visit
  split
  · split_ifs
    · exact h.instrumented fun f => h.instrumentAllocation fun si u hu => absurd hu List.not_mem_nil
    · exact h.instrumented fun f => h.instrumentAllocation fun si u hu => absurd hu List.not_mem_nil
    · refine h.instrumented fun f => h.instrumentAllocation fun si u hu => ?_
      rw [List.mem_singleton.1 hu]
    · exact h.insertAfter (by simp [tagFree, Opcode.allocates])
    · exact h
  · exact h

theorem runOnFunction_allocates (src : SourceFunction) :
    AllocatesOf src (runOnFunction src.toFunction).function := by
  have hloop : ∀ (is : List Instruction) (p : Pass), AllocatesOf src p.function →
      AllocatesOf src (is.foldl Pass.visit p).function := by
    intro is
    induction is with
    | nil => exact fun p h => h
    | cons i is ih => exact fun p h => ih (p.visit i) h.visit
  exact hloop _ _ fun i hi _ => hi

/-- A tag of memory has the allocation call as its first argument. -/
theorem Grouped.tagMemory {loaded : Set InstId} {b : List Instruction} (h : Grouped loaded b)
    (hi : i ∈ b) {c s : InstId} (hid : i.id = .tag_memory c s) :
    ∃ second, i = IMA.tagMemory c s second := by
  induction h with
  | nil => cases hi
  | plain hplain _ ih =>
    rcases List.mem_cons.1 hi with rfl | hi
    · have hkind := hplain.kind
      rwa [hid] at hkind
    · exact ih hi
  | allocation _ hsource _ _ ih =>
    rcases List.mem_cons.1 hi with rfl | hi
    · obtain ⟨n, hn⟩ := fromSource_iff.1 hsource
      cases hn.symm.trans hid
    · rcases List.mem_cons.1 hi with rfl | hi
      · cases hid
      · exact ih hi
  | last _ ih =>
    rcases List.mem_cons.1 hi with rfl | hi
    · cases hid
      exact ⟨_, rfl⟩
    · simp only [List.mem_cons] at hi
      rcases hi with rfl | rfl | hi
      · cases hid
      · cases hid
      · exact ih hi

end

/-! ## What a frame knows of its allocations -/

/-- The instructions of a frame are those of a function after the pass, and the value of an allocation
call is what its last execution returned. -/
structure Frame.Recorded (allocations : Nat) (returned : Nat → Option (BitVec 32)) (fr : Frame) :
    Prop where
  calls : ∀ i ∈ fr.blocks.flatten, ∀ j ∈ fr.blocks.flatten, i.opcode.allocates = true →
    j.id = i.id → j.opcode.allocates = true
  tags : ∀ i ∈ fr.blocks.flatten, ∀ ci si, i.id = .tag_memory ci si → ∃ second, i = tagMemory ci si second
  rest : ∀ i ∈ fr.rest, i ∈ fr.blocks.flatten
  allocated : ∀ ci n, fr.allocation ci = some n → n < allocations ∧
    (∀ j ∈ fr.blocks.flatten, j.id = ci → j.opcode.allocates = true) ∧
    ∃ v, fr.value ci = some v ∧ returned n = some v

/-- The frames know their allocations, and all but the first wait for a call that is no allocation. -/
structure Monitored.Invariant (t : Monitored) : Prop where
  recorded : ∀ fr ∈ t.state.frames, fr.Recorded t.state.allocations t.returned
  waiting : ∀ fr ∈ t.state.frames.tail, ∀ i rest, fr.rest = i :: rest → i.opcode.allocates = false

section
variable {m : Module} {s s' : State} {fr fr' : Frame} {frames frames' : List Frame} {i : Instruction}
  {rest : List Instruction} {choice : Choice} {c v : BitVec 32} {allocations : Nat}
  {returned : Nat → Option (BitVec 32)}

theorem Module.entry_recorded {name : String} {arguments : List (BitVec 32)}
    (h : m.entry name arguments = some fr) : fr.Recorded allocations returned := by
  obtain ⟨src, -, h⟩ := Option.bind_eq_some_iff.1 h
  obtain rfl := Option.some.inj h
  obtain ⟨loaded, hf⟩ := runOnFunction_inserting src
  have hal := runOnFunction_allocates src
  refine ⟨fun i hi j hj hia hid => ?_, fun i hi ci si hid => ?_, fun i hi => ?_, nofun⟩
  · rwa [hf.eq_of_id hj (hal i hi hia) hid]
  · obtain ⟨b, hb, hi⟩ := List.mem_flatten.1 hi
    exact (hf.grouped b hb).tagMemory hi hid
  · simp only at hi ⊢
    cases hb : (runOnFunction src.toFunction).function.blocks with
    | nil => rw [hb] at hi; cases hi
    | cons b bs =>
      rw [hb] at hi
      exact List.mem_flatten.2 ⟨b, List.mem_cons_self, hi⟩

/-- An instruction that is no allocation call. -/
theorem Frame.Recorded.execute (h : fr.Recorded allocations returned) (hr : fr.rest = i :: rest)
    (hal : i.opcode.allocates = false) (hfr' : fr.execute c i rest v = some fr') :
    fr'.Recorded allocations returned := by
  obtain ⟨result, rfl, -, -⟩ := Frame.execute_spec hfr'
  refine ⟨h.calls, h.tags, fun j hj => h.rest j (hr ▸ List.mem_cons_of_mem _ hj), fun ci n hn => ?_⟩
  obtain ⟨hlt, hcalls, u, hu, hret⟩ := h.allocated ci n hn
  refine ⟨hlt, hcalls, u, ?_, hret⟩
  have hne : ci ≠ i.id := by
    intro he
    rw [hcalls i (h.rest i (hr ▸ List.mem_cons_self)) he.symm] at hal
    cases hal
  exact (Function.update_of_ne hne (some result) fr.value).trans hu

/-- What later allocations return does not matter. -/
theorem Frame.Recorded.later (h : fr.Recorded allocations returned) :
    fr.Recorded (allocations + 1) (Function.update returned allocations (some v)) := by
  refine ⟨h.calls, h.tags, h.rest, fun ci n hn => ?_⟩
  obtain ⟨hlt, hcalls, u, hu, hret⟩ := h.allocated ci n hn
  exact ⟨by omega, hcalls, u, hu, by rwa [Function.update_of_ne (by omega)]⟩

/-- An allocation call. -/
theorem Frame.Recorded.allocate (h : fr.Recorded allocations returned) (hr : fr.rest = i :: rest)
    (hal : i.opcode.allocates = true) (hfr' : fr.execute c i rest v = some fr') :
    Frame.Recorded (allocations + 1) (Function.update returned allocations (some v))
      { fr' with allocation := Function.update fr'.allocation i.id (some allocations) } := by
  obtain ⟨result, hresult, rfl⟩ := Option.map_eq_some_iff.1 hfr'
  have hv : result = v := by
    unfold Frame.result at hresult
    cases hop : i.opcode <;> simp_all [Opcode.allocates]
  subst hv
  have hi : i ∈ fr.blocks.flatten := h.rest i (hr ▸ List.mem_cons_self)
  refine ⟨h.calls, h.tags, fun j hj => h.rest j (hr ▸ List.mem_cons_of_mem _ hj), fun ci n hn => ?_⟩
  by_cases he : ci = i.id
  · subst he
    simp only [Function.update_self, Option.some.injEq] at hn ⊢
    subst hn
    exact ⟨by omega, fun j hj hid => h.calls i hi j hj hal hid, result, rfl, Function.update_self ..⟩
  · have hn' : fr.allocation ci = some n := (Function.update_of_ne he _ _).symm.trans hn
    obtain ⟨hlt, hcalls, u, hu, hret⟩ := h.later (v := result).allocated ci n hn'
    exact ⟨hlt, hcalls, u, (Function.update_of_ne he _ _).trans hu, hret⟩

/-- The step at an allocation call is given what the call returns. -/
theorem State.stepAt_allocates (hal : i.opcode.allocates = true)
    (h : s.stepAt m fr frames i rest choice = some s') :
    ∃ v fr', choice = .value v ∧ fr.execute s.ima_tag_count i rest v = some fr' ∧
      s' = { s with
        allocations := s.allocations + 1
        frames := { fr' with
          allocation := Function.update fr'.allocation i.id (some s.allocations) } :: frames } := by
  rcases State.stepAt_cases h with ⟨fr', v, hv, -, hfr', hs'⟩ | ⟨_, _, _, -, hal', -⟩ |
    ⟨_, hop, -⟩ | ⟨_, _, _, -, hal', -⟩ | ⟨hop, -⟩
  · exact ⟨v, fr', hv, hfr', hs'⟩
  · rw [hal] at hal'
    cases hal'
  · rw [hop] at hal
    cases hal
  · rw [hal] at hal'
    cases hal'
  · rw [hop] at hal
    cases hal

/-- The instruction a step is about. -/
theorem State.step_next (h : s.step m choice = some s') :
    ∃ fr i frames rest events, s.next = some (fr, i) ∧ s.frames = fr :: frames ∧
      fr.rest = i :: rest ∧ fr.events s.ima_tag_count i = some events ∧
      s.stepAt m fr frames i rest choice = some s' := by
  unfold State.step at h
  cases hf : s.frames with
  | nil => rw [hf] at h; cases h
  | cons fr frames =>
    simp only [hf] at h
    cases hr : fr.rest with
    | nil => rw [hr] at h; cases h
    | cons i rest =>
      simp only [hr] at h
      obtain ⟨events, hevents, h⟩ := Option.bind_eq_some_iff.1 h
      refine ⟨fr, i, frames, rest, events, ?_, rfl, hr, hevents, h⟩
      rw [State.next, hf]
      simp [hr]

theorem Module.returns_recorded (h : m.returns c v frames = some frames')
    (hrec : ∀ fr ∈ frames, fr.Recorded allocations returned)
    (hwait : ∀ fr ∈ frames, ∀ i rest, fr.rest = i :: rest → i.opcode.allocates = false) :
    (∀ fr ∈ frames', fr.Recorded allocations returned) ∧ frames'.tail = frames.tail := by
  cases frames with
  | nil =>
    obtain rfl := Option.some.inj h
    exact ⟨hrec, rfl⟩
  | cons caller frames =>
    obtain ⟨hcaller, hrec⟩ := List.forall_mem_cons.1 hrec
    unfold Module.returns at h
    cases hcall : caller.rest with
    | nil =>
      simp only [hcall] at h
      cases h
    | cons call rest =>
      simp only [hcall] at h
      split at h
      · obtain ⟨fr', hfr', h⟩ := Option.bind_eq_some_iff.1 h
        obtain rfl := Option.some.inj h
        have hal := hwait caller List.mem_cons_self call rest hcall
        exact ⟨List.forall_mem_cons.2 ⟨hcaller.execute hcall hal hfr', hrec⟩, rfl⟩
      · obtain rfl := Option.some.inj h
        exact ⟨List.forall_mem_cons.2 ⟨hcaller, hrec⟩, rfl⟩

end

namespace Monitored

variable {m : Module} {address : String → BitVec 32} {t t' : Monitored} {event : Event}
  {fr : Frame} {i : Instruction} {choice : Choice}

/-- A step of the execution. -/
theorem step_execute (h : t.step m address (.execute choice) = some t') :
    ∃ fr i frames rest, t.state.next = some (fr, i) ∧ t.state.frames = fr :: frames ∧
      fr.rest = i :: rest ∧ fr.replaced address i t.tool = some t'.tool ∧
      t.state.stepAt m fr frames i rest choice = some t'.state ∧
      t'.returned = t.record i choice := by
  obtain ⟨⟨fr, i⟩, hnext, h⟩ := Option.bind_eq_some_iff.1 h
  obtain ⟨tool, htool, h⟩ := Option.bind_eq_some_iff.1 h
  obtain ⟨state, hstate, h⟩ := Option.bind_eq_some_iff.1 h
  obtain rfl := Option.some.inj h
  obtain ⟨fr', i', frames, rest, _, hnext', hf, hr, -, hstate⟩ := State.step_next hstate
  obtain ⟨rfl, rfl⟩ := Prod.mk.inj (Option.some.inj (hnext'.symm.trans hnext))
  exact ⟨fr', i', frames, rest, hnext, hf, hr, htool, hstate, rfl⟩

theorem Invariant.step (h : t.Invariant) (hs : t.step m address event = some t') :
    t'.Invariant := by
  cases event with
  | other tool =>
    obtain rfl := Option.some.inj hs
    exact ⟨h.recorded, h.waiting⟩
  | execute choice =>
    obtain ⟨fr, i, frames, rest, -, hf, hr, -, hstep, hret⟩ := step_execute hs
    obtain ⟨hrec, hwait⟩ := h
    rw [hf] at hrec hwait
    obtain ⟨hfr, hframes⟩ := List.forall_mem_cons.1 hrec
    cases hal : i.opcode.allocates with
    | true =>
      obtain ⟨v, fr', rfl, hfr', hstate⟩ := State.stepAt_allocates hal hstep
      have hret' : t'.returned = Function.update t.returned t.state.allocations (some v) := by
        rw [hret, record, if_pos hal]
      constructor
      · rw [hstate, hret']
        exact List.forall_mem_cons.2 ⟨hfr.allocate hr hal hfr', fun g hg => (hframes g hg).later⟩
      · rwa [hstate]
    | false =>
      have hret' : t'.returned = t.returned := by
        rw [hret]
        cases choice with
        | value v => rw [record, hal, if_neg Bool.false_ne_true]
        | _ => rfl
      rcases State.stepAt_cases hstep with ⟨fr', v, -, hal', -, -⟩ |
        ⟨fr', v, counter, -, -, hfr', -, hstate⟩ | ⟨successors, -, n, -, b, hb, hstate⟩ |
        ⟨name, arguments, callee, -, -, hcallee, hstate⟩ | ⟨-, v, frames', hframes', hstate⟩
      · rw [hal] at hal'
        cases hal'
      · constructor
        · rw [hstate, hret']
          exact List.forall_mem_cons.2 ⟨hfr.execute hr hal hfr', hframes⟩
        · rwa [hstate]
      · constructor
        · rw [hstate, hret']
          refine List.forall_mem_cons.2 ⟨⟨hfr.calls, hfr.tags, fun j hj => ?_, hfr.allocated⟩, hframes⟩
          exact List.mem_flatten.2 ⟨b, List.mem_of_getElem? hb, hj⟩
        · rwa [hstate]
      · constructor
        · rw [hstate, hret']
          exact List.forall_mem_cons.2 ⟨Module.entry_recorded hcallee, hrec⟩
        · rw [hstate]
          refine List.forall_mem_cons.2 ⟨fun j rest' hj => ?_, hwait⟩
          rw [hr] at hj
          obtain ⟨rfl, -⟩ := List.cons.inj hj
          exact hal
      · obtain ⟨hrec', htail⟩ := Module.returns_recorded hframes' hframes hwait
        constructor
        · rwa [hstate, hret']
        · rw [hstate]
          intro g hg
          rw [htail] at hg
          exact hwait g (List.mem_of_mem_tail hg)

theorem Invariant.run {events : List Event} (h : t.Invariant)
    (hr : Lib.run (Monitored.step m address) t events = some t') : t'.Invariant :=
  Lib.run_invariant (fun _ _ _ h hs => Invariant.step h hs) h hr

theorem Starts.invariant (h : t.Starts m) : t.Invariant := by
  obtain ⟨name, arguments, fr, hentry, hframes⟩ := h
  constructor
  · rw [hframes]
    exact List.forall_mem_cons.2 ⟨Module.entry_recorded hentry, nofun⟩
  · rw [hframes]
    nofun

/-! ## The calls for a failed allocation -/

/-- Clearing changes no tags when the chunk it clears has none. -/
theorem clear_tags_iff {tool : Tool 32} {old : ADDRINT 32} :
    (tool.clearTagsForByteRange old).taint.taint.memMarks = tool.taint.taint.memMarks ↔
      ∀ a, Chunk tool.taint.memTaintMap old a → tool.taint.taint.memMarks a = ∅ := by
  have hmarks : ∀ a, (tool.clearTagsForByteRange old).taint.taint.memMarks a =
      if Chunk tool.taint.memTaintMap old a then ∅ else tool.taint.taint.memMarks a := by
    intro a
    simp only [Taint.memMarks, TaintState.taint_mem, Tool.clearTagsForByteRange, clearLoop_eq le_rfl]
    split <;> rfl
  constructor
  · intro h a ha
    rw [← h, hmarks, if_pos ha]
  · intro h
    funext a
    rw [hmarks]
    split
    · rename_i ha
      exact (h a ha).symm
    · rfl

/-- Tagging the first `size` bytes changes no tags when they have the mark that it gives. -/
theorem assign_tags_iff {tool tool' : Tool 32} {size : ADDRINT 32} {id : Nat}
    (h : tool.assignMemoryTagToByteRange 0 size id = some tool') :
    tool'.taint.taint.memMarks = tool.taint.taint.memMarks ↔
      ∀ mark next, tool.tagMark (toString id) = some (mark, next) →
        ∀ a < size, tool.taint.taint.memMarks a = {mark} := by
  obtain ⟨mark, next, s, hmark, hs, rfl⟩ := Tool.assignTag_cases h
  have hmarks : s.copy.marks = {mark} := by
    have hlt : mark < tool.taint.numberOfTaintMarks := by
      unfold Tool.markSet Bitset.setBit at hs
      split at hs
      · assumption
      · cases hs
    obtain ⟨r, hr, hok, hm⟩ := (Bitset.init_ok _).setBit_spec hlt
    obtain rfl : s = r := Option.some.inj (hs.symm.trans hr)
    rw [hok.copy_eq, hm, Bitset.marks_init, insert_empty_eq]
  have hmem : ∀ a, a ∈ addrRange 0 (0 + size) ↔ a < size := by
    intro a
    rw [mem_addrRange, show 0 + size = size from BitVec.zero_add size]
    exact and_iff_right (Nat.zero_le _)
  have htags : ∀ a, Taint.memMarks (TaintState.taint { tool.taint with
      memTaintMap := fun a => if a ∈ addrRange 0 (0 + size) then some s.copy
                              else tool.taint.memTaintMap a }) a =
      if a < size then {mark} else tool.taint.taint.memMarks a := by
    intro a
    simp only [Taint.memMarks, TaintState.taint_mem, hmem]
    split
    · simp [hmarks]
    · rfl
  constructor
  · intro he mark' next' hmark' a ha
    obtain ⟨rfl, -⟩ := Prod.mk.inj (Option.some.inj (hmark.symm.trans hmark'))
    rw [← he, htags, if_pos ha]
  · intro he
    funext a
    rw [htags]
    split
    · rename_i ha
      exact (he mark next hmark a ha).symm
    · rfl

/-- The arguments of the calls for an allocation that failed. -/
theorem ForFailed.memory (h : t.Invariant) (hfor : t.ForFailed fr i) {ci si : InstId}
    (hid : i.id = .tag_memory ci si) : fr.passed address i 0 = some 0 := by
  obtain ⟨hnext, c, n, hc, hn, hret⟩ := hfor
  obtain rfl : c = ci := by
    rcases hc with hc | ⟨s, hs⟩
    · cases hc.symm.trans hid
    · cases hs.symm.trans hid
      rfl
  have hfr : fr ∈ t.state.frames ∧ i ∈ fr.rest := by
    unfold State.next at hnext
    cases hf : t.state.frames with
    | nil => rw [hf] at hnext; cases hnext
    | cons fr₀ frames =>
      rw [hf] at hnext
      obtain ⟨i₀, hi₀, he⟩ := Option.map_eq_some_iff.1 hnext
      obtain ⟨rfl, rfl⟩ := Prod.mk.inj he
      exact ⟨List.mem_cons_self, List.mem_of_mem_head? hi₀⟩
  have hrec := h.recorded fr hfr.1
  obtain ⟨second, rfl⟩ := hrec.tags i (hrec.rest i hfr.2) c si hid
  obtain ⟨-, -, v, hv, hv'⟩ := hrec.allocated c n hn
  rw [hret] at hv'
  exact hv.trans hv'.symm

/-- A call for a failed allocation changes no tags if and only if it is harmless. -/
theorem unchanged_iff_harmless (h : t.Invariant) (hs : t.step m address event = some t') :
    t.Unchanged m address event ↔ t.Harmless address event := by
  cases event with
  | other tool => exact Iff.rfl
  | execute choice =>
    obtain ⟨fr, i, frames, rest, hnext, -, -, htool, -⟩ := step_execute hs
    refine forall_congr' fun fr' => forall_congr' fun i' => forall_congr' fun hfor => ?_
    obtain ⟨rfl, rfl⟩ := Prod.mk.inj (Option.some.inj (hnext.symm.trans hfor.1))
    have hone : (∀ t₁, t.step m address (.execute choice) = some t₁ → t₁.tags = t.tags) ↔
        t'.tags = t.tags := by
      constructor
      · exact fun hall => hall t' hs
      · intro he t₁ ht₁
        rwa [← Option.some.inj (hs.symm.trans ht₁)]
    rw [hone]
    obtain ⟨-, c, n, hc, -⟩ := id hfor
    rcases hc with hid | ⟨si, hid⟩
    · unfold Frame.replaced at htool
      rw [hid] at htool
      obtain ⟨old, hold, htool⟩ := Option.bind_eq_some_iff.1 htool
      have htool' := Option.some.inj htool
      rw [tags, tags, ← htool', clear_tags_iff]
      constructor
      · intro hclear
        refine ⟨fun _ _ old' hold' => ?_,
          fun _ _ hid' => absurd (hid.symm.trans hid') InstId.noConfusion⟩
        rwa [← Option.some.inj (hold.symm.trans hold')]
      · exact fun hharmless => hharmless.1 c hid old hold
    · unfold Frame.replaced at htool
      rw [hid] at htool
      obtain ⟨start, hstart, htool⟩ := Option.bind_eq_some_iff.1 htool
      obtain ⟨size, hsize, htool⟩ := Option.bind_eq_some_iff.1 htool
      obtain ⟨id, hid', htool⟩ := Option.bind_eq_some_iff.1 htool
      obtain rfl : 0 = start := Option.some.inj ((hfor.memory h hid).symm.trans hstart)
      rw [tags, tags, assign_tags_iff htool]
      constructor
      · intro hassign
        refine ⟨fun _ hid' => absurd (hid.symm.trans hid') InstId.noConfusion,
          fun _ _ _ size' id' hsize' hid'' => ?_⟩
        rwa [← Option.some.inj (hsize.symm.trans hsize'), ← Option.some.inj (hid'.symm.trans hid'')]
      · exact fun hharmless => hharmless.2 c si hid size id hsize hid'

/-- In every execution of an instrumented module under the tool: the `DYTAN_tag_memory` and `DYTAN_free`
calls for allocations that returned `NULL` change no tags if and only if each finds the tags that it
would leave: the bytes from 0 that it would tag have its mark alone, or the chunk that it would
clear has no marks. -/
theorem failed_iff {events : List Event} (h : t.Starts m)
    (hr : Lib.run (Monitored.step m address) t events = some t') :
    Lib.Along (Monitored.step m address) (Unchanged m address) t events ↔
      Lib.Along (Monitored.step m address) (Harmless address) t events := by
  refine Lib.along_iff_along (I := Invariant) (V := fun _ _ => True) ?_ ?_ h.invariant ?_ hr
  · exact fun s event s' hs _ _ hstep => hs.step hstep
  · exact fun s event s' hs _ hstep => unchanged_iff_harmless hs hstep
  · exact fun _ _ _ _ _ _ => trivial

/-! ## A call of realloc -/

/-- Instruction 0 calls `realloc` for the pointer that is passed, 1 stores the pointer it returns, 2
returns. -/
def grow : List Instruction :=
  [⟨.source 0, .CallInst (some "realloc"), [.argument 0, .constant 8]⟩,
    ⟨.source 1, .StoreInst, [.instruction (.source 0), .argument 1]⟩,
    ⟨.source 2, .ReturnInst, []⟩]

theorem grow_given : ∀ i ∈ grow, i.fromSource ∧ ima_tag_count ∉ i.operands := by decide

theorem grow_nodup : (grow.map Instruction.id).Nodup := by decide

def growModule : Module
  | "grow" => some (.straight grow grow_given grow_nodup)
  | _ => none

/-- The block at 0x1000 is tagged with the mark 5. -/
def growStart : Monitored where
  state := ⟨0, 0, (growModule.entry "grow" [0x1000, 0x200]).toList⟩
  tool :=
    { taint := { TaintState.initial 16 with
        memTaintMap := fun a => if a = 0x1000 then some ⟨[0x20#32], 16⟩ else none }
      taintGen := some (.sequential 0 0 16)
      tagMap := fun _ => none }
  returned _ := none

/-- `realloc` returns `NULL`; after the load of the counter comes the call of `DYTAN_free`. -/
def growRun : List Event := List.replicate 3 (.execute (.value 0))

/-- The block has no tags; the first eight bytes have the mark 0, the address 0x3000 has the mark 5. -/
def growTagged : Monitored :=
  { growStart with
    tool := { growStart.tool with
      taint := { growStart.tool.taint with
        memTaintMap := fun a => if a < 8 then some ⟨[1], 16⟩
          else if a = 0x3000 then some ⟨[0x20], 16⟩ else none } } }

/-- After it the call of `DYTAN_tag_memory`, for eight bytes at the address 0. -/
def growWhole : List Event := List.replicate 7 (.execute (.value 0))

/-- `realloc` fails for a block without tags. -/
theorem failed_iff_untagged :
    (Lib.run (Monitored.step growModule fun _ => 0) growTagged growWhole).map
      (fun t => t.state.next.map (·.2.id)) = some (some (.inc_ima_tag_count (.source 0))) ∧
    (Lib.Along (Monitored.step growModule fun _ => 0) (Unchanged growModule fun _ => 0) growTagged
        growWhole ↔
      Lib.Along (Monitored.step growModule fun _ => 0) (Harmless fun _ => 0) growTagged
        growWhole) := by
  have hr : (Lib.run (Monitored.step growModule fun _ => 0) growTagged growWhole).map
      (fun t => t.state.next.map (·.2.id)) = some (some (.inc_ima_tag_count (.source 0))) := by
    decide +kernel
  obtain ⟨t', ht', -⟩ := Option.map_eq_some_iff.1 hr
  exact ⟨hr, failed_iff ⟨"grow", [0x1000, 0x200], _, rfl, rfl⟩ ht'⟩

/-- When `realloc` fails, the block that is still valid loses its tags. -/
theorem failed_realloc_clears :
    growStart.Starts growModule ∧
      (Lib.run (Monitored.step growModule fun _ => 0) growStart growRun).isSome ∧
      ¬ Lib.Along (Monitored.step growModule fun _ => 0) (Unchanged growModule fun _ => 0) growStart
        growRun := by
  refine ⟨⟨"grow", [0x1000, 0x200], _, rfl, rfl⟩, by decide, fun hunchanged => ?_⟩
  -- at the call of `DYTAN_free`
  obtain ⟨t, ht, hfor, htool⟩ : ∃ t, Lib.run (Monitored.step growModule fun _ => 0) growStart
      [.execute (.value 0), .execute (.value 0)] = some t ∧ (∃ fr i, t.ForFailed fr i) ∧
      t.tool = growStart.tool :=
    ⟨_, rfl, ⟨_, _, rfl, .source 0, 0, .inl rfl, rfl, rfl⟩, rfl⟩
  obtain ⟨t', ht', hclear⟩ : ∃ t', t.step growModule (fun _ => 0) (.execute (.value 0)) = some t' ∧
      t'.tool = growStart.tool.clearTagsForByteRange 0x1000 := by
    rw [Option.some.inj (ht.symm.trans rfl)]
    exact ⟨_, rfl, rfl⟩
  obtain ⟨fr, i, hfor⟩ := hfor
  have hsame : t'.tags = t.tags :=
    hunchanged [_, _] (.execute (.value 0)) [] rfl t ht fr i hfor t' ht'
  rw [tags, tags, hclear, htool, clear_tags_iff] at hsame
  have hchunk : Chunk growStart.tool.taint.memTaintMap 0x1000 0x1000 := by decide
  have hmark : 5 ∈ growStart.tool.taint.taint.memMarks 0x1000 := by
    show Bitset.bit ⟨[0x20#32], 16⟩ 5 = true
    decide
  rw [hsame 0x1000 hchunk] at hmark
  exact hmark

end Monitored

end Dytan.IMA
