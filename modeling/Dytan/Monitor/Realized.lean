import Dytan.Lib.Simulation
import Dytan.Monitor.System
import Dytan.Taint.Leaks

/-!
# The system on pointers

The taint of a `System` is a state with sets; the tool has pointers to them, and `Operation` is what
it does to these (`Dytan/Taint/PutGet.lean`). `operations` lists for a call, an instruction, a call
of the interface, a callback and an event the operations it comes to, with the marks it draws and
the bytes it visits.

`System.realized`: for every run of the system, the tool with pointers has a run of the operations it
comes to, whatever the allocator. No set is used after it was freed, none is freed twice, and in the
end the pointers are to the sets of the system. What is lost by then is what `leaked` counts.
-/

namespace Dytan

open Lib

variable {w n : Nat} {malloc : Malloc Bitset}

/-! ## Operations of a run -/

/-- One operation on the globals and their heap. -/
def Operation.step (malloc : Malloc Bitset) (x : Globals w × Lib.Heap Bitset)
    (operation : Operation w) : Option (Globals w × Lib.Heap Bitset) :=
  operation.run malloc x.1 x.2

theorem run_operations (operations : List (Operation w)) (g : Globals w) (h : Lib.Heap Bitset) :
    Lib.run (Operation.step malloc) (g, h) operations =
      operations.foldlM (Operation.run malloc) g h := by
  induction operations generalizing g h with
  | nil => rfl
  | cons operation operations ih =>
    rw [Lib.run_cons, List.foldlM_cons]
    show _ = (operation.run malloc g h).bind _
    refine congrArg _ (funext fun x => ?_)
    exact ih x.1 x.2

/-- The pointers are to the sets of `st`. -/
def Holds (st : TaintState w) (x : Globals w × Lib.Heap Bitset) : Prop := x.1.Represents x.2 st

/-- The operations have a run to pointers to the sets of `st`. -/
def Reaches (malloc : Malloc Bitset) (x : Globals w × Lib.Heap Bitset)
    (operations : List (Operation w)) (st : TaintState w) : Prop :=
  ∃ x', Lib.run (Operation.step malloc) x operations = some x' ∧ Holds st x'

section
variable {x : Globals w × Lib.Heap Bitset} {st st' : TaintState w}

theorem Reaches.nil (h : Holds st x) : Reaches malloc x [] st := ⟨x, rfl, h⟩

theorem Reaches.cons {operation : Operation w} {operations : List (Operation w)}
    (h : Ensures (operation.run malloc x.1) x.2 fun g' h' =>
      Reaches malloc (g', h') operations st) :
    Reaches malloc x (operation :: operations) st := by
  obtain ⟨g', h', hg, x', hrun, hx'⟩ := h
  exact ⟨x', (Lib.run_cons_of hg).trans hrun, hx'⟩

theorem Reaches.one {operation : Operation w}
    (h : Ensures (operation.run malloc x.1) x.2 fun g' h' => g'.Represents h' st) :
    Reaches malloc x [operation] st := by
  obtain ⟨g', h', hg, hr⟩ := h
  exact .cons ⟨g', h', hg, .nil hr⟩

end

/-! ## Marks on memory -/

section
variable {g : Globals w} {h : Lib.Heap Bitset} {st : TaintState w} {p : Ptr} {s : Bitset}
  {map : ADDRINT w → Option Ptr} {vmap : ADDRINT w → Option Bitset}

theorem ensures_copyPointers {Q : (ADDRINT w → Option Ptr) → Lib.Heap Bitset → Prop}
    (addrs : List (ADDRINT w))
    (ho : Owns h (({ g with memTaintMap := map }).refs (some p) none)
      (({ st with memTaintMap := vmap }).sets (some s) none))
    (hQ : ∀ map' h', Owns h' (({ g with memTaintMap := map' }).refs (some p) none)
      (({ st with memTaintMap := fun a => if a ∈ addrs then some s.copy else vmap a }).sets
        (some s) none) → Q map' h') :
    Ensures (addrs.foldlM (copyPointer malloc p) map) h Q := by
  induction addrs generalizing map vmap h with
  | nil => exact Ensures.pure (hQ map h (by simpa using ho))
  | cons addr addrs ih =>
    rw [List.foldlM_cons]
    have hp : ({ g with memTaintMap := map }).refs (some p) none .tmp = some p := rfl
    refine Ensures.bind (ensures_copyPointer refs_mem sets_mem ho hp rfl addr fun map₁ h₁ ho₁ => ?_)
    refine ih ho₁ fun map' h' ho' => hQ map' h' ?_
    have hmap : (fun a => if a ∈ addr :: addrs then some s.copy else vmap a) =
        fun a => if a ∈ addrs then some s.copy else Function.update vmap addr (some s.copy) a := by
      funext a
      by_cases ha : a ∈ addrs <;> by_cases he : a = addr <;> simp [ha, he]
    rwa [hmap]

theorem markMemory_refines {mark : Nat} (hr : g.Represents h st)
    (hs : (Bitset.init st.numberOfTaintMarks).setBit mark = some s) (addrs : List (ADDRINT w)) :
    Ensures (g.markMemory malloc addrs mark) h fun g' h' => g'.Represents h'
      { st with memTaintMap := fun a => if a ∈ addrs then some s.copy else st.memTaintMap a } := by
  refine Ensures.bind (hr.owns.ensures_alloc .tmp fun p h₁ ho₁ => ?_)
  rw [refs_tmp, sets_tmp] at ho₁
  have hp : g.refs (some p) none .tmp = some p := rfl
  refine Ensures.bind (ho₁.ensures_modify hp rfl (hr.marks ▸ hs) fun h₂ ho₂ => ?_)
  rw [sets_tmp] at ho₂
  refine Ensures.bind (ensures_copyPointers addrs ho₂ fun map h₃ ho₃ => ?_)
  have hp₃ : ({ g with memTaintMap := map }).refs (some p) none .tmp = some p := rfl
  refine Ensures.bind (ho₃.ensures_release hp₃ fun h₄ ho₄ => Ensures.pure ⟨?_, hr.marks⟩)
  rwa [refs_tmp, sets_tmp] at ho₄

theorem eraseMemory_refines (hr : g.Represents h st) (addr : ADDRINT w) :
    (g.eraseMemory addr).Represents h
      { st with memTaintMap := Function.update st.memTaintMap addr none } := by
  have ho := hr.owns.forget (.mem addr)
  rw [refs_mem.set g.memTaintMap, sets_mem.set st.memTaintMap] at ho
  exact ⟨ho, hr.marks⟩

theorem freeMemory_refines (hr : g.Represents h st) (addr : ADDRINT w) :
    Ensures (g.freeMemory addr) h fun g' h' => g'.Represents h'
      { st with memTaintMap := Function.update st.memTaintMap addr none } := by
  unfold Globals.freeMemory
  cases hp : g.memTaintMap addr with
  | none =>
    have hs : st.memTaintMap addr = none := (hr.owns.entry (.mem addr)).2 hp
    rw [Function.update_eq_self_iff.2 hs.symm]
    exact Ensures.pure hr
  | some p =>
    have hkey : g.refs none none (.mem addr) = some p := hp
    refine Ensures.bind (hr.owns.ensures_release hkey fun h₁ ho₁ => Ensures.pure ⟨?_, hr.marks⟩)
    rwa [refs_mem.set g.memTaintMap, sets_mem.set st.memTaintMap] at ho₁

end

/-! ## A mark for each byte -/

/-- The marks a generator gives to `addrs`. -/
def drawn (gen : TaintGenerator) : List (ADDRINT w) → List (ADDRINT w × Nat)
  | [] => []
  | addr :: addrs => (addr, gen.nextTaintMark.1) :: drawn gen.nextTaintMark.2 addrs

namespace Tool

/-- A round of `taintPerByte`. -/
def taintByte (x : Bitset × Tool w) (addr : ADDRINT w) : Option (Bitset × Tool w) := do
  let (tag, tool) ← nextTaintMark x.2
  let s ← x.1.setBit tag
  return (s.reset, tool.putMemory s addr)

theorem taintPerByte_cases {tool tool' : Tool w} {start stop : ADDRINT w}
    (h : tool.taintPerByte start stop = some tool') :
    ∃ s, (addrRange start stop).foldlM taintByte (Bitset.init tool.taint.numberOfTaintMarks, tool) =
      some (s, tool') := by
  obtain ⟨⟨s, tool₁⟩, hfold, h⟩ := Option.bind_eq_some_iff.1 h
  obtain rfl := Option.some.inj h
  exact ⟨s, hfold⟩

theorem taintByte_cases {tool : Tool w} {gen : TaintGenerator} (hg : tool.taintGen = some gen)
    {s : Bitset} {addr : ADDRINT w} {y : Bitset × Tool w} (h : taintByte (s, tool) addr = some y) :
    ∃ s', s.setBit gen.nextTaintMark.1 = some s' ∧
      y = (s'.reset, { tool with taintGen := some gen.nextTaintMark.2 }.putMemory s' addr) := by
  obtain ⟨⟨tag, tool₁⟩, hn, h⟩ := Option.bind_eq_some_iff.1 h
  obtain ⟨gen', hg', rfl, rfl⟩ := nextTaintMark_cases hn
  obtain rfl := Option.some.inj (hg.symm.trans hg')
  obtain ⟨s', hs, h⟩ := Option.bind_eq_some_iff.1 h
  exact ⟨s', hs, (Option.some.inj h).symm⟩

end Tool

section
variable {g : Globals w} {h : Lib.Heap Bitset} {p : Ptr} {map : ADDRINT w → Option Ptr}

theorem ensures_markBytes {Q : (ADDRINT w → Option Ptr) → Lib.Heap Bitset → Prop}
    (addrs : List (ADDRINT w)) {tool tool' : Tool w} {gen : TaintGenerator} {s s' : Bitset}
    (hg : tool.taintGen = some gen)
    (hfold : addrs.foldlM Tool.taintByte (s, tool) = some (s', tool'))
    (ho : Owns h (({ g with memTaintMap := map }).refs (some p) none)
      (tool.taint.sets (some s) none))
    (hQ : ∀ map' h', Owns h' (({ g with memTaintMap := map' }).refs (some p) none)
      (tool'.taint.sets (some s') none) →
      tool'.taint.numberOfTaintMarks = tool.taint.numberOfTaintMarks → Q map' h') :
    Ensures ((drawn gen addrs).foldlM (Globals.markByte malloc p) map) h Q := by
  induction addrs generalizing tool gen s map h with
  | nil =>
    obtain ⟨rfl, rfl⟩ := Prod.mk.inj (Option.some.inj hfold)
    exact Ensures.pure (hQ map h ho rfl)
  | cons addr addrs ih =>
    rw [List.foldlM_cons] at hfold
    obtain ⟨y, hy, hfold⟩ := Option.bind_eq_some_iff.1 hfold
    obtain ⟨u, hu, rfl⟩ := Tool.taintByte_cases hg hy
    have hp : ∀ map, ({ g with memTaintMap := map }).refs (some p) none .tmp = some p :=
      fun _ => rfl
    rw [drawn, List.foldlM_cons]
    refine Ensures.bind (Ensures.bind (ho.ensures_modify (hp map) rfl hu fun h₁ ho₁ => ?_))
    rw [sets_tmp] at ho₁
    refine Ensures.bind (ensures_copyPointer refs_mem sets_mem ho₁ (hp map) rfl addr
      fun map₂ h₂ ho₂ => ?_)
    refine Ensures.bind (ho₂.ensures_modify (hp map₂) rfl rfl fun h₃ ho₃ => Ensures.pure ?_)
    rw [sets_tmp] at ho₃
    exact ih rfl hfold ho₃ hQ

theorem markBytes_refines {tool tool' : Tool w} {gen : TaintGenerator} {start stop : ADDRINT w}
    (hr : g.Represents h tool.taint) (hg : tool.taintGen = some gen)
    (ht : tool.taintPerByte start stop = some tool') :
    Ensures (g.markBytes malloc (drawn gen (addrRange start stop))) h fun g' h' =>
      g'.Represents h' tool'.taint := by
  obtain ⟨s, hfold⟩ := Tool.taintPerByte_cases ht
  refine Ensures.bind (hr.owns.ensures_alloc .tmp fun p h₁ ho₁ => ?_)
  rw [refs_tmp, sets_tmp, hr.marks] at ho₁
  refine Ensures.bind (ensures_markBytes _ hg hfold ho₁ fun map h₂ ho₂ hmarks => ?_)
  have hp : ({ g with memTaintMap := map }).refs (some p) none .tmp = some p := rfl
  refine Ensures.bind (ho₂.ensures_release hp fun h₃ ho₃ => Ensures.pure ⟨?_, ?_⟩)
  · rwa [refs_tmp, sets_tmp] at ho₃
  · exact hr.marks.trans hmarks.symm

end

/-! ## Calls and instructions -/

/-- A check that fails comes to nothing. -/
def Call.operations (ctx : Context w) : Call w → List (Operation w)
  | .clearTaintSet set => [.clearTaintSet set]
  | .taintForRegister reg set => [.taintForRegister reg set]
  | .taintForMemory ea baseReg indexReg set =>
    [.taintForMemory (ctx.readEA ea) ctx.memoryReadSize baseReg indexReg set]
  | .setTaintForRegister dest args => [.setTaintForRegister dest args]
  | .setTaintForMemory args => [.setTaintForMemory ctx.memoryWriteEA ctx.memoryWriteSize args]
  | .clearTaintForRegister reg => [.clearTaintForRegister reg]
  | .clearTaintForMemory => [.clearTaintForMemory ctx.memoryWriteEA ctx.memoryWriteSize]
  | .ifThen check call => if check.holds ctx then call.operations ctx else []

def Executed.operations (e : Executed w) (st : TaintState w) : List (Operation w) :=
  Lib.emitted (Call.run e.ctx) (fun _ call => call.operations e.ctx) st (dataflow e.ins).calls

section
variable {x : Globals w × Lib.Heap Bitset} {st st' : TaintState w}

theorem Call.reaches {ctx : Context w} {call : Call w} (hx : Holds st x)
    (h : call.run ctx st = some st') : Reaches malloc x (call.operations ctx) st' := by
  induction call with
  | clearTaintSet set =>
    obtain rfl := Option.some.inj h
    exact .one (ensures_unit (Globals.clearTaintSet_refines hx set))
  | taintForRegister reg set => exact .one (ensures_unit (Globals.taintForRegister_refines hx h))
  | taintForMemory ea baseReg indexReg set =>
    exact .one (ensures_unit (Globals.taintForMemory_refines hx h))
  | setTaintForRegister dest args =>
    obtain ⟨g', h', hg, hr, -⟩ : Ensures (x.1.setTaintForRegister malloc dest _) x.2 _ :=
      Globals.setTaintForRegister_refines hx (scratch_holds ..) h
    exact .one ⟨g', h', hg, hr⟩
  | setTaintForMemory args =>
    obtain ⟨g', h', hg, hr, -⟩ : Ensures (x.1.setTaintForMemory malloc _ _ _) x.2 _ :=
      Globals.setTaintForMemory_refines hx (scratch_holds ..) h
    exact .one ⟨g', h', hg, hr⟩
  | clearTaintForRegister reg =>
    exact .one (ensures_unit (Globals.clearTaintForRegister_refines hx h))
  | clearTaintForMemory => exact .one (ensures_unit (Globals.clearTaintForMemory_refines hx h))
  | ifThen check call ih =>
    rw [Call.run] at h
    rw [Call.operations]
    split
    · next hc =>
      rw [if_pos hc] at h
      exact ih h
    · next hc =>
      rw [if_neg hc] at h
      obtain rfl := Option.some.inj h
      exact .nil hx

theorem Executed.reaches {e : Executed w} (hx : Holds st x) (h : executeINS st e = some st') :
    Reaches malloc x (e.operations st) st' :=
  Lib.emitted_run (fun _ _ _ _ hx h => Call.reaches hx h) hx (executeINS_runCalls h)

end

/-! ## Calls of the interface -/

/-- What is done with the next mark; nothing without a generator. -/
def Tool.drawing (tool : Tool w) (f : TaintGenerator → List (Operation w)) : List (Operation w) :=
  match tool.taintGen with
  | some gen => f gen
  | none => []

def Tool.tagOperations (tool : Tool w) (start size : ADDRINT w) (id : Nat) : List (Operation w) :=
  match tool.tagMark (toString id) with
  | some (mark, _) => [.markMemory (addrRange start (start + size)) mark]
  | none => []

def Op.operations (tool : Tool w) : Op w → List (Operation w)
  | .clearTaintSet set => [.clearTaintSet set]
  | .taintForRegister reg set => [.taintForRegister reg set]
  | .taintForMemory start size baseReg indexReg set =>
    [.taintForMemory start size baseReg indexReg set]
  | .setTaintForRegister dest args => [.setTaintForRegister dest args]
  | .clearTaintForRegister reg => [.clearTaintForRegister reg]
  | .setTaintForMemory start size args => [.setTaintForMemory start size args]
  | .clearTaintForMemory start size => [.clearTaintForMemory start size]
  | .pushControl addr => [.pushControl addr]
  | .popControl addrs => [.popControl addrs]
  | .setNewTaintForMemory addr size => tool.drawing fun gen =>
    [.markMemory (addrRange addr (addr + size)) gen.nextTaintMark.1]
  | .setNewTaintStart => []
  | .assignTagToByteRange start size id => tool.tagOperations start size id
  | .assignPointerTagToByteRange start size id => tool.tagOperations start size id
  | .assignMemoryTagToByteRange start size id => tool.tagOperations start size id
  | .pathSourceRead range args =>
    if toInt args.ret ≤ 0 then []
    else
      let addrs := addrRange args.arg1 (args.arg1 + BitVec.ofInt w (toInt args.ret))
      tool.drawing fun gen => match range with
        | .PerByte => [.markBytes (drawn gen addrs)]
        | .PerRead => [.markMemory addrs gen.nextTaintMark.1]
  | .networkRead range start length =>
    let addrs := addrRange start (start + length)
    tool.drawing fun gen => match range with
      | .PerByte => [.markBytes (drawn gen addrs)]
      | .PerRead => [.markMemory addrs gen.nextTaintMark.1]

section
variable {x : Globals w × Lib.Heap Bitset} {tool tool' : Tool w}

/-- The functions that give one mark to all their bytes. -/
theorem markMemory_reaches {s : Bitset} {mark : Nat} (hx : Holds tool.taint x)
    (hs : tool.markSet mark = some s) (addrs : List (ADDRINT w)) :
    Reaches malloc x [.markMemory addrs mark] (addrs.foldl (Tool.putMemory · s) tool).taint := by
  rw [Tool.putMemories_eq]
  exact .one (markMemory_refines hx hs addrs)

theorem setNewTaintForMemory_reaches {addr size : ADDRINT w} (hx : Holds tool.taint x)
    (h : tool.setNewTaintForMemory addr size = some tool') :
    Reaches malloc x ((Op.setNewTaintForMemory addr size).operations tool) tool'.taint := by
  obtain ⟨⟨mark, tool₁⟩, hn, h⟩ := Option.bind_eq_some_iff.1 h
  obtain ⟨gen, hg, rfl, rfl⟩ := Tool.nextTaintMark_cases hn
  obtain ⟨s, hs, h⟩ := Option.bind_eq_some_iff.1 h
  obtain rfl := Option.some.inj h
  simp only [Op.operations, Tool.drawing, hg]
  have hx' : Holds { tool with taintGen := some gen.nextTaintMark.2 }.taint x := hx
  exact markMemory_reaches hx' hs _

theorem taintPerRead_reaches {gen : TaintGenerator} {start stop : ADDRINT w}
    (hx : Holds tool.taint x) (hg : tool.taintGen = some gen)
    (h : tool.taintPerRead start stop = some tool') :
    Reaches malloc x [.markMemory (addrRange start stop) gen.nextTaintMark.1] tool'.taint := by
  obtain ⟨⟨mark, tool₁⟩, hn, h⟩ := Option.bind_eq_some_iff.1 h
  obtain ⟨gen', hg', rfl, rfl⟩ := Tool.nextTaintMark_cases hn
  obtain rfl := Option.some.inj (hg.symm.trans hg')
  obtain ⟨s, hs, h⟩ := Option.bind_eq_some_iff.1 h
  obtain rfl := Option.some.inj h
  have hx' : Holds { tool with taintGen := some gen.nextTaintMark.2 }.taint x := hx
  exact markMemory_reaches hx' hs _

theorem taintPerRead_gen {start stop : ADDRINT w}
    (h : tool.taintPerRead start stop = some tool') : ∃ gen, tool.taintGen = some gen := by
  obtain ⟨⟨mark, tool₁⟩, hn, -⟩ := Option.bind_eq_some_iff.1 h
  obtain ⟨gen, hg, -⟩ := Tool.nextTaintMark_cases hn
  exact ⟨gen, hg⟩

theorem assignTag_reaches {start size : ADDRINT w} {id : Nat} (hx : Holds tool.taint x)
    (h : tool.assignTag start size id = some tool') :
    Reaches malloc x (tool.tagOperations start size id) tool'.taint := by
  obtain ⟨mark, next, s, ht, hs, rfl⟩ := Tool.assignTag_cases h
  rw [Tool.tagOperations, ht]
  exact .one (markMemory_refines hx hs _)

theorem Op.reaches {op : Op w} (hx : Holds tool.taint x) (h : tool.step op = some tool') :
    Reaches malloc x (op.operations tool) tool'.taint := by
  -- the calls that an instruction can insert, too
  have hcall : ∀ {r : Option (TaintState w)} {operations : List (Operation w)},
      tool.withTaint r = some tool' →
      (∀ st', r = some st' → Reaches malloc x operations st') →
      Reaches malloc x operations tool'.taint := by
    intro r operations hr hreach
    obtain ⟨st', hst, rfl⟩ := Option.map_eq_some_iff.1 hr
    exact hreach st' hst
  cases op with
  | clearTaintSet set =>
    refine hcall h fun st' hs => .one (ensures_unit ?_)
    exact Option.some.inj hs ▸ Globals.clearTaintSet_refines hx set
  | taintForRegister reg set =>
    exact hcall h fun st' hs => .one (ensures_unit (Globals.taintForRegister_refines hx hs))
  | taintForMemory start size baseReg indexReg set =>
    exact hcall h fun st' hs => .one (ensures_unit (Globals.taintForMemory_refines hx hs))
  | setTaintForRegister dest args =>
    refine hcall h fun st' hs => ?_
    obtain ⟨g', h', hg, hr, -⟩ : Ensures (x.1.setTaintForRegister malloc dest _) x.2 _ :=
      Globals.setTaintForRegister_refines hx (scratch_holds ..) hs
    exact .one ⟨g', h', hg, hr⟩
  | clearTaintForRegister reg =>
    exact hcall h fun st' hs => .one (ensures_unit (Globals.clearTaintForRegister_refines hx hs))
  | setTaintForMemory start size args =>
    refine hcall h fun st' hs => ?_
    obtain ⟨g', h', hg, hr, -⟩ : Ensures (x.1.setTaintForMemory malloc start size _) x.2 _ :=
      Globals.setTaintForMemory_refines hx (scratch_holds ..) hs
    exact .one ⟨g', h', hg, hr⟩
  | clearTaintForMemory start size =>
    exact hcall h fun st' hs => .one (ensures_unit (Globals.clearTaintForMemory_refines hx hs))
  | pushControl addr => exact hcall h fun st' hs => .one (Globals.pushControl_refines hx hs)
  | popControl addrs =>
    refine hcall h fun st' hs => .one ?_
    exact Option.some.inj hs ▸ Globals.popControl_refines hx addrs
  | setNewTaintForMemory addr size => exact setNewTaintForMemory_reaches hx h
  | setNewTaintStart =>
    obtain ⟨gen, -, h⟩ := Option.bind_eq_some_iff.1 h
    obtain rfl := Option.some.inj h
    exact .nil hx
  | assignTagToByteRange start size id => exact assignTag_reaches hx h
  | assignPointerTagToByteRange start size id => exact assignTag_reaches hx h
  | assignMemoryTagToByteRange start size id => exact assignTag_reaches hx h
  | pathSourceRead range args =>
    rw [Op.operations]
    cases range with
    | PerByte =>
      rw [Tool.step, Tool.pathSourceReadCallbackPerByte] at h
      split at h
      · next hret =>
        rw [if_pos hret, ← Option.some.inj h]
        exact .nil hx
      · next hret =>
        obtain ⟨gen, hg, h⟩ := Option.bind_eq_some_iff.1 h
        simp only [if_neg hret, Tool.drawing, hg]
        exact .one (markBytes_refines hx hg h)
    | PerRead =>
      rw [Tool.step, Tool.pathSourceReadCallbackPerRead] at h
      split at h
      · next hret =>
        rw [if_pos hret, ← Option.some.inj h]
        exact .nil hx
      · next hret =>
        obtain ⟨gen, hg⟩ := taintPerRead_gen h
        simp only [if_neg hret, Tool.drawing, hg]
        exact taintPerRead_reaches hx hg h
  | networkRead range start length =>
    cases range with
    | PerByte =>
      obtain ⟨gen, hg, h⟩ := Option.bind_eq_some_iff.1 h
      simp only [Op.operations, Tool.drawing, hg]
      exact .one (markBytes_refines hx hg h)
    | PerRead =>
      obtain ⟨gen, hg⟩ := taintPerRead_gen h
      simp only [Op.operations, Tool.drawing, hg]
      exact taintPerRead_reaches hx hg h

end

/-! ## Events of the system -/

/-- The entries that `ClearTagsForByteRange` erases, in order. -/
def erased : Nat → (ADDRINT w → Option Bitset) → ADDRINT w → List (ADDRINT w)
  | 0, _, _ => []
  | fuel + 1, map, addr =>
    if (map addr).isSome then addr :: erased fuel (Function.update map addr none) (addr + 1) else []

section
variable (find : Find NetworkCallback)

/-- The operations of calls of the interface. -/
def Tool.operations (tool : Tool w) (ops : List (Op w)) : List (Operation w) :=
  Lib.emitted Tool.step (fun tool op => op.operations tool) tool ops

def Observer.operations (call : Finished) (s : System) (observer : Observer) :
    List (Operation 32) :=
  match observer with
  | .handler function => (function.cleared call.args).map .freeMemory
  | _ => s.tool.operations (observer.ops find call s)

def SystemEvent.operations (sources : List TaintSource) (s : System) :
    SystemEvent → List (Operation 32)
  | .ins e => e.operations s.tool.taint
  | .op call => call.operations s.tool
  | .setNewTaintForMemory addr size taintMark =>
    if taintMark = -1 then (Op.setNewTaintForMemory addr size).operations s.tool
    else [.markMemory (addrRange addr (addr + size)) (BitVec.ofInt 32 taintMark).toNat]
  | .clearTagsForByteRange start =>
    (erased (2 ^ 32) s.tool.taint.memTaintMap start).map .eraseMemory
  | .finished call =>
    Lib.emitted (Observer.run find call) (Observer.operations find call) s
      (observers sources call.args.num)

end

section
variable {x : Globals w × Lib.Heap Bitset} {st : TaintState w}

theorem eraseMemory_reaches (fuel : Nat) (addr : ADDRINT w) (hx : Holds st x) :
    Reaches malloc x ((erased fuel st.memTaintMap addr).map .eraseMemory)
      { st with memTaintMap := clearLoop fuel st.memTaintMap addr } := by
  induction fuel generalizing x st addr with
  | zero => exact .nil hx
  | succ fuel ih =>
    rw [erased, clearLoop]
    split
    · have hx' : Holds { st with memTaintMap := Function.update st.memTaintMap addr none }
          (x.1.eraseMemory addr, x.2) := eraseMemory_refines hx addr
      exact .cons (Ensures.pure (ih (addr + 1) hx'))
    · exact .nil hx

theorem freeMemory_reaches (addrs : List (ADDRINT 32)) {x : Globals 32 × Lib.Heap Bitset}
    {st : TaintState 32} (hx : Holds st x) :
    Reaches malloc x (addrs.map .freeMemory)
      { st with memTaintMap := without st.memTaintMap addrs } := by
  induction addrs generalizing x st with
  | nil =>
    rw [without_nil]
    exact .nil hx
  | cons addr addrs ih =>
    obtain ⟨g', h', hg, hr⟩ := freeMemory_refines hx addr
    refine .cons ⟨g', h', hg, ?_⟩
    have hmap : without st.memTaintMap (addr :: addrs) =
        without (Function.update st.memTaintMap addr none) addrs := by
      rw [show addr :: addrs = [addr] ++ addrs from rfl, without_append]
      congr 1
      funext a
      simp [without, Function.update_apply]
    have hx' : Holds { st with memTaintMap := Function.update st.memTaintMap addr none }
        (g', h') := hr
    rw [hmap]
    exact ih hx'

end

section
variable {find : Find NetworkCallback} {sources : List TaintSource} {s s' : System}
  {x : Globals 32 × Lib.Heap Bitset}

theorem Tool.reaches {tool tool' : Tool w} {x : Globals w × Lib.Heap Bitset} {ops : List (Op w)}
    (hx : Holds tool.taint x) (h : tool.run ops = some tool') :
    Reaches malloc x (tool.operations ops) tool'.taint := by
  have hstep : ∀ (tool : Tool w) x op tool', Holds tool.taint x → tool.step op = some tool' →
      ∃ x', Lib.run (Operation.step malloc) x (op.operations tool) = some x' ∧
        Holds tool'.taint x' := fun _ _ _ _ hx h => Op.reaches hx h
  exact Lib.emitted_run hstep hx h

/-- A handler that returns removes what it visits. -/
theorem Handler.run_memTaintMap {hs r : HandlerState} {args : Dispatch.SyscallArguments}
    {cstring : Option String} {function : Handler} (h : function.run hs args cstring = some r) :
    r.memTaintMap = without hs.memTaintMap (function.cleared args) := by
  by_cases hret : function.Returns args cstring
  · obtain ⟨openFiles, hrun⟩ := Handler.run_spec hs hret
    rw [hrun] at h
    rw [← Option.some.inj h]
  · rw [Handler.run_eq_none hs hret] at h
    cases h

/-- The notices of a network callback. -/
theorem runNotices_reaches {notices : List (NetworkNotice NetworkCallback)} {tool tool' : Tool 32}
    (hx : Holds tool.taint x) (h : runNotices tool notices = some tool') :
    Reaches malloc x (tool.operations (notices.filterMap NetworkNotice.op?)) tool'.taint := by
  rw [runNotices_eq] at h
  exact Tool.reaches hx h

theorem Observer.reaches {call : Finished} {observer : Observer} (hx : Holds s.tool.taint x)
    (h : observer.run find call s = some s') :
    Reaches malloc x (observer.operations find call s) s'.tool.taint := by
  cases observer with
  | openCallback i =>
    obtain ⟨path, -, h⟩ := Option.bind_eq_some_iff.1 h
    obtain rfl := Option.some.inj h
    exact .nil hx
  | closeCallback i =>
    obtain rfl := Option.some.inj h
    exact .nil hx
  | closeNetworkCallback i =>
    obtain rfl := Option.some.inj h
    exact .nil hx
  | readCallback i =>
    obtain ⟨tool, hrun, h⟩ := Option.bind_eq_some_iff.1 h
    obtain rfl := Option.some.inj h
    exact Tool.reaches hx hrun
  | socketcallNetworkCallback i =>
    obtain ⟨⟨network, notices⟩, hn, h⟩ := Option.bind_eq_some_iff.1 h
    obtain ⟨tool, hrun, h⟩ := Option.bind_eq_some_iff.1 h
    obtain rfl := Option.some.inj h
    simp only [Observer.operations, Observer.ops, hn]
    exact runNotices_reaches hx hrun
  | readNetworkCallback i =>
    obtain ⟨notices, hn, h⟩ := Option.bind_eq_some_iff.1 h
    obtain ⟨tool, hrun, h⟩ := Option.bind_eq_some_iff.1 h
    obtain rfl := Option.some.inj h
    simp only [Observer.operations, Observer.ops, hn]
    exact runNotices_reaches hx hrun
  | handler function =>
    obtain ⟨r, hrun, h⟩ := Option.bind_eq_some_iff.1 h
    obtain rfl := Option.some.inj h
    rw [Handler.run_memTaintMap hrun]
    exact freeMemory_reaches _ hx

theorem SystemEvent.reaches {event : SystemEvent} (hx : Holds s.tool.taint x)
    (h : s.step find sources event = some s') :
    Reaches malloc x (event.operations find sources s) s'.tool.taint := by
  cases event with
  | ins e =>
    obtain ⟨taint, hrun, h⟩ := Option.bind_eq_some_iff.1 h
    obtain rfl := Option.some.inj h
    exact Executed.reaches hx hrun
  | op call =>
    obtain ⟨tool, hrun, h⟩ := Option.bind_eq_some_iff.1 h
    obtain rfl := Option.some.inj h
    exact Op.reaches hx hrun
  | setNewTaintForMemory addr size taintMark =>
    obtain ⟨tool, hrun, h⟩ := Option.bind_eq_some_iff.1 h
    obtain rfl := Option.some.inj h
    rw [SystemEvent.operations]
    split
    · next hmark =>
      subst hmark
      exact setNewTaintForMemory_reaches hx hrun
    · next hmark =>
      unfold Tool.setNewTaintForMemory at hrun
      rw [if_neg hmark] at hrun
      split at hrun
      · cases hrun
      · obtain ⟨u, hu, hrun⟩ := Option.bind_eq_some_iff.1 hrun
        obtain rfl := Option.some.inj hu
        obtain ⟨set, hset, hrun⟩ := Option.bind_eq_some_iff.1 hrun
        obtain rfl := Option.some.inj hrun
        exact markMemory_reaches hx hset _
  | clearTagsForByteRange start =>
    obtain rfl := Option.some.inj h
    exact eraseMemory_reaches _ start hx
  | finished call =>
    have hstep : ∀ s (x : Globals 32 × Lib.Heap Bitset) observer s', Holds s.tool.taint x →
        Observer.run find call s observer = some s' →
        ∃ x', Lib.run (Operation.step malloc) x (observer.operations find call s) = some x' ∧
          Holds s'.tool.taint x' := fun _ _ _ _ hx h => Observer.reaches hx h
    exact Lib.emitted_run hstep hx h

/-! ## Runs of the system -/

namespace System

/-- The operations that a run comes to. -/
def operations (find : Find NetworkCallback) (sources : List TaintSource) (s : System)
    (events : List SystemEvent) : List (Operation 32) :=
  Lib.emitted (step find sources) (fun s event => event.operations find sources s) s events

theorem run_reaches {events : List SystemEvent} (hx : Holds s.tool.taint x)
    (h : Lib.run (step find sources) s events = some s') :
    Reaches malloc x (s.operations find sources events) s'.tool.taint := by
  have hstep : ∀ s (x : Globals 32 × Lib.Heap Bitset) event s', Holds s.tool.taint x →
      step find sources s event = some s' →
      ∃ x', Lib.run (Operation.step malloc) x (event.operations find sources s) = some x' ∧
        Holds s'.tool.taint x' := fun _ _ _ _ hx h => SystemEvent.reaches hx h
  exact Lib.emitted_run hstep hx h

/-- The tool with pointers has a run that ends with the sets of the system's. The sets it has lost
are those that `leaked` counts. -/
theorem realized (malloc : Malloc Bitset) (find : Find NetworkCallback)
    (sources : List TaintSource) (fw : Framework) (inet_addr atoi : String → BitVec 32)
    {events : List SystemEvent} {s' : System}
    (h : Lib.run (step find sources) (fw.system inet_addr atoi) events = some s') :
    Ensures (runOperations malloc fw.numberOfTaintMarks
      ((fw.system inet_addr atoi).operations find sources events)) .empty fun g heap =>
        g.Represents heap s'.tool.taint ∧ (heap.lost (g.refs none none)).ncard =
          leaked (fun _ => false) ((fw.system inet_addr atoi).operations find sources events) := by
  obtain ⟨g, heap, hg, hr⟩ := start_represents (w := 32) malloc fw.numberOfTaintMarks .empty
  have hx : Holds (fw.system inet_addr atoi).tool.taint (g, heap) := hr
  obtain ⟨⟨g', heap'⟩, hrun, hr'⟩ : Reaches malloc (g, heap) _ _ := run_reaches hx h
  rw [run_operations] at hrun
  refine Ensures.bind ⟨g, heap, hg, g', heap', hrun, hr', ?_⟩
  have ha := run_accounts (start_leaves malloc _ g heap hg) _ g' heap' hrun
  rw [Nat.zero_add] at ha
  exact ha.lost hr'.owns

/-- Sixteen marks and no sources. -/
def sixteenMarks : Framework := ⟨16, some (.constant 5), [], [], 1⟩

/-- Two bytes get a tag and then another. -/
def tagTwice : List SystemEvent :=
  [.op (.assignTagToByteRange 0x8000 2 1), .op (.assignTagToByteRange 0x8000 2 2)]

theorem realized_twice : ∃ s',
    Lib.run (step (fun _ _ => none) []) (sixteenMarks.system (fun _ => 0) (fun _ => 0)) tagTwice =
      some s' ∧
    Ensures (runOperations (.bump Bitset) sixteenMarks.numberOfTaintMarks
      ((sixteenMarks.system (fun _ => 0) (fun _ => 0)).operations (fun _ _ => none) [] tagTwice))
      .empty fun g heap =>
        g.Represents heap s'.tool.taint ∧ (heap.lost (g.refs none none)).ncard = 2 := by
  obtain ⟨s', hs⟩ : ∃ s', Lib.run (step (fun _ _ => none) [])
      (sixteenMarks.system (fun _ => 0) (fun _ => 0)) tagTwice = some s' :=
    Option.isSome_iff_exists.1 (by rfl)
  have hcount : leaked (fun _ => false) ((sixteenMarks.system (fun _ => 0) (fun _ => 0)).operations
      (fun _ _ => none) [] tagTwice) = 2 := by rfl
  have hrun := realized (.bump Bitset) _ _ _ _ _ hs
  rw [hcount] at hrun
  exact ⟨s', hs, hrun⟩

end System

end

end Dytan
