import Dytan.Instrument.MultiOperand

/-!
# Loads

What the handlers put into the scratch sets, as a list of `Load`s. `stepCalls_loadsOf`: the calls of
such a list leave the maps alone and put into each scratch set what its load collects
(`Load.marks`); with them, `LoadedInto.of_loads`.
-/

namespace Dytan

open Insertion TaintState

variable {w : Nat}

/-- The argument of a `TaintForRegister`, `TaintForMemory` or `ClearTaintSet` call. -/
inductive Load
  | register (reg : REG)
  | memory (ea : ReadEA) (baseReg indexReg : REG)
  | nothing
deriving DecidableEq, Repr

def Load.call (set : Scratch) : Load → Call w
  | .register reg => .taintForRegister reg set
  | .memory ea baseReg indexReg => .taintForMemory ea baseReg indexReg set
  | .nothing => .clearTaintSet set

/-- The calls of a list of loads. -/
def loadCalls (loads : List (Scratch × Load)) : List (Call w) := loads.map fun l => l.2.call l.1

/-- The memory operand reaches the last byte of memory. -/
def Context.ReadWraps (ctx : Context w) (ea : ReadEA) : Prop :=
  RangeWraps (ctx.readEA ea) ctx.memoryReadSize

/-- The marks of the bytes of a memory operand. -/
def Context.operandMarks (ctx : Context w) (t : Taint w) (ea : ReadEA) : Set ℕ :=
  {m | ∃ a ∈ bytesAt (ctx.readEA ea) ctx.memoryReadSize, m ∈ t.memMarks a}

/-- What a load collects. -/
def Load.marks (ctx : Context w) (t : Taint w) : Load → Set ℕ
  | .register reg => t.regMarks reg
  | .memory ea baseReg indexReg => t.readMarks (ctx.readRange ea) baseReg indexReg
  | .nothing => ∅

/-- The load of a source. -/
def Source.load (ins : INS) : Source → Load
  | .operand n =>
    match ins.operandKind n with
    | .reg r => .register r
    | .memory b i => .memory .MEMORYREAD b i
    | _ => .nothing
  | .eflags => .register .EFLAGS
  | .base => .register (ins.operandMemoryBaseReg 0)
  | .index => .register (ins.operandMemoryIndexReg 0)

section
variable {ctx : Context w} {t : Taint w} {loads : List (Scratch × Load)}

@[simp] theorem loadCalls_nil : (loadCalls [] : List (Call w)) = [] := rfl

@[simp] theorem loadCalls_cons (l : Scratch × Load) :
    (loadCalls (l :: loads) : List (Call w)) = l.2.call l.1 :: loadCalls loads := rfl

theorem loadCall_eq (ins : INS) (l : Scratch × Source) :
    (loadCall ins l : Call w) = (l.2.load ins).call l.1 := by
  obtain ⟨set, source⟩ := l
  cases source with
  | operand n =>
    simp only [loadCall, Source.load]
    cases ins.operandKind n <;> rfl
  | _ => rfl

/-- The loads of a form. -/
def Form.loadsOf (ins : INS) (f : Form) : List (Scratch × Load) :=
  f.loads.map fun l => (l.1, l.2.load ins)

theorem Form.calls_eq (ins : INS) (f : Form) :
    (f.calls ins : List (Call w)) = loadCalls (f.loadsOf ins) ++ f.sets.map (setCall ins) := by
  have hloads : f.loads.map (loadCall ins) = (loadCalls (f.loadsOf ins) : List (Call w)) := by
    rw [loadCalls, Form.loadsOf, List.map_map]
    exact List.map_congr_left fun l _ => loadCall_eq ins l
  rw [Form.calls, hloads]

/-- The loop over a memory operand collects the marks of its bytes, or nothing. -/
theorem bytesMarks_readRange (t : Taint w) (ea : ReadEA) :
    t.bytesMarks (ctx.readRange ea) = {m | ¬ ctx.ReadWraps ea ∧ m ∈ ctx.operandMarks t ea} := by
  ext m
  by_cases hw : ctx.ReadWraps ea
  · simp [Taint.bytesMarks, Context.readRange, addrRange_wraps hw, hw]
  · simp only [Taint.bytesMarks, Context.readRange, mem_addrRange_bytes hw, Context.operandMarks,
      Set.mem_ofPred_eq, hw, not_false_eq_true, true_and]

theorem Load.step (ctx : Context w) (t : Taint w) (set : Scratch) (l : Load) :
    (l.call set).step ctx t = t.load set (l.marks ctx t) := by
  cases l <;> rfl

/-- Loading does not change what later loads collect. -/
theorem Load.marks_load (set : Scratch) (S : Set ℕ) (l : Load) :
    l.marks ctx (t.load set S) = l.marks ctx t := by
  cases l <;> rfl

/-- The loads leave the maps alone and put what each collects into its scratch set. -/
theorem stepCalls_loadsOf (hn : (loads.map Prod.fst).Nodup) :
    let t' := stepCalls ctx t (loadCalls loads)
    t'.reg = t.reg ∧ t'.mem = t.mem ∧ t'.control = t.control ∧
      (∀ l ∈ loads, t'.scratch l.1 = l.2.marks ctx t) ∧
      ∀ s, s ∉ loads.map Prod.fst → t'.scratch s = t.scratch s := by
  induction loads generalizing t with
  | nil => exact ⟨rfl, rfl, rfl, by simp, fun _ _ => rfl⟩
  | cons l loads ih =>
    rw [List.map_cons, List.nodup_cons] at hn
    simp only [loadCalls_cons, stepCalls_cons, Load.step]
    obtain ⟨h1, h2, h3, h4, h5⟩ := ih (t := t.load l.1 (l.2.marks ctx t)) hn.2
    refine ⟨h1, h2, h3, fun l' hl' => ?_, fun s hs => ?_⟩
    · rcases List.mem_cons.1 hl' with rfl | hl'
      · rw [h5 _ hn.1, Taint.load_scratch_same]
      · rw [h4 l' hl', Load.marks_load]
    · rw [List.map_cons, List.mem_cons, not_or] at hs
      rw [h5 s hs.2, Taint.load_scratch_other _ _ hs.1]

/-- What the loads collect, when their scratch sets are the arguments of an assignment. -/
theorem LoadedInto.of_loads (ctx : Context w) (t : Taint w) (hn : (loads.map Prod.fst).Nodup)
    {args : List Scratch} (hargs : args ⊆ loads.map Prod.fst) :
    LoadedInto t (stepCalls ctx t (loadCalls loads)) args
      {m | ∃ l ∈ loads, l.1 ∈ args ∧ m ∈ l.2.marks ctx t} := by
  obtain ⟨hreg, hmem, hctl, hscr, -⟩ := @stepCalls_loadsOf w ctx t loads hn
  refine ⟨hreg, hmem, hctl, ?_⟩
  ext m
  constructor
  · rintro ⟨s, hs, hm⟩
    obtain ⟨l, hl, rfl⟩ := List.mem_map.1 (hargs hs)
    exact ⟨l, hl, hs, hscr l hl ▸ hm⟩
  · rintro ⟨l, hl, hs, hm⟩
    exact ⟨l.1, hs, (hscr l hl).symm ▸ hm⟩

/-! ## The address of operand 0 -/

/-- The calls that load the base and the index register of operand 0. -/
def addressLoads (ins : INS) : List (Scratch × Load) :=
  [(.base, .register (ins.operandMemoryBaseReg 0)), (.idx, .register (ins.operandMemoryIndexReg 0))]

theorem setRegMemAddress_inserts {ins : INS} (hmem : ins.operandIsMemory 0 = true) :
    Inserts (setRegMemAddress ins : Insertion w Unit)
      (loadCalls (addressLoads ins) ++ [.setTaintForMemory [.src, .base, .idx]]) := by
  refine .ite (fun hr => ?_) fun _ => .ite (fun _ => ?_) fun hn => absurd hmem hn
  · rw [INS.isReg_of_memory hmem] at hr
    cases hr
  · exact loadReg_inserts.bind <| loadReg_inserts.bind setMem_inserts

end

end Dytan
