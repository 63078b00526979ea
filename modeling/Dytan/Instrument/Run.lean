import Dytan.Taint.Marks
import Dytan.Instrument.Handlers

/-!
# Running the inserted calls

`execute` runs a straight-line program: for each instruction the calls its handler inserted, with
what Pin passes to them (`Context`); a handler that aborts ends the tool.

`Call.step` is a call on `Taint`, `stepCalls` and `stepProgram` a list of calls and a program.
On a state of width `n` every call passes its assertions and does what `Call.step` says
(`run_gives`), and so do the calls of a handler (`runCalls_gives`) and a program whose handlers
do not abort (`execute_gives`).
-/

namespace Dytan

open TaintState

variable {w : Nat}

/-- An instruction with what Pin passes to its calls. -/
structure Executed (w : Nat) where
  ins : INS
  ctx : Context w

/-- The calls inserted for one instruction. -/
def executeINS (st : TaintState w) (e : Executed w) : Option (TaintState w) :=
  match (dataflow e.ins : Insertion w Unit).exit with
  | .error (.aborted _) => none
  | _ => runCalls e.ctx st (dataflow e.ins).calls

/-- A straight-line program. -/
def execute (st : TaintState w) (program : List (Executed w)) : Option (TaintState w) :=
  program.foldlM executeINS st

/-! ## The calls on `Taint` -/

/-- The addresses a `TaintForMemory` call visits. -/
def Context.readRange (ctx : Context w) (ea : ReadEA) : List (ADDRINT w) :=
  addrRange (ctx.readEA ea) (ctx.readEA ea + ctx.memoryReadSize)

/-- The addresses a `SetTaintForMemory` or `ClearTaintForMemory` call visits. -/
def Context.writeRange (ctx : Context w) : List (ADDRINT w) :=
  addrRange ctx.memoryWriteEA (ctx.memoryWriteEA + ctx.memoryWriteSize)

noncomputable section

/-- The marks of a list of scratch sets. -/
def Taint.scratchMarks (t : Taint w) (args : List Scratch) : Set ℕ :=
  {m | ∃ s ∈ args, m ∈ t.scratch s}

/-- The marks `TaintForMemory` collects. -/
def Taint.readMarks (t : Taint w) (addrs : List (ADDRINT w)) (baseReg indexReg : REG) : Set ℕ :=
  t.bytesMarks addrs ∪ t.addressMarks baseReg ∪ t.addressMarks indexReg

def Call.step (ctx : Context w) (t : Taint w) : Call w → Taint w
  | .clearTaintSet set => t.load set ∅
  | .taintForRegister reg set => t.load set (t.regMarks reg)
  | .taintForMemory ea baseReg indexReg set =>
    t.load set (t.readMarks (ctx.readRange ea) baseReg indexReg)
  | .setTaintForRegister dest args => t.setReg dest (t.scratchMarks args)
  | .setTaintForMemory args => t.setMem ctx.writeRange (t.scratchMarks args)
  | .clearTaintForRegister reg => t.clearReg reg
  | .clearTaintForMemory => t.clearMem ctx.writeRange
  | .ifThen check call => if check.holds ctx then call.step ctx t else t

def stepCalls (ctx : Context w) (t : Taint w) (calls : List (Call w)) : Taint w :=
  calls.foldl (Call.step ctx) t

def stepProgram (t : Taint w) (program : List (Executed w)) : Taint w :=
  program.foldl (fun t e => stepCalls e.ctx t (dataflow e.ins).calls) t

@[simp] theorem stepCalls_nil (ctx : Context w) (t : Taint w) : stepCalls ctx t [] = t := rfl
@[simp] theorem stepCalls_cons (ctx : Context w) (t : Taint w) (c : Call w) (cs : List (Call w)) :
    stepCalls ctx t (c :: cs) = stepCalls ctx (c.step ctx t) cs := rfl
@[simp] theorem stepCalls_append (ctx : Context w) (t : Taint w) (cs cs' : List (Call w)) :
    stepCalls ctx t (cs ++ cs') = stepCalls ctx (stepCalls ctx t cs) cs' := List.foldl_append ..

/-! ## Refinement -/

variable {n : Nat}

theorem args_ok {st : TaintState w} (h : st.WidthOk n) (args : List Scratch) :
    ∀ s ∈ args.map st.scratch, Bitset.Ok n s := by
  intro s hs
  obtain ⟨set, -, rfl⟩ := List.mem_map.1 hs
  exact h.scratch set

theorem args_marks (st : TaintState w) (args : List Scratch) :
    {m | ∃ s ∈ args.map st.scratch, m ∈ s.marks} = st.taint.scratchMarks args := by
  ext m
  simp [Taint.scratchMarks]

theorem run_gives (ctx : Context w) {st : TaintState w} (h : st.WidthOk n) (c : Call w) :
    Gives n (c.run ctx st) (c.step ctx st.taint) := by
  induction c with
  | clearTaintSet set => exact clearTaintSet_gives h set
  | taintForRegister reg set => exact taintForRegister_gives h reg set
  | taintForMemory ea baseReg indexReg set => exact taintForMemory_gives h _ _ baseReg indexReg set
  | setTaintForRegister dest args =>
    rw [Call.step, ← args_marks]
    exact setTaintForRegister_gives h dest (args_ok h args)
  | setTaintForMemory args =>
    rw [Call.step, ← args_marks]
    exact setTaintForMemory_gives h _ _ (args_ok h args)
  | clearTaintForRegister reg => exact clearTaintForRegister_gives h reg
  | clearTaintForMemory => exact clearTaintForMemory_gives h _ _
  | ifThen check call ih =>
    simp only [Call.run, Call.step]
    split
    · exact ih
    · exact h.gives

theorem runCalls_gives (ctx : Context w) (calls : List (Call w)) {st : TaintState w}
    (h : st.WidthOk n) : Gives n (runCalls ctx st calls) (stepCalls ctx st.taint calls) := by
  induction calls generalizing st with
  | nil => exact h.gives
  | cons c calls ih =>
    refine Gives.bind (run_gives ctx h c) fun st' h' ht => ?_
    rw [stepCalls_cons, ← ht]
    exact ih h'

theorem executeINS_gives {st : TaintState w} (h : st.WidthOk n) {e : Executed w}
    (ha : (dataflow e.ins : Insertion w Unit).Accepted) :
    Gives n (executeINS st e) (stepCalls e.ctx st.taint (dataflow e.ins).calls) := by
  unfold executeINS
  split
  · rename_i message hm
    exact absurd hm (ha message)
  · exact runCalls_gives e.ctx _ h

theorem executeINS_runCalls {st st' : TaintState w} {e : Executed w}
    (h : executeINS st e = some st') : runCalls e.ctx st (dataflow e.ins).calls = some st' := by
  unfold executeINS at h
  split at h
  · cases h
  · exact h

/-- An instruction that runs has a handler that does not abort. -/
theorem executeINS_taint {st st' : TaintState w} (h : st.WidthOk n) {e : Executed w}
    (he : executeINS st e = some st') :
    st'.WidthOk n ∧ st'.taint = stepCalls e.ctx st.taint (dataflow e.ins).calls := by
  have ha : (dataflow e.ins : Insertion w Unit).Accepted := by
    intro message hm
    rw [executeINS, hm] at he
    cases he
  obtain ⟨st₁, hst, hok, htaint⟩ := executeINS_gives h ha
  obtain rfl := Option.some.inj (he.symm.trans hst)
  exact ⟨hok, htaint⟩

theorem execute_gives (program : List (Executed w)) {st : TaintState w} (h : st.WidthOk n)
    (ha : ∀ e ∈ program, (dataflow e.ins : Insertion w Unit).Accepted) :
    Gives n (execute st program) (stepProgram st.taint program) := by
  induction program generalizing st with
  | nil => exact h.gives
  | cons e program ih =>
    refine Gives.bind (executeINS_gives h (ha e (by simp))) fun st' h' ht => ?_
    have := ih h' fun e he => ha e (by simp [he])
    rwa [ht] at this

end

end Dytan
