import Dytan.Taint.Range
import Dytan.Instrument.Run

/-!
# The propagation equations of the arithmetic and move handlers

`equations`: the documented equations of `Instrument_ADD` (`AND`, `OR`, `SUB`), `Instrument_XOR`
with distinct operands, `Instrument_ADC` (`SBB`), `Instrument_SAR` (`SHL`, `SHR`), `Instrument_MOV`,
`Instrument_XADD` and `Instrument_XCHG`. `equationMarks` is their meaning: the sources are evaluated
before the instruction, and each destination takes their union with the control taint.

Each of these handlers, when it runs to its end, inserts loads of the sources followed by the
assignments (`dataflow_form`), so it computes the equations over the addresses its loops visit
(`dataflow_equations`).
-/

namespace Dytan

open Insertion TaintState

variable {w : Nat}

/-! ## Equations -/

/-- A right-hand side; `base` and `index` are the address registers of operand 0. -/
inductive Source
  | operand (n : Nat)
  | eflags
  | base
  | index
deriving DecidableEq, Repr

/-- A left-hand side. -/
inductive Destination
  | operand (n : Nat)
  | eflags
deriving DecidableEq, Repr

abbrev Equations := List (Destination × List Source)

/-- `dest, eflags := dest ∪ src`, where `src` is `cnt` for the shifts. -/
def combineEquations : Equations :=
  [(.operand 0, [.operand 0, .operand 1]), (.eflags, [.operand 0, .operand 1])]

/-- The documented equations of a handler, assigned in order. -/
def equations (ins : INS) : Option Equations :=
  match ins.opcode with
  | .ADD | .AND | .OR | .SUB | .SAR | .SHL | .SHR => some combineEquations
  | .XOR => if sameRegister ins then none else some combineEquations
  | .ADC | .SBB =>
    some [(.operand 0, [.operand 0, .operand 1, .eflags]),
      (.eflags, [.operand 0, .operand 1, .eflags])]
  | .MOV =>
    some [(.operand 0, if ins.operandIsMemory 0 then [.operand 1, .base, .index]
                       else [.operand 1])]
  | .XADD =>
    some [(.operand 0, [.operand 0, .operand 1]), (.operand 1, [.operand 0]),
      (.eflags, [.operand 0, .operand 1])]
  | .XCHG => some [(.operand 0, [.operand 1]), (.operand 1, [.operand 0])]
  | _ => none

/-- What every register and byte of memory carries. -/
@[ext]
structure Marks (w : Nat) where
  reg : REG → Set ℕ
  mem : ADDRINT w → Set ℕ

def Context.readBytes (ctx : Context w) : Set (ADDRINT w) :=
  bytesAt ctx.memoryReadEA ctx.memoryReadSize

def Context.writeBytes (ctx : Context w) : Set (ADDRINT w) :=
  bytesAt ctx.memoryWriteEA ctx.memoryWriteSize

/-- The memory operand is the one read and the one written. -/
structure OneOperand (ctx : Context w) : Prop where
  ea : ctx.memoryWriteEA = ctx.memoryReadEA
  size : ctx.memoryWriteSize = ctx.memoryReadSize
  nonempty : ctx.memoryReadSize ≠ 0

/-- An assignment to operand 0 is dropped. -/
def stackDest (ins : INS) : Prop := ins.operandReg 0 = .ESP ∨ ins.operandReg 0 = .EBP

instance (ins : INS) : Decidable (stackDest ins) := inferInstanceAs (Decidable (_ ∨ _))

noncomputable section

open Classical

def Taint.marks (t : Taint w) : Marks w := ⟨t.regMarks, t.memMarks⟩

/-- A write to a register also sets the registers it contains; to `ESP` or `EBP` it is dropped. -/
def Marks.setReg (u : Marks w) (dest : REG) (S : Set ℕ) : Marks w :=
  if dest = .ESP ∨ dest = .EBP then u
  else { u with reg := fun r => if r ∈ containedRegs dest ++ [dest] then S else u.reg r }

def Marks.setMem (u : Marks w) (written : Set (ADDRINT w)) (S : Set ℕ) : Marks w :=
  { u with mem := fun a => if a ∈ written then S else u.mem a }

/-- The marks of a source; a memory operand at `read` carries those of its bytes and of its base
and index registers. -/
def Source.marks (ins : INS) (t : Taint w) (read : Set (ADDRINT w)) : Source → Set ℕ
  | .operand n =>
    match ins.operandKind n with
    | .reg r => t.regMarks r
    | .memory b i => {m | ∃ a ∈ read, m ∈ t.memMarks a} ∪ t.addressMarks b ∪ t.addressMarks i
    | _ => ∅
  | .eflags => t.regMarks .EFLAGS
  | .base => t.addressMarks (ins.operandMemoryBaseReg 0)
  | .index => t.addressMarks (ins.operandMemoryIndexReg 0)

/-- The union of the sources, with the control taint. -/
def assigned (ins : INS) (t : Taint w) (read : Set (ADDRINT w)) (sources : List Source) : Set ℕ :=
  {m | ∃ s ∈ sources, m ∈ s.marks ins t read} ∪ t.active

def Destination.assign (ins : INS) (written : Set (ADDRINT w)) (u : Marks w) (S : Set ℕ) :
    Destination → Marks w
  | .operand n =>
    match ins.operandKind n with
    | .reg r => u.setReg r S
    | _ => u.setMem written S
  | .eflags => u.setReg .EFLAGS S

/-- The assignments of `eqs` on top of `u`, with the sources as they are in `t`. -/
def assignAll (ins : INS) (t : Taint w) (read written : Set (ADDRINT w)) (u : Marks w)
    (eqs : Equations) : Marks w :=
  eqs.foldl (fun u e => e.1.assign ins written u (assigned ins t read e.2)) u

/-- What `eqs` give after an instruction that reads the bytes `read` and writes `written`. -/
def equationMarks (ins : INS) (t : Taint w) (read written : Set (ADDRINT w)) (eqs : Equations) :
    Marks w :=
  assignAll ins t read written t.marks eqs

/-! ## The calls of the handlers -/

/-- The call that loads a source. -/
def loadCall (ins : INS) (l : Scratch × Source) : Call w :=
  match l.2 with
  | .operand n =>
    match ins.operandKind n with
    | .reg r => .taintForRegister r l.1
    | .memory b i => .taintForMemory .MEMORYREAD b i l.1
    | _ => .clearTaintSet l.1
  | .eflags => .taintForRegister .EFLAGS l.1
  | .base => .taintForRegister (ins.operandMemoryBaseReg 0) l.1
  | .index => .taintForRegister (ins.operandMemoryIndexReg 0) l.1

/-- The call that assigns to a destination. -/
def setCall (ins : INS) (s : Destination × List Scratch) : Call w :=
  match s.1 with
  | .operand n =>
    match ins.operandKind n with
    | .reg r => .setTaintForRegister r s.2
    | _ => .setTaintForMemory s.2
  | .eflags => .setTaintForRegister .EFLAGS s.2

end

namespace Insertion

/-- When `m` completes it has inserted `calls`. -/
def Inserts (m : Insertion w Unit) (calls : List (Call w)) : Prop := Completes m → m.calls = calls

variable {m m' : Insertion w Unit} {cs cs' : List (Call w)}

theorem Inserts.bind {f : Unit → Insertion w Unit} (h : Inserts m cs) (hf : Inserts (f ()) cs') :
    Inserts (m >>= f) (cs ++ cs') := by
  intro hc
  obtain ⟨h1, h2⟩ := completes_bind.1 hc
  rw [h1.calls_bind, h h1, hf h2]

theorem Inserts.ite {c : Prop} [Decidable c] (h : c → Inserts m cs) (h' : ¬ c → Inserts m' cs) :
    Inserts (if c then m else m') cs := by
  split
  · exact h ‹_›
  · exact h' ‹_›

theorem insertCall_inserts {c : Call w} : Inserts (insertCall c) [c] := fun _ => rfl

theorem abort_inserts {message : String} : Inserts (abort message) cs := nofun

theorem skip_inserts {c : Bool} : Inserts (if c then leave else pure () : Insertion w Unit) [] := by
  intro hc
  cases c
  · rfl
  · cases hc

end Insertion

section
variable {ins : INS} {k : Nat} {set : Scratch} {args : List Scratch} {otherwise : Insertion w Unit}

theorem loadMem_inserts : Inserts (loadMem ins k set : Insertion w Unit)
    [.taintForMemory .MEMORYREAD (ins.operandMemoryBaseReg k) (ins.operandMemoryIndexReg k) set] :=
  skip_inserts.bind insertCall_inserts

theorem setMem_inserts : Inserts (needWrite ins >>= fun _ => insertCall (.setTaintForMemory args) :
    Insertion w Unit) [.setTaintForMemory args] :=
  skip_inserts.bind insertCall_inserts

theorem loadReg_inserts {r : REG} :
    Inserts (loadReg r set : Insertion w Unit) [.taintForRegister r set] := insertCall_inserts

theorem setReg_inserts {r : REG} :
    Inserts (setReg r args : Insertion w Unit) [.setTaintForRegister r args] := insertCall_inserts

theorem loadOperand_inserts (h : ins.operandIsReg k = true) :
    Inserts (loadReg (ins.operandReg k) set : Insertion w Unit)
      [loadCall ins (set, .operand k)] := by
  simpa only [loadCall, INS.kind_of_reg h] using loadReg_inserts

theorem clearOperand_inserts (h : ins.operandIsImmediate k = true) :
    Inserts (insertCall (.clearTaintSet set) : Insertion w Unit)
      [loadCall ins (set, .operand k)] := by
  simpa only [loadCall, INS.kind_of_immediate h] using insertCall_inserts

theorem loadRegMem_inserts (h : Inserts otherwise [loadCall ins (set, .operand k)]) :
    Inserts (loadRegMem ins k set otherwise) [loadCall ins (set, .operand k)] := by
  refine .ite loadOperand_inserts fun _ => .ite (fun hm => ?_) fun _ => h
  simpa only [loadCall, INS.kind_of_memory hm] using loadMem_inserts

theorem loadRegMemImm_inserts (h : Inserts otherwise [loadCall ins (set, .operand k)]) :
    Inserts (loadRegMemImm ins k set otherwise) [loadCall ins (set, .operand k)] :=
  loadRegMem_inserts (.ite clearOperand_inserts fun _ => h)

theorem loadRegImm_inserts (h : Inserts otherwise [loadCall ins (set, .operand k)]) :
    Inserts (loadRegImm ins k set otherwise) [loadCall ins (set, .operand k)] :=
  .ite loadOperand_inserts fun _ => .ite clearOperand_inserts fun _ => h

theorem setOperand_inserts (h : ins.operandIsReg k = true) :
    Inserts (setReg (ins.operandReg k) args : Insertion w Unit)
      [setCall ins (.operand k, args)] := by
  simpa only [setCall, INS.kind_of_reg h] using setReg_inserts

theorem setRegMem_inserts (h : Inserts otherwise [setCall ins (.operand k, args)]) :
    Inserts (setRegMem ins k args otherwise) [setCall ins (.operand k, args)] := by
  refine .ite setOperand_inserts fun _ => .ite (fun hm => ?_) fun _ => h
  simpa only [setCall, INS.kind_of_memory hm] using setMem_inserts

theorem loadMem_completes (h : ins.isMemoryRead = true) :
    Completes (loadMem ins k set : Insertion w Unit) := by
  unfold loadMem needRead
  rw [h]
  rfl

theorem loadRegMem_completes
    (h : ins.operandIsReg k = true ∨ ins.operandIsMemory k = true ∧ ins.isMemoryRead = true) :
    Completes (loadRegMem ins k set otherwise) := by
  unfold loadRegMem
  rcases h with hreg | ⟨hmem, hread⟩
  · rw [if_pos hreg]
    rfl
  · rw [if_neg (by simp [INS.isReg_of_memory hmem]), if_pos hmem]
    exact loadMem_completes hread

theorem setRegMem_completes
    (h : ins.operandIsReg k = true ∨ ins.operandIsMemory k = true ∧ ins.isMemoryWrite = true) :
    Completes (setRegMem ins k args otherwise) := by
  unfold setRegMem needWrite
  rcases h with hreg | ⟨hmem, hwrite⟩
  · rw [if_pos hreg]
    rfl
  · rw [if_neg (by simp [INS.isReg_of_memory hmem]), if_pos hmem, hwrite]
    rfl

end

/-! ### Loads, then assignments -/

/-- What a handler loads and assigns. -/
structure Form where
  loads : List (Scratch × Source)
  sets : List (Destination × List Scratch)

def Form.calls (ins : INS) (f : Form) : List (Call w) :=
  f.loads.map (loadCall ins) ++ f.sets.map (setCall ins)

/-- The scratch sets `args` were loaded with exactly `sources`. -/
def Reads (loads : List (Scratch × Source)) (args : List Scratch) (sources : List Source) : Prop :=
  (∀ set ∈ args, ∃ source ∈ sources, (set, source) ∈ loads) ∧
    ∀ source ∈ sources, ∃ set ∈ args, (set, source) ∈ loads

/-- The loads of `f` go to different scratch sets, and its assignments read, for each equation of
`eqs`, the scratch sets its sources were loaded into. -/
structure Form.Computes (f : Form) (eqs : Equations) : Prop where
  nodup : (f.loads.map Prod.fst).Nodup
  sets : List.Forall₂ (fun s e => s.1 = e.1 ∧ Reads f.loads s.2 e.2) f.sets eqs

section
variable {ins : INS}

theorem instrumentADD_inserts : Inserts (instrumentADD ins : Insertion w Unit)
    (Form.calls ins ⟨[(.dest, .operand 0), (.src, .operand 1)],
      [(.operand 0, [.dest, .src]), (.eflags, [.dest, .src])]⟩) :=
  (loadRegMem_inserts abort_inserts).bind <| (loadRegMemImm_inserts abort_inserts).bind <|
    (setRegMem_inserts abort_inserts).bind setReg_inserts

theorem instrumentXOR_inserts (h : sameRegister ins = false) :
    Inserts (instrumentXOR ins : Insertion w Unit)
    (Form.calls ins ⟨[(.dest, .operand 0), (.src, .operand 1)],
      [(.operand 0, [.dest, .src]), (.eflags, [.dest, .src])]⟩) :=
  (loadRegMem_inserts abort_inserts).bind <| (loadRegMemImm_inserts abort_inserts).bind <|
    (Inserts.ite (fun hs => by rw [h] at hs; cases hs)
      fun _ => setRegMem_inserts abort_inserts).bind setReg_inserts

theorem instrumentADC_inserts : Inserts (instrumentADC ins : Insertion w Unit)
    (Form.calls ins ⟨[(.dest, .operand 0), (.src, .operand 1), (.eflags, .eflags)],
      [(.operand 0, [.dest, .src, .eflags]), (.eflags, [.dest, .src, .eflags])]⟩) :=
  (loadRegMem_inserts abort_inserts).bind <| (loadRegMemImm_inserts abort_inserts).bind <|
    loadReg_inserts.bind <| (setRegMem_inserts abort_inserts).bind setReg_inserts

theorem instrumentSAR_inserts : Inserts (instrumentSAR ins : Insertion w Unit)
    (Form.calls ins ⟨[(.dest, .operand 0), (.cnt, .operand 1)],
      [(.operand 0, [.dest, .cnt]), (.eflags, [.dest, .cnt])]⟩) :=
  (loadRegMem_inserts abort_inserts).bind <| (loadRegImm_inserts abort_inserts).bind <|
    (setRegMem_inserts abort_inserts).bind setReg_inserts

theorem instrumentXCHG_inserts : Inserts (instrumentXCHG ins : Insertion w Unit)
    (Form.calls ins ⟨[(.dest, .operand 0), (.src, .operand 1)],
      [(.operand 0, [.src]), (.operand 1, [.dest])]⟩) :=
  (loadRegMem_inserts abort_inserts).bind <| (loadRegMem_inserts abort_inserts).bind <|
    (setRegMem_inserts abort_inserts).bind (setRegMem_inserts abort_inserts)

theorem instrumentXADD_inserts : Inserts (instrumentXADD ins : Insertion w Unit)
    (Form.calls ins ⟨[(.dest, .operand 0), (.src, .operand 1)],
      [(.operand 0, [.dest, .src]), (.operand 1, [.dest]), (.eflags, [.dest, .src])]⟩) := by
  intro hc
  have h1 : ins.operandIsReg 1 = true := by
    have h := (completes_bind.1 (completes_bind.1 hc).2).1
    by_contra hn
    rw [if_neg hn] at h
    cases h
  refine ((loadRegMem_inserts abort_inserts).bind <| (Inserts.ite loadOperand_inserts
    fun _ => abort_inserts).bind <| (setRegMem_inserts abort_inserts).bind <|
    (setOperand_inserts h1).bind setReg_inserts) hc

theorem instrumentMOV_reg_inserts (h : ins.operandIsMemory 0 = false) :
    Inserts (instrumentMOV ins : Insertion w Unit)
    (Form.calls ins ⟨[(.src, .operand 1)], [(.operand 0, [.src])]⟩) :=
  (loadRegMemImm_inserts abort_inserts).bind <| .ite setOperand_inserts
    fun _ => .ite (fun hm => by rw [h] at hm; cases hm) fun _ => abort_inserts

theorem instrumentMOV_mem_inserts (h : ins.operandIsMemory 0 = true) :
    Inserts (instrumentMOV ins : Insertion w Unit)
    (Form.calls ins ⟨[(.src, .operand 1), (.base, .base), (.idx, .index)],
      [(.operand 0, [.src, .base, .idx])]⟩) := by
  refine (loadRegMemImm_inserts abort_inserts).bind (.ite (fun hr => ?_) fun _ => .ite (fun _ => ?_)
    fun _ => abort_inserts)
  · rw [INS.isReg_of_memory h] at hr
    cases hr
  · have hset : Inserts (needWrite ins >>= fun _ => insertCall (.setTaintForMemory
        [.src, .base, .idx]) : Insertion w Unit)
        [setCall ins (.operand 0, [.src, .base, .idx])] := by
      simpa only [setCall, INS.kind_of_memory h] using setMem_inserts
    exact loadReg_inserts.bind <| loadReg_inserts.bind hset

/-- Every handler with equations loads the sources and then assigns. -/
theorem dataflow_form {eqs : Equations} (he : equations ins = some eqs) :
    ∃ f : Form, f.Computes eqs ∧ Inserts (dataflow ins : Insertion w Unit) (f.calls ins) := by
  have hcombine : Form.Computes ⟨[(.dest, .operand 0), (.src, .operand 1)],
      [(.operand 0, [.dest, .src]), (.eflags, [.dest, .src])]⟩ combineEquations :=
    ⟨by decide, by simp [combineEquations, Reads]⟩
  have hshift : Form.Computes ⟨[(.dest, .operand 0), (.cnt, .operand 1)],
      [(.operand 0, [.dest, .cnt]), (.eflags, [.dest, .cnt])]⟩ combineEquations :=
    ⟨by decide, by simp [combineEquations, Reads]⟩
  unfold equations at he
  unfold dataflow
  cases hop : ins.opcode <;> simp only [hop, Option.some.injEq, reduceCtorEq] at he
  case ADD | AND | OR | SUB => exact he ▸ ⟨_, hcombine, instrumentADD_inserts⟩
  case SAR | SHL | SHR => exact he ▸ ⟨_, hshift, instrumentSAR_inserts⟩
  case XOR =>
    split at he
    · cases he
    · rename_i hs
      simp only [Option.some.injEq] at he
      exact he ▸ ⟨_, hcombine, instrumentXOR_inserts (by simpa using hs)⟩
  case ADC | SBB => exact ⟨_, ⟨by decide, by simp [← he, Reads]⟩, instrumentADC_inserts⟩
  case XADD => exact ⟨_, ⟨by decide, by simp [← he, Reads]⟩, instrumentXADD_inserts⟩
  case XCHG => exact ⟨_, ⟨by decide, by simp [← he, Reads]⟩, instrumentXCHG_inserts⟩
  case MOV =>
    split at he
    · exact ⟨_, ⟨by decide, by simp [← he, Reads]⟩, instrumentMOV_mem_inserts ‹_›⟩
    · exact ⟨_, ⟨by decide, by simp [← he, Reads]⟩, instrumentMOV_reg_inserts (by simp_all)⟩

end

/-- A handler that completes runs the calls it inserts. -/
theorem executeINS_inserts {ins : INS} (ctx : Context w) {calls : List (Call w)} {n : Nat}
    {st : TaintState w} (hins : Inserts (dataflow ins) calls)
    (hc : Completes (dataflow ins : Insertion w Unit)) (h : st.WidthOk n) :
    ∃ st', executeINS st ⟨ins, ctx⟩ = some st' ∧ st'.WidthOk n ∧
      st'.taint = stepCalls ctx st.taint calls := by
  have hacc : (dataflow ins : Insertion w Unit).Accepted := by
    intro message hm
    rw [hc] at hm
    cases hm
  obtain ⟨st', hst', hok, htaint⟩ := executeINS_gives (e := ⟨ins, ctx⟩) h hacc
  exact ⟨st', hst', hok, by rw [htaint, hins hc]⟩

/-! ## The handlers compute the equations -/

/-- The addresses the loops of the calls visit. -/
def Context.readVisited (ctx : Context w) : Set (ADDRINT w) := {a | a ∈ ctx.readRange .MEMORYREAD}

def Context.writeVisited (ctx : Context w) : Set (ADDRINT w) := {a | a ∈ ctx.writeRange}

section
variable {ins : INS} {ctx : Context w} {t t' : Taint w}

theorem Source.marks_congr (hreg : t'.reg = t.reg) (hmem : t'.mem = t.mem)
    (read : Set (ADDRINT w)) (source : Source) :
    source.marks ins t' read = source.marks ins t read := by
  have hr : t'.regMarks = t.regMarks := funext fun r => by unfold Taint.regMarks; rw [hreg]
  have hm : t'.memMarks = t.memMarks := funext fun a => by unfold Taint.memMarks; rw [hmem]
  have ha : t'.addressMarks = t.addressMarks :=
    funext fun r => by unfold Taint.addressMarks; rw [hr]
  unfold Source.marks
  rw [hr, hm, ha]

theorem regMarks_invalid (hinv : t.reg .INVALID = none) (r : REG) :
    t.regMarks r = t.addressMarks r := by
  unfold Taint.addressMarks REG.valid
  by_cases h : r = .INVALID
  · subst h; simp [Taint.regMarks, hinv]
  · simp [h]

theorem step_ifThen_pos {check : IfCall w} {call : Call w} (h : check.holds ctx = true) :
    (Call.ifThen check call).step ctx t = call.step ctx t := if_pos h

theorem step_ifThen_neg {check : IfCall w} {call : Call w} (h : ¬ check.holds ctx = true) :
    (Call.ifThen check call).step ctx t = t := if_neg h

theorem load_scratchMarks (set : Scratch) (S : Set ℕ) :
    (t.load set S).scratchMarks [set] = S := by
  simp [Taint.scratchMarks]

theorem load_setReg_reg (set : Scratch) (S S' : Set ℕ) (dest : REG) :
    ((t.load set S).setReg dest S').reg = (t.setReg dest S').reg := by
  unfold Taint.setReg
  split <;> rfl

theorem step_loadOperand (set : Scratch) (n : Nat) :
    (loadCall ins (set, .operand n)).step ctx t =
      t.load set ((Source.operand n).marks ins t ctx.readVisited) := by
  simp only [loadCall, Source.marks]
  cases ins.operandKind n <;> rfl

/-- Not an address register of operand 0. -/
def Source.notAddress (source : Source) : Prop := source ≠ .base ∧ source ≠ .index

theorem step_loadCall {l : Scratch × Source} (h : t.reg .INVALID = none ∨ l.2.notAddress) :
    (loadCall ins l).step ctx t = t.load l.1 (l.2.marks ins t ctx.readVisited) := by
  obtain ⟨set, source⟩ := l
  cases source with
  | operand n => exact step_loadOperand set n
  | eflags => rfl
  | base =>
    simp only [loadCall, Source.marks, Call.step]
    rw [regMarks_invalid (h.resolve_right fun hn => hn.1 rfl)]
  | index =>
    simp only [loadCall, Source.marks, Call.step]
    rw [regMarks_invalid (h.resolve_right fun hn => hn.2 rfl)]

/-- The loads leave the maps alone and put each source into its scratch set. -/
theorem stepCalls_loads (ins : INS) (ctx : Context w) : ∀ (loads : List (Scratch × Source)) {t : Taint w},
    (t.reg .INVALID = none ∨ ∀ l ∈ loads, l.2.notAddress) → (loads.map Prod.fst).Nodup →
    let t' := stepCalls ctx t (loads.map (loadCall ins))
    t'.reg = t.reg ∧ t'.mem = t.mem ∧ t'.control = t.control ∧
      (∀ l ∈ loads, t'.scratch l.1 = l.2.marks ins t ctx.readVisited) ∧
      ∀ s, s ∉ loads.map Prod.fst → t'.scratch s = t.scratch s
  | [], t, _, _ => ⟨rfl, rfl, rfl, by simp, fun _ _ => rfl⟩
  | l :: loads, t, hinv, hn => by
    rw [List.map_cons, List.nodup_cons] at hn
    have hfirst : t.reg .INVALID = none ∨ l.2.notAddress := hinv.imp_right fun h => h l (by simp)
    have hrest : (t.load l.1 (l.2.marks ins t ctx.readVisited)).reg .INVALID = none ∨
        ∀ l ∈ loads, l.2.notAddress := hinv.imp_right fun h l hl => h l (by simp [hl])
    simp only [List.map_cons, stepCalls_cons, step_loadCall hfirst]
    obtain ⟨h1, h2, h3, h4, h5⟩ := stepCalls_loads ins ctx loads hrest hn.2
    refine ⟨h1, h2, h3, fun l' hl' => ?_, fun s hs => ?_⟩
    · rcases List.mem_cons.1 hl' with rfl | hl'
      · rw [h5 _ hn.1, Taint.load_scratch_same]
      · exact (h4 l' hl').trans (Source.marks_congr rfl rfl _ _)
    · rw [List.mem_cons, not_or] at hs
      rw [h5 s hs.2, Taint.load_scratch_other _ _ hs.1]

theorem marks_setReg (t : Taint w) (dest : REG) (S : Set ℕ) :
    (t.setReg dest S).marks = t.marks.setReg dest (S ∪ t.active) := by
  unfold Taint.setReg Marks.setReg
  split
  · rfl
  · ext1
    · funext r
      simp only [Taint.marks, Taint.regMarks]
      split <;> simp_all
    · rfl

theorem marks_setMem (t : Taint w) (addrs : List (ADDRINT w)) (S : Set ℕ) :
    (t.setMem addrs S).marks = t.marks.setMem {a | a ∈ addrs} (S ∪ t.active) := by
  ext1
  · rfl
  · funext a
    simp only [Taint.marks, Taint.memMarks, Taint.setMem, Marks.setMem, Set.mem_ofPred_eq]
    split <;> simp_all

theorem step_setCall (ins : INS) (ctx : Context w) (t : Taint w) (s : Destination × List Scratch) :
    ((setCall ins s).step ctx t).marks =
      s.1.assign ins ctx.writeVisited t.marks (t.scratchMarks s.2 ∪ t.active) ∧
    ((setCall ins s).step ctx t).control = t.control ∧
    ((setCall ins s).step ctx t).scratch = t.scratch := by
  obtain ⟨dest, args⟩ := s
  cases dest with
  | operand n =>
    simp only [setCall, Destination.assign]
    cases ins.operandKind n with
    | reg r => exact ⟨marks_setReg t r _, by simp [Call.step], by simp [Call.step]⟩
    | _ => exact ⟨marks_setMem t _ _, rfl, rfl⟩
  | eflags => exact ⟨marks_setReg t .EFLAGS _, by simp [setCall, Call.step],
      by simp [setCall, Call.step]⟩

theorem active_congr (h : t'.control = t.control) : t'.active = t.active := by
  unfold Taint.active
  rw [h]

theorem setReg_reg_congr {t t' : Taint w} (hreg : t'.reg = t.reg) (hctl : t'.control = t.control)
    (dest : REG) (S : Set ℕ) : (t'.setReg dest S).reg = (t.setReg dest S).reg := by
  unfold Taint.setReg
  rw [active_congr hctl, hreg]
  split
  · exact hreg
  · rfl

/-- Assignments from scratch sets that hold the sources. -/
theorem stepCalls_sets (ctx : Context w) {t₀ : Taint w} {read : Set (ADDRINT w)}
    {loads : List (Scratch × Source)} {sets : List (Destination × List Scratch)} {eqs : Equations}
    (hf : List.Forall₂ (fun s e => s.1 = e.1 ∧ Reads loads s.2 e.2) sets eqs)
    {t : Taint w} (hc : t.control = t₀.control)
    (hl : ∀ l ∈ loads, t.scratch l.1 = l.2.marks ins t₀ read) :
    (stepCalls ctx t (sets.map (setCall ins))).marks =
      assignAll ins t₀ read ctx.writeVisited t.marks eqs ∧
    (stepCalls ctx t (sets.map (setCall ins))).control = t₀.control := by
  induction hf generalizing t with
  | nil => exact ⟨rfl, hc⟩
  | @cons s e sets eqs hse _ ih =>
    obtain ⟨hm, hctl, hscr⟩ := step_setCall ins ctx t s
    have hS : t.scratchMarks s.2 ∪ t.active = assigned ins t₀ read e.2 := by
      unfold assigned Taint.scratchMarks
      rw [active_congr hc]
      congr 1
      ext m
      constructor
      · rintro ⟨set, hset, hm⟩
        obtain ⟨source, hsource, hmem⟩ := hse.2.1 set hset
        exact ⟨source, hsource, hl _ hmem ▸ hm⟩
      · rintro ⟨source, hsource, hm⟩
        obtain ⟨set, hset, hmem⟩ := hse.2.2 source hsource
        exact ⟨set, hset, (hl _ hmem).symm ▸ hm⟩
    rw [hse.1, hS] at hm
    rw [List.map_cons, stepCalls_cons, assignAll, List.foldl_cons, ← assignAll, ← hm]
    exact ih (hctl.trans hc) (by rw [hscr]; exact hl)

/-- A handler with equations that completes computes them, over the addresses its loops visit. -/
theorem dataflow_equations {eqs : Equations} (he : equations ins = some eqs)
    (hc : Completes (dataflow ins : Insertion w Unit)) (ctx : Context w) {t : Taint w}
    (hinv : t.reg .INVALID = none) :
    (stepCalls ctx t (dataflow ins).calls).marks =
      equationMarks ins t ctx.readVisited ctx.writeVisited eqs ∧
    (stepCalls ctx t (dataflow ins).calls).control = t.control := by
  obtain ⟨f, hf, hins⟩ := dataflow_form (w := w) he
  rw [hins hc, Form.calls, stepCalls_append]
  obtain ⟨hreg, hmem, hctl, hload, -⟩ := stepCalls_loads ins ctx f.loads (.inl hinv) hf.nodup
  have hmarks : (stepCalls ctx t (f.loads.map (loadCall ins))).marks = t.marks := by
    unfold Taint.marks Taint.regMarks Taint.memMarks
    rw [hreg, hmem]
  unfold equationMarks
  rw [← hmarks]
  exact stepCalls_sets ctx hf.sets hctl hload

end

end Dytan
