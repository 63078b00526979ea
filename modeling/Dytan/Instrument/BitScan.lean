import Dytan.Instrument.Loads
import Dytan.Taint.Clear

/-!
# Bit scans and the copies of their results

`Instrument_BSF` and `Instrument_BSR` clear their destination and do not look at their source. The
result is then copied on: by `MOV`, `ADD`, `SUB`, `AND`, `OR`, `LEA`, `PUSH` and `POP` (`CopyStep`),
from a register or a byte of memory (`Loc`) to another, any number of times (`Carried`).

A copy carries all marks (`CopyStep.marks`), and so does a run of them (`Carried.marks`).
`bit_scan_iff`: the states in which the copies of a bit scan's result have the marks of its source.
-/

namespace Dytan

open Insertion TaintState

variable {w : Nat}

/-! ## Copies -/

/-- A register or a byte of memory. -/
inductive Loc (w : Nat)
  | reg (r : REG)
  | byte (a : ADDRINT w)

def Loc.marks (t : Taint w) : Loc w → Set ℕ
  | .reg r => t.regMarks r
  | .byte a => t.memMarks a

/-- What a copying instruction takes its result from. -/
def copySources (ins : INS) : List Load :=
  match ins.opcode with
  | .MOV => [(Source.operand 1).load ins]
  | .ADD | .SUB | .AND | .OR => [(Source.operand 0).load ins, (Source.operand 1).load ins]
  | .LEA => [.register (ins.operandMemoryBaseReg 1), .register (ins.operandMemoryIndexReg 1)]
  | .PUSH => [(Source.operand 0).load ins]
  | .POP => [.memory .MEMORYREAD .INVALID .INVALID]
  | _ => []

/-- The register it writes; `none` for memory. -/
def copyDest (ins : INS) : Option REG :=
  if ins.opcode = .PUSH then none
  else if ins.opcode = .LEA ∨ ins.operandIsReg 0 = true then some (ins.operandReg 0)
  else none

section
variable (ctx : Context w)

/-- The location is, or is a byte of, what is loaded. -/
def Load.Reads : Load → Loc w → Prop
  | .register r, l => l = .reg r
  | .memory ea _ _, l => ¬ ctx.ReadWraps ea ∧
      ∃ a ∈ bytesAt (ctx.readEA ea) ctx.memoryReadSize, l = .byte a
  | .nothing, _ => False

/-- The location is, or is a byte of, the destination; not `ESP` or `EBP`, to which writes are
dropped. -/
def Writes (ins : INS) (l : Loc w) : Prop :=
  (∃ r, copyDest ins = some r ∧ ¬ (r = .ESP ∨ r = .EBP) ∧ l = .reg r) ∨
    copyDest ins = none ∧ ¬ RangeWraps ctx.memoryWriteEA ctx.memoryWriteSize ∧
      ∃ a ∈ ctx.writeBytes, l = .byte a

/-- The call does not write to the location. -/
def Call.Spares (l : Loc w) : Call w → Prop
  | .setTaintForRegister dest _ | .clearTaintForRegister dest => ∀ r ∈ updatedRegs dest, l ≠ .reg r
  | .setTaintForMemory _ | .clearTaintForMemory => ∀ a ∈ ctx.writeBytes, l ≠ .byte a
  | .ifThen _ call => call.Spares l
  | _ => True

end

/-- The instruction copies `l`, alone or combined with other operands, to `l'`. -/
structure CopyStep (e : Executed w) (l l' : Loc w) : Prop where
  completes : Completes (dataflow e.ins : Insertion w Unit)
  source : ∃ s ∈ copySources e.ins, s.Reads e.ctx l
  dest : Writes e.ctx e.ins l'

/-- The instruction leaves `l` alone. -/
structure SpareStep (e : Executed w) (l : Loc w) : Prop where
  accepted : (dataflow e.ins : Insertion w Unit).Accepted
  spares : ∀ c ∈ (dataflow e.ins : Insertion w Unit).calls, c.Spares e.ctx l

/-- The instructions copy what is at one location, step by step, to another. -/
inductive Carried : Loc w → List (Executed w) → Loc w → Prop
  | nil (l : Loc w) : Carried l [] l
  | copy {e : Executed w} {l l' l'' : Loc w} {program : List (Executed w)} :
    CopyStep e l l' → Carried l' program l'' → Carried l (e :: program) l''
  | spare {e : Executed w} {l l' : Loc w} {program : List (Executed w)} :
    SpareStep e l → Carried l program l' → Carried l (e :: program) l'

/-! ## The calls of a copy -/

/-- Assign to a register, or to memory. -/
def assignCall (dest : Option REG) (args : List Scratch) : Call w :=
  match dest with
  | some r => .setTaintForRegister r args
  | none => .setTaintForMemory args

section
variable {ins : INS} {ctx : Context w} {n : Nat} {st st' : TaintState w} {t t₁ : Taint w}
  {e : Executed w} {l l' : Loc w} {loads : List (Scratch × Load)} {args : List Scratch}

/-- The handler loads the sources, assigns to the destination and possibly to `EFLAGS`. -/
structure CopyCalls (ins : INS) (w : Nat) (loads : List (Scratch × Load)) (args : List Scratch) :
    Prop where
  nodup : (loads.map Prod.fst).Nodup
  loaded : args ⊆ loads.map Prod.fst
  sources : ∀ s ∈ copySources ins, ∃ set ∈ args, (set, s) ∈ loads
  inserts : ∃ flags : List (Call w), (flags = [] ∨ flags = [.setTaintForRegister .EFLAGS args]) ∧
    Inserts (dataflow ins) (loadCalls loads ++ assignCall (copyDest ins) args :: flags)

theorem setCall_eq (hop : ins.opcode ≠ .PUSH ∧ ins.opcode ≠ .LEA) (args : List Scratch) :
    (setCall ins (.operand 0, args) : Call w) = assignCall (copyDest ins) args := by
  unfold copyDest
  rw [if_neg hop.1]
  by_cases hreg : ins.operandIsReg 0 = true
  · rw [if_pos (.inr hreg)]
    simp only [setCall, INS.kind_of_reg hreg, assignCall]
  · rw [if_neg (by simp [hop.2, hreg])]
    simp only [setCall, assignCall]
    split
    · rename_i r hk
      simp [INS.operandIsReg, hk] at hreg
    · rfl

theorem copyDest_of_reg (hreg : ins.operandIsReg 0 = true) (hpush : ins.opcode ≠ .PUSH) :
    copyDest ins = some (ins.operandReg 0) := by
  rw [copyDest, if_neg hpush, if_pos (.inr hreg)]

theorem copyDest_of_memory (hmem : ins.operandIsMemory 0 = true) (hlea : ins.opcode ≠ .LEA) :
    copyDest ins = none := by
  rw [copyDest, if_neg (c := _ ∨ _) (by simp [hlea, INS.isReg_of_memory hmem]), ite_self]

theorem CopyCalls.of_add (hop : ins.opcode = .ADD ∨ ins.opcode = .SUB ∨ ins.opcode = .AND ∨
    ins.opcode = .OR) : ∃ loads args, CopyCalls ins w loads args := by
  have hflow : (dataflow ins : Insertion w Unit) = instrumentADD ins := by
    rcases hop with h | h | h | h <;> rw [dataflow, h] <;> rfl
  have hsources : copySources ins = [(Source.operand 0).load ins, (Source.operand 1).load ins] := by
    rcases hop with h | h | h | h <;> rw [copySources, h]
  have hne : ins.opcode ≠ .PUSH ∧ ins.opcode ≠ .LEA := by
    rcases hop with h | h | h | h <;> rw [h] <;> decide
  have hins : Inserts (dataflow ins : Insertion w Unit) _ := hflow ▸ instrumentADD_inserts
  rw [Form.calls_eq] at hins
  refine ⟨[(.dest, (Source.operand 0).load ins), (.src, (Source.operand 1).load ins)], [.dest, .src],
    by simp, by simp, by simp [hsources], [.setTaintForRegister .EFLAGS [.dest, .src]], .inr rfl, ?_⟩
  rw [← setCall_eq hne]
  exact hins

theorem CopyCalls.of_mov (hop : ins.opcode = .MOV) : ∃ loads args, CopyCalls ins w loads args := by
  have hflow : (dataflow ins : Insertion w Unit) = instrumentMOV ins := by
    rw [dataflow, hop]
    rfl
  have hsources : copySources ins = [(Source.operand 1).load ins] := by rw [copySources, hop]
  have hne : ins.opcode ≠ .PUSH ∧ ins.opcode ≠ .LEA := by rw [hop]; decide
  cases hmem : ins.operandIsMemory 0 with
  | true =>
    have hins : Inserts (dataflow ins : Insertion w Unit) _ := hflow ▸ instrumentMOV_mem_inserts hmem
    rw [Form.calls_eq] at hins
    refine ⟨(.src, (Source.operand 1).load ins) :: addressLoads ins, [.src, .base, .idx],
      by simp [addressLoads], by simp [addressLoads], by simp [hsources], [], .inl rfl, ?_⟩
    rw [← setCall_eq hne]
    exact hins
  | false =>
    have hins : Inserts (dataflow ins : Insertion w Unit) _ := hflow ▸ instrumentMOV_reg_inserts hmem
    rw [Form.calls_eq] at hins
    refine ⟨[(.src, (Source.operand 1).load ins)], [.src], by simp, by simp, by simp [hsources], [],
      .inl rfl, ?_⟩
    rw [← setCall_eq hne]
    exact hins

theorem CopyCalls.of_lea (hop : ins.opcode = .LEA) : ∃ loads args, CopyCalls ins w loads args := by
  have hflow : (dataflow ins : Insertion w Unit) = instrumentLEA ins := by
    rw [dataflow, hop]
    rfl
  have hdest : copyDest ins = some (ins.operandReg 0) := by
    rw [copyDest, if_neg (by rw [hop]; decide), if_pos (.inl hop)]
  refine ⟨[(.base, .register (ins.operandMemoryBaseReg 1)),
    (.idx, .register (ins.operandMemoryIndexReg 1))], [.base, .idx], by simp, by simp,
    by simp [copySources, hop], [], .inl rfl, ?_⟩
  rw [hdest, hflow]
  exact loadReg_inserts.bind <| loadReg_inserts.bind setReg_inserts

theorem CopyCalls.of_push (hop : ins.opcode = .PUSH) : ∃ loads args, CopyCalls ins w loads args := by
  have hflow : (dataflow ins : Insertion w Unit) = instrumentPUSH ins := by
    rw [dataflow, hop]
    rfl
  have hdest : copyDest ins = none := by rw [copyDest, if_pos hop]
  refine ⟨[(.src, (Source.operand 0).load ins)], [.src], by simp, by simp, by simp [copySources, hop],
    [], .inl rfl, ?_⟩
  rw [hdest, hflow, loadCalls_cons, ← loadCall_eq ins (.src, .operand 0)]
  exact (loadRegMemImm_inserts abort_inserts).bind setMem_inserts

theorem CopyCalls.of_pop (hop : ins.opcode = .POP) : ∃ loads args, CopyCalls ins w loads args := by
  have hflow : (dataflow ins : Insertion w Unit) = instrumentPOP ins := by
    rw [dataflow, hop]
    rfl
  have hsources : copySources ins = [.memory .MEMORYREAD .INVALID .INVALID] := by
    rw [copySources, hop]
  by_cases hmem : ins.operandIsMemory 0 = true
  · refine ⟨(.src, .memory .MEMORYREAD .INVALID .INVALID) :: addressLoads ins, [.src, .base, .idx],
      by simp [addressLoads], by simp [addressLoads], by simp [hsources], [], .inl rfl, ?_⟩
    rw [copyDest_of_memory hmem (by rw [hop]; decide), hflow]
    exact skip_inserts.bind <| insertCall_inserts.bind (setRegMemAddress_inserts hmem)
  · refine ⟨[(.src, .memory .MEMORYREAD .INVALID .INVALID)], [.src], by simp, by simp,
      by simp [hsources], [], .inl rfl, ?_⟩
    rw [hflow]
    refine skip_inserts.bind <| insertCall_inserts.bind <| .ite (fun hr => ?_) fun _ =>
      .ite (fun hm => absurd hm hmem) fun _ => abort_inserts
    rw [copyDest_of_reg hr (by rw [hop]; decide)]
    exact setReg_inserts

/-- The handlers of copies. -/
theorem CopyCalls.of_sources (h : copySources ins ≠ []) :
    ∃ loads args, CopyCalls ins w loads args := by
  unfold copySources at h
  split at h
  case h_1 hop => exact CopyCalls.of_mov hop
  case h_2 hop | h_3 hop | h_4 hop | h_5 hop => exact CopyCalls.of_add (by simp [hop])
  case h_6 hop => exact CopyCalls.of_lea hop
  case h_7 hop => exact CopyCalls.of_push hop
  case h_8 hop => exact CopyCalls.of_pop hop
  case h_9 => exact absurd rfl h

/-- What the calls leave at the destination. -/
theorem CopyCalls.dest_marks (h : CopyCalls ins w loads args)
    (hc : Completes (dataflow ins : Insertion w Unit)) (ctx : Context w) (t : Taint w) {l : Loc w}
    (hl : Writes ctx ins l) :
    l.marks (stepCalls ctx t (dataflow ins).calls) =
      {m | ∃ s ∈ loads, s.1 ∈ args ∧ m ∈ s.2.marks ctx t} ∪ t.active := by
  obtain ⟨flags, hflags, hins⟩ := h.inserts
  have hload := LoadedInto.of_loads ctx t h.nodup h.loaded
  rw [hins hc, stepCalls_append]
  rcases hl with ⟨r, hdest, hstack, rfl⟩ | ⟨hdest, hw, a, ha, rfl⟩
  · rw [hdest]
    rcases hflags with rfl | rfl
    · simp only [assignCall, stepCalls_cons, stepCalls_nil, Call.step, Loc.marks]
      rw [regMarks_setReg hstack, if_pos (mem_updated _), hload.marks, active_congr hload.control]
    · exact (combine_register hload ctx r).2.trans (if_neg hstack)
  · have hin : a ∈ ctx.writeRange := (mem_addrRange_bytes hw).2 ha
    rw [hdest]
    rcases hflags with rfl | rfl
    · simp only [assignCall, stepCalls_cons, stepCalls_nil, Call.step, Loc.marks, Taint.memMarks,
        Taint.setMem, if_pos hin, Option.getD_some, hload.marks, active_congr hload.control]
    · exact ((combine_memory hload ctx).2 a).trans (if_pos hin)

/-! ## Runs -/

theorem Load.Reads.marks {s : Load} (h : s.Reads ctx l) (t : Taint w) :
    l.marks t ⊆ s.marks ctx t := by
  cases s with
  | register r =>
    obtain rfl : l = .reg r := h
    exact subset_rfl
  | memory ea b i =>
    obtain ⟨hw, a, ha, rfl⟩ := h
    exact fun m hm => .inl (.inl ⟨a, (mem_addrRange_bytes hw).2 ha, hm⟩)
  | nothing => exact h.elim

/-- A copy carries the marks. -/
theorem CopyStep.marks (h : CopyStep e l l') (hst : st.WidthOk n) :
    ∃ st', executeINS st e = some st' ∧ st'.WidthOk n ∧ l.marks st.taint ⊆ l'.marks st'.taint := by
  obtain ⟨s, hs, hreads⟩ := h.source
  obtain ⟨loads, args, hcalls⟩ :=
    @CopyCalls.of_sources w e.ins fun hnil => by rw [hnil] at hs; cases hs
  obtain ⟨st', hst', hok, htaint⟩ :=
    executeINS_inserts e.ctx (fun _ => rfl : Inserts (dataflow e.ins) _) h.completes hst
  obtain ⟨set, hset, hload⟩ := hcalls.sources s hs
  refine ⟨st', hst', hok, fun m hm => ?_⟩
  rw [htaint, hcalls.dest_marks h.completes e.ctx st.taint h.dest]
  exact .inl ⟨_, hload, hset, hreads.marks st.taint hm⟩

theorem setReg_spares {d : REG} (h : ∀ r ∈ updatedRegs d, l ≠ .reg r) (S : Set ℕ) (t : Taint w) :
    l.marks (t.setReg d S) = l.marks t := by
  cases l with
  | byte a => exact Taint.setReg_memMarks ..
  | reg r =>
    have hr : r ∉ containedRegs d ++ [d] := fun hin => h r hin rfl
    show (t.setReg d S).regMarks r = t.regMarks r
    by_cases hd : d = .ESP ∨ d = .EBP
    · rw [Taint.setReg, if_pos hd]
    · rw [regMarks_setReg hd, if_neg hr]

theorem clearReg_spares {d : REG} (h : ∀ r ∈ updatedRegs d, l ≠ .reg r) (t : Taint w) :
    l.marks (t.clearReg d) = l.marks t := by
  cases l with
  | byte a => rfl
  | reg r => exact (regMarks_clearReg r).trans (if_neg fun hin => h r hin.1 rfl)

theorem Call.Spares.step {c : Call w} (h : c.Spares ctx l) (t : Taint w) :
    l.marks (c.step ctx t) = l.marks t := by
  have hrange : (∀ a ∈ ctx.writeBytes, l ≠ .byte a) → ∀ a, l = .byte a → a ∉ ctx.writeRange :=
    fun hb a hl => notMem_addrRange fun ha => hb a ha hl
  induction c with
  | setTaintForRegister d args => exact setReg_spares h _ t
  | clearTaintForRegister d => exact clearReg_spares h t
  | setTaintForMemory args =>
    cases l with
    | reg r => rfl
    | byte a =>
      simp [Call.step, Loc.marks, Taint.memMarks, Taint.setMem, hrange h a rfl]
  | clearTaintForMemory =>
    cases l with
    | reg r => rfl
    | byte a =>
      simp [Call.step, Loc.marks, Taint.memMarks, Taint.clearMem, hrange h a rfl]
  | ifThen check call ih =>
    rw [Call.step]
    split
    · exact ih h
    · rfl
  | _ => cases l <;> rfl

theorem SpareStep.marks (h : SpareStep e l) (hst : st.WidthOk n) :
    ∃ st', executeINS st e = some st' ∧ st'.WidthOk n ∧ l.marks st.taint ⊆ l.marks st'.taint := by
  obtain ⟨st', hst', hok, htaint⟩ := executeINS_gives hst h.accepted
  have hcalls : ∀ (calls : List (Call w)), (∀ c ∈ calls, c.Spares e.ctx l) → ∀ t : Taint w,
      l.marks (stepCalls e.ctx t calls) = l.marks t := by
    intro calls hcalls
    induction calls with
    | nil => exact fun _ => rfl
    | cons c calls ih =>
      intro t
      rw [stepCalls_cons, ih (fun c' hc' => hcalls c' (by simp [hc'])), (hcalls c (by simp)).step]
  exact ⟨st', hst', hok, by rw [htaint, hcalls _ h.spares]⟩

/-- A run of copies carries the marks. -/
theorem Carried.marks {program : List (Executed w)} (h : Carried l program l')
    (hst : st.WidthOk n) :
    ∃ st', execute st program = some st' ∧ l.marks st.taint ⊆ l'.marks st'.taint := by
  induction h generalizing st with
  | nil l => exact ⟨st, rfl, subset_rfl⟩
  | copy hstep _ ih =>
    obtain ⟨st₁, hst₁, hok, hmarks⟩ := hstep.marks hst
    obtain ⟨st', hst', hmarks'⟩ := ih hok
    exact ⟨st', by simpa [execute, hst₁] using hst', hmarks.trans hmarks'⟩
  | spare hstep _ ih =>
    obtain ⟨st₁, hst₁, hok, hmarks⟩ := hstep.marks hst
    obtain ⟨st', hst', hmarks'⟩ := ih hok
    exact ⟨st', by simpa [execute, hst₁] using hst', hmarks.trans hmarks'⟩

/-! ## Bit scans -/

/-- `BSF r, r/m` or `BSR r, r/m`. -/
structure IsBitScan (ins : INS) : Prop where
  opcode : ins.opcode = .BSF ∨ ins.opcode = .BSR
  dest : ins.operandIsReg 0 = true
  source : ins.operandIsReg 1 = true ∨ ins.operandIsMemory 1 = true ∧ ins.isMemoryRead = true

/-- The marks of the register or of the bytes that are scanned. -/
def scanMarks (ins : INS) (ctx : Context w) (t : Taint w) : Set ℕ :=
  if ins.operandIsReg 1 then t.regMarks (ins.operandReg 1) else ctx.operandMarks t .MEMORYREAD

/-- Whatever locations the result is copied to, the last has the marks of what was scanned. -/
def ScanCarries (e : Executed w) (st : TaintState w) : Prop :=
  ∀ (program : List (Executed w)) (l : Loc w), Carried (.reg (e.ins.operandReg 0)) program l →
    ∃ st', execute st (e :: program) = some st' ∧ scanMarks e.ins e.ctx st.taint ⊆ l.marks st'.taint

/-- There are none, or the destination has an entry and they are marks of active branches. -/
def ScanRight (e : Executed w) (st : TaintState w) : Prop :=
  scanMarks e.ins e.ctx st.taint = ∅ ∨ (st.regTaintMap (e.ins.operandReg 0)).isSome = true ∧
    scanMarks e.ins e.ctx st.taint ⊆ st.taint.active

theorem IsBitScan.execute (h : IsBitScan e.ins) (hst : st.WidthOk n) :
    ∃ st', executeINS st e = some st' ∧ st'.WidthOk n ∧ st'.taint.regMarks (e.ins.operandReg 0) =
      if (st.regTaintMap (e.ins.operandReg 0)).isSome then st.taint.active else ∅ := by
  have hcalls : (dataflow e.ins : Insertion w Unit) = clearReg (e.ins.operandReg 0) := by
    rcases h.opcode with hop | hop <;> rw [dataflow, hop] <;> rfl
  have hacc : (dataflow e.ins : Insertion w Unit).Accepted := by
    rw [hcalls]
    exact fun message hm => by cases hm
  obtain ⟨st', hst', hok, htaint⟩ := executeINS_gives hst hacc
  refine ⟨st', hst', hok, ?_⟩
  rw [htaint, hcalls]
  refine (regMarks_clearReg _).trans ?_
  rw [taint_reg, Option.isSome_map, Taint.regMarks, taint_reg]
  cases st.regTaintMap (e.ins.operandReg 0) with
  | none => simp
  | some s => simp

/-- The destination of the scan itself. -/
theorem IsBitScan.right_iff (h : IsBitScan e.ins) (hst : st.WidthOk n) {st₁ : TaintState w}
    (hexec : executeINS st e = some st₁) : ScanRight e st ↔
      scanMarks e.ins e.ctx st.taint ⊆ st₁.taint.regMarks (e.ins.operandReg 0) := by
  obtain ⟨_, hexec', -, hdest⟩ := h.execute hst
  obtain rfl := Option.some.inj (hexec.symm.trans hexec')
  rw [hdest, ScanRight]
  cases (st.regTaintMap (e.ins.operandReg 0)).isSome with
  | false => simp [Set.subset_empty_iff]
  | true =>
    simp only [if_true, true_and, or_iff_right_iff_imp]
    exact fun hnone => hnone ▸ Set.empty_subset _

/-- It is a copy of the result after no instruction at all. -/
theorem ScanCarries.dest (h : ScanCarries e st) {st₁ : TaintState w}
    (hexec : executeINS st e = some st₁) :
    scanMarks e.ins e.ctx st.taint ⊆ st₁.taint.regMarks (e.ins.operandReg 0) := by
  obtain ⟨st', hrun, hsub⟩ := h [] _ (.nil _)
  have hsame : st₁ = st' := by simpa [Dytan.execute, hexec] using hrun
  exact hsame ▸ hsub

end

/-- **Bit scans.** The copies of a bit scan's result have the marks of its source exactly in the
states of `ScanRight`. -/
theorem bit_scan_iff {e : Executed w} (h : IsBitScan e.ins) {n : Nat} {st : TaintState w}
    (hst : st.WidthOk n) : ScanCarries e st ↔ ScanRight e st := by
  obtain ⟨st₁, hst₁, hok, -⟩ := h.execute hst
  rw [h.right_iff hst hst₁]
  refine ⟨fun hcarries => hcarries.dest hst₁, fun hsub program l hcopies => ?_⟩
  obtain ⟨st', hst', hmarks⟩ := hcopies.marks hok
  exact ⟨st', by simpa [Dytan.execute, hst₁] using hst', hsub.trans hmarks⟩

/-- `BSF EAX, EBX`. -/
def bsfEBX : Executed 32 :=
  ⟨⟨.BSF, [⟨.reg .EAX, false, 32⟩, ⟨.reg .EBX, false, 32⟩], false, false, false, false, false, ""⟩,
    ⟨0, 0, 0, 0, 0, fun _ => 0, fun _ => 0⟩⟩

theorem bsfEBX_isBitScan : IsBitScan bsfEBX.ins := ⟨.inl rfl, rfl, .inl rfl⟩

theorem bit_scan_iff_marked : ∃ st : TaintState 32, Marked {.EAX, .EBX} {0x1000} true st ∧
    (ScanCarries bsfEBX st ↔ ScanRight bsfEBX st) := by
  obtain ⟨st, hst⟩ := exists_marked {REG.EAX, .EBX} {(0x1000 : ADDRINT 32)} true
  exact ⟨st, hst, bit_scan_iff bsfEBX_isBitScan hst.ok⟩

/-- The marks of `EBX` are lost. -/
theorem bsfEBX_loses : ¬ ∀ (e : Executed 32) (n : Nat) (st : TaintState 32), IsBitScan e.ins →
    st.WidthOk n → ScanCarries e st := by
  intro hall
  obtain ⟨st, hst⟩ := exists_marked {REG.EBX} (∅ : Set (ADDRINT 32)) false
  have hzero : (0 : ℕ) ∈ scanMarks bsfEBX.ins bsfEBX.ctx st.taint := by
    show (0 : ℕ) ∈ st.taint.regMarks .EBX
    simp [hst.regMarks]
  have hcarries := hall bsfEBX 2 st bsfEBX_isBitScan hst.ok
  obtain ⟨st₁, hexec, -⟩ := bsfEBX_isBitScan.execute hst.ok
  rcases (bsfEBX_isBitScan.right_iff hst.ok hexec).2 (hcarries.dest hexec) with hnone | ⟨-, hactive⟩
  · rw [hnone] at hzero
    exact hzero
  · have hin := hactive hzero
    rw [hst.active] at hin
    simp at hin

end Dytan
