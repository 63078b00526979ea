import Dytan.Instrument.Exactness
import Dytan.Taint.SubRegister

/-!
# Multiplications and double shifts

`Instrument_IMUL` with two or three operands and `Instrument_SHLD` (`SHRD`) load their operands one
by one, and load operand 0 where they mean a register operand 1 (`IMUL`) or 2 (`SHLD`).

`carries_sources_iff`: the operands on which the destination and `EFLAGS` nevertheless get the marks
of every explicit source.
-/

namespace Dytan

open Insertion TaintState

variable {w : Nat}

/-- `IMUL r, r/m/i` or `IMUL r, r/m, i`. -/
structure IsImul (ins : INS) : Prop where
  opcode : ins.opcode = .IMUL
  count : ins.explicitOperandCount = 2 ∨ ins.explicitOperandCount = 3
  dest : ins.operandIsReg 0 = true
  source : ins.operandIsReg 1 = true ∨ (ins.operandIsMemory 1 = true ∧ ins.isMemoryRead = true) ∨
    (ins.explicitOperandCount = 2 ∧ ins.operandIsImmediate 1 = true)

/-- The operands a multiplication reads that can carry marks. -/
def imulSources (ins : INS) : List Nat := if ins.explicitOperandCount = 2 then [0, 1] else [1]

/-- `SHLD r/m, r, i/CL` or `SHRD r/m, r, i/CL`. -/
structure IsShld (ins : INS) : Prop where
  opcode : ins.opcode = .SHLD ∨ ins.opcode = .SHRD
  dest : ins.operandIsReg 0 = true ∨
    ins.operandIsMemory 0 = true ∧ ins.isMemoryRead = true ∧ ins.isMemoryWrite = true
  source : ins.operandIsReg 1 = true
  count : ins.operandIsReg 2 = true ∨ ins.operandIsImmediate 2 = true

section
variable (ins : INS) (ctx : Context w)

/-- The destination and `EFLAGS` have the marks `S`. -/
def Covered (t : Taint w) (S : Set ℕ) : Prop :=
  S ⊆ t.regMarks .EFLAGS ∧
    if ins.operandIsReg 0 then S ⊆ t.regMarks (ins.operandReg 0)
    else ∀ a ∈ ctx.writeBytes, S ⊆ t.memMarks a

/-- From every state the destination and `EFLAGS` get the marks the operands `sources` had. -/
def CarriesAll (sources : List Nat) : Prop :=
  ∀ (n : Nat) (st : TaintState w), st.WidthOk n →
    ∃ st', executeINS st ⟨ins, ctx⟩ = some st' ∧
      ∀ k ∈ sources, Covered ins ctx st'.taint ((Source.operand k).marks ins st.taint ctx.readBytes)

/-- The multiplications that carry all marks: of a register only with itself, of memory not into
`ESP` or `EBP` and not from the last bytes. -/
def ImulRight : Prop :=
  (ins.operandIsReg 1 = true → ins.operandReg 1 = ins.operandReg 0) ∧
    (ins.operandIsMemory 1 = true →
      ¬ stackDest ins ∧ ¬ RangeWraps ctx.memoryReadEA ctx.memoryReadSize)

/-- The registers whose marks the calls of `Instrument_SHLD` combine. -/
def shldLoaded : List REG :=
  if ins.operandIsReg 0 then [ins.operandReg 0, ins.operandReg 1]
  else [ins.operandReg 0, ins.operandReg 1, ins.operandMemoryBaseReg 0, ins.operandMemoryIndexReg 0]

/-- The double shifts that carry all marks: a register count is a register loaded anyway. -/
def ShldRight : Prop :=
  (ins.operandIsReg 2 = true → ins.operandReg 2 ∈ shldLoaded ins) ∧
    if ins.operandIsReg 0 then
      stackDest ins → ins.operandReg 1 = ins.operandReg 0 ∧
        (ins.operandIsReg 2 = true → ins.operandReg 2 = ins.operandReg 0)
    else ¬ RangeWraps ctx.memoryReadEA ctx.memoryReadSize

end

section
variable {ins : INS} {ctx : Context w} {n : Nat} {st : TaintState w}

/-! ## The assignments -/

/-- The loads leave the maps of `t` alone and put the marks `S` into `args`. -/
structure LoadedInto (t t₁ : Taint w) (args : List Scratch) (S : Set ℕ) : Prop where
  reg : t₁.reg = t.reg
  mem : t₁.mem = t.mem
  control : t₁.control = t.control
  marks : t₁.scratchMarks args = S

theorem combine_register {t t₁ : Taint w} {args : List Scratch} {S : Set ℕ}
    (h : LoadedInto t t₁ args S) (ctx : Context w) (d : REG) :
    let t' := stepCalls ctx t₁ [.setTaintForRegister d args, .setTaintForRegister .EFLAGS args]
    t'.regMarks .EFLAGS = S ∪ t.active ∧
      t'.regMarks d = if d = .ESP ∨ d = .EBP then t.regMarks d else S ∪ t.active := by
  intro t'
  have hargs : ∀ S', (t₁.setReg d S').scratchMarks args = S := fun S' => by
    rw [← h.marks, Taint.scratchMarks, Taint.scratchMarks, Taint.setReg_scratch]
  have hstep : t' = (t₁.setReg d S).setReg .EFLAGS S := by
    show (t₁.setReg d (t₁.scratchMarks args)).setReg .EFLAGS
      ((t₁.setReg d (t₁.scratchMarks args)).scratchMarks args) = _
    rw [hargs, h.marks]
  have hflags : ¬ (REG.EFLAGS = .ESP ∨ REG.EFLAGS = .EBP) := by decide
  have heflags : t'.regMarks .EFLAGS = S ∪ t.active := by
    rw [hstep, regMarks_setReg hflags, if_pos (mem_updated _), Taint.setReg_active,
      active_congr h.control]
  refine ⟨heflags, ?_⟩
  by_cases hd : d = .EFLAGS
  · rw [hd, if_neg hflags, heflags]
  · have hnot : d ∉ containedRegs .EFLAGS ++ [.EFLAGS] := by simpa [containedRegs] using hd
    rw [hstep, regMarks_setReg hflags, if_neg hnot]
    by_cases hstack : d = .ESP ∨ d = .EBP
    · rw [if_pos hstack, Taint.setReg, if_pos hstack, Taint.regMarks, h.reg, Taint.regMarks]
    · rw [if_neg hstack, regMarks_setReg hstack, if_pos (mem_updated _), active_congr h.control]

theorem combine_memory {t t₁ : Taint w} {args : List Scratch} {S : Set ℕ}
    (h : LoadedInto t t₁ args S) (ctx : Context w) :
    let t' := stepCalls ctx t₁ [.setTaintForMemory args, .setTaintForRegister .EFLAGS args]
    t'.regMarks .EFLAGS = S ∪ t.active ∧
      ∀ a, t'.memMarks a = if a ∈ ctx.writeRange then S ∪ t.active else t.memMarks a := by
  intro t'
  have hstep : t' = (t₁.setMem ctx.writeRange S).setReg .EFLAGS S := by
    show (t₁.setMem ctx.writeRange (t₁.scratchMarks args)).setReg .EFLAGS (t₁.scratchMarks args) = _
    rw [h.marks]
  have hflags : ¬ (REG.EFLAGS = .ESP ∨ REG.EFLAGS = .EBP) := by decide
  rw [hstep]
  constructor
  · rw [regMarks_setReg hflags, if_pos (mem_updated _), Taint.setMem_active, active_congr h.control]
  · intro a
    rw [Taint.setReg_memMarks, Taint.memMarks, Taint.setMem, active_congr h.control, h.mem]
    dsimp only
    split <;> rfl

/-! ## Multiplications -/

/-- The source that `loadIMUL` loads. -/
def imulSource (ins : INS) : Source := if ins.operandIsReg 1 then .operand 0 else .operand 1

theorem IsImul.loadIMUL_inserts (h : IsImul ins) {otherwise : Insertion w Unit}
    (ho : Inserts otherwise [loadCall ins (.src, .operand 1)]) :
    Inserts (loadIMUL ins otherwise) [loadCall ins (.src, imulSource ins)] := by
  unfold imulSource
  refine .ite (fun hreg => ?_) fun hreg => ?_
  · rw [if_pos hreg]
    exact loadOperand_inserts h.dest
  · rw [if_neg hreg]
    refine .ite (fun hm => ?_) fun _ => ho
    simpa only [loadCall, INS.kind_of_memory hm] using loadMem_inserts

theorem IsImul.inserts (h : IsImul ins) : Inserts (instrumentIMUL ins : Insertion w Unit)
    ([loadCall ins (.dest, .operand 0), loadCall ins (.src, imulSource ins)] ++
      [.setTaintForRegister (ins.operandReg 0) [.dest, .src],
        .setTaintForRegister .EFLAGS [.dest, .src]]) := by
  have hload : Inserts (loadReg (ins.operandReg 0) .dest : Insertion w Unit)
      [loadCall ins (.dest, .operand 0)] := loadOperand_inserts h.dest
  unfold instrumentIMUL
  rcases h.count with hc | hc
  · rw [if_neg (by omega), if_pos hc]
    exact hload.bind <| (h.loadIMUL_inserts (.ite clearOperand_inserts fun _ => abort_inserts)).bind <|
      setReg_inserts.bind setReg_inserts
  · rw [if_neg (by omega), if_neg (by omega), if_pos hc]
    exact hload.bind <| (h.loadIMUL_inserts abort_inserts).bind <| setReg_inserts.bind setReg_inserts

theorem IsImul.loadIMUL_completes (h : IsImul ins) {otherwise : Insertion w Unit}
    (ho : ins.explicitOperandCount = 2 → ins.operandIsImmediate 1 = true → Completes otherwise) :
    Completes (loadIMUL ins otherwise) := by
  unfold loadIMUL
  rcases h.source with hreg | ⟨hmem, hread⟩ | ⟨hc, himm⟩
  · rw [if_pos hreg]
    rfl
  · rw [if_neg (by simp [INS.isReg_of_memory hmem]), if_pos hmem]
    exact loadMem_completes hread
  · have hkind := INS.kind_of_immediate himm
    rw [if_neg (by simp [INS.operandIsReg, hkind]), if_neg (by simp [INS.operandIsMemory, hkind])]
    exact ho hc himm

theorem IsImul.completes (h : IsImul ins) : Completes (instrumentIMUL ins : Insertion w Unit) := by
  unfold instrumentIMUL
  rcases h.count with hc | hc
  · rw [if_neg (by omega), if_pos hc]
    refine completes_bind.2 ⟨rfl, completes_bind.2 ⟨h.loadIMUL_completes fun _ himm => ?_, rfl⟩⟩
    rw [if_pos himm]
    rfl
  · rw [if_neg (by omega), if_neg (by omega), if_pos hc]
    refine completes_bind.2 ⟨rfl, completes_bind.2 ⟨h.loadIMUL_completes fun h2 _ => ?_, rfl⟩⟩
    omega

/-- What the calls of a multiplication combine. -/
def imulMarks (ins : INS) (t : Taint w) (read : Set (ADDRINT w)) : Set ℕ :=
  t.regMarks (ins.operandReg 0) ∪ (imulSource ins).marks ins t read

theorem IsImul.loads (h : IsImul ins) (ctx : Context w) (t : Taint w) :
    LoadedInto t
      (stepCalls ctx t [loadCall ins (.dest, .operand 0), loadCall ins (.src, imulSource ins)])
      [.dest, .src] (imulMarks ins t ctx.readVisited) := by
  have hdest : (Source.operand 0).marks ins t ctx.readVisited = t.regMarks (ins.operandReg 0) := by
    rw [Source.marks, INS.kind_of_reg h.dest]
  have hsource : ∀ t : Taint w, (loadCall ins (.src, imulSource ins)).step ctx t =
      t.load .src ((imulSource ins).marks ins t ctx.readVisited) := by
    intro t
    unfold imulSource
    split <;> exact step_loadOperand _ _
  have hsame : (imulSource ins).marks ins (t.load .dest (t.regMarks (ins.operandReg 0)))
      ctx.readVisited = (imulSource ins).marks ins t ctx.readVisited := Source.marks_congr rfl rfl _ _
  rw [stepCalls_cons, stepCalls_cons, stepCalls_nil, step_loadOperand, hsource, hdest, hsame]
  refine ⟨rfl, rfl, rfl, ?_⟩
  ext m
  simp [Taint.scratchMarks, Taint.load, imulMarks]

theorem IsImul.execute (h : IsImul ins) (ctx : Context w) (hst : st.WidthOk n) :
    ∃ st', executeINS st ⟨ins, ctx⟩ = some st' ∧
      st'.taint.regMarks .EFLAGS = imulMarks ins st.taint ctx.readVisited ∪ st.taint.active ∧
      st'.taint.regMarks (ins.operandReg 0) =
        if stackDest ins then st.taint.regMarks (ins.operandReg 0)
        else imulMarks ins st.taint ctx.readVisited ∪ st.taint.active := by
  have hflow : (dataflow ins : Insertion w Unit) = instrumentIMUL ins := by
    rw [dataflow, h.opcode]
    rfl
  obtain ⟨st', hst', -, htaint⟩ := executeINS_inserts ctx (hflow ▸ h.inserts)
    (hflow ▸ h.completes) hst
  obtain ⟨hflags, hdest⟩ := combine_register (h.loads ctx st.taint) ctx (ins.operandReg 0)
  rw [stepCalls_append] at htaint
  exact ⟨st', hst', by rw [htaint, hflags], by rw [htaint]; exact hdest⟩

theorem IsImul.source_covered (h : IsImul ins) (hright : ImulRight ins ctx) (t : Taint w) {k : Nat}
    (hk : k ∈ imulSources ins) :
    (Source.operand k).marks ins t ctx.readBytes ⊆ imulMarks ins t ctx.readVisited ∧
      (stackDest ins →
        (Source.operand k).marks ins t ctx.readBytes ⊆ t.regMarks (ins.operandReg 0)) := by
  have hzero : (Source.operand 0).marks ins t ctx.readBytes = t.regMarks (ins.operandReg 0) := by
    rw [Source.marks, INS.kind_of_reg h.dest]
  have hk' : k = 0 ∨ k = 1 := by
    unfold imulSources at hk
    split at hk <;> simp at hk <;> omega
  rcases hk' with rfl | rfl
  · rw [hzero]
    exact ⟨Set.subset_union_left, fun _ => subset_rfl⟩
  rcases h.source with hreg | ⟨hmem, -⟩ | ⟨-, himm⟩
  · rw [Source.marks, INS.kind_of_reg hreg]
    dsimp only
    rw [hright.1 hreg]
    exact ⟨Set.subset_union_left, fun _ => subset_rfl⟩
  · obtain ⟨hstack, hwrap⟩ := hright.2 hmem
    refine ⟨?_, fun hd => absurd hd hstack⟩
    rw [imulMarks, imulSource, if_neg (by simp [INS.isReg_of_memory hmem]), readVisited_eq hwrap]
    exact Set.subset_union_right
  · rw [Source.marks, INS.kind_of_immediate himm]
    exact ⟨Set.empty_subset _, fun _ => Set.empty_subset _⟩

/-- **Multiplications** carry all marks exactly under `ImulRight`. -/
theorem IsImul.carries_iff (h : IsImul ins)
    (hsize : ins.operandIsMemory 1 = true → ctx.memoryReadSize ≠ 0) :
    CarriesAll ins ctx (imulSources ins) ↔ ImulRight ins ctx := by
  have h1 : 1 ∈ imulSources ins := by
    unfold imulSources
    split <;> simp
  constructor
  · intro hcarries
    refine ⟨fun hreg => ?_, fun hmem => ?_⟩
    · -- only operand 1 is tainted
      by_contra hne
      obtain ⟨st, hst⟩ := exists_marked {ins.operandReg 1} (∅ : Set (ADDRINT w)) false
      obtain ⟨st', hexec, hcover⟩ := hcarries 2 st hst.ok
      obtain ⟨st₁, hexec₁, hflags, -⟩ := h.execute ctx hst.ok
      obtain rfl := Option.some.inj (hexec.symm.trans hexec₁)
      have hzero : (0 : ℕ) ∈ (Source.operand 1).marks ins st.taint ctx.readBytes := by
        simp [Source.marks, INS.kind_of_reg hreg, hst.regMarks]
      have hin := (hcover 1 h1).1 hzero
      have hdest : st.taint.regMarks (ins.operandReg 0) = ∅ := by
        rw [hst.regMarks, if_neg fun he => hne (Set.mem_singleton_iff.1 he).symm]
      rw [hflags, imulMarks, imulSource, if_pos hreg, Source.marks, INS.kind_of_reg h.dest,
        hst.active] at hin
      simp [hdest] at hin
    · -- only memory is tainted
      obtain ⟨st, hst⟩ := exists_marked ∅ (Set.univ : Set (ADDRINT w)) false
      obtain ⟨st', hexec, hcover⟩ := hcarries 2 st hst.ok
      obtain ⟨st₁, hexec₁, hflags, hdest⟩ := h.execute ctx hst.ok
      obtain rfl := Option.some.inj (hexec.symm.trans hexec₁)
      have hnone : ∀ r, st.taint.regMarks r = ∅ := fun r => by simp [hst.regMarks]
      have hzero : (0 : ℕ) ∈ (Source.operand 1).marks ins st.taint ctx.readBytes := by
        simp only [Source.marks, INS.kind_of_memory hmem]
        exact .inl (.inl ⟨_, start_mem_bytesAt (hsize hmem), by simp [hst.memMarks]⟩)
      constructor
      · intro hstack
        have hin := (hcover 1 h1).2
        rw [if_pos h.dest, hdest, if_pos hstack, hnone] at hin
        exact hin hzero
      · intro hwrap
        have hin := (hcover 1 h1).1 hzero
        rw [hflags, imulMarks, imulSource, if_neg (by simp [INS.isReg_of_memory hmem]), hnone,
          hst.active] at hin
        simp only [Source.marks, INS.kind_of_memory hmem, readVisited_wraps hwrap,
          hst.addressMarks (Set.notMem_empty _)] at hin
        simp at hin
  · intro hright n st hst
    obtain ⟨st', hexec, hflags, hdest⟩ := h.execute ctx hst
    refine ⟨st', hexec, fun k hk => ?_⟩
    obtain ⟨hall, hstack⟩ := h.source_covered hright st.taint hk
    rw [Covered, if_pos h.dest, hflags, hdest]
    refine ⟨hall.trans Set.subset_union_left, ?_⟩
    split
    · exact hstack ‹_›
    · exact hall.trans Set.subset_union_left

/-! ## Double shifts -/

/-- The calls of `Instrument_SHLD` that load. -/
def shldLoads (ins : INS) : List (Call w) :=
  [loadCall ins (.dest, .operand 0), .taintForRegister (ins.operandReg 1) .cnt,
    if ins.operandIsReg 2 then .taintForRegister (ins.operandReg 0) .src else .clearTaintSet .src]

/-- The calls of `Instrument_SHLD` that assign. -/
def shldSets (ins : INS) : List (Call w) :=
  [setCall ins (.operand 0, [.dest, .src, .cnt]), .setTaintForRegister .EFLAGS [.dest, .src, .cnt]]

theorem instrumentSHLD_inserts :
    Inserts (instrumentSHLD ins : Insertion w Unit) (shldLoads ins ++ shldSets ins) := by
  have hcount : Inserts (if ins.operandIsReg 2 then loadReg (ins.operandReg 0) .src
      else if ins.operandIsImmediate 2 then insertCall (.clearTaintSet .src)
      else unknown0 ins : Insertion w Unit)
      [if ins.operandIsReg 2 then .taintForRegister (ins.operandReg 0) .src
        else .clearTaintSet .src] := by
    refine .ite (fun hreg => ?_) fun hreg => .ite (fun _ => ?_) fun _ => abort_inserts
    · rw [if_pos hreg]
      exact loadReg_inserts
    · rw [if_neg hreg]
      exact insertCall_inserts
  exact (loadRegMem_inserts abort_inserts).bind <| loadReg_inserts.bind <| hcount.bind <|
    (setRegMem_inserts abort_inserts).bind setReg_inserts

theorem IsShld.completes (h : IsShld ins) : Completes (instrumentSHLD ins : Insertion w Unit) := by
  have hcount : Completes (if ins.operandIsReg 2 then loadReg (ins.operandReg 0) .src
      else if ins.operandIsImmediate 2 then insertCall (.clearTaintSet .src)
      else unknown0 ins : Insertion w Unit) := by
    rcases h.count with hreg | himm
    · rw [if_pos hreg]
      rfl
    · rw [if_neg (by simp [INS.operandIsReg, INS.kind_of_immediate himm]), if_pos himm]
      rfl
  have hload : Completes (loadRegMem ins 0 .dest (unknown0 ins) : Insertion w Unit) :=
    loadRegMem_completes (h.dest.imp_right fun hd => ⟨hd.1, hd.2.1⟩)
  have hset : Completes (setRegMem ins 0 [.dest, .src, .cnt] (unknown0 ins) : Insertion w Unit) :=
    setRegMem_completes (h.dest.imp_right fun hd => ⟨hd.1, hd.2.2⟩)
  exact completes_bind.2 ⟨hload, completes_bind.2 ⟨rfl, completes_bind.2 ⟨hcount,
    completes_bind.2 ⟨hset, rfl⟩⟩⟩⟩

/-- What the calls of a double shift combine. -/
def shldMarks (ins : INS) (t : Taint w) (read : Set (ADDRINT w)) : Set ℕ :=
  (Source.operand 0).marks ins t read ∪
    (if ins.operandIsReg 2 then t.regMarks (ins.operandReg 0) else ∅) ∪
    t.regMarks (ins.operandReg 1)

theorem shld_loads (ins : INS) (ctx : Context w) (t : Taint w) :
    LoadedInto t (stepCalls ctx t (shldLoads ins)) [.dest, .src, .cnt]
      (shldMarks ins t ctx.readVisited) := by
  rw [shldLoads, stepCalls_cons, stepCalls_cons, stepCalls_cons, stepCalls_nil, step_loadOperand]
  by_cases hreg : ins.operandIsReg 2 = true
  · rw [if_pos hreg]
    refine ⟨rfl, rfl, rfl, ?_⟩
    ext m
    simp [Taint.scratchMarks, Taint.load, Call.step, shldMarks, hreg, Taint.regMarks, or_assoc]
  · rw [if_neg hreg]
    refine ⟨rfl, rfl, rfl, ?_⟩
    ext m
    simp [Taint.scratchMarks, Taint.load, Call.step, shldMarks, hreg, Taint.regMarks]

/-- What a double shift leaves in `EFLAGS` and in its destination. -/
theorem IsShld.execute (h : IsShld ins) (ctx : Context w) (hst : st.WidthOk n) :
    ∃ st', executeINS st ⟨ins, ctx⟩ = some st' ∧
      st'.taint.regMarks .EFLAGS = shldMarks ins st.taint ctx.readVisited ∪ st.taint.active ∧
      (ins.operandIsReg 0 = true → st'.taint.regMarks (ins.operandReg 0) =
        if stackDest ins then st.taint.regMarks (ins.operandReg 0)
        else shldMarks ins st.taint ctx.readVisited ∪ st.taint.active) ∧
      (ins.operandIsMemory 0 = true → ∀ a, st'.taint.memMarks a =
        if a ∈ ctx.writeRange then shldMarks ins st.taint ctx.readVisited ∪ st.taint.active
        else st.taint.memMarks a) := by
  have hflow : (dataflow ins : Insertion w Unit) = instrumentSHLD ins := by
    unfold dataflow
    rcases h.opcode with hop | hop <;> rw [hop] <;> rfl
  obtain ⟨st', hst', -, htaint⟩ := executeINS_inserts ctx (hflow ▸ instrumentSHLD_inserts)
    (hflow ▸ h.completes) hst
  have hloads := shld_loads ins ctx st.taint
  rw [stepCalls_append] at htaint
  refine ⟨st', hst', ?_⟩
  rw [htaint, shldSets]
  rcases h.dest with hreg | ⟨hmem, -, -⟩
  · obtain ⟨hflags, hdest⟩ := combine_register hloads ctx (ins.operandReg 0)
    simp only [setCall, INS.kind_of_reg hreg]
    exact ⟨hflags, fun _ => hdest, fun hmem => by simp [INS.isReg_of_memory hmem] at hreg⟩
  · obtain ⟨hflags, hdest⟩ := combine_memory hloads ctx
    simp only [setCall, INS.kind_of_memory hmem]
    exact ⟨hflags, fun hreg => by simp [INS.isReg_of_memory hmem] at hreg, fun _ => hdest⟩

/-- The calls load no register but those of `shldLoaded`. -/
theorem IsShld.marks_unloaded (h : IsShld ins) {r : REG} (hst : Marked {r} ∅ false st)
    (hr : r ∉ shldLoaded ins) (read : Set (ADDRINT w)) : shldMarks ins st.taint read = ∅ := by
  have hne : ∀ r' ∈ shldLoaded ins, r' ∉ ({r} : Set REG) := by
    rintro r' hr' rfl
    exact hr hr'
  have hother : ∀ r' ∈ shldLoaded ins, st.taint.regMarks r' = ∅ := fun r' hr' => by
    rw [hst.regMarks, if_neg (hne r' hr')]
  have h0 : st.taint.regMarks (ins.operandReg 0) = ∅ := hother _ (by unfold shldLoaded; split <;> simp)
  have h1 : st.taint.regMarks (ins.operandReg 1) = ∅ := hother _ (by unfold shldLoaded; split <;> simp)
  have hdest : (Source.operand 0).marks ins st.taint read = ∅ := by
    rcases h.dest with hreg | ⟨hmem, -, -⟩
    · rw [Source.marks, INS.kind_of_reg hreg, ← h0]
    · have hloaded : shldLoaded ins = [ins.operandReg 0, ins.operandReg 1,
          ins.operandMemoryBaseReg 0, ins.operandMemoryIndexReg 0] :=
        if_neg (by simp [INS.isReg_of_memory hmem])
      have haddress : ∀ r' ∈ shldLoaded ins, st.taint.addressMarks r' = ∅ := fun r' hr' =>
        hst.addressMarks (hne r' hr')
      simp [Source.marks, INS.kind_of_memory hmem, hst.memMarks,
        haddress (ins.operandMemoryBaseReg 0) (by simp [hloaded]),
        haddress (ins.operandMemoryIndexReg 0) (by simp [hloaded])]
  rw [shldMarks, hdest, h0, h1, ite_self, Set.union_empty, Set.union_empty]

theorem IsShld.right_of_carries (h : IsShld ins) (hctx : ins.operandIsMemory 0 = true → OneOperand ctx)
    (hcarries : CarriesAll ins ctx [0, 1, 2]) : ShldRight ins ctx := by
  constructor
  · -- only the count is tainted
    intro hreg
    by_contra hnot
    obtain ⟨st, hst⟩ := exists_marked {ins.operandReg 2} (∅ : Set (ADDRINT w)) false
    obtain ⟨st', hexec, hcover⟩ := hcarries 2 st hst.ok
    obtain ⟨st₁, hexec₁, hflags, -⟩ := h.execute ctx hst.ok
    obtain rfl := Option.some.inj (hexec.symm.trans hexec₁)
    have hin : (0 : ℕ) ∈ st'.taint.regMarks .EFLAGS :=
      (hcover 2 (by simp)).1 (by simp [Source.marks, INS.kind_of_reg hreg, hst.regMarks])
    rw [hflags, h.marks_unloaded hst hnot, hst.active] at hin
    simp at hin
  rcases h.dest with hreg | ⟨hmem, -, -⟩
  · rw [if_pos hreg]
    intro hstack
    -- only operand `k` is tainted
    have hsame : ∀ k ∈ [0, 1, 2], ins.operandIsReg k = true →
        ins.operandReg k = ins.operandReg 0 := by
      intro k hk hregk
      by_contra hne
      obtain ⟨st, hst⟩ := exists_marked {ins.operandReg k} (∅ : Set (ADDRINT w)) false
      obtain ⟨st', hexec, hcover⟩ := hcarries 2 st hst.ok
      obtain ⟨st₁, hexec₁, -, hdest, -⟩ := h.execute ctx hst.ok
      obtain rfl := Option.some.inj (hexec.symm.trans hexec₁)
      have hin := (hcover k hk).2
      rw [if_pos hreg, hdest hreg, if_pos hstack, hst.regMarks,
        if_neg fun he => hne (Set.mem_singleton_iff.1 he).symm] at hin
      exact hin (show (0 : ℕ) ∈ _ by simp [Source.marks, INS.kind_of_reg hregk, hst.regMarks])
    exact ⟨hsame 1 (by simp) h.source, hsame 2 (by simp)⟩
  · rw [if_neg (by simp [INS.isReg_of_memory hmem])]
    intro hwrap
    -- only memory is tainted
    obtain ⟨st, hst⟩ := exists_marked ∅ (Set.univ : Set (ADDRINT w)) false
    obtain ⟨st', hexec, hcover⟩ := hcarries 2 st hst.ok
    obtain ⟨st₁, hexec₁, hflags, -⟩ := h.execute ctx hst.ok
    obtain rfl := Option.some.inj (hexec.symm.trans hexec₁)
    have hzero : (0 : ℕ) ∈ (Source.operand 0).marks ins st.taint ctx.readBytes := by
      simp only [Source.marks, INS.kind_of_memory hmem]
      exact .inl (.inl ⟨_, start_mem_bytesAt (hctx hmem).nonempty, by simp [hst.memMarks]⟩)
    have hin := (hcover 0 (by simp)).1 hzero
    have hnone : ∀ r, st.taint.regMarks r = ∅ := fun r => by simp [hst.regMarks]
    rw [hflags, shldMarks, hst.active, hnone, hnone] at hin
    simp only [Source.marks, INS.kind_of_memory hmem, readVisited_wraps hwrap,
      hst.addressMarks (Set.notMem_empty _)] at hin
    simp at hin

theorem IsShld.covered_register (h : IsShld ins) (hreg : ins.operandIsReg 0 = true)
    (hright : ShldRight ins ctx) (t : Taint w) {k : Nat} (hk : k ∈ [0, 1, 2]) :
    (Source.operand k).marks ins t ctx.readBytes ⊆ shldMarks ins t ctx.readVisited ∧
      (stackDest ins →
        (Source.operand k).marks ins t ctx.readBytes ⊆ t.regMarks (ins.operandReg 0)) := by
  obtain ⟨hcount, hstack⟩ := hright
  rw [if_pos hreg] at hstack
  rw [shldLoaded, if_pos hreg] at hcount
  have hzero : ∀ read, (Source.operand 0).marks ins t read = t.regMarks (ins.operandReg 0) :=
    fun read => by rw [Source.marks, INS.kind_of_reg hreg]
  rw [shldMarks, hzero]
  simp only [List.mem_cons, List.not_mem_nil, or_false] at hk
  rcases hk with rfl | rfl | rfl
  · rw [hzero]
    exact ⟨fun m hm => .inl (.inl hm), fun _ => subset_rfl⟩
  · rw [Source.marks, INS.kind_of_reg h.source]
    exact ⟨Set.subset_union_right, fun hd => by rw [(hstack hd).1]⟩
  · rcases h.count with hc | himm
    · rw [Source.marks, INS.kind_of_reg hc]
      dsimp only
      refine ⟨?_, fun hd => by rw [(hstack hd).2 hc]⟩
      have hloaded := hcount hc
      simp only [List.mem_cons, List.not_mem_nil, or_false] at hloaded
      rcases hloaded with he | he <;> rw [he]
      · exact fun m hm => .inl (.inl hm)
      · exact Set.subset_union_right
    · rw [Source.marks, INS.kind_of_immediate himm]
      exact ⟨Set.empty_subset _, fun _ => Set.empty_subset _⟩

theorem IsShld.covered_memory (h : IsShld ins) (hmem : ins.operandIsMemory 0 = true)
    (hright : ShldRight ins ctx) (t : Taint w) {k : Nat} (hk : k ∈ [0, 1, 2]) :
    (Source.operand k).marks ins t ctx.readBytes ⊆ shldMarks ins t ctx.readVisited := by
  have hreg : ¬ ins.operandIsReg 0 = true := by simp [INS.isReg_of_memory hmem]
  obtain ⟨hcount, hwrap⟩ := hright
  rw [if_neg hreg] at hwrap
  rw [shldLoaded, if_neg hreg] at hcount
  rw [shldMarks, readVisited_eq hwrap]
  simp only [List.mem_cons, List.not_mem_nil, or_false] at hk
  rcases hk with rfl | rfl | rfl
  · exact fun m hm => .inl (.inl hm)
  · rw [Source.marks, INS.kind_of_reg h.source]
    exact Set.subset_union_right
  · rcases h.count with hc | himm
    · rw [if_pos hc, Source.marks, INS.kind_of_reg hc]
      dsimp only
      rw [Source.marks, INS.kind_of_memory hmem]
      dsimp only
      -- the call for operand 2 loads the register that operand 0 is not
      have hinvalid : ins.operandReg 0 = .INVALID := by
        simp [INS.operandReg, INS.kind_of_memory hmem]
      have haddress : ∀ r, t.regMarks r ⊆ t.addressMarks r ∪ t.regMarks (ins.operandReg 0) := by
        intro r m hm
        by_cases hr : r = .INVALID
        · exact .inr (hinvalid ▸ hr ▸ hm)
        · exact .inl (by simpa [Taint.addressMarks, REG.valid, hr] using hm)
      have hloaded := hcount hc
      simp only [List.mem_cons, List.not_mem_nil, or_false] at hloaded
      rcases hloaded with he | he | he | he <;> rw [he]
      · exact fun m hm => .inl (.inr hm)
      · exact Set.subset_union_right
      · exact fun m hm => .inl ((haddress _ hm).imp_left fun h => .inl (.inr h))
      · exact fun m hm => .inl ((haddress _ hm).imp_left .inr)
    · rw [Source.marks, INS.kind_of_immediate himm]
      exact Set.empty_subset _

theorem IsShld.carries_of_right (h : IsShld ins) (hctx : ins.operandIsMemory 0 = true → OneOperand ctx)
    (hright : ShldRight ins ctx) : CarriesAll ins ctx [0, 1, 2] := by
  intro n st hst
  obtain ⟨st', hexec, hflags, hdest, hdestm⟩ := h.execute ctx hst
  refine ⟨st', hexec, fun k hk => ?_⟩
  rcases h.dest with hreg | ⟨hmem, -, -⟩
  · obtain ⟨hall, hstack⟩ := h.covered_register hreg hright st.taint hk
    rw [Covered, if_pos hreg, hflags, hdest hreg]
    refine ⟨hall.trans Set.subset_union_left, ?_⟩
    split
    · exact hstack ‹_›
    · exact hall.trans Set.subset_union_left
  · have hall := h.covered_memory hmem hright st.taint hk
    have hreg : ¬ ins.operandIsReg 0 = true := by simp [INS.isReg_of_memory hmem]
    have hwrap := hright.2
    rw [if_neg hreg, ← (hctx hmem).ea, ← (hctx hmem).size] at hwrap
    rw [Covered, if_neg hreg, hflags]
    refine ⟨hall.trans Set.subset_union_left, fun a ha => ?_⟩
    have hin : a ∈ ctx.writeRange := (mem_addrRange_bytes hwrap).2 ha
    rw [hdestm hmem, if_pos hin]
    exact hall.trans Set.subset_union_left

end

/-- **Multi-operand sources.** `IMUL` carries all the marks of its sources exactly under `ImulRight`,
`SHLD` and `SHRD` exactly under `ShldRight`. -/
theorem carries_sources_iff (ins : INS) (ctx : Context w) :
    (IsImul ins → (ins.operandIsMemory 1 = true → ctx.memoryReadSize ≠ 0) →
      (CarriesAll ins ctx (imulSources ins) ↔ ImulRight ins ctx)) ∧
    (IsShld ins → (ins.operandIsMemory 0 = true → OneOperand ctx) →
      (CarriesAll ins ctx [0, 1, 2] ↔ ShldRight ins ctx)) :=
  ⟨fun h hsize => h.carries_iff hsize,
    fun h hctx => ⟨h.right_of_carries hctx, h.carries_of_right hctx⟩⟩

/-- `IMUL EAX, EBX`. -/
def imulEBX : INS :=
  ⟨.IMUL, [⟨.reg .EAX, false, 32⟩, ⟨.reg .EBX, false, 32⟩], false, false, false, false, false, ""⟩

/-- `SHLD EAX, EBX, CL`. -/
def shldCL : INS :=
  ⟨.SHLD, [⟨.reg .EAX, false, 32⟩, ⟨.reg .EBX, false, 32⟩, ⟨.reg .CL, false, 8⟩], false, false, false,
    false, false, ""⟩

def noMemory : Context 32 := ⟨0, 0, 0, 0, 0, fun _ => 0, fun _ => 0⟩

theorem imulEBX_isImul : IsImul imulEBX := ⟨rfl, .inl rfl, rfl, .inl rfl⟩

theorem shldCL_isShld : IsShld shldCL := ⟨.inl rfl, .inl rfl, rfl, .inl rfl⟩

theorem carries_sources_iff_EBX :
    (CarriesAll imulEBX noMemory (imulSources imulEBX) ↔ ImulRight imulEBX noMemory) ∧
      (CarriesAll shldCL noMemory [0, 1, 2] ↔ ShldRight shldCL noMemory) :=
  ⟨(carries_sources_iff imulEBX noMemory).1 imulEBX_isImul (fun h => by cases h),
    (carries_sources_iff shldCL noMemory).2 shldCL_isShld fun h => by cases h⟩

/-- `IMUL EAX, EBX` and `SHLD EAX, EBX, CL` lose the marks of `EBX` and of `CL`. -/
theorem imulEBX_shldCL_lose :
    ¬ (∀ (ins : INS) (ctx : Context 32), IsImul ins → CarriesAll ins ctx (imulSources ins)) ∧
      ¬ ∀ (ins : INS) (ctx : Context 32), IsShld ins → CarriesAll ins ctx [0, 1, 2] := by
  constructor
  · intro h
    have hright := (imulEBX_isImul.carries_iff fun hm => by cases hm).1
      (h imulEBX noMemory imulEBX_isImul)
    exact absurd (hright.1 rfl) (by decide)
  · intro h
    have hright := shldCL_isShld.right_of_carries (fun hm => by cases hm)
      (h shldCL noMemory shldCL_isShld)
    exact absurd (hright.1 rfl) (by decide)

end Dytan
