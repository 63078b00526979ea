import Dytan.Instrument.Loads

/-!
# String instructions

`STOSB`, `STOSD` and `MOVSB` (`MOVSW`, `MOVSD`) store to `[EDI]`; `SCASB` and `CMPSB` compare. Their
handlers name the accumulator, the index registers and the memory operand of each load themselves;
`Instrument_STOSD` names `AX`.

`string_operands_iff`: the states in which the result nevertheless takes the marks of the whole
accumulator, of the bytes read and of the registers that address them.
-/

namespace Dytan

open Insertion TaintState

variable {w : Nat}

/-! ## The result and what it depends on -/

section
variable (ins : INS) (ctx : Context w)

/-- The instruction stores its result. -/
def storesString : Bool := ins.opcode ∈ [.STOSB, .STOSD, .MOVSB, .MOVSW, .MOVSD]

/-- The instruction compares. -/
def comparesString : Bool := ins.opcode ∈ [.SCASB, .CMPSB]

/-- The memory operands the instruction reads. -/
def stringReads : List ReadEA :=
  match ins.opcode with
  | .MOVSB | .MOVSW | .MOVSD | .SCASB => [.MEMORYREAD]
  | .CMPSB => [.MEMORYREAD, .MEMORYREAD2]
  | _ => []

/-- The accumulator, the index registers and under `rep` the count. -/
def stringRegs : List REG :=
  match ins.opcode with
  | .STOSB => [.AL, .EDI]
  | .STOSD => [.EAX, .EDI]
  | .MOVSB | .MOVSW | .MOVSD => if ins.hasRealRep then [.ESI, .EDI, .ECX] else [.ESI, .EDI]
  | .SCASB => [.EDI]
  | .CMPSB => [.EDI, .ESI]
  | _ => []

/-- A string instruction with the operands Pin reports for it. -/
structure IsString : Prop where
  opcode : storesString ins = true ∨ comparesString ins = true
  write : storesString ins = true → ins.isMemoryWrite = true ∧ ctx.memoryWriteSize ≠ 0
  read : comparesString ins = true → ins.isMemoryRead = true

/-- The marks of everything the result depends on. -/
def stringMarks (t : Taint w) : Set ℕ :=
  {m | (∃ r ∈ stringRegs ins, m ∈ t.regMarks r) ∨ ∃ ea ∈ stringReads ins, m ∈ ctx.operandMarks t ea}

/-- The result has the marks of everything it depends on: the bytes stored, or `EFLAGS`. -/
def StringLaw (t t' : Taint w) : Prop :=
  if storesString ins then ∀ a ∈ ctx.writeBytes, stringMarks ins ctx t ⊆ t'.memMarks a
  else stringMarks ins ctx t ⊆ t'.regMarks .EFLAGS

end

/-! ## What the handlers load -/

/-- The loads of the handler. -/
def stringLoads (ins : INS) : List (Scratch × Load) :=
  match ins.opcode with
  | .STOSB => [(.eax, .register .AL), (.src, .register .EDI)]
  | .STOSD => [(.eax, .register .AX), (.src, .register .EDI)]
  | .MOVSB | .MOVSW | .MOVSD =>
    [(.dest, .memory .MEMORYREAD .ESI .INVALID), (.src, .memory .MEMORYREAD .EDI .INVALID)] ++
      if ins.hasRealRep then [(.cnt, .register .ECX)] else []
  | .SCASB => [(.src, .memory .MEMORYREAD .EDI .INVALID), (.eax, .register .AL)]
  | .CMPSB =>
    [(.dest, .memory .MEMORYREAD .EDI .INVALID), (.src, .memory .MEMORYREAD2 .ESI .INVALID)]
  | _ => []

section
variable (ins : INS) (ctx : Context w)

/-- What the handler gives the result: what it loads, and the control taint. -/
def stringCarried (t : Taint w) : Set ℕ :=
  {m | ∃ l ∈ stringLoads ins, m ∈ l.2.marks ctx t} ∪ t.active

/-- The states in which nothing is lost: for `STOSD`, the marks of `EAX` are among those of `AX`,
`EDI` and the active branches; the bytes of an operand at the end of memory have no marks of their
own; and bytes stored there have the marks already. -/
def StringRight (t : Taint w) : Prop :=
  if storesString ins = true ∧ RangeWraps ctx.memoryWriteEA ctx.memoryWriteSize then
    ∀ a ∈ ctx.writeBytes, stringMarks ins ctx t ⊆ t.memMarks a
  else (ins.opcode = .STOSD → t.regMarks .EAX ⊆ stringCarried ins ctx t) ∧
    ∀ ea ∈ stringReads ins, ctx.ReadWraps ea → ctx.operandMarks t ea ⊆ stringCarried ins ctx t

end

section
variable {ins : INS} {ctx : Context w} {n : Nat} {st : TaintState w}

/-! ## The calls -/

/-- The scratch sets the result is taken from. -/
def stringArgs (ins : INS) : List Scratch :=
  match ins.opcode with
  | .STOSB | .STOSD => [.eax, .src]
  | .MOVSB | .MOVSW | .MOVSD => if ins.hasRealRep then [.src, .dest, .cnt] else [.src, .dest]
  | .SCASB => [.src, .eax]
  | _ => [.dest, .src]

/-- The calls that assign the result, and after `rep scasb` also `ECX`. -/
def stringSets (ins : INS) : List (Call w) :=
  if storesString ins then [.setTaintForMemory (stringArgs ins)]
  else .setTaintForRegister .EFLAGS (stringArgs ins) ::
    if ins.opcode = .SCASB ∧ (ins.repPrefix || ins.repnePrefix) = true then
      [.setTaintForRegister .ECX (stringArgs ins)]
    else []

theorem IsString.cases (h : IsString ins ctx) :
    (ins.opcode = .STOSB ∨ ins.opcode = .STOSD) ∨ (ins.opcode = .MOVSB ∨ ins.opcode = .MOVSW ∨
      ins.opcode = .MOVSD) ∨ ins.opcode = .SCASB ∨ ins.opcode = .CMPSB := by
  rcases h.opcode with h | h
  · simp only [storesString, List.mem_cons, List.not_mem_nil, or_false, decide_eq_true_eq] at h
    tauto
  · simp only [comparesString, List.mem_cons, List.not_mem_nil, or_false, decide_eq_true_eq] at h
    tauto

theorem instrumentMOVS_inserts : Inserts (instrumentMOVS ins : Insertion w Unit)
    ([.taintForMemory .MEMORYREAD .ESI .INVALID .dest,
      .taintForMemory .MEMORYREAD .EDI .INVALID .src] ++
      if ins.hasRealRep then [.taintForRegister .ECX .cnt, .setTaintForMemory [.src, .dest, .cnt]]
      else [.setTaintForMemory [.src, .dest]]) :=
  insertCall_inserts.bind <| insertCall_inserts.bind <|
    .ite (fun h => by rw [if_pos h]; exact loadReg_inserts.bind insertCall_inserts)
      fun h => by rw [if_neg h]; exact insertCall_inserts

theorem IsString.inserts (h : IsString ins ctx) : Inserts (dataflow ins : Insertion w Unit)
    (loadCalls (stringLoads ins) ++ stringSets ins) := by
  rcases h.cases with (hop | hop) | (hop | hop | hop) | hop | hop
  all_goals
    simp only [dataflow, stringLoads, stringSets, stringArgs, storesString, hop]
  case inl.inl | inl.inr =>
    exact loadReg_inserts.bind <| loadReg_inserts.bind <| skip_inserts.bind insertCall_inserts
  case inr.inl.inl | inr.inl.inr.inl | inr.inl.inr.inr =>
    have hmovs := @instrumentMOVS_inserts w ins
    cases hrep : ins.hasRealRep <;> rw [hrep] at hmovs <;> exact hmovs
  case inr.inr.inl =>
    refine skip_inserts.bind <| insertCall_inserts.bind <| loadReg_inserts.bind <|
      setReg_inserts.bind <| ?_
    intro _
    cases ins.repPrefix || ins.repnePrefix <;> rfl
  case inr.inr.inr =>
    exact skip_inserts.bind <| insertCall_inserts.bind <| skip_inserts.bind <|
      insertCall_inserts.bind setReg_inserts

theorem needWrite_completes (h : ins.isMemoryWrite = true) :
    Completes (needWrite ins : Insertion w Unit) := by
  rw [needWrite, h]
  rfl

theorem needRead_completes (h : ins.isMemoryRead = true) :
    Completes (needRead ins : Insertion w Unit) := by
  rw [needRead, h]
  rfl

theorem IsString.completes (h : IsString ins ctx) :
    Completes (dataflow ins : Insertion w Unit) := by
  rcases h.cases with (hop | hop) | (hop | hop | hop) | hop | hop
  all_goals
    simp only [dataflow, hop]
  case inl.inl | inl.inr =>
    have hwrite := needWrite_completes (w := w) (h.write (by simp [storesString, hop])).1
    exact completes_bind.2 ⟨rfl, completes_bind.2 ⟨rfl, completes_bind.2 ⟨hwrite, rfl⟩⟩⟩
  case inr.inl.inl | inr.inl.inr.inl | inr.inl.inr.inr =>
    refine completes_bind.2 ⟨rfl, completes_bind.2 ⟨rfl, ?_⟩⟩
    split <;> rfl
  case inr.inr.inl =>
    have hread := needRead_completes (w := w) (h.read (by simp [comparesString, hop]))
    refine completes_bind.2 ⟨hread, completes_bind.2 ⟨rfl, completes_bind.2 ⟨rfl,
      completes_bind.2 ⟨rfl, ?_⟩⟩⟩⟩
    split <;> rfl
  case inr.inr.inr =>
    have hread := needRead_completes (w := w) (h.read (by simp [comparesString, hop]))
    exact completes_bind.2 ⟨hread, completes_bind.2 ⟨rfl, completes_bind.2 ⟨hread, rfl⟩⟩⟩

theorem stringLoads_nodup : ((stringLoads ins).map Prod.fst).Nodup := by
  unfold stringLoads
  split <;> (try split) <;> simp

theorem IsString.mem_args (h : IsString ins ctx) (s : Scratch) :
    s ∈ stringArgs ins ↔ s ∈ (stringLoads ins).map Prod.fst := by
  rcases h.cases with (hop | hop) | (hop | hop | hop) | hop | hop
  all_goals
    simp only [stringArgs, stringLoads, hop]
    try cases ins.hasRealRep
  all_goals
    simp
    try tauto

theorem IsString.loads (h : IsString ins ctx) (t : Taint w) :
    LoadedInto t (stepCalls ctx t (loadCalls (stringLoads ins))) (stringArgs ins)
      {m | ∃ l ∈ stringLoads ins, m ∈ l.2.marks ctx t} := by
  have hload := LoadedInto.of_loads ctx t (@stringLoads_nodup ins) fun s => (h.mem_args s).1
  refine { hload with marks := hload.marks.trans (Set.ext fun m => ?_) }
  exact exists_congr fun l => and_congr_right fun hl =>
    and_iff_right ((h.mem_args _).2 (List.mem_map_of_mem hl))

/-- What the handler gives the result. -/
theorem IsString.execute (h : IsString ins ctx) (hst : st.WidthOk n) :
    ∃ st', executeINS st ⟨ins, ctx⟩ = some st' ∧
      (storesString ins = true → ∀ a, st'.taint.memMarks a =
        if a ∈ ctx.writeRange then stringCarried ins ctx st.taint else st.taint.memMarks a) ∧
      (storesString ins = false →
        st'.taint.regMarks .EFLAGS = stringCarried ins ctx st.taint) := by
  obtain ⟨st', hst', -, htaint⟩ := executeINS_inserts ctx h.inserts h.completes hst
  have hload := h.loads st.taint
  rw [stepCalls_append] at htaint
  have hcarried : ∀ t₁ : Taint w, t₁.control = st.taint.control →
      {m | ∃ l ∈ stringLoads ins, m ∈ l.2.marks ctx st.taint} ∪ t₁.active =
        stringCarried ins ctx st.taint := fun t₁ ht => by rw [active_congr ht]; rfl
  refine ⟨st', hst', fun hs a => ?_, fun hs => ?_⟩
  · rw [htaint, stringSets, if_pos hs, stepCalls_cons, stepCalls_nil, Call.step, hload.marks,
      Taint.memMarks, Taint.setMem, hcarried _ hload.control, Taint.memMarks, hload.mem]
    dsimp only
    split <;> rfl
  · have hflags : ¬ (REG.EFLAGS = .ESP ∨ REG.EFLAGS = .EBP) := by decide
    have hECX : ¬ (REG.ECX = .ESP ∨ REG.ECX = .EBP) := by decide
    rw [htaint, stringSets, if_neg (by simp [hs]), stepCalls_cons, Call.step, hload.marks]
    split
    · rw [stepCalls_cons, stepCalls_nil, Call.step, regMarks_setReg hECX, if_neg (by decide),
        regMarks_setReg hflags, if_pos (mem_updated _), hcarried _ hload.control]
    · rw [stepCalls_nil, regMarks_setReg hflags, if_pos (mem_updated _), hcarried _ hload.control]

/-! ## When nothing is lost -/

/-- The handler loads the registers the result depends on, but for `STOSD`. -/
theorem IsString.loads_reg (h : IsString ins ctx) (t : Taint w) : ∀ r ∈ stringRegs ins,
    (∃ l ∈ stringLoads ins, t.regMarks r ⊆ l.2.marks ctx t) ∨ ins.opcode = .STOSD ∧ r = .EAX := by
  have hESI : ∀ ea, t.regMarks .ESI ⊆ (Load.memory ea .ESI .INVALID).marks ctx t :=
    fun ea m hm => .inl (.inr hm)
  have hEDI : ∀ ea, t.regMarks .EDI ⊆ (Load.memory ea .EDI .INVALID).marks ctx t :=
    fun ea m hm => .inl (.inr hm)
  have hreg : ∀ r, t.regMarks r ⊆ (Load.register r).marks ctx t := fun r => subset_rfl
  rcases h.cases with (hop | hop) | (hop | hop | hop) | hop | hop
  all_goals
    simp only [stringRegs, stringLoads, hop]
    try cases ins.hasRealRep
  all_goals simp [hESI, hEDI, hreg]

theorem IsString.loads_ea (h : IsString ins ctx) (t : Taint w) : ∀ ea ∈ stringReads ins,
    ¬ ctx.ReadWraps ea → ∃ l ∈ stringLoads ins, ctx.operandMarks t ea ⊆ l.2.marks ctx t := by
  have hmem : ∀ (ea : ReadEA) (r : REG), ¬ ctx.ReadWraps ea →
      ctx.operandMarks t ea ⊆ (Load.memory ea r .INVALID).marks ctx t := by
    intro ea r hw m hm
    refine .inl (.inl ?_)
    rw [bytesMarks_readRange]
    exact ⟨hw, hm⟩
  rcases h.cases with (hop | hop) | (hop | hop | hop) | hop | hop
  all_goals simp +contextual [stringReads, stringLoads, hop, hmem]

theorem EAX_mem_stringRegs (h : ins.opcode = .STOSD) : .EAX ∈ stringRegs ins := by
  simp [stringRegs, h]

theorem IsString.carries_iff (h : IsString ins ctx) (t : Taint w) :
    stringMarks ins ctx t ⊆ stringCarried ins ctx t ↔
      (ins.opcode = .STOSD → t.regMarks .EAX ⊆ stringCarried ins ctx t) ∧
        ∀ ea ∈ stringReads ins, ctx.ReadWraps ea →
          ctx.operandMarks t ea ⊆ stringCarried ins ctx t := by
  constructor
  · exact fun hall => ⟨fun hop m hm => hall (.inl ⟨.EAX, EAX_mem_stringRegs hop, hm⟩),
      fun ea hea _ m hm => hall (.inr ⟨ea, hea, hm⟩)⟩
  · rintro ⟨hEAX, hwraps⟩ m (⟨r, hr, hm⟩ | ⟨ea, hea, hm⟩)
    · rcases h.loads_reg t r hr with ⟨l, hl, hsub⟩ | ⟨hop, rfl⟩
      · exact .inl ⟨l, hl, hsub hm⟩
      · exact hEAX hop hm
    · by_cases hw : ctx.ReadWraps ea
      · exact hwraps ea hea hw hm
      · obtain ⟨l, hl, hsub⟩ := h.loads_ea t ea hea hw
        exact .inl ⟨l, hl, hsub hm⟩

theorem IsString.law_iff (h : IsString ins ctx) (hst : st.WidthOk n) {st' : TaintState w}
    (hexec : executeINS st ⟨ins, ctx⟩ = some st') :
    StringLaw ins ctx st.taint st'.taint ↔ StringRight ins ctx st.taint := by
  obtain ⟨_, hexec', hmem, hflags⟩ := h.execute hst
  obtain rfl := Option.some.inj (hexec.symm.trans hexec')
  rw [StringLaw, StringRight, ← h.carries_iff]
  cases hs : storesString ins with
  | false =>
    rw [if_neg (by decide), if_neg (by simp), hflags hs]
  | true =>
    rw [if_pos rfl]
    by_cases hw : RangeWraps ctx.memoryWriteEA ctx.memoryWriteSize
    · rw [if_pos ⟨rfl, hw⟩]
      have hnone : ∀ a, a ∉ ctx.writeRange := fun a => by
        simp [Context.writeRange, addrRange_wraps hw]
      exact forall₂_congr fun a _ => by rw [hmem hs, if_neg (hnone a)]
    · rw [if_neg (by simp [hw])]
      have hin : ∀ a ∈ ctx.writeBytes, st'.taint.memMarks a = stringCarried ins ctx st.taint :=
        fun a ha => by
          rw [hmem hs, if_pos (show a ∈ ctx.writeRange from (mem_addrRange_bytes hw).2 ha)]
      constructor
      · intro hall
        have hstart : ctx.memoryWriteEA ∈ ctx.writeBytes := start_mem_bytesAt (h.write hs).2
        exact hin _ hstart ▸ hall _ hstart
      · exact fun hsub a ha => hin a ha ▸ hsub

end

/-- **String operands.** The result of a string instruction takes the marks of everything it depends
on exactly in the states of `StringRight`. -/
theorem string_operands_iff {ins : INS} {ctx : Context w} (h : IsString ins ctx) {n : Nat}
    {st : TaintState w} (hst : st.WidthOk n) :
    (∃ st', executeINS st ⟨ins, ctx⟩ = some st' ∧ StringLaw ins ctx st.taint st'.taint) ↔
      StringRight ins ctx st.taint := by
  obtain ⟨st', hexec, -⟩ := h.execute hst
  rw [← h.law_iff hst hexec, hexec]
  simp only [Option.some.injEq, exists_eq_left']

/-- The calls of `MOV` to a register. -/
theorem stepCalls_movReg {ins : INS} {d : REG} (hk : ins.operandKind 0 = .reg d)
    (hd : ¬ (d = .ESP ∨ d = .EBP)) (ctx : Context w) (t : Taint w) (r : REG) :
    (stepCalls ctx t (Form.calls ins ⟨[(.src, .operand 1)], [(.operand 0, [.src])]⟩)).regMarks r =
      if r ∈ containedRegs d ++ [d] then
        (Source.operand 1).marks ins t ctx.readVisited ∪ t.active
      else t.regMarks r := by
  simp only [Form.calls, List.map_cons, List.map_nil, List.cons_append, List.nil_append,
    stepCalls_cons, stepCalls_nil, step_loadOperand, setCall, hk, Call.step]
  rw [load_scratchMarks, regMarks_setReg hd, Taint.load_active, Taint.load_regMarks]

/-- `STOSD`. -/
def stosd : INS :=
  ⟨.STOSD, [⟨.memory .EDI .INVALID, true, 32⟩, ⟨.reg .EAX, true, 32⟩], false, true, false, false, false,
    ""⟩

/-- `MOV EAX, [0x1000]`. -/
def movEAXMem : INS :=
  ⟨.MOV, [⟨.reg .EAX, false, 32⟩, ⟨.memory .INVALID .INVALID, false, 32⟩], true, false, false, false,
    false, ""⟩

/-- `MOV AX, 0`. -/
def movAX0 : INS :=
  ⟨.MOV, [⟨.reg .AX, false, 16⟩, ⟨.immediate, false, 16⟩], false, false, false, false, false, ""⟩

/-- `[0x1000]` is read, `[0x2000]` is written. -/
def stosdCtx : Context 32 := ⟨0x1000, 0, 4, 0x2000, 4, fun _ => 0, fun _ => 0⟩

theorem stosd_isString : IsString stosd stosdCtx :=
  ⟨by decide, fun _ => ⟨rfl, by decide⟩, fun h => by cases h⟩

theorem string_operands_iff_marked : ∃ st : TaintState 32, Marked {.EAX, .EDI} {0x1000} true st ∧
    ((∃ st', executeINS st ⟨stosd, stosdCtx⟩ = some st' ∧
      StringLaw stosd stosdCtx st.taint st'.taint) ↔ StringRight stosd stosdCtx st.taint) := by
  obtain ⟨st, hst⟩ := exists_marked {REG.EAX, .EDI} {(0x1000 : ADDRINT 32)} true
  exact ⟨st, hst, string_operands_iff stosd_isString hst.ok⟩

/-- `MOV EAX, [0x1000]; MOV AX, 0; STOSD` with marks on the memory read only: the upper half of `EAX`
is stored without its marks. -/
theorem stosd_loses_EAX :
    ¬ ∀ (bytes : Set (ADDRINT 32)) (st₀ st : TaintState 32) (program : List (Executed 32)) (ins : INS)
      (ctx : Context 32), Marked ∅ bytes false st₀ → execute st₀ program = some st →
      IsString ins ctx →
      ∃ st', executeINS st ⟨ins, ctx⟩ = some st' ∧ StringLaw ins ctx st.taint st'.taint := by
  intro hall
  obtain ⟨st₀, h₀⟩ := exists_marked ∅ (Set.univ : Set (ADDRINT 32)) false
  have hmov : Inserts (dataflow movEAXMem : Insertion 32 Unit) _ := instrumentMOV_reg_inserts rfl
  have hmov0 : Inserts (dataflow movAX0 : Insertion 32 Unit) _ := instrumentMOV_reg_inserts rfl
  obtain ⟨st₁, hst₁, hok₁, ht₁⟩ := executeINS_inserts stosdCtx hmov rfl h₀.ok
  obtain ⟨st, hst, hok, ht⟩ := executeINS_inserts stosdCtx hmov0 rfl hok₁
  have hrun : execute st₀ [⟨movEAXMem, stosdCtx⟩, ⟨movAX0, stosdCtx⟩] = some st := by
    simp [execute, hst₁, hst]
  have hactive₁ : st₁.taint.active = ∅ := by
    rw [ht₁]
    exact (active_congr rfl).trans h₀.active
  have hactive : st.taint.active = ∅ := by
    rw [ht]
    exact (active_congr rfl).trans hactive₁
  have hEAX : (0 : ℕ) ∈ st.taint.regMarks .EAX := by
    rw [ht, stepCalls_movReg (d := .AX) rfl (by decide), if_neg (by decide), ht₁,
      stepCalls_movReg (d := .EAX) rfl (by decide), if_pos (by decide),
      @readVisited_eq 32 stosdCtx (by decide)]
    exact .inl <| .inl <| .inl ⟨0x1000, start_mem_bytesAt (by decide), by simp [h₀.memMarks]⟩
  have hAX : st.taint.regMarks .AX = ∅ := by
    rw [ht, stepCalls_movReg (d := .AX) rfl (by decide), if_pos (by decide), hactive₁]
    exact Set.union_empty _
  have hEDI : st.taint.regMarks .EDI = ∅ := by
    rw [ht, stepCalls_movReg (d := .AX) rfl (by decide), if_neg (by decide), ht₁,
      stepCalls_movReg (d := .EAX) rfl (by decide), if_neg (by decide), h₀.regMarks]
    simp
  obtain ⟨st', hexec, hlaw⟩ := hall Set.univ st₀ st _ stosd stosdCtx h₀ hrun stosd_isString
  have hright := (stosd_isString.law_iff hok hexec).1 hlaw
  rw [StringRight, if_neg (fun hw => absurd hw.2 (by decide))] at hright
  rcases hright.1 rfl hEAX with ⟨l, hl, hm⟩ | hm
  · simp only [stringLoads, stosd, List.mem_cons, List.not_mem_nil, or_false] at hl
    rcases hl with rfl | rfl
    · simp [Load.marks, hAX] at hm
    · simp [Load.marks, hEDI] at hm
  · rw [hactive] at hm
    exact hm

end Dytan
