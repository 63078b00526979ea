import Dytan.Instrument.Exactness
import Dytan.Taint.SubRegister

/-!
# Compare and exchange

`Instrument_CMPXCHG` loads the marks of the destination into `dest` and those of the source into
`src`, and inserts two conditional assignments. Where `EAX` should take the marks of the destination
it takes those of `src`, and for memory the second assignment is made under the same test as the
first (`CheckNotEqual_m_r` compares with `==`).

`cmpxchg_law_iff`: the operands and values on which the calls nevertheless move the right marks.
-/

namespace Dytan

open Insertion TaintState

variable {w : Nat}

/-- The 32-bit general purpose registers. -/
def gpr32 : List REG := [.EAX, .EBX, .ECX, .EDX, .ESI, .EDI, .EBP, .ESP]

/-- A 32-bit compare and exchange: a register or memory destination, a register source and the
implicit `EAX`. -/
structure IsCmpxchg (ins : INS) : Prop where
  opcode : ins.opcode = .CMPXCHG
  width : ins.operandWidth 0 = 32
  dest : ins.operandIsReg 0 = true ∧ ins.operandReg 0 ∈ gpr32 ∨
    ins.operandIsMemory 0 = true ∧ ins.isMemoryRead = true
  source : ins.operandIsReg 1 = true
  source32 : ins.operandReg 1 ∈ gpr32
  accumulator : ins.operandReg 2 = .EAX

section
variable (ins : INS) (ctx : Context w)

/-- `EAX` is equal to the destination. -/
def Equal : Prop :=
  (if ins.operandIsReg 0 then ctx.regValue (ins.operandReg 0) else ctx.deref ctx.memoryReadEA) =
    ctx.regValue .EAX

instance : Decidable (Equal ins ctx) := inferInstanceAs (Decidable (_ = _))

/-- The destination has the marks `S`. -/
def DestCarries (t : Taint w) (S : Set ℕ) : Prop :=
  if ins.operandIsReg 0 then t.regMarks (ins.operandReg 0) = S
  else ∀ a ∈ ctx.writeBytes, t.memMarks a = S

/-- The destination has the marks it had in `t`. -/
def DestKeeps (t t' : Taint w) : Prop :=
  if ins.operandIsReg 0 then t'.regMarks (ins.operandReg 0) = t.regMarks (ins.operandReg 0)
  else ∀ a ∈ ctx.writeBytes, t'.memMarks a = t.memMarks a

/-- The marks that should have moved from `t` to `t'`. -/
def CmpxchgLaw (t t' : Taint w) : Prop :=
  if Equal ins ctx then
    DestCarries ins ctx t' (t.regMarks (ins.operandReg 1)) ∧ t'.regMarks .EAX = t.regMarks .EAX
  else t'.regMarks .EAX = (Source.operand 0).marks ins t ctx.readBytes ∧ DestKeeps ins ctx t t'

/-- From every state without control taint the inserted calls move the right marks. -/
def MeetsCmpxchg : Prop :=
  ∀ (n : Nat) (st : TaintState w), st.WidthOk n → st.taint.active = ∅ →
    ∃ st', executeINS st ⟨ins, ctx⟩ = some st' ∧ CmpxchgLaw ins ctx st.taint st'.taint

/-- The operands and values on which they do. -/
def CmpxchgRight : Prop :=
  if ins.operandIsReg 0 then
    if Equal ins ctx then
      ins.operandReg 0 ∈ [REG.EAX, .ESP, .EBP] → ins.operandReg 1 = ins.operandReg 0
    else ins.operandReg 1 = ins.operandReg 0
  else Equal ins ctx ∧ ins.operandReg 1 = .EAX ∧
    ¬ RangeWraps ctx.memoryReadEA ctx.memoryReadSize

end

section
variable {ins : INS} {ctx : Context w} {n : Nat} {st : TaintState w}

/-! ## The inserted calls -/

/-- The calls that load the operands. -/
def cmpxchgLoads (ins : INS) : List (Call w) :=
  [loadCall ins (.dest, .operand 0), .taintForRegister (ins.operandReg 1) .src,
    .taintForRegister (ins.operandReg 2) .eax]

/-- The assignments to a register destination and `EAX`. -/
def cmpxchgRegister (ins : INS) : List (Call w) :=
  [.ifThen (.regValues checkEqualRR (ins.operandReg 0) (ins.operandReg 2))
      (.setTaintForRegister (ins.operandReg 0) [.src]),
    .ifThen (.regValues checkNotEqualRR (ins.operandReg 0) (ins.operandReg 2))
      (.setTaintForRegister (ins.operandReg 2) [.src])]

/-- The assignments to a memory destination and `EAX`. -/
def cmpxchgMemory (ins : INS) : List (Call w) :=
  [.ifThen (.memoryRead checkEqualMR (ins.operandReg 2)) (.setTaintForMemory [.src]),
    .ifThen (.memoryRead checkNotEqualMR (ins.operandReg 2))
      (.setTaintForRegister (ins.operandReg 2) [.src])]

theorem IsCmpxchg.not_reg (h : ins.operandIsMemory 0 = true) : ¬ ins.operandIsReg 0 = true := by
  simp [INS.isReg_of_memory h]

theorem instrumentCMPXCHG_inserts (h : IsCmpxchg ins) :
    Inserts (instrumentCMPXCHG ins : Insertion w Unit)
      (cmpxchgLoads ins ++ if ins.operandIsReg 0 then cmpxchgRegister ins else cmpxchgMemory ins) := by
  refine Inserts.bind (.ite (fun _ => ?_) fun hn => absurd h.width hn) ?_
  · exact (loadRegMem_inserts abort_inserts).bind (loadReg_inserts.bind loadReg_inserts)
  · rcases h.dest with ⟨hreg, -⟩ | ⟨hmem, -⟩
    · rw [if_pos hreg, if_pos hreg]
      exact insertCall_inserts.bind insertCall_inserts
    · rw [if_neg (IsCmpxchg.not_reg hmem), if_neg (IsCmpxchg.not_reg hmem), if_pos hmem]
      exact insertCall_inserts.bind insertCall_inserts

theorem IsCmpxchg.completes (h : IsCmpxchg ins) :
    Completes (instrumentCMPXCHG ins : Insertion w Unit) := by
  refine completes_bind.2 ⟨?_, ?_⟩
  · rw [if_pos h.width]
    exact completes_bind.2 ⟨loadRegMem_completes (h.dest.imp_left And.left), rfl⟩
  · rcases h.dest with ⟨hreg, -⟩ | ⟨hmem, -⟩
    · rw [if_pos hreg]
      rfl
    · rw [if_neg (IsCmpxchg.not_reg hmem), if_pos hmem]
      rfl

/-- The loads leave the maps alone and put the marks of the source into `src`. -/
theorem stepCalls_cmpxchgLoads (ins : INS) (ctx : Context w) (t : Taint w) :
    ∃ t₁, stepCalls ctx t (cmpxchgLoads ins) = t₁ ∧ t₁.reg = t.reg ∧ t₁.mem = t.mem ∧
      t₁.control = t.control ∧ t₁.scratch .src = t.regMarks (ins.operandReg 1) := by
  refine ⟨_, rfl, ?_⟩
  rw [cmpxchgLoads, stepCalls_cons, step_loadOperand]
  refine ⟨rfl, rfl, rfl, ?_⟩
  rw [stepCalls_cons, stepCalls_cons, stepCalls_nil, Call.step, Call.step,
    Taint.load_scratch_other _ _ (by decide), Taint.load_scratch_same, Taint.load_regMarks]

/-- To the destination if `EAX` is equal to it, to `EAX` if not. -/
theorem IsCmpxchg.execute_register (h : IsCmpxchg ins) (hreg : ins.operandIsReg 0 = true)
    (ctx : Context w) (hst : st.WidthOk n) :
    ∃ st', executeINS st ⟨ins, ctx⟩ = some st' ∧
      st'.taint.reg = (st.taint.setReg (if Equal ins ctx then ins.operandReg 0 else .EAX)
        (st.taint.regMarks (ins.operandReg 1))).reg := by
  have hflow : (dataflow ins : Insertion w Unit) = instrumentCMPXCHG ins := by
    rw [dataflow, h.opcode]
    rfl
  obtain ⟨st', hst', -, htaint⟩ := executeINS_inserts ctx
    (hflow ▸ instrumentCMPXCHG_inserts h) (hflow ▸ h.completes) hst
  obtain ⟨t₁, hloads, hr, -, hctl, hsrc⟩ := stepCalls_cmpxchgLoads ins ctx st.taint
  have hargs : t₁.scratchMarks [.src] = st.taint.regMarks (ins.operandReg 1) := by
    simp [Taint.scratchMarks, hsrc]
  refine ⟨st', hst', ?_⟩
  rw [htaint, if_pos hreg, stepCalls_append, hloads, cmpxchgRegister, stepCalls_cons,
    stepCalls_cons, stepCalls_nil, h.accumulator, ← setReg_reg_congr hr hctl, ← hargs]
  by_cases heq : Equal ins ctx
  · have hvalues : ctx.regValue (ins.operandReg 0) = ctx.regValue .EAX := by
      rwa [Equal, if_pos hreg] at heq
    have h1 : (IfCall.regValues checkEqualRR (ins.operandReg 0) .EAX).holds ctx = true :=
      beq_iff_eq.2 hvalues
    have h2 : ¬ (IfCall.regValues checkNotEqualRR (ins.operandReg 0) .EAX).holds ctx = true :=
      fun hn => bne_iff_ne.1 hn hvalues
    rw [if_pos heq, step_ifThen_neg h2, step_ifThen_pos h1, Call.step]
  · have hvalues : ctx.regValue (ins.operandReg 0) ≠ ctx.regValue .EAX := by
      rwa [Equal, if_pos hreg] at heq
    have h1 : ¬ (IfCall.regValues checkEqualRR (ins.operandReg 0) .EAX).holds ctx = true :=
      fun he => hvalues (beq_iff_eq.1 he)
    have h2 : (IfCall.regValues checkNotEqualRR (ins.operandReg 0) .EAX).holds ctx = true :=
      bne_iff_ne.2 hvalues
    rw [if_neg heq, step_ifThen_neg h1, step_ifThen_pos h2, Call.step]

/-- To the destination and to `EAX` if the two are equal, else nowhere. -/
theorem IsCmpxchg.execute_memory (h : IsCmpxchg ins) (hmem : ins.operandIsMemory 0 = true)
    (ctx : Context w) (hst : st.WidthOk n) :
    ∃ st', executeINS st ⟨ins, ctx⟩ = some st' ∧
      (Equal ins ctx →
        st'.taint.reg = (st.taint.setReg .EAX (st.taint.regMarks (ins.operandReg 1))).reg ∧
        st'.taint.mem =
          (st.taint.setMem ctx.writeRange (st.taint.regMarks (ins.operandReg 1))).mem) ∧
      (¬ Equal ins ctx → st'.taint.reg = st.taint.reg ∧ st'.taint.mem = st.taint.mem) := by
  have hflow : (dataflow ins : Insertion w Unit) = instrumentCMPXCHG ins := by
    rw [dataflow, h.opcode]
    rfl
  have hreg := IsCmpxchg.not_reg hmem
  obtain ⟨st', hst', -, htaint⟩ := executeINS_inserts ctx
    (hflow ▸ instrumentCMPXCHG_inserts h) (hflow ▸ h.completes) hst
  obtain ⟨t₁, hloads, hr, hm, hctl, hsrc⟩ := stepCalls_cmpxchgLoads ins ctx st.taint
  have hargs : t₁.scratchMarks [.src] = st.taint.regMarks (ins.operandReg 1) := by
    simp [Taint.scratchMarks, hsrc]
  refine ⟨st', hst', ?_⟩
  rw [htaint, if_neg hreg, stepCalls_append, hloads, cmpxchgMemory, stepCalls_cons,
    stepCalls_cons, stepCalls_nil, h.accumulator, ← hargs]
  refine ⟨fun heq => ?_, fun heq => ?_⟩
  · have hvalues : ctx.deref ctx.memoryReadEA = ctx.regValue .EAX := by
      rwa [Equal, if_neg hreg] at heq
    have h1 : (IfCall.memoryRead checkEqualMR .EAX).holds ctx = true := beq_iff_eq.2 hvalues
    have h2 : (IfCall.memoryRead checkNotEqualMR .EAX).holds ctx = true := beq_iff_eq.2 hvalues
    rw [step_ifThen_pos h2, step_ifThen_pos h1, Call.step, Call.step]
    constructor
    · exact setReg_reg_congr (show (t₁.setMem _ _).reg = _ from hr) hctl _ _
    · rw [Taint.setReg_mem, Taint.setMem, Taint.setMem, active_congr hctl, hm]
  · have hvalues : ctx.deref ctx.memoryReadEA ≠ ctx.regValue .EAX := by
      rwa [Equal, if_neg hreg] at heq
    have h1 : ¬ (IfCall.memoryRead checkEqualMR .EAX).holds ctx = true :=
      fun he => hvalues (beq_iff_eq.1 he)
    have h2 : ¬ (IfCall.memoryRead checkNotEqualMR .EAX).holds ctx = true :=
      fun he => hvalues (beq_iff_eq.1 he)
    rw [step_ifThen_neg h1, step_ifThen_neg h2]
    exact ⟨hr, hm⟩

/-! ## When they move the right marks -/

theorem contained_EAX_not_gpr32 : ∀ r ∈ gpr32, r ∈ containedRegs .EAX ++ [.EAX] → r = .EAX := by
  decide

theorem EAX_not_updated : ∀ r ∈ gpr32, .EAX ∈ containedRegs r ++ [r] → r = .EAX := by
  decide

/-- `regMarks_setReg` without control taint. -/
theorem regMarks_assigned {t t' : Taint w} {d : REG} {S : Set ℕ} (hactive : t.active = ∅)
    (h : t'.reg = (t.setReg d S).reg) (hstack : ¬ (d = .ESP ∨ d = .EBP)) (r : REG) :
    t'.regMarks r = if r ∈ containedRegs d ++ [d] then S else t.regMarks r := by
  rw [Taint.regMarks, h, ← Taint.regMarks, regMarks_setReg hstack, hactive, Set.union_empty]

theorem IsCmpxchg.meets_register (h : IsCmpxchg ins) (hreg : ins.operandIsReg 0 = true)
    (hright : CmpxchgRight ins ctx) : MeetsCmpxchg ins ctx := by
  intro n st hst hactive
  obtain ⟨st', hexec, hset⟩ := h.execute_register hreg ctx hst
  have h32 : ins.operandReg 0 ∈ gpr32 := by
    rcases h.dest with hd | hd
    · exact hd.2
    · exact absurd hreg (IsCmpxchg.not_reg hd.1)
  refine ⟨st', hexec, ?_⟩
  rw [CmpxchgRight, if_pos hreg] at hright
  unfold CmpxchgLaw DestCarries DestKeeps
  rw [if_pos hreg, if_pos hreg]
  by_cases heq : Equal ins ctx
  · rw [if_pos heq] at hright hset ⊢
    by_cases hstack : ins.operandReg 0 = .ESP ∨ ins.operandReg 0 = .EBP
    · -- the assignment is dropped, and the source is the destination
      have hsame : ins.operandReg 1 = ins.operandReg 0 := by
        rcases hstack with hd | hd <;> exact hright (by simp [hd])
      have hdrop : st'.taint.regMarks = st.taint.regMarks := by
        funext r
        rw [Taint.regMarks, hset, Taint.setReg, if_pos hstack, Taint.regMarks]
      rw [hdrop, hsame]
      exact ⟨rfl, rfl⟩
    · have hmarks := regMarks_assigned hactive hset hstack
      refine ⟨by rw [hmarks, if_pos (mem_updated _)], ?_⟩
      rw [hmarks]
      split
      · rename_i hupd
        have hd := EAX_not_updated _ h32 hupd
        rw [hright (by simp [hd]), hd]
      · rfl
  · rw [if_neg heq] at hright hset ⊢
    have hmarks := regMarks_assigned hactive hset (by decide)
    have hne : ins.operandReg 0 ≠ .EAX := by
      rintro hd
      rw [Equal, if_pos hreg, hd] at heq
      exact heq rfl
    constructor
    · rw [hmarks, if_pos (mem_updated _), Source.marks, INS.kind_of_reg hreg, hright]
    · rw [hmarks, if_neg fun hin => hne (contained_EAX_not_gpr32 _ h32 hin)]

theorem IsCmpxchg.meets_memory (h : IsCmpxchg ins) (hmem : ins.operandIsMemory 0 = true)
    (hctx : OneOperand ctx) (hright : CmpxchgRight ins ctx) : MeetsCmpxchg ins ctx := by
  intro n st hst hactive
  have hreg := IsCmpxchg.not_reg hmem
  obtain ⟨st', hexec, hequal, -⟩ := h.execute_memory hmem ctx hst
  refine ⟨st', hexec, ?_⟩
  rw [CmpxchgRight, if_neg hreg] at hright
  obtain ⟨heq, hsource, hwrap⟩ := hright
  obtain ⟨hset, hsetm⟩ := hequal heq
  rw [CmpxchgLaw, if_pos heq, DestCarries, if_neg hreg]
  constructor
  · intro a ha
    have hin : a ∈ ctx.writeRange := by
      rw [← writeVisited_eq (by rwa [hctx.ea, hctx.size])] at ha
      exact ha
    rw [Taint.memMarks, hsetm, Taint.setMem]
    simp [hin, hactive]
  · rw [regMarks_assigned hactive hset (by decide), if_pos (mem_updated _), hsource]

theorem IsCmpxchg.right_register (h : IsCmpxchg ins) (hreg : ins.operandIsReg 0 = true)
    (hmeets : MeetsCmpxchg ins ctx) : CmpxchgRight ins ctx := by
  -- only the source is tainted
  obtain ⟨st, hst⟩ := exists_marked {ins.operandReg 1} (∅ : Set (ADDRINT w)) false
  have hactive : st.taint.active = ∅ := hst.active
  obtain ⟨st', hexec, hlaw⟩ := hmeets 2 st hst.ok hactive
  obtain ⟨st₁, hexec₁, hset⟩ := h.execute_register hreg ctx hst.ok
  obtain rfl := Option.some.inj (hexec.symm.trans hexec₁)
  have hsource : st.taint.regMarks (ins.operandReg 1) = {0} := by
    rw [hst.regMarks]
    exact if_pos rfl
  have hother : ∀ r, st.taint.regMarks r = {0} → ins.operandReg 1 = r := by
    intro r hr
    rw [hst.regMarks] at hr
    by_contra hne
    rw [if_neg fun he => hne he.symm] at hr
    exact absurd hr.symm (Set.singleton_ne_empty 0)
  rw [CmpxchgRight, if_pos hreg]
  unfold CmpxchgLaw DestCarries DestKeeps at hlaw
  rw [if_pos hreg, if_pos hreg, hsource] at hlaw
  rw [hsource] at hset
  by_cases heq : Equal ins ctx
  · rw [if_pos heq] at hset hlaw ⊢
    intro hd
    simp only [List.mem_cons, List.not_mem_nil, or_false] at hd
    by_cases hstack : ins.operandReg 0 = .ESP ∨ ins.operandReg 0 = .EBP
    · refine hother _ ?_
      rw [← hlaw.1, Taint.regMarks, Taint.regMarks, hset, Taint.setReg, if_pos hstack]
    · have hEAX : ins.operandReg 0 = .EAX := hd.resolve_right hstack
      refine hother _ ?_
      rw [hEAX, ← hlaw.2, ← hEAX]
      exact hlaw.1
  · rw [if_neg heq] at hset hlaw ⊢
    refine hother _ ?_
    have hmarks := regMarks_assigned hactive hset (by decide) .EAX
    rw [if_pos (mem_updated _), hlaw.1, Source.marks, INS.kind_of_reg hreg] at hmarks
    exact hmarks

theorem IsCmpxchg.right_memory (h : IsCmpxchg ins) (hmem : ins.operandIsMemory 0 = true)
    (hctx : OneOperand ctx) (hmeets : MeetsCmpxchg ins ctx) : CmpxchgRight ins ctx := by
  have hreg := IsCmpxchg.not_reg hmem
  rw [CmpxchgRight, if_neg hreg]
  by_cases heq : Equal ins ctx
  · -- only the source is tainted
    obtain ⟨st, hst⟩ := exists_marked {ins.operandReg 1} (∅ : Set (ADDRINT w)) false
    have hactive : st.taint.active = ∅ := hst.active
    obtain ⟨st', hexec, hlaw⟩ := hmeets 2 st hst.ok hactive
    obtain ⟨st₁, hexec₁, hequal, -⟩ := h.execute_memory hmem ctx hst.ok
    obtain rfl := Option.some.inj (hexec.symm.trans hexec₁)
    obtain ⟨hset, hsetm⟩ := hequal heq
    have hsource : st.taint.regMarks (ins.operandReg 1) = {0} := by
      rw [hst.regMarks]
      exact if_pos rfl
    rw [CmpxchgLaw, if_pos heq, DestCarries, if_neg hreg] at hlaw
    rw [hsource] at hset hsetm hlaw
    refine ⟨heq, ?_, fun hwrap => ?_⟩
    · have hmarks := regMarks_assigned hactive hset (by decide) .EAX
      rw [if_pos (mem_updated _), hlaw.2, hst.regMarks] at hmarks
      by_contra hne
      rw [if_neg fun he => hne he.symm] at hmarks
      exact absurd hmarks.symm (Set.singleton_ne_empty 0)
    · have hbyte := hlaw.1 ctx.memoryWriteEA (start_mem_bytesAt (hctx.size ▸ hctx.nonempty))
      have hnone : ctx.writeRange = [] := by
        rw [Context.writeRange, hctx.ea, hctx.size]
        exact addrRange_wraps hwrap
      rw [Taint.memMarks, hsetm, hnone] at hbyte
      simp only [Taint.setMem, List.not_mem_nil, if_false] at hbyte
      rw [hst.mem, if_neg (Set.notMem_empty _)] at hbyte
      exact absurd hbyte.symm (Set.singleton_ne_empty 0)
  · -- only memory is tainted
    exfalso
    obtain ⟨st, hst⟩ := exists_marked ∅ (Set.univ : Set (ADDRINT w)) false
    obtain ⟨st', hexec, hlaw⟩ := hmeets 2 st hst.ok hst.active
    obtain ⟨st₁, hexec₁, -, hdiffer⟩ := h.execute_memory hmem ctx hst.ok
    obtain rfl := Option.some.inj (hexec.symm.trans hexec₁)
    have hEAX := (hdiffer heq).1
    rw [CmpxchgLaw, if_neg heq] at hlaw
    have hzero : (0 : ℕ) ∈ (Source.operand 0).marks ins st.taint ctx.readBytes := by
      simp only [Source.marks, INS.kind_of_memory hmem]
      exact .inl (.inl ⟨ctx.memoryReadEA, start_mem_bytesAt hctx.nonempty, by simp [hst.memMarks]⟩)
    rw [← hlaw.1, Taint.regMarks, hEAX, hst.reg, if_neg (Set.notMem_empty _)] at hzero
    exact hzero

end

/-- **Compare and exchange** moves the right marks exactly under `CmpxchgRight`. -/
theorem cmpxchg_law_iff {ins : INS} {ctx : Context w} (h : IsCmpxchg ins)
    (hctx : ins.operandIsMemory 0 = true → OneOperand ctx) :
    MeetsCmpxchg ins ctx ↔ CmpxchgRight ins ctx := by
  rcases h.dest with ⟨hreg, -⟩ | ⟨hmem, -⟩
  · exact ⟨h.right_register hreg, h.meets_register hreg⟩
  · exact ⟨h.right_memory hmem (hctx hmem), h.meets_memory hmem (hctx hmem)⟩

/-- `CMPXCHG [0x1000], ECX`. -/
def cmpxchgMem : INS :=
  ⟨.CMPXCHG, [⟨.memory .INVALID .INVALID, false, 32⟩, ⟨.reg .ECX, false, 32⟩, ⟨.reg .EAX, true, 32⟩],
    true, true, false, false, false, ""⟩

/-- `EAX` is 7 and memory is 8. -/
def cmpxchgCtx : Context 32 := ⟨0x1000, 0, 4, 0x1000, 4, fun _ => 7, fun _ => 8⟩

theorem cmpxchgMem_isCmpxchg : IsCmpxchg cmpxchgMem :=
  ⟨rfl, rfl, .inr ⟨rfl, rfl⟩, rfl, by decide, rfl⟩

theorem cmpxchgCtx_oneOperand : OneOperand cmpxchgCtx := ⟨rfl, rfl, by decide⟩

theorem cmpxchg_law_iff_mem :
    MeetsCmpxchg cmpxchgMem cmpxchgCtx ↔ CmpxchgRight cmpxchgMem cmpxchgCtx :=
  cmpxchg_law_iff cmpxchgMem_isCmpxchg fun _ => cmpxchgCtx_oneOperand

/-- `EAX` does not get the marks of the memory it takes its value from. -/
theorem cmpxchg_loses_memory :
    ¬ ∀ (ins : INS) (ctx : Context 32), IsCmpxchg ins →
      (ins.operandIsMemory 0 = true → OneOperand ctx) → MeetsCmpxchg ins ctx := by
  intro h
  have hright := cmpxchgMem_isCmpxchg.right_memory rfl cmpxchgCtx_oneOperand
    (h _ _ cmpxchgMem_isCmpxchg fun _ => cmpxchgCtx_oneOperand)
  exact absurd hright.1 (by decide)

end Dytan
