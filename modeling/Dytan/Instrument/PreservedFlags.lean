import Dytan.Instrument.MultiOperand
import Dytan.Lib.Run

/-!
# Preserved flags

`INC` and `DEC` keep the carry flag and a shift by a zero count in `CL` keeps all flags, but their
handlers overwrite the marks of `EFLAGS` with those of the operands (`execute_flags`). The marks are
kept exactly when they are among these and the control taint.

`preserved_flags_iff` says this for a single instruction, and for multi-word arithmetic that the
marks of the first operands reach the last destination when every `INC` and `DEC` between keeps those
of `EFLAGS`.
-/

namespace Dytan

open Insertion TaintState

variable {w : Nat}

/-- What the handlers of the arithmetic instructions and shifts load. -/
def combineLoads (ins : INS) : List (Scratch × Source) :=
  match ins.opcode with
  | .INC | .DEC => [(.dest, .operand 0)]
  | .SAR | .SHL | .SHR => [(.dest, .operand 0), (.cnt, .operand 1)]
  | .ADC | .SBB => [(.dest, .operand 0), (.src, .operand 1), (.eflags, .eflags)]
  | _ => [(.dest, .operand 0), (.src, .operand 1)]

/-- The sources whose marks they assign to `EFLAGS`. -/
def flagSources (ins : INS) : List Source := (combineLoads ins).map Prod.snd

/-- The instructions whose handlers assign to operand 0 what they assign to `EFLAGS`. -/
def combining : List XED_ICLASS := [.ADD, .SUB, .ADC, .SBB, .SAR, .SHL, .SHR]

/-- An instruction that keeps the carry flag, or all flags. -/
structure KeepsFlags (e : Executed w) : Prop where
  opcode : e.ins.opcode ∈ [.INC, .DEC] ∨ e.ins.opcode ∈ [.SAR, .SHL, .SHR] ∧
    e.ins.operandIsReg 1 = true ∧ e.ins.operandReg 1 = .CL ∧ (e.ctx.regValue .CL).toNat % 32 = 0
  completes : Completes (dataflow e.ins : Insertion w Unit)

/-- The marks of `EFLAGS` are among those that the handler assigns. -/
def FlagsAssigned (st : TaintState w) (e : Executed w) : Prop :=
  st.taint.regMarks .EFLAGS ⊆ assigned e.ins st.taint e.ctx.readVisited (flagSources e.ins)

/-- Operand 0 has the marks `S`. -/
def DestHas (e : Executed w) (t : Taint w) (S : Set ℕ) : Prop :=
  if e.ins.operandIsReg 0 then S ⊆ t.regMarks (e.ins.operandReg 0)
  else ∀ a ∈ e.ctx.writeBytes, S ⊆ t.memMarks a

/-- Multi-word arithmetic: `first` sets the carry, every one of `mids` is an `INC` or a `DEC`, and
`last` takes the carry. -/
structure MultiWord (first : Executed w) (mids : List (Executed w)) (last : Executed w) : Prop where
  first_opcode : first.ins.opcode ∈ [.ADD, .SUB, .ADC, .SBB]
  first_completes : Completes (dataflow first.ins : Insertion w Unit)
  mids_opcode : ∀ e ∈ mids, e.ins.opcode ∈ [.INC, .DEC]
  mids_completes : ∀ e ∈ mids, Completes (dataflow e.ins : Insertion w Unit)
  last_opcode : last.ins.opcode ∈ [.ADC, .SBB]
  last_completes : Completes (dataflow last.ins : Insertion w Unit)

/-- `first` reads nothing and `last` writes nothing that reaches the end of memory, and the
destination of `last` is not one whose assignment is dropped. -/
structure InRange (first last : Executed w) : Prop where
  reads : ¬ RangeWraps first.ctx.memoryReadEA first.ctx.memoryReadSize
  writes : ¬ RangeWraps last.ctx.memoryWriteEA last.ctx.memoryWriteSize
  dest : ¬ stackDest last.ins

/-- `first` in `st₀`, `mids` from `st₁` to `st₂` and `last` in `st₂`. -/
structure MultiWordRun (first : Executed w) (mids : List (Executed w)) (last : Executed w)
    (st₀ st₁ st₂ st₃ : TaintState w) : Prop where
  first : executeINS st₀ first = some st₁
  mids : Lib.run executeINS st₁ mids = some st₂
  last : executeINS st₂ last = some st₃

section
variable {e : Executed w} {n : Nat} {st st' : TaintState w} {ins : INS}

/-! ## The inserted calls -/

theorem combineLoads_nodup (ins : INS) : ((combineLoads ins).map Prod.fst).Nodup := by
  unfold combineLoads
  cases ins.opcode <;> decide

theorem combineLoads_notAddress (ins : INS) : ∀ l ∈ combineLoads ins, l.2.notAddress := by
  unfold combineLoads Source.notAddress
  cases ins.opcode <;> decide

/-- The loads put the marks of the sources into the sets. -/
theorem loadedInto_loads (ins : INS) (ctx : Context w) {loads : List (Scratch × Source)}
    (t : Taint w) (h : ∀ l ∈ loads, l.2.notAddress) (hn : (loads.map Prod.fst).Nodup) :
    LoadedInto t (stepCalls ctx t (loads.map (loadCall ins))) (loads.map Prod.fst)
      {m | ∃ s ∈ loads.map Prod.snd, m ∈ s.marks ins t ctx.readVisited} := by
  obtain ⟨hreg, hmem, hctl, hload, -⟩ := stepCalls_loads ins ctx loads (t := t) (.inr h) hn
  refine ⟨hreg, hmem, hctl, ?_⟩
  ext m
  constructor
  · rintro ⟨set, hset, hm⟩
    obtain ⟨l, hl, rfl⟩ := List.mem_map.1 hset
    exact ⟨l.2, List.mem_map_of_mem hl, hload l hl ▸ hm⟩
  · rintro ⟨s, hs, hm⟩
    obtain ⟨l, hl, rfl⟩ := List.mem_map.1 hs
    exact ⟨l.1, List.mem_map_of_mem hl, (hload l hl).symm ▸ hm⟩

theorem operand_mem_flagSources (h : ins.opcode ∈ [.ADD, .SUB, .ADC, .SBB]) {k : Nat}
    (hk : k ∈ [0, 1]) : .operand k ∈ flagSources ins := by
  simp only [List.mem_cons, List.not_mem_nil, or_false] at h hk
  unfold flagSources combineLoads
  rcases h with hop | hop | hop | hop <;> rcases hk with rfl | rfl <;> rw [hop] <;> decide

theorem eflags_mem_flagSources (h : ins.opcode ∈ [.ADC, .SBB]) : .eflags ∈ flagSources ins := by
  simp only [List.mem_cons, List.not_mem_nil, or_false] at h
  unfold flagSources combineLoads
  rcases h with hop | hop <;> rw [hop] <;> decide

theorem DestHas.mono {t : Taint w} {S S' : Set ℕ} (h : DestHas e t S) (hsub : S' ⊆ S) :
    DestHas e t S' := by
  unfold DestHas at h ⊢
  split
  · rename_i hreg
    rw [if_pos hreg] at h
    exact hsub.trans h
  · rename_i hreg
    rw [if_neg hreg] at h
    exact fun a ha => hsub.trans (h a ha)

theorem unary_inserts (h : ins.opcode ∈ [.INC, .DEC]) : Inserts (dataflow ins : Insertion w Unit)
    ((combineLoads ins).map (loadCall ins) ++
      [.setTaintForRegister .EFLAGS ((combineLoads ins).map Prod.fst)]) := by
  have hdec : Inserts (instrumentDEC ins : Insertion w Unit)
      ([loadCall ins (.dest, .operand 0)] ++ [.setTaintForRegister .EFLAGS [.dest]]) :=
    (loadRegMem_inserts abort_inserts).bind setReg_inserts
  unfold dataflow combineLoads
  simp only [List.mem_cons, List.not_mem_nil, or_false] at h
  rcases h with hop | hop <;> rw [hop] <;> exact hdec

theorem combining_inserts (h : ins.opcode ∈ combining) : Inserts (dataflow ins : Insertion w Unit)
    ((combineLoads ins).map (loadCall ins) ++
      [setCall ins (.operand 0, (combineLoads ins).map Prod.fst),
        .setTaintForRegister .EFLAGS ((combineLoads ins).map Prod.fst)]) := by
  unfold dataflow combineLoads
  simp only [combining, List.mem_cons, List.not_mem_nil, or_false] at h
  rcases h with hop | hop | hop | hop | hop | hop | hop <;> rw [hop]
  · exact instrumentADD_inserts
  · exact instrumentADD_inserts
  · exact instrumentADC_inserts
  · exact instrumentADC_inserts
  · exact instrumentSAR_inserts
  · exact instrumentSAR_inserts
  · exact instrumentSAR_inserts

/-! ## What the handlers assign -/

theorem execute_unary (h : e.ins.opcode ∈ [.INC, .DEC])
    (hc : Completes (dataflow e.ins : Insertion w Unit)) (hst : st.WidthOk n)
    (he : executeINS st e = some st') :
    st'.WidthOk n ∧ st'.taint.regMarks .EFLAGS =
      assigned e.ins st.taint e.ctx.readVisited (flagSources e.ins) := by
  obtain ⟨hok, htaint⟩ := executeINS_taint hst he
  have hloads := loadedInto_loads e.ins e.ctx st.taint (combineLoads_notAddress e.ins)
    (combineLoads_nodup e.ins)
  have hflags : ¬ (REG.EFLAGS = .ESP ∨ REG.EFLAGS = .EBP) := by decide
  refine ⟨hok, ?_⟩
  rw [htaint, unary_inserts h hc, stepCalls_append, stepCalls_cons, stepCalls_nil, Call.step,
    hloads.marks, regMarks_setReg hflags, if_pos (mem_updated _), active_congr hloads.control]
  rfl

theorem execute_combining (h : e.ins.opcode ∈ combining)
    (hc : Completes (dataflow e.ins : Insertion w Unit)) (hst : st.WidthOk n)
    (he : executeINS st e = some st') :
    st'.WidthOk n ∧
      st'.taint.regMarks .EFLAGS = assigned e.ins st.taint e.ctx.readVisited (flagSources e.ins) ∧
      (¬ stackDest e.ins → ¬ RangeWraps e.ctx.memoryWriteEA e.ctx.memoryWriteSize →
        DestHas e st'.taint (assigned e.ins st.taint e.ctx.readVisited (flagSources e.ins))) := by
  obtain ⟨hok, htaint⟩ := executeINS_taint hst he
  have hloads := loadedInto_loads e.ins e.ctx st.taint (combineLoads_notAddress e.ins)
    (combineLoads_nodup e.ins)
  refine ⟨hok, ?_⟩
  rw [htaint, combining_inserts h hc, stepCalls_append, DestHas]
  by_cases hreg : e.ins.operandIsReg 0 = true
  · obtain ⟨hflags, hdest⟩ := combine_register hloads e.ctx (e.ins.operandReg 0)
    simp only [setCall, INS.kind_of_reg hreg]
    refine ⟨hflags, fun hstack _ => ?_⟩
    rw [if_pos hreg, hdest.trans (if_neg hstack)]
    exact subset_rfl
  · obtain ⟨hflags, hdest⟩ := combine_memory hloads e.ctx
    have hset : setCall e.ins (.operand 0, (combineLoads e.ins).map Prod.fst) =
        (.setTaintForMemory ((combineLoads e.ins).map Prod.fst) : Call w) := by
      cases hk : e.ins.operandKind 0 with
      | reg r => simp [INS.operandIsReg, hk] at hreg
      | _ => simp only [setCall, hk]
    rw [hset]
    refine ⟨hflags, fun _ hwrap => ?_⟩
    rw [if_neg hreg]
    intro a ha
    have hin : a ∈ e.ctx.writeRange := (mem_addrRange_bytes hwrap).2 ha
    rw [hdest, if_pos hin]
    exact subset_rfl

/-- `EFLAGS` gets the marks of what the handler loads. -/
theorem KeepsFlags.execute_flags (h : KeepsFlags e) (hst : st.WidthOk n)
    (he : executeINS st e = some st') : st'.taint.regMarks .EFLAGS =
      assigned e.ins st.taint e.ctx.readVisited (flagSources e.ins) := by
  rcases h.opcode with hop | ⟨hop, -⟩
  · exact (execute_unary hop h.completes hst he).2
  · refine (execute_combining ?_ h.completes hst he).2.1
    simp only [List.mem_cons, List.not_mem_nil, or_false] at hop
    rcases hop with hop | hop | hop <;> simp [combining, hop]

/-- While every `INC` and `DEC` assigns the marks of `EFLAGS` again, none is lost. -/
theorem run_flags {S : Set ℕ} {mids : List (Executed w)}
    (hmids : ∀ e ∈ mids, e.ins.opcode ∈ [.INC, .DEC] ∧ Completes (dataflow e.ins : Insertion w Unit))
    (ha : Lib.Along executeINS FlagsAssigned st mids) (hst : st.WidthOk n)
    (hS : S ⊆ st.taint.regMarks .EFLAGS) (hr : Lib.run executeINS st mids = some st') :
    st'.WidthOk n ∧ S ⊆ st'.taint.regMarks .EFLAGS := by
  refine Lib.Along.invariant
    (I := fun t => t.WidthOk n ∧ S ⊆ t.taint.regMarks .EFLAGS)
    (Q := fun t e => FlagsAssigned t e ∧ e.ins.opcode ∈ [.INC, .DEC] ∧
      Completes (dataflow e.ins : Insertion w Unit)) ?_ ⟨hst, hS⟩ ?_ hr
  · rintro t e t' ⟨hok, hflags⟩ ⟨hassigned, hop, hc⟩ hstep
    obtain ⟨hok', hpost⟩ := execute_unary hop hc hok hstep
    exact ⟨hok', (hflags.trans hassigned).trans hpost.ge⟩
  · intro pre e post he t ht
    exact ⟨ha pre e post he t ht, hmids e (by simp [he])⟩

end

/-- **Preserved flags** keep their marks exactly when the handler assigns them again, and carry those
of the first operands to the last destination while every `INC` and `DEC` does. -/
theorem preserved_flags_iff {w n : Nat} :
    (∀ (e : Executed w) (st st' : TaintState w), KeepsFlags e → st.WidthOk n →
      executeINS st e = some st' →
      (st.taint.regMarks .EFLAGS ⊆ st'.taint.regMarks .EFLAGS ↔ FlagsAssigned st e)) ∧
    ∀ (first : Executed w) (mids : List (Executed w)) (last : Executed w)
      (st₀ st₁ st₂ st₃ : TaintState w), MultiWord first mids last → st₀.WidthOk n →
      MultiWordRun first mids last st₀ st₁ st₂ st₃ → InRange first last →
      Lib.Along executeINS FlagsAssigned st₁ mids →
      ∀ k ∈ [0, 1],
        DestHas last st₃.taint ((Source.operand k).marks first.ins st₀.taint first.ctx.readBytes) := by
  constructor
  · intro e st st' h hst he
    rw [h.execute_flags hst he, FlagsAssigned]
  · intro first mids last st₀ st₁ st₂ st₃ h hst hrun hin ha k hk
    have hcarry : ∀ op ∈ [.ADD, .SUB, .ADC, .SBB], op ∈ combining := by decide
    have htakes : ∀ op ∈ [.ADC, .SBB], op ∈ combining := by decide
    obtain ⟨hok₁, hflags₁, -⟩ := execute_combining (hcarry _ h.first_opcode) h.first_completes hst
      hrun.first
    -- the first instruction gives `EFLAGS` the marks of its operands
    have hfirst : (Source.operand k).marks first.ins st₀.taint first.ctx.readBytes ⊆
        st₁.taint.regMarks .EFLAGS := by
      rw [hflags₁, readVisited_eq hin.reads]
      exact fun m hm => .inl ⟨_, operand_mem_flagSources h.first_opcode hk, hm⟩
    obtain ⟨hok₂, hflags₂⟩ := run_flags (fun e he => ⟨h.mids_opcode e he, h.mids_completes e he⟩) ha
      hok₁ hfirst hrun.mids
    -- the last one gives those of `EFLAGS` to its destination
    obtain ⟨-, -, hdest⟩ := execute_combining (htakes _ h.last_opcode) h.last_completes hok₂ hrun.last
    exact (hdest hin.dest hin.writes).mono fun m hm =>
      .inl ⟨.eflags, eflags_mem_flagSources h.last_opcode, hflags₂ hm⟩

/-- `ADD EAX, EBX`, `INC ECX` and `ADC EDX, ESI`. -/
def addEAX : Executed 32 :=
  ⟨⟨.ADD, [⟨.reg .EAX, false, 32⟩, ⟨.reg .EBX, false, 32⟩], false, false, false, false, false, ""⟩,
    noMemory⟩

def incECX : Executed 32 :=
  ⟨⟨.INC, [⟨.reg .ECX, false, 32⟩], false, false, false, false, false, ""⟩, noMemory⟩

def adcEDX : Executed 32 :=
  ⟨⟨.ADC, [⟨.reg .EDX, false, 32⟩, ⟨.reg .ESI, false, 32⟩], false, false, false, false, false, ""⟩,
    noMemory⟩

theorem incECX_keepsFlags : KeepsFlags incECX := ⟨.inl (by decide), rfl⟩

theorem addEAX_multiWord : MultiWord addEAX [incECX] adcEDX :=
  ⟨by decide, rfl, by decide, by simp; rfl, by decide, rfl⟩

theorem addEAX_inRange : InRange addEAX adcEDX := ⟨by decide, by decide, by decide⟩

/-- The run of the three instructions. -/
theorem exists_multiWordRun {n : Nat} {st₀ : TaintState 32} (hst : st₀.WidthOk n) :
    ∃ st₁ st₂ st₃, MultiWordRun addEAX [incECX] adcEDX st₀ st₁ st₂ st₃ ∧ st₁.WidthOk n ∧
      st₁.taint.active = st₀.taint.active ∧ executeINS st₁ incECX = some st₂ := by
  obtain ⟨st₁, h1, hok₁, ht₁⟩ := executeINS_gives (e := addEAX) hst nofun
  obtain ⟨st₂, h2, hok₂, -⟩ := executeINS_gives (e := incECX) hok₁ nofun
  obtain ⟨st₃, h3, -⟩ := executeINS_gives (e := adcEDX) hok₂ nofun
  refine ⟨st₁, st₂, st₃, ⟨h1, ?_, h3⟩, hok₁, ht₁ ▸ active_congr rfl, h2⟩
  rw [Lib.run_cons_of h2, Lib.run_nil]

/-- With a mark on the operands of the first instruction and on an active branch. -/
theorem preserved_flags_iff_INC :
    ∃ st₀ st₁ st₂ st₃ : TaintState 32, Marked {.EAX, .EBX} ∅ true st₀ ∧
      (st₁.taint.regMarks .EFLAGS ⊆ st₂.taint.regMarks .EFLAGS ↔ FlagsAssigned st₁ incECX) ∧
      ∀ k ∈ [0, 1], DestHas adcEDX st₃.taint
        ((Source.operand k).marks addEAX.ins st₀.taint addEAX.ctx.readBytes) := by
  obtain ⟨st₀, hst⟩ := exists_marked {REG.EAX, .EBX} (∅ : Set (ADDRINT 32)) true
  obtain ⟨st₁, st₂, st₃, hrun, hok₁, hactive, hinc⟩ := exists_multiWordRun hst.ok
  refine ⟨st₀, st₁, st₂, st₃, hst, preserved_flags_iff.1 _ _ _ incECX_keepsFlags hok₁ hinc,
    preserved_flags_iff.2 _ _ _ _ _ _ _ addEAX_multiWord hst.ok hrun addEAX_inRange ?_⟩
  have hflags : st₁.taint.regMarks .EFLAGS ⊆ {0} := by
    rw [(execute_combining (by decide) addEAX_multiWord.first_completes hst.ok hrun.first).2.1]
    simp [assigned, flagSources, combineLoads, addEAX, Source.marks, INS.operandKind, hst.regMarks,
      hst.active]
  rw [Lib.Along.cons hinc]
  refine ⟨hflags.trans ?_, Lib.Along.nil⟩
  rw [assigned, hactive, hst.active, if_pos rfl]
  exact Set.subset_union_right

/-- `INC ECX` loses the marks of the carry flag. -/
theorem incECX_loses_carry :
    ¬ ∀ (e : Executed 32) (n : Nat) (st st' : TaintState 32), KeepsFlags e → st.WidthOk n →
      executeINS st e = some st' → st.taint.regMarks .EFLAGS ⊆ st'.taint.regMarks .EFLAGS := by
  intro h
  obtain ⟨st, hst⟩ := exists_marked {.EFLAGS} (∅ : Set (ADDRINT 32)) false
  obtain ⟨st', he, -⟩ := executeINS_gives (e := incECX) hst.ok nofun
  have hin := h incECX 2 st st' incECX_keepsFlags hst.ok he
    (show 0 ∈ st.taint.regMarks .EFLAGS by simp [hst.regMarks])
  have hnone : assigned incECX.ins st.taint incECX.ctx.readVisited (flagSources incECX.ins) = ∅ := by
    rw [assigned, hst.active]
    ext m
    simp [flagSources, combineLoads, incECX, Source.marks, INS.operandKind, hst.regMarks]
  rw [incECX_keepsFlags.execute_flags hst.ok he, hnone] at hin
  exact hin

end Dytan
