import Dytan.Instrument.Equations

/-!
# When the propagation equations hold

The loops of `TaintForMemory` and `SetTaintForMemory` run while `addr < start + size`, and the sum
wraps: they visit the bytes of the operand (`addrRange_bytes`) unless the range reaches the last
byte of memory, when they visit none (`addrRange_wraps`). `Wraps` says that an instruction's
equations use such a range; `executeINS_equations_iff`: the handler computes the documented
equations from every state if and only if they do not.
-/

namespace Dytan

open Insertion TaintState

variable {w : Nat}

/-! ## The ranges an instruction's equations use -/

section
variable (ins : INS) (ctx : Context w)

/-- The destination is memory. -/
def Destination.memory : Destination → Bool
  | .operand n => !ins.operandIsReg n
  | .eflags => false

/-- The register of a destination that is not memory. -/
def Destination.reg : Destination → REG
  | .operand n => ins.operandReg n
  | .eflags => .EFLAGS

/-- The assignment changes something: not a write of no bytes, nor one to `ESP` or `EBP`. -/
def Destination.effective (d : Destination) : Bool :=
  if d.memory ins then ctx.memoryWriteSize != 0 else d.reg ins != .ESP && d.reg ins != .EBP

def Source.readsMemory : Source → Bool
  | .operand n => ins.operandIsMemory n
  | _ => false

/-- The equation assigns the marks of a memory operand. -/
def UsesRead (e : Destination × List Source) : Prop :=
  e.1.effective ins ctx = true ∧ ∃ s ∈ e.2, s.readsMemory ins = true

/-- The equations use a range that reaches the last byte of memory. -/
def Wraps (eqs : Equations) : Prop :=
  (∃ e ∈ eqs, UsesRead ins ctx e) ∧ RangeWraps ctx.memoryReadEA ctx.memoryReadSize ∨
    (∃ e ∈ eqs, e.1.memory ins = true) ∧ RangeWraps ctx.memoryWriteEA ctx.memoryWriteSize

/-- From every state the handler's calls compute the equations and leave the control taint
alone. -/
def MeetsEquations (eqs : Equations) : Prop :=
  ∀ (n : Nat) (st : TaintState w), st.WidthOk n → st.regTaintMap .INVALID = none →
    ∃ st', executeINS st ⟨ins, ctx⟩ = some st' ∧
      st'.taint.marks = equationMarks ins st.taint ctx.readBytes ctx.writeBytes eqs ∧
      st'.controlTaintMap = st.controlTaintMap

end

section
variable {ins : INS} {ctx : Context w} {eqs : Equations} {t : Taint w} {u : Marks w}
  {read read' written : Set (ADDRINT w)} {S : Set ℕ} {m : ℕ} {a : ADDRINT w}

theorem readVisited_eq (h : ¬ RangeWraps ctx.memoryReadEA ctx.memoryReadSize) :
    ctx.readVisited = ctx.readBytes := addrRange_bytes h

theorem writeVisited_eq (h : ¬ RangeWraps ctx.memoryWriteEA ctx.memoryWriteSize) :
    ctx.writeVisited = ctx.writeBytes := addrRange_bytes h

theorem readVisited_wraps (h : RangeWraps ctx.memoryReadEA ctx.memoryReadSize) :
    ctx.readVisited = ∅ := by
  unfold Context.readVisited Context.readRange Context.readEA
  simp [addrRange_wraps h]

theorem writeVisited_wraps (h : RangeWraps ctx.memoryWriteEA ctx.memoryWriteSize) :
    ctx.writeVisited = ∅ := by
  unfold Context.writeVisited Context.writeRange
  simp [addrRange_wraps h]

theorem writeBytes_empty (h : ctx.memoryWriteSize = 0) : ctx.writeBytes = ∅ := by
  unfold Context.writeBytes bytesAt
  simp [h]

/-! ## Without such a range -/

theorem marks_of_not_readsMemory {s : Source} (h : s.readsMemory ins = false) :
    s.marks ins t read = s.marks ins t read' := by
  cases s with
  | operand n =>
    unfold Source.marks
    cases hk : ins.operandKind n with
    | memory b i => simp [Source.readsMemory, INS.operandIsMemory, hk] at h
    | _ => simp only [hk]
  | _ => rfl

theorem assigned_of_not_readsMemory {sources : List Source}
    (h : ∀ s ∈ sources, s.readsMemory ins = false) :
    assigned ins t read sources = assigned ins t read' sources := by
  unfold assigned
  congr 1
  ext m
  constructor
  · rintro ⟨s, hs, hm⟩
    exact ⟨s, hs, marks_of_not_readsMemory (h s hs) ▸ hm⟩
  · rintro ⟨s, hs, hm⟩
    exact ⟨s, hs, marks_of_not_readsMemory (h s hs) ▸ hm⟩

theorem Marks.setMem_empty (u : Marks w) (S : Set ℕ) : u.setMem ∅ S = u := by
  simp [Marks.setMem]

theorem assign_memory {d : Destination} (h : d.memory ins = true) :
    d.assign ins written u S = u.setMem written S := by
  cases d with
  | eflags => cases h
  | operand n =>
    unfold Destination.assign
    cases hk : ins.operandKind n with
    | reg r => simp [Destination.memory, INS.operandIsReg, hk] at h
    | _ => simp only [hk]

theorem assign_reg {d : Destination} (h : d.memory ins = false) :
    d.assign ins written u S = u.setReg (d.reg ins) S := by
  cases d with
  | eflags => rfl
  | operand n =>
    have hr : ins.operandIsReg n = true := by simpa [Destination.memory] using h
    simp only [Destination.assign, INS.kind_of_reg hr, Destination.reg]

/-- An assignment that is not effective does nothing. -/
theorem assign_of_not_effective {d : Destination} (h : d.effective ins ctx = false)
    (hw : ctx.memoryWriteSize = 0 → written = ∅) : d.assign ins written u S = u := by
  unfold Destination.effective at h
  split at h
  · rename_i hm
    rw [assign_memory hm, hw (by simpa using h), Marks.setMem_empty]
  · rename_i hm
    rw [assign_reg (by simpa using hm)]
    refine if_pos ?_
    simpa [Decidable.or_iff_not_imp_left] using h

/-- The visited addresses give what the bytes give. -/
theorem equationMarks_eq (h : ¬ Wraps ins ctx eqs) (t : Taint w) :
    equationMarks ins t ctx.readVisited ctx.writeVisited eqs =
      equationMarks ins t ctx.readBytes ctx.writeBytes eqs := by
  unfold equationMarks assignAll
  refine List.foldl_ext _ _ _ fun u e he => ?_
  have hS : e.1.effective ins ctx = true →
      assigned ins t ctx.readVisited e.2 = assigned ins t ctx.readBytes e.2 := by
    intro heff
    by_cases hu : ∃ s ∈ e.2, s.readsMemory ins = true
    · rw [readVisited_eq fun hw => h (.inl ⟨⟨e, he, heff, hu⟩, hw⟩)]
    · exact assigned_of_not_readsMemory fun s hs => by
        simpa using fun hr => hu ⟨s, hs, hr⟩
  have hW : e.1.memory ins = true → ctx.writeVisited = ctx.writeBytes :=
    fun hm => writeVisited_eq fun hw => h (.inr ⟨⟨e, he, hm⟩, hw⟩)
  have hW0 : ctx.memoryWriteSize = 0 → ctx.writeVisited = ∅ := fun h0 =>
    (writeVisited_eq fun hw => hw.1 h0).trans (writeBytes_empty h0)
  cases heff : e.1.effective ins ctx with
  | false =>
    rw [assign_of_not_effective heff hW0, assign_of_not_effective heff writeBytes_empty]
  | true =>
    rw [hS heff]
    cases hm : e.1.memory ins with
    | true => rw [hW hm]
    | false => rw [assign_reg hm, assign_reg hm]

/-! ## With one -/

@[simp] theorem Marks.setReg_mem (u : Marks w) (d : REG) (S : Set ℕ) :
    (u.setReg d S).mem = u.mem := by
  unfold Marks.setReg
  split <;> rfl

@[simp] theorem Marks.setMem_reg (u : Marks w) (written : Set (ADDRINT w)) (S : Set ℕ) :
    (u.setMem written S).reg = u.reg := rfl

/-- What holds before the assignments and is kept by each holds after them. -/
theorem assignAll_induction {P : Marks w → Prop} (hu : P u)
    (hstep : ∀ e ∈ eqs, ∀ u, P u → P (e.1.assign ins written u (assigned ins t read e.2))) :
    P (assignAll ins t read written u eqs) := by
  induction eqs generalizing u with
  | nil => exact hu
  | cons e eqs ih =>
    exact ih (hstep e (by simp) u hu) fun e' he' => hstep e' (by simp [he'])

/-- Assignments to no byte leave memory alone. -/
theorem assignAll_mem_empty : (assignAll ins t read ∅ u eqs).mem = u.mem := by
  refine assignAll_induction (P := fun v => v.mem = u.mem) rfl fun e _ v hv => ?_
  cases hm : e.1.memory ins with
  | true => rw [assign_memory hm, Marks.setMem_empty, hv]
  | false => rw [assign_reg hm, Marks.setReg_mem, hv]

/-- An assignment to memory leaves the control taint on the bytes written. -/
theorem mem_assignAll_of_active (hm : m ∈ t.active) (ha : a ∈ written)
    (he : ∃ e ∈ eqs, e.1.memory ins = true) :
    m ∈ (assignAll ins t read written u eqs).mem a := by
  obtain ⟨e, he, hmem⟩ := he
  obtain ⟨pre, post, rfl⟩ := List.append_of_mem he
  have hmem' : ∀ (e : Destination × List Source) (u : Marks w), e.1.memory ins = true →
      m ∈ (e.1.assign ins written u (assigned ins t read e.2)).mem a := by
    intro e u h
    rw [assign_memory h]
    simp only [Marks.setMem, if_pos ha]
    exact .inr hm
  unfold assignAll
  rw [List.foldl_append, List.foldl_cons]
  refine assignAll_induction (P := fun v => m ∈ v.mem a) (hmem' e _ hmem) fun e' _ v hv => ?_
  cases h : e'.1.memory ins with
  | true => exact hmem' e' v h
  | false => rw [assign_reg h, Marks.setReg_mem]; exact hv

/-- When no source carries a mark, nothing that is assigned does. -/
theorem reg_assignAll_empty (hS : ∀ e ∈ eqs, assigned ins t read e.2 = ∅)
    (hu : ∀ r, u.reg r = ∅) (r : REG) : (assignAll ins t read written u eqs).reg r = ∅ := by
  refine assignAll_induction (P := fun v => ∀ r, v.reg r = ∅) hu (fun e he v hv r => ?_) r
  rw [hS e he]
  cases h : e.1.memory ins with
  | true => rw [assign_memory h]; exact hv r
  | false =>
    rw [assign_reg h]
    unfold Marks.setReg
    split
    · exact hv r
    · dsimp only
      split
      · rfl
      · exact hv r

theorem mem_assignAll_empty (hS : ∀ e ∈ eqs, assigned ins t read e.2 = ∅) (ha : a ∈ written)
    (he : ∃ e ∈ eqs, e.1.memory ins = true) :
    (assignAll ins t read written u eqs).mem a = ∅ := by
  obtain ⟨e, he, hmem⟩ := he
  obtain ⟨pre, post, rfl⟩ := List.append_of_mem he
  have hmem' : ∀ e' ∈ pre ++ e :: post, ∀ u : Marks w, e'.1.memory ins = true →
      (e'.1.assign ins written u (assigned ins t read e'.2)).mem a = ∅ := by
    intro e' he' u h
    rw [assign_memory h, hS e' he']
    simp only [Marks.setMem, if_pos ha]
  unfold assignAll
  rw [List.foldl_append, List.foldl_cons]
  refine assignAll_induction (P := fun v => v.mem a = ∅) (hmem' e (by simp) _ hmem)
    fun e' he' v hv => ?_
  cases h : e'.1.memory ins with
  | true => exact hmem' e' (by simp [he']) v h
  | false => rw [assign_reg h, Marks.setReg_mem]; exact hv

/-- An equation that uses the operand read, and whose value no later equation overwrites. -/
def LastUse (ins : INS) (ctx : Context w) (eqs : Equations) : Prop :=
  ∃ pre e post, eqs = pre ++ e :: post ∧ UsesRead ins ctx e ∧
    ∀ e' ∈ post, e'.1.memory ins = !e.1.memory ins

/-- After its last use, the marks of the operand read are where it was assigned. -/
theorem mem_assignAll_of_lastUse (h : LastUse ins ctx eqs) (hwa : ctx.memoryWriteSize ≠ 0 → a ∈ written)
    (hS : ∀ e, UsesRead ins ctx e → m ∈ assigned ins t read e.2) :
    (∃ e ∈ eqs, e.1.memory ins = true ∧ ctx.memoryWriteSize ≠ 0 ∧
      m ∈ (assignAll ins t read written u eqs).mem a) ∨
    ∃ r, m ∈ (assignAll ins t read written u eqs).reg r := by
  obtain ⟨pre, e, post, rfl, huse, hpost⟩ := h
  have hm := hS e huse
  have heff := huse.1
  unfold Destination.effective at heff
  unfold assignAll
  rw [List.foldl_append, List.foldl_cons]
  cases hmem : e.1.memory ins with
  | true =>
    rw [hmem, if_pos rfl] at heff
    have hsize : ctx.memoryWriteSize ≠ 0 := by simpa using heff
    refine .inl ⟨e, by simp, hmem, hsize, ?_⟩
    refine assignAll_induction (P := fun v => m ∈ v.mem a) ?_ fun e' he' v hv => ?_
    · rw [assign_memory hmem]
      simp only [Marks.setMem, if_pos (hwa hsize)]
      exact hm
    · rw [assign_reg (by rw [hpost e' he', hmem]; rfl), Marks.setReg_mem]
      exact hv
  | false =>
    rw [hmem, if_neg (by decide)] at heff
    refine .inr ⟨e.1.reg ins, ?_⟩
    refine assignAll_induction (P := fun v => m ∈ v.reg (e.1.reg ins)) ?_ fun e' he' v hv => ?_
    · rw [assign_reg hmem]
      have hne : ¬ (e.1.reg ins = .ESP ∨ e.1.reg ins = .EBP) := by simpa [not_or] using heff
      simp only [Marks.setReg, if_neg hne, if_pos (List.mem_append_right _ (List.mem_singleton_self _))]
      exact hm
    · rw [assign_memory (by rw [hpost e' he', hmem]; rfl), Marks.setMem_reg]
      exact hv

theorem usesRead_eflags {sources : List Source} (h : ∃ s ∈ sources, s.readsMemory ins = true) :
    UsesRead ins ctx (.eflags, sources) := ⟨rfl, h⟩

theorem lastUse_eflags (pre : Equations) {sources : List Source}
    (h : ∃ e ∈ pre ++ [(Destination.eflags, sources)], UsesRead ins ctx e)
    (hsub : ∀ e ∈ pre, ∀ s ∈ e.2, s ∈ sources ∨ s.readsMemory ins = false) :
    LastUse ins ctx (pre ++ [(Destination.eflags, sources)]) := by
  obtain ⟨e, he, heff, s, hs, hr⟩ := h
  refine ⟨pre, _, [], rfl, usesRead_eflags ⟨s, ?_, hr⟩, by simp⟩
  rcases List.mem_append.1 he with he | he
  · rcases hsub e he s hs with hin | hno
    · exact hin
    · rw [hr] at hno
      cases hno
  · rw [List.mem_singleton.1 he] at hs
    exact hs

/-- When the equations of a handler use the operand read at all, they have a last use. -/
theorem lastUse_of_usesRead (he : equations ins = some eqs)
    (h0 : ins.opcode = .XCHG → ins.operandIsReg 0 = true ∨ ins.operandIsMemory 0 = true)
    (h : ∃ e ∈ eqs, UsesRead ins ctx e) : LastUse ins ctx eqs := by
  have hcombine : (∃ e ∈ combineEquations, UsesRead ins ctx e) →
      LastUse ins ctx combineEquations := fun h =>
    lastUse_eflags [_] h (by simp)
  unfold equations at he
  cases hop : ins.opcode <;> simp only [hop, Option.some.injEq, reduceCtorEq] at he
  case ADD | AND | OR | SUB | SAR | SHL | SHR => exact he ▸ hcombine (he ▸ h)
  case XOR =>
    split at he
    · cases he
    · rw [Option.some.injEq] at he
      exact he ▸ hcombine (he ▸ h)
  case ADC | SBB =>
    subst he
    exact lastUse_eflags [_] h (by simp)
  case XADD =>
    subst he
    exact lastUse_eflags [_, _] h (by simp)
  case MOV =>
    subst he
    obtain ⟨e, he, hu⟩ := h
    exact ⟨[], _, [], rfl, List.mem_singleton.1 he ▸ hu, by simp⟩
  case XCHG =>
    subst he
    obtain ⟨e, he, hu⟩ := h
    rcases List.mem_cons.1 he with rfl | he
    · have h1 : ins.operandIsMemory 1 = true := by simpa [Source.readsMemory] using hu.2
      have hm1 : Destination.memory ins (.operand 1) = true := by
        simp [Destination.memory, INS.isReg_of_memory h1]
      rcases h0 hop with h0 | h0
      · have hm0 : Destination.memory ins (.operand 0) = false := by
          simp [Destination.memory, h0]
        exact ⟨[], _, _, rfl, hu, by simp [hm0, hm1]⟩
      · have hm0 : Destination.memory ins (.operand 0) = true := by
          simp [Destination.memory, INS.isReg_of_memory h0]
        refine ⟨[_], _, [], rfl, ⟨?_, .operand 0, by simp, h0⟩, by simp⟩
        have heff := hu.1
        unfold Destination.effective at heff ⊢
        rw [hm0] at heff
        rw [hm1]
        exact heff
    · exact ⟨[_], _, [], rfl, List.mem_singleton.1 he ▸ hu, by simp⟩

theorem assigned_empty (hreg : ∀ r, t.regMarks r = ∅) (hact : t.active = ∅)
    (sources : List Source) : assigned ins t ∅ sources = ∅ := by
  have haddr : ∀ r, t.addressMarks r = ∅ := by simp [Taint.addressMarks, hreg]
  have hs : ∀ s : Source, s.marks ins t ∅ = ∅ := by
    intro s
    cases s with
    | operand n =>
      unfold Source.marks
      cases hk : ins.operandKind n <;> simp [hk, hreg, haddr]
    | eflags => exact hreg _
    | base => exact haddr _
    | index => exact haddr _
  simp [assigned, hs, hact]

theorem mem_assigned_of_usesRead {e : Destination × List Source} (h : UsesRead ins ctx e)
    (ha : a ∈ read) (hm : m ∈ t.memMarks a) : m ∈ assigned ins t read e.2 := by
  obtain ⟨-, s, hs, hr⟩ := h
  refine .inl ⟨s, hs, ?_⟩
  cases s with
  | operand n =>
    simp only [Source.marks, INS.kind_of_memory hr]
    exact .inl (.inl ⟨a, ha, hm⟩)
  | _ => cases hr

theorem operand0_of_completes (hop : ins.opcode = .XCHG)
    (hc : Completes (dataflow ins : Insertion w Unit)) :
    ins.operandIsReg 0 = true ∨ ins.operandIsMemory 0 = true := by
  unfold dataflow at hc
  rw [hop] at hc
  have h := (completes_bind.1 hc).1
  by_contra hn
  rw [not_or] at hn
  unfold loadRegMem at h
  rw [if_neg hn.1, if_neg hn.2] at h
  cases h

/-- What a handler that completes does to a state. -/
theorem executeINS_equations {n : Nat} {st : TaintState w} (he : equations ins = some eqs)
    (hc : Completes (dataflow ins : Insertion w Unit)) (ctx : Context w) (h : st.WidthOk n)
    (hinv : st.regTaintMap .INVALID = none) :
    ∃ st', executeINS st ⟨ins, ctx⟩ = some st' ∧
      st'.taint.marks = equationMarks ins st.taint ctx.readVisited ctx.writeVisited eqs ∧
      st'.controlTaintMap = st.controlTaintMap := by
  obtain ⟨st', hst', hok', ht'⟩ := executeINS_inserts ctx (fun _ => rfl) hc h
  have hinv' : st.taint.reg .INVALID = none := by simp [hinv]
  obtain ⟨hmarks, hctl⟩ := dataflow_equations he hc ctx hinv'
  refine ⟨st', hst', ht' ▸ hmarks, (hok'.ext_taint h).2.2 ?_⟩
  rw [ht']
  exact hctl

/-- A wrapping range shows in some state: a byte of the range read, or of the range written under
control taint. -/
theorem not_meetsEquations_of_wraps (he : equations ins = some eqs)
    (hc : Completes (dataflow ins : Insertion w Unit)) (hw : Wraps ins ctx eqs) :
    ¬ MeetsEquations ins ctx eqs := by
  intro hmeets
  obtain ⟨s, hs, hsm⟩ := Bitset.exists_single
  by_cases hwrite : (∃ e ∈ eqs, e.1.memory ins = true) ∧
      RangeWraps ctx.memoryWriteEA ctx.memoryWriteSize
  · let st : TaintState w := { initial 2 with
      controlTaintMap := (∅ : Std.ExtTreeMap (ADDRINT w) Bitset).insert 0 s }
    have h2 : (initial 2 : TaintState w).WidthOk 2 := initial_ok 2
    have hok : st.WidthOk 2 := by
      refine ⟨h2.reg, h2.mem, fun a r hr => ?_,
        fun _ => Bitset.init_ok 2, rfl⟩
      simp only [st, Std.ExtTreeMap.getElem?_insert] at hr
      split at hr
      · exact Option.some.inj hr ▸ hs
      · simp at hr
    obtain ⟨st', hst', hm, -⟩ := hmeets 2 st hok rfl
    obtain ⟨st'', hst'', hm', -⟩ := executeINS_equations he hc ctx hok rfl
    rw [hst'] at hst''
    cases hst''
    have hactive : 0 ∈ st.taint.active := ⟨0, {0}, by simp [st, hsm], rfl⟩
    have hdoc : 0 ∈ (equationMarks ins st.taint ctx.readBytes ctx.writeBytes eqs).mem
        ctx.memoryWriteEA :=
      mem_assignAll_of_active hactive (start_mem_bytesAt hwrite.2.1) hwrite.1
    rw [← hm, hm', equationMarks, writeVisited_wraps hwrite.2, assignAll_mem_empty] at hdoc
    simp [st, initial, Taint.marks, Taint.memMarks] at hdoc
  · obtain ⟨huse, hread⟩ := hw.resolve_right hwrite
    let st : TaintState w := { initial 2 with
      memTaintMap := fun a => if a = ctx.memoryReadEA then some s else none }
    have h2 : (initial 2 : TaintState w).WidthOk 2 := initial_ok 2
    have hok : st.WidthOk 2 := by
      refine ⟨h2.reg, fun a r hr => ?_, h2.control,
        fun _ => Bitset.init_ok 2, rfl⟩
      simp only [st] at hr
      split at hr
      · exact Option.some.inj hr ▸ hs
      · cases hr
    obtain ⟨st', hst', hm, -⟩ := hmeets 2 st hok rfl
    obtain ⟨st'', hst'', hm', -⟩ := executeINS_equations he hc ctx hok rfl
    rw [hst'] at hst''
    cases hst''
    have hreg : ∀ r, st.taint.regMarks r = ∅ := by simp [st, initial, Taint.regMarks]
    have hact : st.taint.active = ∅ := by simp [st, initial, Taint.active]
    have hbyte : 0 ∈ st.taint.memMarks ctx.memoryReadEA := by simp [st, Taint.memMarks, hsm]
    have hempty : ∀ e ∈ eqs, assigned ins st.taint ctx.readVisited e.2 = ∅ := fun e _ => by
      rw [readVisited_wraps hread]
      exact assigned_empty hreg hact e.2
    have hlast := lastUse_of_usesRead he (fun hop => operand0_of_completes hop hc) huse
    have hdoc : (∃ e ∈ eqs, e.1.memory ins = true ∧ ctx.memoryWriteSize ≠ 0 ∧
        0 ∈ (equationMarks ins st.taint ctx.readBytes ctx.writeBytes eqs).mem ctx.memoryWriteEA) ∨
        ∃ r, 0 ∈ (equationMarks ins st.taint ctx.readBytes ctx.writeBytes eqs).reg r :=
      mem_assignAll_of_lastUse hlast start_mem_bytesAt fun e hu =>
        mem_assigned_of_usesRead hu (start_mem_bytesAt hread.1) hbyte
    rw [← hm, hm', equationMarks] at hdoc
    rcases hdoc with ⟨e, hein, hemem, hsize, hdoc⟩ | ⟨r, hdoc⟩
    · have hnw : ¬ RangeWraps ctx.memoryWriteEA ctx.memoryWriteSize :=
        fun h => hwrite ⟨⟨e, hein, hemem⟩, h⟩
      have hin : ctx.memoryWriteEA ∈ ctx.writeVisited :=
        writeVisited_eq hnw ▸ start_mem_bytesAt hsize
      rw [mem_assignAll_empty hempty hin ⟨e, hein, hemem⟩] at hdoc
      exact hdoc
    · rw [reg_assignAll_empty hempty hreg] at hdoc
      exact hdoc

/-- **The documented equations** hold from every state exactly when no range they use reaches the
last byte of memory. -/
theorem executeINS_equations_iff (he : equations ins = some eqs)
    (hc : Completes (dataflow ins : Insertion w Unit)) (ctx : Context w) :
    MeetsEquations ins ctx eqs ↔ ¬ Wraps ins ctx eqs := by
  constructor
  · exact fun h hw => not_meetsEquations_of_wraps he hc hw h
  · intro hw n st h hinv
    rw [← equationMarks_eq hw]
    exact executeINS_equations he hc ctx h hinv

end

/-- `ADD EAX, EBX`. -/
theorem executeINS_equations_iff_add :
    MeetsEquations ⟨.ADD, [⟨.reg .EAX, false, 32⟩, ⟨.reg .EBX, false, 32⟩], false, false, false,
      false, false, ""⟩ (⟨0, 0, 0, 0, 0, fun _ => 0, fun _ => 0⟩ : Context 32) combineEquations ↔
    ¬ Wraps ⟨.ADD, [⟨.reg .EAX, false, 32⟩, ⟨.reg .EBX, false, 32⟩], false, false, false,
      false, false, ""⟩ (⟨0, 0, 0, 0, 0, fun _ => 0, fun _ => 0⟩ : Context 32) combineEquations := by
  apply executeINS_equations_iff
  · rfl
  · rfl

/-- `MOV [0xfffffffc], EAX` does not keep the marks of `EAX`. -/
theorem equations_fail_on_last_bytes :
    ¬ ∀ (ins : INS) (eqs : Equations) (ctx : Context 32), equations ins = some eqs →
      Completes (dataflow ins : Insertion 32 Unit) → MeetsEquations ins ctx eqs := by
  intro h
  have hmov := h ⟨.MOV, [⟨.memory .INVALID .INVALID, false, 32⟩, ⟨.reg .EAX, false, 32⟩], false,
    true, false, false, false, ""⟩ _ ⟨0, 0, 0, 0xfffffffc, 4, fun _ => 0, fun _ => 0⟩ rfl rfl
  refine not_meetsEquations_of_wraps ?_ ?_ (.inr ⟨⟨_, List.mem_singleton_self _, rfl⟩, ?_⟩) hmov
  · rfl
  · rfl
  · decide

end Dytan
