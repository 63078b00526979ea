import Dytan.Taint.Range
import Dytan.Machine.Step
import Dytan.Taint.SubRegister

/-!
# Soundness of the explicit flows

`Agree m t s₁ s₂`: the two machine states have the same value in every location that does not carry
the mark `m` in `t`. Every instruction keeps it when its memory operands have the same addresses in
both states (`step_agree`), so a location whose values differ after a straight-line program carries
`m` (`explicit_flows_sound`).

`Instr.calls` are the calls inserted for an instruction (`dataflow_report`).
-/

namespace Dytan

open Insertion

/-! ## The inserted calls -/

def InsOperand.load (set : Scratch) : InsOperand → Call 32
  | .reg r => .taintForRegister r.reg set
  | .imm _ => .clearTaintSet set
  | .mem m => .taintForMemory .MEMORYREAD (addressReg m.base) (addressReg m.index) set

def InsOperand.assign (args : List Scratch) : InsOperand → Call 32
  | .reg r => .setTaintForRegister r.reg args
  | _ => .setTaintForMemory args

/-- The operands are the same register. -/
def InsOperand.same : InsOperand → InsOperand → Bool
  | .reg r, .reg r' => r == r'
  | _, _ => false

/-- The assignment of an operation to operand 0, when there is one. -/
def AluOp.assignCalls (dst src : InsOperand) : AluOp → List (Call 32)
  | .ADC | .SBB =>
    [.taintForRegister .EFLAGS .eflags, dst.assign [.dest, .src, .eflags]]
  | .CMP | .TEST => []
  | .XOR =>
    match dst with
    | .reg r => if dst.same src then [.clearTaintForRegister r.reg] else [dst.assign [.dest, .src]]
    | _ => [dst.assign [.dest, .src]]
  | _ => [dst.assign [.dest, .src]]

/-- The scratch sets that go to `EFLAGS`. -/
def AluOp.args (op : AluOp) : List Scratch :=
  if op.usesCarry then [.dest, .src, .eflags] else [.dest, .src]

def Instr.calls : Instr → List (Call 32)
  | .mov (.mem m) src =>
    [src.load .src, .taintForRegister (addressReg m.base) .base,
      .taintForRegister (addressReg m.index) .idx, .setTaintForMemory [.src, .base, .idx]]
  | .mov dst src => [src.load .src, dst.assign [.src]]
  | .lea dst m =>
    [.taintForRegister (addressReg m.base) .base, .taintForRegister (addressReg m.index) .idx,
      .setTaintForRegister dst.reg [.base, .idx]]
  | .push src => [src.load .src, .setTaintForMemory [.src]]
  | .pop dst =>
    [.taintForMemory .MEMORYREAD .INVALID .INVALID .src, .setTaintForRegister dst.reg [.src]]
  | .alu op dst src =>
    [dst.load .dest, src.load .src] ++ op.assignCalls dst src ++
      [.setTaintForRegister .EFLAGS op.args]

theorem instrumentXOR_regs (r r' : GPR) :
    (instrumentXOR (Instr.alu .XOR (.reg r) (.reg r')).report : Insertion 32 Unit) =
      ⟨(Instr.alu .XOR (.reg r) (.reg r')).calls, .ok ()⟩ := by
  cases r <;> cases r' <;> rfl

/-- The handlers run to their end and insert these calls. -/
theorem dataflow_report {i : Instr} (h : i.covered = true) :
    (dataflow i.report : Insertion 32 Unit) = ⟨i.calls, .ok ()⟩ := by
  cases i with
  | mov dst src => cases dst <;> cases src <;> first | rfl | cases h
  | lea dst m => rfl
  | push src => cases src <;> rfl
  | pop dst => rfl
  | alu op dst src =>
    cases dst with
    | reg r =>
      cases src with
      | reg r' =>
        cases op
        case XOR => exact instrumentXOR_regs r r'
        all_goals rfl
      | imm v => cases op <;> rfl
      | mem m => cases op <;> first | rfl | simp [Instr.covered, InsOperand.memory?] at h
    | imm v => cases op <;> cases h
    | mem m => cases src <;> cases op <;> first | rfl | cases h

/-! ## Locations -/

/-- A location that carries taint: a register, the status flags or a byte of memory. -/
inductive Location
  | reg (r : GPR)
  | eflags
  | byte (a : ADDRINT 32)

/-- The two states have the same value there. -/
def Location.SameValue (s₁ s₂ : MachineState) : Location → Prop
  | .reg r => s₁.reg r = s₂.reg r
  | .eflags => s₁.eflags = s₂.eflags
  | .byte a => s₁.mem a = s₂.mem a

noncomputable section

/-- The marks of a location. -/
def Location.marks (t : Taint 32) : Location → Set ℕ
  | .reg r => t.regMarks r.reg
  | .eflags => t.regMarks .EFLAGS
  | .byte a => t.memMarks a

/-- The states differ only where `m` is. -/
def Agree (m : ℕ) (t : Taint 32) (s₁ s₂ : MachineState) : Prop :=
  ∀ l : Location, m ∉ l.marks t → l.SameValue s₁ s₂

theorem Agree.symm {m : ℕ} {t : Taint 32} {s₁ s₂ : MachineState} (h : Agree m t s₁ s₂) :
    Agree m t s₂ s₁ := by
  intro l hl
  have hs := h l hl
  cases l <;> exact Eq.symm hs

/-! ### Registers -/

theorem GPR.mem_updated {r r' : GPR} : r'.reg ∈ containedRegs r.reg ++ [r.reg] ↔ r' = r := by
  cases r <;> cases r' <;> decide

theorem GPR.eflags_not_updated (r : GPR) : .EFLAGS ∉ containedRegs r.reg ++ [r.reg] := by
  cases r <;> decide

theorem GPR.not_updated_of_eflags (r : GPR) : r.reg ∉ containedRegs .EFLAGS ++ [.EFLAGS] := by
  cases r <;> decide

theorem GPR.not_stack {r : GPR} (h : (r != .ESP && r != .EBP) = true) :
    ¬ (r.reg = .ESP ∨ r.reg = .EBP) := by
  cases r <;> first | decide | cases h

section
variable {m : ℕ} {t : Taint 32} {s₁ s₂ : MachineState} {S : Set ℕ} {v₁ v₂ : ADDRINT 32}

theorem Agree.setReg (h : Agree m t s₁ s₂) {r : GPR} (hr : (r != .ESP && r != .EBP) = true)
    (hv : m ∉ S → v₁ = v₂) :
    Agree m (t.setReg r.reg S) (s₁.setReg r v₁) (s₂.setReg r v₂) := by
  have hd := GPR.not_stack hr
  intro l hl
  cases l with
  | reg r' =>
    simp only [Location.marks, regMarks_setReg hd, GPR.mem_updated] at hl
    simp only [Location.SameValue, MachineState.setReg]
    by_cases he : r' = r
    · subst he
      rw [if_pos rfl, Set.mem_union, not_or] at hl
      rw [Function.update_self, Function.update_self]
      exact hv hl.1
    · rw [if_neg he] at hl
      rw [Function.update_of_ne he, Function.update_of_ne he]
      exact h (.reg r') hl
  | eflags =>
    simp only [Location.marks, regMarks_setReg hd, if_neg (GPR.eflags_not_updated r)] at hl
    exact h .eflags hl
  | byte a =>
    simp only [Location.marks, Taint.setReg_memMarks] at hl
    exact h (.byte a) hl

/-- `XOR` of a register with itself: the register is cleared and has the same value. -/
theorem Agree.clearReg (h : Agree m t s₁ s₂) {r : GPR} (hv : v₁ = v₂) :
    Agree m (t.clearReg r.reg) (s₁.setReg r v₁) (s₂.setReg r v₂) := by
  subst hv
  intro l hl
  cases l with
  | reg r' =>
    simp only [Location.marks, regMarks_clearReg, GPR.mem_updated] at hl
    simp only [Location.SameValue, MachineState.setReg]
    by_cases he : r' = r
    · subst he
      rw [Function.update_self, Function.update_self]
    · rw [if_neg fun hc => he hc.1] at hl
      rw [Function.update_of_ne he, Function.update_of_ne he]
      exact h (.reg r') hl
  | eflags =>
    simp only [Location.marks, regMarks_clearReg] at hl
    rw [if_neg fun hc => GPR.eflags_not_updated r hc.1] at hl
    exact h .eflags hl
  | byte a => exact h (.byte a) hl

theorem Agree.setEflags (h : Agree m t s₁ s₂) {f₁ f₂ : StatusFlags} (hf : m ∉ S → f₁ = f₂) :
    Agree m (t.setReg .EFLAGS S) (s₁.setEflags f₁) (s₂.setEflags f₂) := by
  have hd : ¬ (REG.EFLAGS = .ESP ∨ REG.EFLAGS = .EBP) := by decide
  intro l hl
  cases l with
  | reg r =>
    simp only [Location.marks, regMarks_setReg hd, if_neg (GPR.not_updated_of_eflags r)] at hl
    exact h (.reg r) hl
  | eflags =>
    rw [Location.marks, regMarks_setReg hd, if_pos (by decide), Set.mem_union, not_or] at hl
    exact hf hl.1
  | byte a =>
    simp only [Location.marks, Taint.setReg_memMarks] at hl
    exact h (.byte a) hl

/-- The stack pointer moves by the same distance. -/
theorem Agree.update (h : Agree m t s₁ s₂) {r : GPR} (hv : s₁.reg r = s₂.reg r → v₁ = v₂) :
    Agree m t (s₁.setReg r v₁) (s₂.setReg r v₂) := by
  intro l hl
  cases l with
  | reg r' =>
    have hs := h (.reg r') hl
    simp only [Location.SameValue, MachineState.setReg] at hs ⊢
    by_cases he : r' = r
    · subst he
      rw [Function.update_self, Function.update_self]
      exact hv hs
    · rw [Function.update_of_ne he, Function.update_of_ne he]
      exact hs
  | eflags => exact h .eflags hl
  | byte a => exact h (.byte a) hl

/-! ### Memory -/

/-- The bytes a four byte access visits, when it does not reach the last byte of memory. -/
theorem mem_addrRange_four {a b : ADDRINT 32} (ha : a.toNat + 4 < 2 ^ 32) :
    b ∈ addrRange a (a + 4) ↔ (b - a).toNat < 4 := by
  have hb := b.isLt
  have hstop : (a + 4).toNat = a.toNat + 4 := by
    rw [BitVec.toNat_add, show (4 : ADDRINT 32).toNat = 4 from rfl, Nat.mod_eq_of_lt ha]
  rw [mem_addrRange, BitVec.le_def, BitVec.lt_def, hstop, BitVec.toNat_sub]
  omega

theorem Agree.setMem (h : Agree m t s₁ s₂) {a : ADDRINT 32} (ha : a.toNat + 4 < 2 ^ 32)
    (hv : m ∉ S → v₁ = v₂) :
    Agree m (t.setMem (addrRange a (a + 4)) S) (s₁.store a v₁) (s₂.store a v₂) := by
  intro l hl
  cases l with
  | reg r => exact h (.reg r) hl
  | eflags => exact h .eflags hl
  | byte b =>
    simp only [Location.marks, Taint.memMarks, Taint.setMem, mem_addrRange_four ha] at hl
    simp only [Location.SameValue, MachineState.store]
    by_cases hb : (b - a).toNat < 4
    · rw [if_pos hb, Option.getD_some, Set.mem_union, not_or] at hl
      rw [if_pos hb, if_pos hb, hv hl.1]
    · rw [if_neg hb] at hl
      rw [if_neg hb, if_neg hb]
      exact h (.byte b) hl

/-- A load agrees when none of its bytes carries `m`. -/
theorem Agree.load (h : Agree m t s₁ s₂) {a : ADDRINT 32} (ha : a.toNat + 4 < 2 ^ 32)
    (hm : m ∉ t.bytesMarks (addrRange a (a + 4))) : s₁.load a = s₂.load a := by
  have hbyte : ∀ k : ADDRINT 32, k.toNat < 4 → s₁.mem (a + k) = s₂.mem (a + k) := by
    intro k hk
    refine h (.byte (a + k)) fun hc => hm ⟨a + k, ?_, hc⟩
    rw [mem_addrRange_four ha, add_sub_cancel_left]
    exact hk
  have h0 : s₁.mem a = s₂.mem a := by simpa using hbyte 0#32 (by decide)
  unfold MachineState.load
  rw [h0, hbyte 1#32 (by decide), hbyte 2#32 (by decide), hbyte 3#32 (by decide)]

/-! ### Operands -/

/-- The inserted calls are passed the address of the memory operand `mo`, which is the same in both
states. -/
structure Accesses (ea size : ADDRINT 32) (mo : MemoryOperand) (s₁ s₂ : MachineState) : Prop where
  address : mo.effectiveAddress s₁ = ea
  same : mo.effectiveAddress s₂ = ea
  size : size = 4
  bound : ea.toNat + 4 < 2 ^ 32

/-- The marks a load of the operand collects. -/
def InsOperand.marks (ctx : Context 32) (t : Taint 32) : InsOperand → Set ℕ
  | .reg r => t.regMarks r.reg
  | .imm _ => ∅
  | .mem m => t.readMarks (ctx.readRange .MEMORYREAD) (addressReg m.base) (addressReg m.index)

variable {ctx : Context 32} {op dst src : InsOperand} {args : List Scratch}

theorem step_load (set : Scratch) :
    (op.load set).step ctx t = t.load set (op.marks ctx t) := by
  cases op <;> rfl

theorem marks_load (set : Scratch) : op.marks ctx (t.load set S) = op.marks ctx t := by
  cases op <;> rfl

theorem Agree.value (h : Agree m t s₁ s₂)
    (ha : ∀ mo, op.memory? = some mo → Accesses ctx.memoryReadEA ctx.memoryReadSize mo s₁ s₂)
    (hm : m ∉ op.marks ctx t) : op.value s₁ = op.value s₂ := by
  cases op with
  | reg r => exact h (.reg r) hm
  | imm v => rfl
  | mem mo =>
    obtain ⟨haddr, hsame, hsize, hbound⟩ := ha mo rfl
    simp only [InsOperand.marks, Taint.readMarks, Context.readRange, Context.readEA, hsize,
      Set.mem_union, not_or] at hm
    simp only [InsOperand.value, haddr, hsame]
    exact h.load hbound hm.1.1

theorem Agree.assign (h : Agree m t s₁ s₂) (hw : dst.writable = true)
    (ha : ∀ mo, dst.memory? = some mo → Accesses ctx.memoryWriteEA ctx.memoryWriteSize mo s₁ s₂)
    (hv : m ∉ t.scratchMarks args → v₁ = v₂) :
    Agree m ((dst.assign args).step ctx t) (dst.write s₁ v₁) (dst.write s₂ v₂) := by
  cases dst with
  | reg r => exact h.setReg hw hv
  | imm v => cases hw
  | mem mo =>
    obtain ⟨haddr, hsame, hsize, hbound⟩ := ha mo rfl
    simp only [InsOperand.write, haddr, hsame, InsOperand.assign, Call.step, Context.writeRange,
      hsize]
    exact h.setMem hbound hv

theorem assign_scratch : ((dst.assign args).step ctx t).scratch = t.scratch := by
  cases dst with
  | reg r => exact Taint.setReg_scratch _ _ _
  | _ => rfl

theorem not_mem_scratchMarks : m ∉ t.scratchMarks args ↔ ∀ s ∈ args, m ∉ t.scratch s := by
  simp [Taint.scratchMarks]

/-- Loads leave the maps alone. -/
theorem agree_load (set : Scratch) : Agree m (t.load set S) s₁ s₂ ↔ Agree m t s₁ s₂ := by
  have hmarks : ∀ l : Location, l.marks (t.load set S) = l.marks t := by
    intro l
    cases l <;> rfl
  unfold Agree
  simp only [hmarks]

/-! ### Instructions -/

/-- What the calls of an instruction are passed about its memory operands. -/
theorem context_accesses {i : Instr} (hs : i.accesses s₁ = i.accesses s₂)
    (hb : ∀ a ∈ i.accesses s₁, a.toNat + 4 < 2 ^ 32) :
    (∀ mo, i.readOperand = some mo →
      Accesses (i.context s₁).memoryReadEA (i.context s₁).memoryReadSize mo s₁ s₂) ∧
    ∀ mo, i.writeOperand = some mo →
      Accesses (i.context s₁).memoryWriteEA (i.context s₁).memoryWriteSize mo s₁ s₂ := by
  have hin : ∀ mo ∈ i.readOperand.toList ++ i.writeOperand.toList,
      mo.effectiveAddress s₂ = mo.effectiveAddress s₁ ∧
        (mo.effectiveAddress s₁).toNat + 4 < 2 ^ 32 := by
    intro mo hmo
    exact ⟨(List.map_inj_left.1 hs mo hmo).symm, hb _ (List.mem_map_of_mem hmo)⟩
  constructor
  · intro mo hmo
    obtain ⟨hsame, hbound⟩ := hin mo (by simp [hmo])
    refine ⟨?_, ?_, ?_, ?_⟩ <;> simp only [Instr.context, hmo, Option.map_some, Option.getD_some,
      Option.isSome_some, if_true]
    · exact hsame
    · exact hbound
  · intro mo hmo
    obtain ⟨hsame, hbound⟩ := hin mo (by simp [hmo])
    refine ⟨?_, ?_, ?_, ?_⟩ <;> simp only [Instr.context, hmo, Option.map_some, Option.getD_some,
      Option.isSome_some, if_true]
    · exact hsame
    · exact hbound

theorem AluOp.result_congr {o : AluOp} {a b : ADDRINT 32} {c₁ c₂ : Bool}
    (h : o.usesCarry = true → c₁ = c₂) : o.result a b c₁ = o.result a b c₂ := by
  cases o <;> first | rfl | rw [h rfl]

theorem AluOp.flags_congr {U : AluOp → ADDRINT 32 → ADDRINT 32 → Bool} {o : AluOp}
    {a b : ADDRINT 32} {c₁ c₂ : Bool} (h : o.usesCarry = true → c₁ = c₂) :
    o.flags U a b c₁ = o.flags U a b c₂ := by
  cases o <;> first | rfl | rw [h rfl]

variable {U : AluOp → ADDRINT 32 → ADDRINT 32 → Bool} {o : AluOp}

/-- The operands of `o` agree in the two states. -/
def SameOperands (o : AluOp) (dst src : InsOperand) (s₁ s₂ : MachineState) : Prop :=
  dst.value s₁ = dst.value s₂ ∧ src.value s₁ = src.value s₂ ∧
    (o.usesCarry = true → s₁.eflags.cf = s₂.eflags.cf)

/-- Between the assignment of the result and that of `EFLAGS`: the scratch sets that go to `EFLAGS`
still have the marks of the operands. -/
structure Assigned (m : ℕ) (t : Taint 32) (o : AluOp) (dst src : InsOperand)
    (s₁ s₂ : MachineState) : Prop where
  agree : Agree m t (o.assign dst src s₁) (o.assign dst src s₂)
  args : m ∉ t.scratchMarks o.args → SameOperands o dst src s₁ s₂

/-- The call that assigns the result. -/
theorem Agree.assigned (h : Agree m t s₁ s₂) (hwr : o.writes = true) (hw : dst.writable = true)
    (ha : ∀ mo, (Instr.alu o dst src).writeOperand = some mo →
      Accesses ctx.memoryWriteEA ctx.memoryWriteSize mo s₁ s₂)
    (hv : m ∉ t.scratchMarks o.args → SameOperands o dst src s₁ s₂) :
    Assigned m ((dst.assign o.args).step ctx t) o dst src s₁ s₂ := by
  have hmem : ∀ mo, dst.memory? = some mo →
      Accesses ctx.memoryWriteEA ctx.memoryWriteSize mo s₁ s₂ := by
    intro mo hmo
    exact ha mo (by rw [Instr.writeOperand, if_pos hwr]; exact hmo)
  have hargs : ((dst.assign o.args).step ctx t).scratchMarks o.args = t.scratchMarks o.args := by
    unfold Taint.scratchMarks
    rw [assign_scratch]
  refine ⟨?_, by rw [hargs]; exact hv⟩
  rw [AluOp.assign, AluOp.assign, if_pos hwr, if_pos hwr]
  refine h.assign hw hmem fun hm => ?_
  obtain ⟨ha, hb, hc⟩ := hv hm
  rw [ha, hb]
  exact AluOp.result_congr hc

/-- The calls between the loads and the assignment of `EFLAGS`. -/
theorem Agree.assignCalls (h : Agree m t s₁ s₂) (hcov : (Instr.alu o dst src).covered = true)
    (ha : ∀ mo, (Instr.alu o dst src).writeOperand = some mo →
      Accesses ctx.memoryWriteEA ctx.memoryWriteSize mo s₁ s₂)
    (hv : m ∉ t.scratch .dest → m ∉ t.scratch .src →
      dst.value s₁ = dst.value s₂ ∧ src.value s₁ = src.value s₂) :
    Assigned m (stepCalls ctx t (o.assignCalls dst src)) o dst src s₁ s₂ := by
  -- Without the carry the scratch sets `dest` and `src` decide.
  have hplain : o.usesCarry = false → m ∉ t.scratchMarks o.args →
      SameOperands o dst src s₁ s₂ := by
    intro hc hm
    rw [AluOp.args, hc, not_mem_scratchMarks] at hm
    obtain ⟨hd, hs⟩ := hv (hm .dest (by simp)) (hm .src (by simp))
    exact ⟨hd, hs, fun hc' => by rw [hc] at hc'; cases hc'⟩
  -- The carry is loaded into the scratch set `eflags`.
  have hcarry : o.usesCarry = true → m ∉ (t.load .eflags (t.regMarks .EFLAGS)).scratchMarks o.args →
      SameOperands o dst src s₁ s₂ := by
    intro hc hm
    rw [AluOp.args, hc, not_mem_scratchMarks] at hm
    have hd := hm .dest (by simp)
    have hs := hm .src (by simp)
    have he := hm .eflags (by simp)
    rw [Taint.load_scratch_other _ _ (by decide)] at hd hs
    rw [Taint.load_scratch_same] at he
    obtain ⟨hd, hs⟩ := hv hd hs
    exact ⟨hd, hs, fun _ => congrArg StatusFlags.cf (h .eflags he)⟩
  have hw : o.writes = true → dst.writable = true := by
    intro hwr
    simp only [Instr.covered, hwr, if_true, Bool.and_eq_true] at hcov
    exact hcov.1.1
  cases o with
  | ADC => exact ((agree_load _).2 h).assigned rfl (hw rfl) ha (hcarry rfl)
  | SBB => exact ((agree_load _).2 h).assigned rfl (hw rfl) ha (hcarry rfl)
  | CMP => exact ⟨h, hplain rfl⟩
  | TEST => exact ⟨h, hplain rfl⟩
  | XOR =>
    cases dst with
    | reg r =>
      by_cases hsame : (InsOperand.reg r).same src = true
      · -- The same register twice: its value is zero in both states.
        obtain rfl : src = .reg r := by
          cases src <;> simp_all [InsOperand.same]
        rw [AluOp.assignCalls, if_pos hsame]
        refine ⟨h.clearReg ?_, hplain rfl⟩
        simp [InsOperand.value, AluOp.result]
      · rw [AluOp.assignCalls, if_neg hsame]
        exact h.assigned rfl (hw rfl) ha (hplain rfl)
    | _ => exact h.assigned rfl (hw rfl) ha (hplain rfl)
  | _ => exact h.assigned rfl (hw rfl) ha (hplain rfl)

/-- An instruction keeps the agreement. -/
theorem step_agree {i : Instr} (hcov : i.covered = true) (hs : i.accesses s₁ = i.accesses s₂)
    (hb : ∀ a ∈ i.accesses s₁, a.toNat + 4 < 2 ^ 32) (h : Agree m t s₁ s₂) :
    Agree m (stepCalls (i.context s₁) t i.calls) (i.exec U s₁) (i.exec U s₂) := by
  obtain ⟨hread, hwrite⟩ := context_accesses hs hb
  cases i with
  | mov dst src =>
    have hval : m ∉ src.marks ((Instr.mov dst src).context s₁) t → src.value s₁ = src.value s₂ :=
      h.value hread
    cases dst with
    | reg r =>
      rw [Instr.calls, stepCalls_cons, step_load]
      · refine ((agree_load _).2 h).assign (by simpa [Instr.covered, InsOperand.memory?] using hcov)
          hwrite fun hm => hval ?_
        rw [not_mem_scratchMarks] at hm
        simpa using hm .src (by simp)
      · nofun
    | imm v => cases hcov
    | mem mo =>
      rw [Instr.calls, stepCalls_cons, step_load]
      have hcall : Call.setTaintForMemory [.src, .base, .idx] =
          ((.mem mo : InsOperand).assign [.src, .base, .idx] : Call 32) := rfl
      rw [hcall]
      refine Agree.assign ((agree_load _).2 <| (agree_load _).2 <|
        (agree_load _).2 h) rfl hwrite fun hm => hval ?_
      simp only [Call.step, not_mem_scratchMarks] at hm
      have hsrc := hm .src (by simp)
      rwa [Taint.load_scratch_other _ _ (by decide), Taint.load_scratch_other _ _ (by decide),
        Taint.load_scratch_same] at hsrc
  | lea dst mo =>
    have hreg : ∀ r : Option GPR, m ∉ t.regMarks (addressReg r) → s₁.optReg r = s₂.optReg r := by
      intro r hr
      cases r with
      | none => rfl
      | some r => exact h (.reg r) hr
    refine ((agree_load _).2 <| (agree_load _).2 h).setReg hcov fun hm => ?_
    simp only [Call.step, not_mem_scratchMarks] at hm
    have hbase := hm .base (by simp)
    have hidx := hm .idx (by simp)
    rw [Taint.load_scratch_other _ _ (by decide), Taint.load_scratch_same] at hbase
    rw [Taint.load_scratch_same] at hidx
    rw [MemoryOperand.effectiveAddress, MemoryOperand.effectiveAddress, hreg _ hbase, hreg _ hidx]
  | push src =>
    obtain ⟨haddr, hsame, hsize, hbound⟩ := hwrite stackPush rfl
    have hstore : Agree m (stepCalls ((Instr.push src).context s₁) t (Instr.push src).calls)
        (s₁.store (stackPush.effectiveAddress s₁) (src.value s₁))
        (s₂.store (stackPush.effectiveAddress s₂) (src.value s₂)) := by
      rw [Instr.calls, stepCalls_cons, step_load, haddr, hsame]
      simp only [stepCalls_cons, stepCalls_nil, Call.step, Context.writeRange, hsize]
      refine ((agree_load _).2 h).setMem hbound fun hm => h.value hread ?_
      rw [not_mem_scratchMarks] at hm
      simpa using hm .src (by simp)
    exact hstore.update fun he => congrArg (· - 4) he
  | pop dst =>
    obtain ⟨haddr, hsame, hsize, hbound⟩ := hread stackTop rfl
    have hesp : Agree m t (s₁.setReg .ESP (s₁.reg .ESP + 4)) (s₂.setReg .ESP (s₂.reg .ESP + 4)) :=
      h.update fun he => congrArg (· + 4) he
    refine ((agree_load _).2 hesp).setReg hcov fun hm => ?_
    simp only [Call.step, not_mem_scratchMarks] at hm
    have hsrc := hm .src (by simp)
    rw [Taint.load_scratch_same, Taint.readMarks, Context.readRange, Context.readEA, hsize,
      Set.mem_union, Set.mem_union, not_or, not_or] at hsrc
    rw [haddr, hsame]
    exact h.load hbound hsrc.1.1
  | alu o dst src =>
    set ctx := (Instr.alu o dst src).context s₁ with hctx
    have hdst : m ∉ dst.marks ctx t → dst.value s₁ = dst.value s₂ := by
      refine h.value fun mo hmo => hread mo ?_
      rw [Instr.readOperand, hmo, Option.some_or]
    have hsrc : m ∉ src.marks ctx t → src.value s₁ = src.value s₂ := by
      refine h.value fun mo hmo => hread mo ?_
      have hone : dst.memory? = none := by
        cases hd : dst.memory? with
        | none => rfl
        | some mo' => simp [Instr.covered, hd, hmo] at hcov
      rw [Instr.readOperand, hone, Option.none_or, hmo]
    have hT : Agree m ((t.load .dest (dst.marks ctx t)).load .src (src.marks ctx t)) s₁ s₂ :=
      (agree_load _).2 <| (agree_load _).2 h
    obtain ⟨hagree, hargs⟩ := hT.assignCalls hcov hwrite fun hd hs => by
      rw [Taint.load_scratch_other _ _ (by decide), Taint.load_scratch_same] at hd
      rw [Taint.load_scratch_same] at hs
      exact ⟨hdst hd, hsrc hs⟩
    have hloads : stepCalls ctx t [dst.load .dest, src.load .src] =
        (t.load .dest (dst.marks ctx t)).load .src (src.marks ctx t) := by
      rw [stepCalls_cons, stepCalls_cons, stepCalls_nil, step_load, step_load, marks_load]
    rw [Instr.calls, stepCalls_append, stepCalls_append, hloads]
    refine hagree.setEflags fun hm => ?_
    obtain ⟨ha, hb, hc⟩ := hargs hm
    rw [ha, hb]
    exact AluOp.flags_congr hc

/-! ## Programs -/

theorem SameAccesses.symm {program : List Instr} (h : SameAccesses U program s₁ s₂) :
    SameAccesses U program s₂ s₁ := by
  induction program generalizing s₁ s₂ with
  | nil => trivial
  | cons i program ih =>
    obtain ⟨hs, hb, h⟩ := h
    exact ⟨hs.symm, hs ▸ hb, ih h⟩

/-- The handlers accept the program, and after it the states still differ only where `m` is. -/
theorem trace_agree {program : List Instr} (hcov : ∀ i ∈ program, i.covered = true)
    (hsame : SameAccesses U program s₁ s₂) {n : ℕ} {st : TaintState 32} (hst : st.WidthOk n)
    (h : Agree m st.taint s₁ s₂) :
    ∃ st', execute st (trace U program s₁) = some st' ∧ st'.WidthOk n ∧
      Agree m st'.taint (runProgram U s₁ program) (runProgram U s₂ program) := by
  induction program generalizing s₁ s₂ st with
  | nil => exact ⟨st, rfl, hst, h⟩
  | cons i program ih =>
    obtain ⟨hs, hb, hsame⟩ := hsame
    have hi : i.covered = true := hcov i (by simp)
    have hcalls := dataflow_report hi
    have hacc : (dataflow i.report : Insertion 32 Unit).Accepted := by
      intro message
      rw [hcalls]
      nofun
    obtain ⟨st₁, h₁, hst₁, ht₁⟩ := executeINS_gives hst (e := ⟨i.report, i.context s₁⟩) hacc
    have hstep : Agree m st₁.taint (i.exec U s₁) (i.exec U s₂) := by
      rw [ht₁, hcalls]
      exact step_agree hi hs hb h
    obtain ⟨st', h', hst', hag⟩ := ih (fun j hj => hcov j (by simp [hj])) hsame hst₁ hstep
    refine ⟨st', ?_, hst', hag⟩
    rw [trace, execute, List.foldlM_cons, h₁]
    exact h'

/-- **Soundness of the explicit flows.** Two runs of a straight-line program that start with the
same values wherever `m` is not, and access the same addresses: a location whose values differ
afterwards carries `m` in the taint the tool computes, along either run. -/
theorem explicit_flows_sound {program : List Instr} (hcov : ∀ i ∈ program, i.covered = true)
    (hsame : SameAccesses U program s₁ s₂) {n : ℕ} {st : TaintState 32} (hst : st.WidthOk n)
    (h : ∀ l : Location, m ∉ l.marks st.taint → l.SameValue s₁ s₂) :
    ∃ st₁ st₂, execute st (trace U program s₁) = some st₁ ∧
      execute st (trace U program s₂) = some st₂ ∧
      ∀ l : Location, ¬ l.SameValue (runProgram U s₁ program) (runProgram U s₂ program) →
        m ∈ l.marks st₁.taint ∧ m ∈ l.marks st₂.taint := by
  have hag : Agree m st.taint s₁ s₂ := h
  obtain ⟨st₁, h₁, -, hag₁⟩ := trace_agree hcov hsame hst hag
  obtain ⟨st₂, h₂, -, hag₂⟩ := trace_agree hcov hsame.symm hst hag.symm
  refine ⟨st₁, st₂, h₁, h₂, fun l hl => ⟨?_, ?_⟩⟩
  · by_contra hm
    exact hl (hag₁ l hm)
  · by_contra hm
    exact hl (hag₂.symm l hm)

end

/-- The states of the example that follows: they differ in `EBX`. -/
def differing (ebx : ADDRINT 32) : MachineState :=
  ⟨fun r => if r = .EBX then ebx else 0x1000, ⟨false, false, false, false, false, false⟩, fun _ => 0⟩

/-- `EBX` carries the mark 0. -/
def tainted : TaintState 32 :=
  { TaintState.initial 2 with regTaintMap := fun r => if r = .EBX then some ⟨[1], 2⟩ else none }

/-- `ADD EAX, EBX; PUSH EAX`. -/
def addPush : List Instr := [.alu .ADD (.reg .EAX) (.reg .EBX), .push (.reg .EAX)]

theorem explicit_flows_sound_addPush :
    ∃ st₁ st₂,
      execute tainted (trace (fun _ _ _ => false) addPush (differing 1)) = some st₁ ∧
      execute tainted (trace (fun _ _ _ => false) addPush (differing 2)) = some st₂ ∧
      ∀ l : Location,
        ¬ l.SameValue (runProgram (fun _ _ _ => false) (differing 1) addPush)
          (runProgram (fun _ _ _ => false) (differing 2) addPush) →
        0 ∈ l.marks st₁.taint ∧ 0 ∈ l.marks st₂.taint := by
  have hst : tainted.WidthOk 2 := by
    refine (TaintState.initial_ok 2).setReg fun r s hs => ?_
    split at hs
    · cases hs; exact Bitset.single_ok
    · cases hs
  have hpush : ∀ v, (Instr.push (.reg .EAX)).accesses ((Instr.alu .ADD (.reg .EAX) (.reg .EBX)).exec
      (fun _ _ _ => false) (differing v)) = [0xffc] := by
    intro v
    simp [Instr.accesses, Instr.readOperand, Instr.writeOperand, InsOperand.memory?, stackPush,
      MemoryOperand.effectiveAddress, MachineState.optReg, Instr.exec, AluOp.assign, AluOp.writes,
      InsOperand.write, MachineState.setReg, differing]
  have hsame : SameAccesses (fun _ _ _ => false) addPush (differing 1) (differing 2) := by
    refine ⟨rfl, nofun, ?_⟩
    rw [SameAccesses, hpush, hpush]
    exact ⟨rfl, by simp, trivial⟩
  refine explicit_flows_sound (by decide) hsame hst ?_
  intro l hl
  cases l with
  | reg r =>
    by_cases hr : r = .EBX
    · subst hr
      have hzero : 0 ∈ Bitset.marks ⟨[1], 2⟩ := by
        rw [(Bitset.single_spec (by decide) (by decide)).2]
        rfl
      exact absurd hzero hl
    · simp [Location.SameValue, differing, hr]
  | eflags => rfl
  | byte a => rfl

end

end Dytan
