import Dytan.Instrument.Exactness
import Dytan.Taint.Clear

/-!
# Conditional moves

`cmovCondition`: the condition of each conditional move in the dispatch table, on the bits of
`EFLAGS`. The check functions mask `EFLAGS` with `CF_MASK .. OF_MASK` and compare the result with
`0`, with `1` or with each other; `checkCMOV_bits` says which bits they really test: `CF_MASK` is
bit 1, and no masked value is `1`.

`cmov_transfers_iff`: on which flags, destinations and memory ranges the inserted calls transfer the
marks of the source exactly under the condition, and on which flags one move of a complementary pair
transfers.
-/

namespace Dytan

open Insertion TaintState

variable {w : Nat}

/-! ## The flags -/

section
variable (eflags : ADDRINT w)

def flagCF : Bool := eflags.getLsbD 0
def flagZF : Bool := eflags.getLsbD 6
def flagSF : Bool := eflags.getLsbD 7
def flagOF : Bool := eflags.getLsbD 11

/-- Bit 1, which `CF_MASK` selects. -/
def reserved : Bool := eflags.getLsbD 1

end

/-- The condition under which a conditional move of the dispatch table moves. -/
def cmovCondition : XED_ICLASS → Option (ADDRINT w → Bool)
  | .CMOVB => some fun v => flagCF v
  | .CMOVNB => some fun v => !flagCF v
  | .CMOVZ => some fun v => flagZF v
  | .CMOVNZ => some fun v => !flagZF v
  | .CMOVBE => some fun v => flagCF v || flagZF v
  | .CMOVNBE => some fun v => !(flagCF v || flagZF v)
  | .CMOVS => some fun v => flagSF v
  | .CMOVNS => some fun v => !flagSF v
  | .CMOVL => some fun v => flagSF v != flagOF v
  | .CMOVNL => some fun v => flagSF v == flagOF v
  | .CMOVLE => some fun v => flagZF v || flagSF v != flagOF v
  | .CMOVNLE => some fun v => !flagZF v && flagSF v == flagOF v
  | _ => none

/-- The move with the opposite condition. -/
def cmovComplement : XED_ICLASS → Option XED_ICLASS
  | .CMOVB => some .CMOVNB
  | .CMOVZ => some .CMOVNZ
  | .CMOVBE => some .CMOVNBE
  | .CMOVS => some .CMOVNS
  | .CMOVL => some .CMOVNL
  | .CMOVLE => some .CMOVNLE
  | _ => none

/-- The flags on which the check of a move agrees with its condition. -/
def checkRight : XED_ICLASS → ADDRINT w → Bool
  | .CMOVB, v => !flagCF v
  | .CMOVNB, v => reserved v == flagCF v
  | .CMOVZ, v => !flagZF v
  | .CMOVBE, v => !flagCF v && !flagZF v
  | .CMOVNBE, v => flagZF v || reserved v == flagCF v
  | .CMOVS, v => !flagSF v
  | .CMOVL, v | .CMOVNL, v => !(flagSF v && flagOF v)
  | .CMOVLE, v => flagSF v != flagOF v || flagZF v == flagSF v
  | .CMOVNLE, v => flagZF v || !flagOF v
  | _, _ => true

/-- The flags on which the check of one move of a pair passes and that of the other does not. -/
def pairRight : XED_ICLASS → ADDRINT w → Bool
  | .CMOVB, v => !reserved v
  | .CMOVZ, v => !flagZF v
  | .CMOVBE, v => !reserved v && !flagZF v
  | .CMOVS, v => !flagSF v
  | .CMOVLE, v => flagSF v || flagOF v == flagZF v
  | _, _ => true

section
variable {v : ADDRINT w} {k l : Nat}

theorem and_mask (v : ADDRINT w) (k : Nat) :
    v &&& 1#w <<< k = if v.getLsbD k then 1#w <<< k else 0#w := BitVec.and_twoPow v k

theorem toNat_mask (h : k < w) : (1#w <<< k).toNat = 2 ^ k :=
  BitVec.toNat_twoPow_of_lt h

theorem mask_ne_zero (h : k < w) : 1#w <<< k ≠ 0#w := by
  intro he
  have := congrArg BitVec.toNat he
  rw [toNat_mask h] at this
  simp at this

theorem mask_eq_zero (h : k < w) : (v &&& 1#w <<< k == 0#w) = !v.getLsbD k := by
  rw [and_mask]
  cases v.getLsbD k <;> simp [mask_ne_zero h]

/-- A mask other than that of bit 0 is not `1`, and neither is what it selects. -/
theorem mask_ne_one (hk : 0 < k) (h : k < w) : (v &&& 1#w <<< k == 1#w) = false := by
  have hone : (1#w).toNat = 2 ^ 0 := by
    rw [BitVec.toNat_ofNat]
    exact Nat.mod_eq_of_lt (Nat.one_lt_two_pow (by omega))
  have hne : 1#w <<< k ≠ 1#w := by
    intro he
    have := congrArg BitVec.toNat he
    rw [toNat_mask h, hone] at this
    exact absurd (Nat.pow_right_injective le_rfl this) (by omega)
  have hzero : 0#w ≠ 1#w := by
    intro he
    have := congrArg BitVec.toNat he
    rw [hone] at this
    simp at this
  rw [and_mask]
  cases v.getLsbD k <;> simp [hne, hzero]

/-- What two masks select is equal only when neither bit is set. -/
theorem masks_eq (hkl : k ≠ l) (hk : k < w) (hl : l < w) :
    (v &&& 1#w <<< k == v &&& 1#w <<< l) = (!v.getLsbD k && !v.getLsbD l) := by
  have hne : 1#w <<< k ≠ 1#w <<< l := by
    intro he
    have := congrArg BitVec.toNat he
    rw [toNat_mask hk, toNat_mask hl] at this
    exact hkl (Nat.pow_right_injective le_rfl this)
  rw [and_mask, and_mask]
  cases v.getLsbD k <;> cases v.getLsbD l <;> simp [hne, mask_ne_zero hk, (mask_ne_zero hl).symm]

/-- What each check function tests. -/
theorem checkCMOV_bits (hw : 12 ≤ w) (v : ADDRINT w) :
    checkCMOVB v = false ∧ checkCMOVNB v = !reserved v ∧
    checkCMOVZ v = false ∧ checkCMOVNZ v = !flagZF v ∧
    checkCMOVBE v = false ∧ checkCMOVNBE v = (!reserved v && !flagZF v) ∧
    checkCMOVS v = false ∧ checkCMOVNS v = !flagSF v ∧
    checkCMOVL v = (flagSF v || flagOF v) ∧ checkCMOVNL v = (!flagSF v && !flagOF v) ∧
    checkCMOVLE v = (flagSF v || flagOF v) ∧ checkCMOVNLE v = (!flagZF v && !flagSF v) := by
  have hcf := mask_eq_zero (v := v) (k := 1) (by omega)
  have hzf := mask_eq_zero (v := v) (k := 6) (by omega)
  have hsf := mask_eq_zero (v := v) (k := 7) (by omega)
  have hcf1 := mask_ne_one (v := v) (k := 1) (by omega) (by omega)
  have hzf1 := mask_ne_one (v := v) (k := 6) (by omega) (by omega)
  have hsf1 := mask_ne_one (v := v) (k := 7) (by omega) (by omega)
  have hso := masks_eq (v := v) (k := 7) (l := 11) (by omega) (by omega) (by omega)
  simp only [checkCMOVB, checkCMOVNB, checkCMOVZ, checkCMOVNZ, checkCMOVBE, checkCMOVNBE, checkCMOVS,
    checkCMOVNS, checkCMOVL, checkCMOVNL, checkCMOVLE, checkCMOVNLE, CF_MASK, ZF_MASK, SF_MASK,
    OF_MASK, bne, hcf, hzf, hsf, hcf1, hzf1, hsf1, hso, reserved, flagZF, flagSF, flagOF]
  simp

/-- A check agrees with its condition exactly on the flags of `checkRight`. -/
theorem check_eq_iff (hw : 12 ≤ w) {op : XED_ICLASS} {cc check : ADDRINT w → Bool}
    (hcc : cmovCondition op = some cc) (hcheck : checkCMOV op = some check) (v : ADDRINT w) :
    check v = cc v ↔ checkRight op v = true := by
  obtain ⟨hb, hnb, hz, hnz, hbe, hnbe, hs, hns, hl, hnl, hle, hnle⟩ := checkCMOV_bits hw v
  cases op <;> cases hcc <;> cases hcheck <;> simp only [*, checkRight] <;>
    cases flagCF v <;> cases flagZF v <;> cases flagSF v <;> cases flagOF v <;>
    cases reserved v <;> decide

/-- Of a complementary pair exactly one check passes exactly on the flags of `pairRight`. -/
theorem pair_iff (hw : 12 ≤ w) {op op' : XED_ICLASS} {check check' : ADDRINT w → Bool}
    (hpair : cmovComplement op = some op') (hcheck : checkCMOV op = some check)
    (hcheck' : checkCMOV op' = some check') (v : ADDRINT w) :
    (check v != check' v) = true ↔ pairRight op v = true := by
  obtain ⟨hb, hnb, hz, hnz, hbe, hnbe, hs, hns, hl, hnl, hle, hnle⟩ := checkCMOV_bits hw v
  cases op <;> cases hpair <;> cases hcheck <;> cases hcheck' <;> simp only [*, pairRight] <;>
    cases flagZF v <;> cases flagSF v <;> cases flagOF v <;> cases reserved v <;> decide

theorem checkCMOV_isSome {op : XED_ICLASS} {cc : ADDRINT w → Bool}
    (h : cmovCondition op = some cc) : ∃ check : ADDRINT w → Bool, checkCMOV op = some check := by
  cases op <;> cases h <;> exact ⟨_, rfl⟩

end

/-! ## The transfer -/

/-- A conditional move of the dispatch table between a register and a register or memory. -/
structure IsCmov (ins : INS) (cc : ADDRINT w → Bool) : Prop where
  condition : cmovCondition ins.opcode = some cc
  dest : ins.operandIsReg 0 = true
  source : ins.operandIsReg 1 = true ∨ ins.operandIsMemory 1 = true ∧ ins.isMemoryRead = true

/-- From every state the destination takes the marks of the source and the control taint if `cc`
holds of `EFLAGS`, and the registers stay as they are if it does not. -/
def FollowsCondition (ins : INS) (ctx : Context w) (cc : ADDRINT w → Bool) : Prop :=
  ∀ (n : Nat) (st : TaintState w), st.WidthOk n →
    ∃ st', executeINS st ⟨ins, ctx⟩ = some st' ∧
      if cc (ctx.regValue .EFLAGS) then
        st'.taint.regMarks (ins.operandReg 0) =
          (Source.operand 1).marks ins st.taint ctx.readBytes ∪ st.taint.active ∧
        ∀ r ∉ updatedRegs (ins.operandReg 0), st'.taint.reg r = st.taint.reg r
      else st'.regTaintMap = st.regTaintMap

/-- The source is memory that ends at the last byte. -/
def SourceWraps (ins : INS) (ctx : Context w) : Prop :=
  ins.operandIsMemory 1 = true ∧ RangeWraps ctx.memoryReadEA ctx.memoryReadSize

/-- The registers after the calls: the source loop's marks are assigned if the check passes. -/
noncomputable def cmovRegs (ins : INS) (ctx : Context w) (check : ADDRINT w → Bool) (t : Taint w) :
    REG → Option (Set ℕ) :=
  if check (ctx.regValue .EFLAGS) then
    (t.setReg (ins.operandReg 0) ((Source.operand 1).marks ins t ctx.readVisited)).reg
  else t.reg

section
variable {ins : INS} {ctx : Context w} {cc check : ADDRINT w → Bool} {n : Nat} {st : TaintState w}

theorem cmovRegs_of_passes (h : check (ctx.regValue .EFLAGS) = true) (t : Taint w) :
    cmovRegs ins ctx check t =
      (t.setReg (ins.operandReg 0) ((Source.operand 1).marks ins t ctx.readVisited)).reg := if_pos h

theorem cmovRegs_of_fails (h : ¬ check (ctx.regValue .EFLAGS) = true) (t : Taint w) :
    cmovRegs ins ctx check t = t.reg := if_neg h

theorem cmovRegs_of_stack (h : stackDest ins) (t : Taint w) : cmovRegs ins ctx check t = t.reg := by
  have hdrop : ins.operandReg 0 = .ESP ∨ ins.operandReg 0 = .EBP := h
  rw [cmovRegs, Taint.setReg, if_pos hdrop, ite_self]

/-- The entry of the destination. -/
theorem cmovRegs_dest (h : check (ctx.regValue .EFLAGS) = true) (hstack : ¬ stackDest ins)
    (t : Taint w) : cmovRegs ins ctx check t (ins.operandReg 0) =
      some ((Source.operand 1).marks ins t ctx.readVisited ∪ t.active) := by
  rw [cmovRegs_of_passes h, reg_setReg hstack]
  exact if_pos (mem_updated _)

theorem cmovRegs_other (t : Taint w) {r : REG} (hr : r ∉ updatedRegs (ins.operandReg 0)) :
    cmovRegs ins ctx check t r = t.reg r := by
  by_cases hstack : stackDest ins
  · rw [cmovRegs_of_stack hstack]
  · unfold cmovRegs
    split
    · rw [reg_setReg hstack]
      exact if_neg hr
    · rfl

theorem instrumentCMOVcc_inserts (h : checkCMOV ins.opcode = some check) :
    Inserts (instrumentCMOVcc ins) ([loadCall ins (.src, .operand 1)] ++
      [.ifThen (.regValue check .EFLAGS) (.setTaintForRegister (ins.operandReg 0) [.src])]) := by
  refine (loadRegMem_inserts abort_inserts).bind ?_
  rw [h]
  exact insertCall_inserts

theorem instrumentFunctions_cmov {op : XED_ICLASS} (h : cmovCondition op = some cc) :
    (instrumentFunctions op : INS → Insertion w Unit) = instrumentCMOVcc := by
  cases op <;> cases h <;> rfl

theorem IsCmov.completes (h : IsCmov ins cc) :
    Completes (instrumentCMOVcc ins : Insertion w Unit) := by
  obtain ⟨check, hcheck⟩ := checkCMOV_isSome h.condition
  refine completes_bind.2 ⟨loadRegMem_completes h.source, ?_⟩
  rw [hcheck]
  rfl

theorem IsCmov.execute (h : IsCmov ins cc) (hcheck : checkCMOV ins.opcode = some check)
    (ctx : Context w) (hst : st.WidthOk n) :
    ∃ st', executeINS st ⟨ins, ctx⟩ = some st' ∧ st'.WidthOk n ∧
      st'.taint.reg = cmovRegs ins ctx check st.taint := by
  have hflow : (dataflow ins : Insertion w Unit) = instrumentCMOVcc ins := by
    rw [dataflow, instrumentFunctions_cmov h.condition]
  obtain ⟨st', hst', hok, htaint⟩ := executeINS_inserts ctx
    (hflow ▸ instrumentCMOVcc_inserts hcheck) (hflow ▸ h.completes) hst
  refine ⟨st', hst', hok, ?_⟩
  rw [htaint, List.singleton_append, stepCalls_cons, step_loadOperand, stepCalls_cons, stepCalls_nil]
  by_cases hpass : check (ctx.regValue .EFLAGS) = true
  · have hholds : (IfCall.regValue check .EFLAGS).holds ctx = true := hpass
    rw [cmovRegs_of_passes hpass, step_ifThen_pos hholds, Call.step, load_scratchMarks,
      load_setReg_reg]
  · have hholds : ¬ (IfCall.regValue check .EFLAGS).holds ctx = true := hpass
    rw [cmovRegs_of_fails hpass, step_ifThen_neg hholds, Taint.load_reg]

theorem IsCmov.sourceMarks (h : ¬ SourceWraps ins ctx) (t : Taint w) :
    (Source.operand 1).marks ins t ctx.readVisited =
      (Source.operand 1).marks ins t ctx.readBytes := by
  cases hm : ins.operandIsMemory 1 with
  | true => rw [readVisited_eq fun hw => h ⟨hm, hw⟩]
  | false => exact marks_of_not_readsMemory hm

/-- The conditions under which the calls follow the condition of the move. -/
def CmovRight (ins : INS) (ctx : Context w) (cc : ADDRINT w → Bool) : Prop :=
  if cc (ctx.regValue .EFLAGS) then
    checkRight ins.opcode (ctx.regValue .EFLAGS) = true ∧ ¬ stackDest ins ∧ ¬ SourceWraps ins ctx
  else checkRight ins.opcode (ctx.regValue .EFLAGS) = true ∨ stackDest ins

/-- Where the conditions hold the calls do what the condition says. -/
theorem IsCmov.follows (hw : 12 ≤ w) (h : IsCmov ins cc) (hright : CmovRight ins ctx cc) :
    FollowsCondition ins ctx cc := by
  intro n st hst
  obtain ⟨check, hcheck⟩ := checkCMOV_isSome h.condition
  obtain ⟨st', hexec, hok, hreg⟩ := h.execute hcheck ctx hst
  have hagree := check_eq_iff hw h.condition hcheck (ctx.regValue .EFLAGS)
  refine ⟨st', hexec, ?_⟩
  unfold CmovRight at hright
  by_cases hcc : cc (ctx.regValue .EFLAGS) = true
  · rw [if_pos hcc] at hright ⊢
    obtain ⟨hr, hstack, hwrap⟩ := hright
    have hpass : check (ctx.regValue .EFLAGS) = true := (hagree.2 hr).trans hcc
    refine ⟨?_, fun r hr => ?_⟩
    · rw [Taint.regMarks, hreg, cmovRegs_dest hpass hstack, IsCmov.sourceMarks hwrap,
        Option.getD_some]
    · rw [hreg, cmovRegs_other _ hr]
  · rw [if_neg hcc] at hright ⊢
    refine (hok.ext_taint hst).1 (hreg.trans ?_)
    rcases hright with hr | hstack
    · exact cmovRegs_of_fails (fun hpass => hcc ((hagree.2 hr).symm.trans hpass)) _
    · exact cmovRegs_of_stack hstack _

/-- What following the condition says of the registers after the calls. -/
theorem IsCmov.of_follows (h : IsCmov ins cc) (hcheck : checkCMOV ins.opcode = some check)
    (hfollows : FollowsCondition ins ctx cc) (hst : st.WidthOk n) :
    if cc (ctx.regValue .EFLAGS) then
      (cmovRegs ins ctx check st.taint (ins.operandReg 0)).getD ∅ =
        (Source.operand 1).marks ins st.taint ctx.readBytes ∪ st.taint.active
    else cmovRegs ins ctx check st.taint = st.taint.reg := by
  obtain ⟨st', hexec, hpost⟩ := hfollows n st hst
  obtain ⟨st₁, hexec₁, -, hreg⟩ := h.execute hcheck ctx hst
  obtain rfl := Option.some.inj (hexec.symm.trans hexec₁)
  by_cases hcc : cc (ctx.regValue .EFLAGS) = true
  · rw [if_pos hcc] at hpost ⊢
    rw [← hpost.1, Taint.regMarks, hreg]
  · rw [if_neg hcc] at hpost ⊢
    rw [← hreg]
    funext r
    rw [taint_reg, taint_reg, hpost]

/-- Where they do not hold the calls go wrong on one of two states: the memory the source reads is
tainted, or a branch is. -/
theorem IsCmov.not_follows (hw : 12 ≤ w) (h : IsCmov ins cc) (hright : ¬ CmovRight ins ctx cc) :
    ¬ FollowsCondition ins ctx cc := by
  intro hfollows
  obtain ⟨check, hcheck⟩ := checkCMOV_isSome h.condition
  have hagree := check_eq_iff hw h.condition hcheck (ctx.regValue .EFLAGS)
  unfold CmovRight at hright
  by_cases hcc : cc (ctx.regValue .EFLAGS) = true
  · rw [if_pos hcc] at hright
    by_cases hmoved : checkRight ins.opcode (ctx.regValue .EFLAGS) = true ∧ ¬ stackDest ins
    · -- the bytes of the source are not loaded
      have hwrap : SourceWraps ins ctx := by
        by_contra hn
        exact hright ⟨hmoved.1, hmoved.2, hn⟩
      obtain ⟨st, hst⟩ := exists_marked ∅ (Set.univ : Set (ADDRINT w)) false
      have hpost := h.of_follows hcheck hfollows hst.ok
      have hnone : ∀ r, st.taint.addressMarks r = ∅ :=
        fun r => hst.addressMarks (Set.notMem_empty r)
      rw [if_pos hcc, cmovRegs_dest ((hagree.2 hmoved.1).trans hcc) hmoved.2,
        readVisited_wraps hwrap.2, Option.getD_some, hst.active] at hpost
      simp only [Source.marks, INS.kind_of_memory hwrap.1, hnone, Set.union_empty,
        Bool.false_eq_true, if_false] at hpost
      have hzero : (0 : ℕ) ∈ {m | ∃ a ∈ ctx.readBytes, m ∈ st.taint.memMarks a} :=
        ⟨ctx.memoryReadEA, start_mem_bytesAt hwrap.2.1, by simp [hst.memMarks]⟩
      rw [← hpost] at hzero
      simp at hzero
    · -- nothing is assigned, not even the control taint
      obtain ⟨st, hst⟩ := exists_marked ∅ (∅ : Set (ADDRINT w)) true
      have hpost := h.of_follows hcheck hfollows hst.ok
      have hsame : cmovRegs ins ctx check st.taint = st.taint.reg := by
        by_cases hr : checkRight ins.opcode (ctx.regValue .EFLAGS) = true
        · refine cmovRegs_of_stack ?_ _
          by_contra hn
          exact hmoved ⟨hr, hn⟩
        · exact cmovRegs_of_fails (fun hpass => hr (hagree.1 (hpass.trans hcc.symm))) _
      rw [if_pos hcc, hsame, hst.reg, hst.active] at hpost
      have hzero : (0 : ℕ) ∈ (Source.operand 1).marks ins st.taint ctx.readBytes ∪ {0} := .inr rfl
      simp only [Set.mem_empty_iff_false, if_false, Option.getD_none, if_true] at hpost
      rw [← hpost] at hzero
      exact hzero
  · -- the destination gets an entry
    rw [if_neg hcc, not_or] at hright
    obtain ⟨st, hst⟩ := exists_marked ∅ (∅ : Set (ADDRINT w)) false
    have hpost := h.of_follows hcheck hfollows hst.ok
    have hpass : check (ctx.regValue .EFLAGS) = true := by
      by_contra hn
      rw [Bool.not_eq_true] at hn hcc
      exact hright.1 (hagree.1 (hn.trans hcc.symm))
    rw [if_neg hcc] at hpost
    have hentry := congrFun hpost (ins.operandReg 0)
    rw [cmovRegs_dest hpass hright.2, hst.reg] at hentry
    simp at hentry

end

/-- The inserted calls of a conditional move follow its condition exactly under `CmovRight`; exactly
one of two complementary moves transfers exactly on the flags of `pairRight`. -/
theorem cmov_transfers_iff (hw : 12 ≤ w) :
    (∀ (ins : INS) (ctx : Context w) (cc : ADDRINT w → Bool), IsCmov ins cc →
      (FollowsCondition ins ctx cc ↔ CmovRight ins ctx cc)) ∧
    ∀ (op op' : XED_ICLASS) (check check' : ADDRINT w → Bool), cmovComplement op = some op' →
      checkCMOV op = some check → checkCMOV op' = some check' →
      ∀ v, (check v != check' v) = true ↔ pairRight op v = true := by
  refine ⟨fun ins ctx cc h => ⟨fun hf => ?_, h.follows hw⟩,
    fun op op' check check' hpair hcheck hcheck' v => pair_iff hw hpair hcheck hcheck' v⟩
  by_contra hn
  exact h.not_follows hw hn hf

theorem cmov_transfers_iff_32 :
    (∀ (ins : INS) (ctx : Context 32) (cc : ADDRINT 32 → Bool), IsCmov ins cc →
      (FollowsCondition ins ctx cc ↔ CmovRight ins ctx cc)) ∧
    ∀ (op op' : XED_ICLASS) (check check' : ADDRINT 32 → Bool), cmovComplement op = some op' →
      checkCMOV op = some check → checkCMOV op' = some check' →
      ∀ v, (check v != check' v) = true ↔ pairRight op v = true :=
  cmov_transfers_iff (by decide)

/-- `CMOVZ EAX, EBX` with the zero flag set. -/
def cmovz : INS :=
  ⟨.CMOVZ, [⟨.reg .EAX, false, 32⟩, ⟨.reg .EBX, false, 32⟩], false, false, false, false, false, ""⟩

theorem cmovz_isCmov : IsCmov (w := 32) cmovz fun v => flagZF v := ⟨rfl, rfl, .inl rfl⟩

/-- The taken move loses the marks. -/
theorem taken_CMOVZ_not_transferred :
    ¬ ∀ (ins : INS) (ctx : Context 32) (cc : ADDRINT 32 → Bool), IsCmov ins cc →
      FollowsCondition ins ctx cc := by
  intro h
  let ctx : Context 32 := ⟨0, 0, 0, 0, 0, fun _ => 0x40, fun _ => 0⟩
  have hright : ¬ CmovRight cmovz ctx fun v => flagZF v := by
    intro hr
    rw [CmovRight, if_pos (by decide)] at hr
    exact absurd hr.1 (by decide)
  exact cmovz_isCmov.not_follows (by decide) hright (h cmovz ctx _ cmovz_isCmov)

end Dytan
