import Dytan.Instrument.Loads
import Dytan.Instrument.Cmpxchg

/-!
# Address taint on stores

With `IMPLICIT` a store to memory takes the marks of the operand's base and index register. Most
handlers get them with the load of the same operand (`loadsOperand`), some load the two registers
(`loadsAddress`); `Instrument_XCHG` and `Instrument_CMPXCHG` store only what they loaded from the
other operand (`exchanges`).

`address_taint_iff`: the states in which the bytes stored have the marks of the address.
-/

namespace Dytan

open Insertion TaintState

variable {w : Nat}

/-- The handler loads operand 0 and stores to it what it loaded. -/
def loadsOperand (op : XED_ICLASS) : Bool :=
  op ∈ [.ADD, .AND, .OR, .SUB, .PSUBB, .ADC, .SBB, .XOR, .SHL, .SHR, .SAR, .SHLD, .SHRD, .XADD]

/-- The handler loads the base and the index register of operand 0. -/
def loadsAddress (op : XED_ICLASS) : Bool :=
  op ∈ [.MOV, .MOVZX, .MOVSX, .MOVAPS, .MOVD, .MOVDQA, .MOVDQU, .MOVHPD, .MOVLPD, .MOVQ, .MOVSD_XMM,
    .POP, .SETB, .SETNB, .SETZ, .SETNZ, .SETBE, .SETNBE, .SETS, .SETL, .SETNL, .SETLE, .SETNLE]

/-- The handler stores what it loaded from the other operand. -/
def exchanges (op : XED_ICLASS) : Bool := op ∈ [.XCHG, .CMPXCHG]

/-- An instruction that stores to its memory operand `k`, the handler of which runs to its end. A
compare and exchange stores when the comparison succeeds. -/
structure IsStore (ins : INS) (ctx : Context w) (k : Nat) : Prop where
  opcode : loadsOperand ins.opcode = true ∨ loadsAddress ins.opcode = true ∨
    exchanges ins.opcode = true
  operand : k = 0 ∨ k = 1 ∧ ins.opcode = .XCHG
  memory : ins.operandIsMemory k = true
  register : ins.opcode ∈ [.XADD, .XCHG, .CMPXCHG] → ins.operandIsReg (1 - k) = true
  completes : Completes (dataflow ins : Insertion w Unit)
  written : ctx.memoryWriteSize ≠ 0
  performed : ins.opcode = .CMPXCHG →
    (IfCall.memoryRead checkEqualMR (ins.operandReg 2)).holds ctx = true

section
variable (ins : INS) (ctx : Context w) (k : Nat)

/-- The marks of the base and the index register of operand `k`. -/
def operandAddress (t : Taint w) : Set ℕ :=
  t.addressMarks (ins.operandMemoryBaseReg k) ∪ t.addressMarks (ins.operandMemoryIndexReg k)

/-- Each byte written has the marks of the address. -/
def AddressLaw (t t' : Taint w) : Prop :=
  ∀ a ∈ ctx.writeBytes, operandAddress ins k t ⊆ t'.memMarks a

/-- The states in which the stores give the bytes the marks of the address: an exchange only if they
are among those of the register stored or of the active branches. Bytes at the end of memory are
not written and must have them already. -/
def AddressRight (t : Taint w) : Prop :=
  if RangeWraps ctx.memoryWriteEA ctx.memoryWriteSize then
    ∀ a ∈ ctx.writeBytes, operandAddress ins k t ⊆ t.memMarks a
  else exchanges ins.opcode = true →
    operandAddress ins k t ⊆ t.regMarks (ins.operandReg (1 - k)) ∪ t.active

end

/-! ## Loads, then a store among assignments to registers -/

section
variable {ins : INS} {ctx : Context w} {k n : Nat} {st : TaintState w} {t : Taint w}
  {loads : List (Scratch × Load)} {args : List Scratch}

/-- The call assigns to registers only. -/
def Call.RegisterOnly (ctx : Context w) (c : Call w) : Prop :=
  ∀ t, (c.step ctx t).mem = t.mem ∧ (c.step ctx t).control = t.control ∧
    (c.step ctx t).scratch = t.scratch

theorem setTaintForRegister_registerOnly (d : REG) (args : List Scratch) :
    (Call.setTaintForRegister d args : Call w).RegisterOnly ctx :=
  fun _ => ⟨Taint.setReg_mem .., Taint.setReg_control .., Taint.setReg_scratch ..⟩

theorem Call.RegisterOnly.ifThen {c : Call w} (h : c.RegisterOnly ctx) (check : IfCall w) :
    (Call.ifThen check c).RegisterOnly ctx := by
  intro t
  by_cases hc : check.holds ctx = true
  · rw [step_ifThen_pos hc]
    exact h t
  · rw [step_ifThen_neg hc]
    exact ⟨rfl, rfl, rfl⟩

theorem stepCalls_registerOnly {calls : List (Call w)} (h : ∀ c ∈ calls, c.RegisterOnly ctx)
    (t : Taint w) : (stepCalls ctx t calls).mem = t.mem ∧
      (stepCalls ctx t calls).control = t.control ∧ (stepCalls ctx t calls).scratch = t.scratch := by
  induction calls generalizing t with
  | nil => exact ⟨rfl, rfl, rfl⟩
  | cons c calls ih =>
    obtain ⟨h1, h2, h3⟩ := ih (fun c' hc' => h c' (by simp [hc'])) (c.step ctx t)
    obtain ⟨h1', h2', h3'⟩ := h c (by simp) t
    exact ⟨h1.trans h1', h2.trans h2', h3.trans h3'⟩

/-- The handler loads, and then stores from the scratch sets `args`, before and after assignments to
registers. -/
structure StoresFrom (ins : INS) (ctx : Context w) (loads : List (Scratch × Load))
    (args : List Scratch) : Prop where
  nodup : (loads.map Prod.fst).Nodup
  loaded : args ⊆ loads.map Prod.fst
  inserts : ∃ (store : Call w) (before after : List (Call w)),
    (∀ t, store.step ctx t = t.setMem ctx.writeRange (t.scratchMarks args)) ∧
    (∀ c ∈ before, c.RegisterOnly ctx) ∧ (∀ c ∈ after, c.RegisterOnly ctx) ∧
    Inserts (dataflow ins) (loadCalls loads ++ before ++ store :: after)

/-- The marks a load list puts into `args`. -/
def loadedMarks (ctx : Context w) (t : Taint w) (loads : List (Scratch × Load))
    (args : List Scratch) : Set ℕ :=
  {m | ∃ l ∈ loads, l.1 ∈ args ∧ m ∈ l.2.marks ctx t}

theorem StoresFrom.execute (h : StoresFrom ins ctx loads args)
    (hc : Completes (dataflow ins : Insertion w Unit)) (hst : st.WidthOk n) :
    ∃ st', executeINS st ⟨ins, ctx⟩ = some st' ∧ ∀ a, st'.taint.memMarks a =
      if a ∈ ctx.writeRange then loadedMarks ctx st.taint loads args ∪ st.taint.active
      else st.taint.memMarks a := by
  obtain ⟨store, before, after, hstore, hbefore, hafter, hins⟩ := h.inserts
  obtain ⟨st', hst', -, htaint⟩ := executeINS_inserts ctx hins hc hst
  have hload := LoadedInto.of_loads ctx st.taint h.nodup h.loaded
  refine ⟨st', hst', fun a => ?_⟩
  rw [List.append_assoc, stepCalls_append, stepCalls_append, stepCalls_cons, hstore] at htaint
  obtain ⟨hmem, hctl, hscr⟩ :=
    stepCalls_registerOnly hbefore (stepCalls ctx st.taint (loadCalls loads))
  have hargs : (stepCalls ctx (stepCalls ctx st.taint (loadCalls loads)) before).scratchMarks args =
      loadedMarks ctx st.taint loads args := by
    rw [Taint.scratchMarks, hscr]
    exact hload.marks
  rw [htaint, Taint.memMarks, (stepCalls_registerOnly hafter _).1, hargs, Taint.setMem,
    active_congr (hctl.trans hload.control), hmem, hload.mem, Taint.memMarks]
  dsimp only
  split <;> rfl

/-- A form that stores to operand `k`. -/
theorem StoresFrom.of_form {f : Form} {before after : List (Destination × List Scratch)}
    (hmem : ins.operandIsMemory k = true) (hins : Inserts (dataflow ins : Insertion w Unit) (f.calls ins))
    (hsets : f.sets = before ++ (.operand k, args) :: after)
    (hregs : ∀ s ∈ before ++ after, s.1.memory ins = false)
    (hnodup : (f.loads.map Prod.fst).Nodup) (hargs : args ⊆ f.loads.map Prod.fst) :
    StoresFrom ins ctx (f.loadsOf ins) args := by
  have hfst : (f.loadsOf ins).map Prod.fst = f.loads.map Prod.fst := by
    rw [Form.loadsOf, List.map_map]
    rfl
  have honly : ∀ s ∈ before ++ after, (setCall ins s : Call w).RegisterOnly ctx := by
    rintro ⟨d, args'⟩ hs
    have hd := hregs _ hs
    cases d with
    | eflags => exact setTaintForRegister_registerOnly _ _
    | operand j =>
      have hj : ins.operandIsReg j = true := by simpa [Destination.memory] using hd
      simp only [setCall, INS.kind_of_reg hj]
      exact setTaintForRegister_registerOnly _ _
  refine ⟨hfst ▸ hnodup, hfst ▸ hargs, setCall ins (.operand k, args), before.map (setCall ins),
    after.map (setCall ins), fun t => ?_, fun c hc => ?_, fun c hc => ?_, ?_⟩
  · simp only [setCall, INS.kind_of_memory hmem]
    rfl
  · obtain ⟨s, hs, rfl⟩ := List.mem_map.1 hc
    exact honly s (by simp [hs])
  · obtain ⟨s, hs, rfl⟩ := List.mem_map.1 hc
    exact honly s (by simp [hs])
  · rw [Form.calls_eq, hsets] at hins
    rw [List.append_assoc]
    simpa only [List.map_append, List.map_cons] using hins

/-! ## The handlers -/

/-- The handler stores what it loaded of the operand stored to. -/
theorem loadedMarks_operand {set : Scratch} (hload : (set, (Source.operand k).load ins) ∈ loads)
    (hargs : set ∈ args) (hmem : ins.operandIsMemory k = true) (t : Taint w) :
    operandAddress ins k t ⊆ loadedMarks ctx t loads args := by
  have hkind : (Source.operand k).load ins = .memory .MEMORYREAD (ins.operandMemoryBaseReg k)
      (ins.operandMemoryIndexReg k) := by
    simp only [Source.load, INS.kind_of_memory hmem]
  rw [hkind] at hload
  rintro m (hm | hm)
  · exact ⟨_, hload, hargs, .inl (.inr hm)⟩
  · exact ⟨_, hload, hargs, .inr hm⟩

theorem addressMarks_subset (t : Taint w) (r : REG) : t.addressMarks r ⊆ t.regMarks r := by
  unfold Taint.addressMarks
  split
  · exact subset_rfl
  · exact Set.empty_subset _

/-- The handler stores the two registers of the address. -/
theorem loadedMarks_address (hbase : (.base, .register (ins.operandMemoryBaseReg k)) ∈ loads)
    (hindex : (.idx, .register (ins.operandMemoryIndexReg k)) ∈ loads)
    (hargs : .base ∈ args ∧ .idx ∈ args) (t : Taint w) :
    operandAddress ins k t ⊆ loadedMarks ctx t loads args := by
  rintro m (hm | hm)
  · exact ⟨_, hbase, hargs.1, addressMarks_subset t _ hm⟩
  · exact ⟨_, hindex, hargs.2, addressMarks_subset t _ hm⟩

/-- What a store gives the bytes: the marks of the address, or of the register exchanged. -/
def StoresRight (ins : INS) (ctx : Context w) (k : Nat) (loads : List (Scratch × Load))
    (args : List Scratch) : Prop :=
  ∀ t : Taint w, if exchanges ins.opcode then
      loadedMarks ctx t loads args = t.regMarks (ins.operandReg (1 - k))
    else operandAddress ins k t ⊆ loadedMarks ctx t loads args

theorem notReg_of_memory (h : ins.operandIsMemory 0 = true) : ¬ sameRegister ins = true := by
  simp [sameRegister, INS.isReg_of_memory h]

/-- A form that loads operand 0 into `dest` and stores it with the rest. -/
theorem IsStore.of_form (h : IsStore ins ctx 0) (hop : exchanges ins.opcode = false)
    {others : List (Scratch × Source)} {args : List Scratch}
    {after : List (Destination × List Scratch)}
    (hins : Inserts (dataflow ins : Insertion w Unit)
      (Form.calls ins ⟨(.dest, .operand 0) :: others, (.operand 0, .dest :: args) :: after⟩))
    (hafter : ∀ s ∈ after, s.1.memory ins = false)
    (hnodup : (.dest :: others.map Prod.fst).Nodup) (hargs : args ⊆ others.map Prod.fst) :
    ∃ loads args, StoresFrom ins ctx loads args ∧ StoresRight ins ctx 0 loads args := by
  have hstores := @StoresFrom.of_form w ins ctx 0 (.dest :: args) _ [] after h.memory hins rfl hafter
    hnodup (List.cons_subset_cons _ hargs)
  refine ⟨_, _, hstores, fun t => ?_⟩
  rw [if_neg (by simp [hop])]
  exact loadedMarks_operand (by simp [Form.loadsOf]) (List.mem_cons_self ..) h.memory t

theorem IsStore.operand_zero (h : IsStore ins ctx k) (hop : ins.opcode ≠ .XCHG) : k = 0 :=
  h.operand.resolve_right fun hk => hop hk.2

/-- What `Instrument_SHLD` loads. -/
def shldLoadsOf (ins : INS) : List (Scratch × Load) :=
  [(.dest, (Source.operand 0).load ins), (.cnt, .register (ins.operandReg 1)),
    (.src, if ins.operandIsReg 2 then .register (ins.operandReg 0) else .nothing)]

theorem shldLoads_eq (ins : INS) : (shldLoads ins : List (Call w)) = loadCalls (shldLoadsOf ins) := by
  simp only [shldLoads, shldLoadsOf, loadCalls_cons, loadCalls_nil, loadCall_eq]
  split <;> rfl

theorem IsStore.of_shld (h : IsStore ins ctx 0) (hexch : exchanges ins.opcode = false)
    (hflow : (dataflow ins : Insertion w Unit) = instrumentSHLD ins) :
    ∃ loads args, StoresFrom ins ctx loads args ∧ StoresRight ins ctx 0 loads args := by
  have hins : Inserts (dataflow ins : Insertion w Unit) (loadCalls (shldLoadsOf ins) ++ shldSets ins) :=
    shldLoads_eq (w := w) ins ▸ hflow ▸ instrumentSHLD_inserts
  refine ⟨shldLoadsOf ins, [.dest, .src, .cnt], ⟨by simp [shldLoadsOf], by simp [shldLoadsOf],
    setCall ins (.operand 0, [.dest, .src, .cnt]), [],
    [.setTaintForRegister .EFLAGS [.dest, .src, .cnt]], fun t => ?_, by simp, ?_, ?_⟩, fun t => ?_⟩
  · simp only [setCall, INS.kind_of_memory h.memory]
    rfl
  · simpa using setTaintForRegister_registerOnly _ _
  · simpa [shldSets] using hins
  · rw [if_neg (by simp [hexch])]
    exact loadedMarks_operand (List.mem_cons_self ..) (List.mem_cons_self ..) h.memory t

theorem IsStore.of_loadsOperand (h : IsStore ins ctx k) (hop : loadsOperand ins.opcode = true) :
    ∃ loads args, StoresFrom ins ctx loads args ∧ StoresRight ins ctx k loads args := by
  have hcases : (ins.opcode = .ADD ∨ ins.opcode = .AND ∨ ins.opcode = .OR ∨ ins.opcode = .SUB ∨
      ins.opcode = .PSUBB) ∨ (ins.opcode = .ADC ∨ ins.opcode = .SBB) ∨ ins.opcode = .XOR ∨
      (ins.opcode = .SHL ∨ ins.opcode = .SHR ∨ ins.opcode = .SAR) ∨
      (ins.opcode = .SHLD ∨ ins.opcode = .SHRD) ∨ ins.opcode = .XADD := by
    simp only [loadsOperand, List.mem_cons, List.not_mem_nil, or_false, decide_eq_true_eq] at hop
    tauto
  obtain rfl : k = 0 := h.operand_zero fun hx => by rw [hx] at hop; cases hop
  have hexch : exchanges ins.opcode = false := by
    rcases hcases with (h | h | h | h | h) | (h | h) | h | (h | h | h) | (h | h) | h <;> rw [h] <;> rfl
  rcases hcases with hadd | hadc | hxor | hshift | hshld | hxadd
  · have hflow : (dataflow ins : Insertion w Unit) = instrumentADD ins := by
      rcases hadd with h | h | h | h | h <;> rw [dataflow, h] <;> rfl
    exact h.of_form hexch (hflow ▸ instrumentADD_inserts) (by simp [Destination.memory])
      (by decide) (by simp)
  · have hflow : (dataflow ins : Insertion w Unit) = instrumentADC ins := by
      rcases hadc with h | h <;> rw [dataflow, h] <;> rfl
    exact h.of_form hexch (hflow ▸ instrumentADC_inserts) (by simp [Destination.memory])
      (by decide) (by simp)
  · have hflow : (dataflow ins : Insertion w Unit) = instrumentXOR ins := by
      rw [dataflow, hxor]
      rfl
    exact h.of_form hexch (hflow ▸ instrumentXOR_inserts (by simpa using notReg_of_memory h.memory))
      (by simp [Destination.memory]) (by decide) (by simp)
  · have hflow : (dataflow ins : Insertion w Unit) = instrumentSAR ins := by
      rcases hshift with h | h | h <;> rw [dataflow, h] <;> rfl
    exact h.of_form hexch (hflow ▸ instrumentSAR_inserts) (by simp [Destination.memory])
      (by decide) (by simp)
  · have hflow : (dataflow ins : Insertion w Unit) = instrumentSHLD ins := by
      rcases hshld with h | h <;> rw [dataflow, h] <;> rfl
    exact h.of_shld hexch hflow
  · have hflow : (dataflow ins : Insertion w Unit) = instrumentXADD ins := by
      rw [dataflow, hxadd]
      rfl
    exact h.of_form hexch (hflow ▸ instrumentXADD_inserts)
      (by simp [Destination.memory, h.register (by simp [hxadd])]) (by decide) (by simp)

/-- A handler that loads `src` and the address, and stores all three. -/
theorem StoresFrom.of_addressLoads (hexch : exchanges ins.opcode = false) {l : Load}
    {args : List Scratch} (hargs : args ⊆ [.src, .base, .idx]) (haddress : .base ∈ args ∧ .idx ∈ args)
    (hins : Inserts (dataflow ins : Insertion w Unit)
      (loadCalls ((.src, l) :: addressLoads ins) ++ [.setTaintForMemory args])) :
    ∃ loads args, StoresFrom ins ctx loads args ∧ StoresRight ins ctx 0 loads args := by
  refine ⟨(.src, l) :: addressLoads ins, args, ⟨by simp [addressLoads], by simpa [addressLoads],
    .setTaintForMemory args, [], [], fun t => rfl, by simp, by simp, by simpa using hins⟩,
    fun t => ?_⟩
  rw [if_neg (by simp [hexch])]
  exact loadedMarks_address (by simp [addressLoads]) (by simp [addressLoads]) haddress t

theorem IsStore.of_loadsAddress (h : IsStore ins ctx k) (hop : loadsAddress ins.opcode = true) :
    ∃ loads args, StoresFrom ins ctx loads args ∧ StoresRight ins ctx k loads args := by
  obtain rfl : k = 0 := h.operand_zero fun hx => by rw [hx] at hop; cases hop
  have hexch : exchanges ins.opcode = false := by
    cases hx : exchanges ins.opcode with
    | false => rfl
    | true =>
      simp only [exchanges, List.mem_cons, List.not_mem_nil, or_false, decide_eq_true_eq] at hx
      rcases hx with hx | hx <;> rw [hx] at hop <;> cases hop
  have hmov : Inserts (instrumentMOV ins : Insertion w Unit)
      (loadCalls ((.src, (Source.operand 1).load ins) :: addressLoads ins) ++
        [.setTaintForMemory [.src, .base, .idx]]) := by
    rw [addressLoads, loadCalls_cons, ← loadCall_eq ins (.src, .operand 1)]
    exact (loadRegMemImm_inserts abort_inserts).bind (setRegMemAddress_inserts h.memory)
  have hpop : Inserts (instrumentPOP ins : Insertion w Unit)
      (loadCalls ((.src, .memory .MEMORYREAD .INVALID .INVALID) :: addressLoads ins) ++
        [.setTaintForMemory [.src, .base, .idx]]) :=
    skip_inserts.bind <| insertCall_inserts.bind (setRegMemAddress_inserts h.memory)
  have hset : Inserts (instrumentSETcc ins : Insertion w Unit)
      (loadCalls ((.src, .register .EFLAGS) :: addressLoads ins) ++
        [.setTaintForMemory [.base, .idx, .src]]) := by
    refine loadReg_inserts.bind (.ite (fun hr => ?_) fun _ => .ite (fun _ => ?_) fun hn =>
      absurd h.memory hn)
    · rw [INS.isReg_of_memory h.memory] at hr
      cases hr
    · exact skip_inserts.bind <| loadReg_inserts.bind <| loadReg_inserts.bind insertCall_inserts
  have hflow : (dataflow ins : Insertion w Unit) = instrumentMOV ins ∨
      (dataflow ins : Insertion w Unit) = instrumentPOP ins ∨
      (dataflow ins : Insertion w Unit) = instrumentSETcc ins := by
    rw [dataflow]
    cases ho : ins.opcode <;> rw [ho] at hop
    case POP => exact .inr (.inl rfl)
    case SETB | SETNB | SETZ | SETNZ | SETBE | SETNBE | SETS | SETL | SETNL | SETLE | SETNLE =>
      exact .inr (.inr rfl)
    case MOV | MOVZX | MOVSX | MOVAPS | MOVD | MOVDQA | MOVDQU | MOVHPD | MOVLPD | MOVQ | MOVSD_XMM =>
      exact .inl rfl
    all_goals cases hop
  rcases hflow with hf | hf | hf
  · exact StoresFrom.of_addressLoads hexch (by simp) (by simp) (hf ▸ hmov)
  · exact StoresFrom.of_addressLoads hexch (by simp) (by simp) (hf ▸ hpop)
  · exact StoresFrom.of_addressLoads hexch (by simp) (by simp) (hf ▸ hset)

theorem instrumentCMPXCHG_mem_inserts (hmem : ins.operandIsMemory 0 = true) :
    Inserts (instrumentCMPXCHG ins : Insertion w Unit) (cmpxchgLoads ins ++ cmpxchgMemory ins) := by
  refine Inserts.bind (.ite (fun _ => ?_) fun _ => abort_inserts) ?_
  · exact (loadRegMem_inserts abort_inserts).bind (loadReg_inserts.bind loadReg_inserts)
  · rw [if_neg (IsCmpxchg.not_reg hmem), if_pos hmem]
    exact insertCall_inserts.bind insertCall_inserts

theorem IsStore.of_cmpxchg (h : IsStore ins ctx 0) (hop : ins.opcode = .CMPXCHG) :
    ∃ loads args, StoresFrom ins ctx loads args ∧ StoresRight ins ctx 0 loads args := by
  have hflow : (dataflow ins : Insertion w Unit) = instrumentCMPXCHG ins := by
    rw [dataflow, hop]
    rfl
  have hins : Inserts (instrumentCMPXCHG ins : Insertion w Unit) _ :=
    instrumentCMPXCHG_mem_inserts h.memory
  rw [← hflow, cmpxchgLoads, loadCall_eq] at hins
  refine ⟨[(.dest, (Source.operand 0).load ins), (.src, .register (ins.operandReg 1)),
    (.eax, .register (ins.operandReg 2))], [.src], ⟨by simp, by simp,
    .ifThen (.memoryRead checkEqualMR (ins.operandReg 2)) (.setTaintForMemory [.src]), [],
    [.ifThen (.memoryRead checkNotEqualMR (ins.operandReg 2))
      (.setTaintForRegister (ins.operandReg 2) [.src])],
    fun t => step_ifThen_pos (h.performed hop), by simp, ?_, hins⟩, fun t => ?_⟩
  · simpa using (setTaintForRegister_registerOnly _ _).ifThen _
  · rw [if_pos (by simp [exchanges, hop])]
    simp [loadedMarks, Load.marks]

theorem IsStore.of_xchg (h : IsStore ins ctx k) (hop : ins.opcode = .XCHG) :
    ∃ loads args, StoresFrom ins ctx loads args ∧ StoresRight ins ctx k loads args := by
  have hflow : (dataflow ins : Insertion w Unit) = instrumentXCHG ins := by
    rw [dataflow, hop]
    rfl
  have hins : Inserts (dataflow ins : Insertion w Unit) _ := hflow ▸ instrumentXCHG_inserts
  have hexch : exchanges ins.opcode = true := by simp [exchanges, hop]
  have hother : ins.operandIsReg (1 - k) = true := h.register (by simp [hop])
  have hload : (Source.operand (1 - k)).load ins = .register (ins.operandReg (1 - k)) := by
    simp only [Source.load, INS.kind_of_reg hother]
  rcases h.operand with rfl | ⟨rfl, -⟩
  · refine ⟨_, _, @StoresFrom.of_form w ins ctx 0 [.src] _ [] [(.operand 1, [.dest])] h.memory hins rfl
      (by simpa [Destination.memory] using hother) (by simp) (by simp), fun t => ?_⟩
    rw [if_pos hexch]
    simp [loadedMarks, Form.loadsOf, hload, Load.marks]
  · refine ⟨_, _, @StoresFrom.of_form w ins ctx 1 [.dest] _ [(.operand 0, [.src])] [] h.memory hins rfl
      (by simpa [Destination.memory] using hother) (by simp) (by simp), fun t => ?_⟩
    rw [if_pos hexch]
    simp [loadedMarks, Form.loadsOf, hload, Load.marks]

theorem IsStore.stores (h : IsStore ins ctx k) :
    ∃ loads args, StoresFrom ins ctx loads args ∧ StoresRight ins ctx k loads args := by
  rcases h.opcode with hop | hop | hop
  · exact h.of_loadsOperand hop
  · exact h.of_loadsAddress hop
  · simp only [exchanges, List.mem_cons, List.not_mem_nil, or_false, decide_eq_true_eq] at hop
    rcases hop with hop | hop
    · exact h.of_xchg hop
    · obtain rfl : k = 0 := h.operand_zero (by rw [hop]; decide)
      exact h.of_cmpxchg hop

theorem IsStore.law_iff (h : IsStore ins ctx k) (hst : st.WidthOk n) {st' : TaintState w}
    (hexec : executeINS st ⟨ins, ctx⟩ = some st') :
    AddressLaw ins ctx k st.taint st'.taint ↔ AddressRight ins ctx k st.taint := by
  obtain ⟨loads, args, hstores, hright⟩ := h.stores
  obtain ⟨_, hexec', hmem⟩ := hstores.execute h.completes hst
  obtain rfl := Option.some.inj (hexec.symm.trans hexec')
  rw [AddressLaw, AddressRight]
  by_cases hw : RangeWraps ctx.memoryWriteEA ctx.memoryWriteSize
  · rw [if_pos hw]
    have hnone : ∀ a, a ∉ ctx.writeRange := fun a => by simp [Context.writeRange, addrRange_wraps hw]
    exact forall₂_congr fun a _ => by rw [hmem, if_neg (hnone a)]
  · rw [if_neg hw]
    have hin : ∀ a ∈ ctx.writeBytes,
        st'.taint.memMarks a = loadedMarks ctx st.taint loads args ∪ st.taint.active :=
      fun a ha => by
        rw [hmem, if_pos (show a ∈ ctx.writeRange from (mem_addrRange_bytes hw).2 ha)]
    have hstored := hright st.taint
    cases hexch : exchanges ins.opcode with
    | false =>
      rw [hexch, if_neg (by decide)] at hstored
      refine iff_of_true (fun a ha => ?_) fun hx => by cases hx
      rw [hin a ha]
      exact hstored.trans Set.subset_union_left
    | true =>
      rw [hexch, if_pos rfl] at hstored
      rw [← hstored]
      constructor
      · intro hall _
        have hstart : ctx.memoryWriteEA ∈ ctx.writeBytes := start_mem_bytesAt h.written
        exact hin _ hstart ▸ hall _ hstart
      · intro hsub a ha
        exact hin a ha ▸ hsub rfl

end

/-- **Address taint on stores.** The bytes stored have the marks of the base and the index register
exactly in the states of `AddressRight`. -/
theorem address_taint_iff {ins : INS} {ctx : Context w} {k : Nat} (h : IsStore ins ctx k) {n : Nat}
    {st : TaintState w} (hst : st.WidthOk n) :
    (∃ st', executeINS st ⟨ins, ctx⟩ = some st' ∧ AddressLaw ins ctx k st.taint st'.taint) ↔
      AddressRight ins ctx k st.taint := by
  obtain ⟨loads, args, hstores, -⟩ := h.stores
  obtain ⟨st', hexec, -⟩ := hstores.execute h.completes hst
  rw [← h.law_iff hst hexec, hexec]
  simp only [Option.some.injEq, exists_eq_left']

/-- `XCHG [EBX], EAX`. -/
def xchgEBX : INS :=
  ⟨.XCHG, [⟨.memory .EBX .INVALID, false, 32⟩, ⟨.reg .EAX, false, 32⟩], true, true, false, false, false,
    ""⟩

/-- The operand is at `0x2000`. -/
def xchgCtx : Context 32 := ⟨0x2000, 0, 4, 0x2000, 4, fun _ => 0, fun _ => 0⟩

theorem xchgEBX_isStore : IsStore xchgEBX xchgCtx 0 :=
  ⟨.inr (.inr rfl), .inl rfl, rfl, fun _ => rfl, rfl, by decide, fun h => by cases h⟩

theorem address_taint_iff_marked : ∃ st : TaintState 32, Marked {.EAX, .EBX} {0x2000} true st ∧
    ((∃ st', executeINS st ⟨xchgEBX, xchgCtx⟩ = some st' ∧
      AddressLaw xchgEBX xchgCtx 0 st.taint st'.taint) ↔
    AddressRight xchgEBX xchgCtx 0 st.taint) := by
  obtain ⟨st, hst⟩ := exists_marked {REG.EAX, .EBX} {(0x2000 : ADDRINT 32)} true
  exact ⟨st, hst, address_taint_iff xchgEBX_isStore hst.ok⟩

/-- `XCHG [EBX], EAX` stores without the marks of `EBX`. -/
theorem xchg_loses_EBX :
    ¬ ∀ (ins : INS) (ctx : Context 32) (k n : Nat) (st : TaintState 32), IsStore ins ctx k →
      st.WidthOk n →
      ∃ st', executeINS st ⟨ins, ctx⟩ = some st' ∧ AddressLaw ins ctx k st.taint st'.taint := by
  intro hall
  obtain ⟨st, hst⟩ := exists_marked {REG.EBX} (∅ : Set (ADDRINT 32)) false
  obtain ⟨st', hexec, hlaw⟩ := hall _ _ 0 2 st xchgEBX_isStore hst.ok
  have hright := (xchgEBX_isStore.law_iff hst.ok hexec).1 hlaw
  rw [AddressRight, if_neg (by decide)] at hright
  have hzero : (0 : ℕ) ∈ operandAddress xchgEBX 0 st.taint := by
    refine .inl ?_
    show (0 : ℕ) ∈ st.taint.regMarks .EBX
    simp [hst.regMarks]
  have hEAX : st.taint.regMarks (xchgEBX.operandReg (1 - 0)) = ∅ := by
    show st.taint.regMarks .EAX = ∅
    simp [hst.regMarks]
  have hin := hright rfl hzero
  rw [hEAX, hst.active] at hin
  simp at hin

end Dytan
