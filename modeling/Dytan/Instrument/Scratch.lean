import Dytan.Instrument.Run
import Mathlib.Tactic.IntervalCases

/-!
# The scratch sets carry nothing between instructions

`LoadsFirst L calls`: every call reads only scratch sets in `L` or loaded by an earlier call.
`Insertion.Loads L m L'` is the corresponding triple for handlers, with one rule for each way a
handler is put together; every handler satisfies it from the empty set (`dataflow_loads`).

`Below L` orders the states by their maps and their scratch sets in `L`; calls with `LoadsFirst L`
keep the order (`Below.calls`). So they keep `AgreeOn L`, the order both ways, and the maps after a
program do not depend on what the scratch sets held.
-/

namespace Dytan

open TaintState

variable {w : Nat}

/-- The scratch sets a call reads. -/
def Call.uses : Call w → List Scratch
  | .setTaintForRegister _ args | .setTaintForMemory args => args
  | .ifThen _ call => call.uses
  | _ => []

/-- The scratch sets loaded after a call. -/
def Call.loads (L : Set Scratch) : Call w → Set Scratch
  | .clearTaintSet set | .taintForRegister _ set | .taintForMemory _ _ _ set => insert set L
  | _ => L

def LoadsFirst (L : Set Scratch) : List (Call w) → Prop
  | [] => True
  | c :: calls => (∀ s ∈ c.uses, s ∈ L) ∧ LoadsFirst (c.loads L) calls

/-- The scratch sets loaded after `calls`. -/
def loaded (L : Set Scratch) (calls : List (Call w)) : Set Scratch :=
  calls.foldl (fun L c => c.loads L) L

theorem Call.loads_mono {L M : Set Scratch} (h : L ⊆ M) (c : Call w) : c.loads L ⊆ c.loads M := by
  cases c with
  | clearTaintSet | taintForRegister | taintForMemory => exact Set.insert_subset_insert h
  | _ => exact h

theorem LoadsFirst.mono {cs : List (Call w)} : ∀ {L M : Set Scratch}, L ⊆ M →
    LoadsFirst L cs → LoadsFirst M cs := by
  induction cs with
  | nil => exact fun _ _ => trivial
  | cons c cs ih => exact fun h hc => ⟨fun s hs => h (hc.1 s hs), ih (c.loads_mono h) hc.2⟩

theorem loaded_mono {cs : List (Call w)} : ∀ {L M : Set Scratch}, L ⊆ M →
    loaded L cs ⊆ loaded M cs := by
  induction cs with
  | nil => exact fun h => h
  | cons c cs ih => exact fun h => ih (c.loads_mono h)

theorem loaded_append {L : Set Scratch} {cs cs' : List (Call w)} :
    loaded L (cs ++ cs') = loaded (loaded L cs) cs' := List.foldl_append ..

theorem loadsFirst_append {L : Set Scratch} {cs cs' : List (Call w)} :
    LoadsFirst L (cs ++ cs') ↔ LoadsFirst L cs ∧ LoadsFirst (loaded L cs) cs' := by
  induction cs generalizing L with
  | nil => simp [LoadsFirst, loaded]
  | cons c cs ih => simp only [List.cons_append, LoadsFirst, ih, and_assoc]; rfl

/-! ## Handlers -/

namespace Insertion

/-- From `L`, the calls of `m` load before they read, and what is in `L'` is loaded when `m`
completes. -/
structure Loads (L : Set Scratch) (m : Insertion w Unit) (L' : Set Scratch) : Prop where
  calls : LoadsFirst L m.calls
  after : m.exit = .ok () → L' ⊆ loaded L m.calls

variable {L L' L'' : Set Scratch} {m m' : Insertion w Unit} {f : Unit → Insertion w Unit}

theorem pure_loads : Loads L (pure () : Insertion w Unit) L := ⟨trivial, fun _ => subset_rfl⟩

theorem leave_loads : Loads L (leave : Insertion w Unit) L' := ⟨trivial, nofun⟩

theorem abort_loads (message : String) : Loads L (abort message : Insertion w Unit) L' :=
  ⟨trivial, nofun⟩

theorem insertCall_loads {c : Call w} (h : ∀ s ∈ c.uses, s ∈ L) :
    Loads L (insertCall c) (c.loads L) := ⟨⟨h, trivial⟩, fun _ => subset_rfl⟩

theorem Loads.bind (h : Loads L m L') (hf : Loads L' (f ()) L'') : Loads L (m >>= f) L'' := by
  cases he : m.exit with
  | ok a =>
    have ha := h.after he
    rw [bind_ok he]
    refine ⟨loadsFirst_append.2 ⟨h.calls, hf.calls.mono ha⟩, fun hx => ?_⟩
    rw [loaded_append]
    exact (hf.after hx).trans (loaded_mono ha)
  | error e =>
    rw [bind_error he]
    exact ⟨h.calls, nofun⟩

theorem Loads.weaken (h : Loads L m L') (hs : L'' ⊆ L') : Loads L m L'' :=
  ⟨h.calls, fun he => hs.trans (h.after he)⟩

theorem Loads.ite {c : Prop} [Decidable c] (h : Loads L m L') (h' : Loads L m' L') :
    Loads L (if c then m else m') L' := by
  split
  · exact h
  · exact h'

end Insertion

open Insertion

section
variable {L L' : Set Scratch} {ins : INS} {k : Nat} {set : Scratch} {args : List Scratch}
  {otherwise : Insertion w Unit}

theorem unknown_loads {text : String} : Loads L (unknown ins text : Insertion w Unit) L' :=
  abort_loads _

theorem unknown0_loads : Loads L (unknown0 ins : Insertion w Unit) L' := abort_loads _

theorem unknown1_loads : Loads L (unknown1 ins : Insertion w Unit) L' := abort_loads _

theorem needRead_loads : Loads L (needRead ins : Insertion w Unit) L :=
  leave_loads.ite pure_loads

theorem needWrite_loads : Loads L (needWrite ins : Insertion w Unit) L :=
  leave_loads.ite pure_loads

theorem clearTaintSet_loads : Loads L (insertCall (.clearTaintSet set) : Insertion w Unit)
    (insert set L) := insertCall_loads (by simp [Call.uses])

theorem taintForMemory_loads {ea : ReadEA} {b i : REG} :
    Loads L (insertCall (.taintForMemory ea b i set) : Insertion w Unit) (insert set L) :=
  insertCall_loads (by simp [Call.uses])

theorem setTaintForMemory_loads (h : ∀ s ∈ args, s ∈ L) :
    Loads L (insertCall (.setTaintForMemory args) : Insertion w Unit) L := insertCall_loads h

theorem ifThen_loads {check : IfCall w} {c : Call w} (h : ∀ s ∈ c.uses, s ∈ L) :
    Loads L (insertCall (.ifThen check c)) L := insertCall_loads h

theorem loadReg_loads {r : REG} : Loads L (loadReg r set : Insertion w Unit) (insert set L) :=
  insertCall_loads (by simp [Call.uses])

theorem setReg_loads {r : REG} (h : ∀ s ∈ args, s ∈ L) :
    Loads L (setReg r args : Insertion w Unit) L := insertCall_loads h

theorem clearReg_loads {r : REG} : Loads L (clearReg r : Insertion w Unit) L :=
  insertCall_loads (by simp [Call.uses])

theorem loadMem_loads : Loads L (loadMem ins k set : Insertion w Unit) (insert set L) :=
  needRead_loads.bind taintForMemory_loads

theorem loadRegMem_loads (h : Loads L otherwise (insert set L)) :
    Loads L (loadRegMem ins k set otherwise) (insert set L) :=
  loadReg_loads.ite (loadMem_loads.ite h)

theorem loadRegMemImm_loads (h : Loads L otherwise (insert set L)) :
    Loads L (loadRegMemImm ins k set otherwise) (insert set L) :=
  loadRegMem_loads (clearTaintSet_loads.ite h)

theorem loadRegImm_loads (h : Loads L otherwise (insert set L)) :
    Loads L (loadRegImm ins k set otherwise) (insert set L) :=
  loadReg_loads.ite (clearTaintSet_loads.ite h)

theorem setRegMem_loads (hargs : ∀ s ∈ args, s ∈ L) (h : Loads L otherwise L) :
    Loads L (setRegMem ins k args otherwise) L :=
  (setReg_loads hargs).ite ((needWrite_loads.bind (setTaintForMemory_loads hargs)).ite h)

theorem setRegMemAddress_loads (h : .src ∈ L) :
    Loads L (setRegMemAddress ins : Insertion w Unit) L := by
  refine (setReg_loads (by simpa using h)).ite (.ite ?_ unknown0_loads)
  refine (loadReg_loads.bind <| loadReg_loads.bind <| needWrite_loads.bind <|
    setTaintForMemory_loads ?_).weaken ?_
  · simp [h]
  · exact (Set.subset_insert _ _).trans (Set.subset_insert _ _)

/-! ### One theorem for each handler body -/

theorem instrumentADC_loads : Loads ∅ (instrumentADC ins : Insertion w Unit) ∅ :=
  ((loadRegMem_loads unknown0_loads).bind <| (loadRegMemImm_loads unknown1_loads).bind <|
    loadReg_loads.bind <| (setRegMem_loads (by simp) unknown0_loads).bind <|
    setReg_loads (by simp)).weaken (Set.empty_subset _)

theorem instrumentADD_loads : Loads ∅ (instrumentADD ins : Insertion w Unit) ∅ :=
  ((loadRegMem_loads unknown0_loads).bind <| (loadRegMemImm_loads unknown1_loads).bind <|
    (setRegMem_loads (by simp) unknown0_loads).bind <|
    setReg_loads (by simp)).weaken (Set.empty_subset _)

theorem instrumentCDQ_loads : Loads ∅ (instrumentCDQ ins : Insertion w Unit) ∅ :=
  .ite ((loadReg_loads.bind <| setReg_loads (by simp)).weaken (Set.empty_subset _)) unknown_loads

theorem instrumentCMOVcc_loads : Loads ∅ (instrumentCMOVcc ins : Insertion w Unit) ∅ := by
  refine (loadRegMem_loads unknown0_loads).bind ?_
  split
  · exact (ifThen_loads (by simp [Call.uses])).weaken (Set.empty_subset _)
  · exact unknown_loads

theorem instrumentCMP_loads : Loads ∅ (instrumentCMP ins : Insertion w Unit) ∅ :=
  ((loadRegMem_loads unknown0_loads).bind <| (loadRegMemImm_loads unknown1_loads).bind <|
    setReg_loads (by simp)).weaken (Set.empty_subset _)

theorem instrumentCMPSB_loads : Loads ∅ (instrumentCMPSB ins : Insertion w Unit) ∅ :=
  (needRead_loads.bind <| taintForMemory_loads.bind <| needRead_loads.bind <|
    taintForMemory_loads.bind <| setReg_loads (by simp)).weaken (Set.empty_subset _)

theorem instrumentCMPXCHG_loads : Loads ∅ (instrumentCMPXCHG ins : Insertion w Unit) ∅ := by
  refine (Loads.bind (.ite ((loadRegMem_loads unknown0_loads).bind <| loadReg_loads.bind
    loadReg_loads) unknown_loads) (.ite ?_ (.ite ?_ pure_loads))).weaken (Set.empty_subset _)
  · exact (ifThen_loads (by simp [Call.uses])).bind (ifThen_loads (by simp [Call.uses]))
  · exact (ifThen_loads (by simp [Call.uses])).bind (ifThen_loads (by simp [Call.uses]))

theorem instrumentCWDE_loads : Loads ∅ (instrumentCWDE : Insertion w Unit) ∅ :=
  (loadReg_loads.bind <| setReg_loads (by simp)).weaken (Set.empty_subset _)

theorem instrumentDEC_loads : Loads ∅ (instrumentDEC ins : Insertion w Unit) ∅ :=
  ((loadRegMem_loads unknown0_loads).bind <| setReg_loads (by simp)).weaken (Set.empty_subset _)

theorem instrumentDIV_loads : Loads ∅ (instrumentDIV ins : Insertion w Unit) ∅ :=
  .ite (((loadRegMem_loads unknown0_loads).bind <| loadReg_loads.bind <| loadReg_loads.bind <|
    (setReg_loads (by simp)).bind <| (setReg_loads (by simp)).bind clearReg_loads).weaken
    (Set.empty_subset _)) unknown_loads

theorem instrumentIDIV_loads : Loads ∅ (instrumentIDIV ins : Insertion w Unit) ∅ :=
  .ite (((loadRegMem_loads unknown0_loads).bind <| loadReg_loads.bind <| loadReg_loads.bind <|
    (setReg_loads (by simp)).bind <| (setReg_loads (by simp)).bind clearReg_loads).weaken
    (Set.empty_subset _)) unknown_loads

theorem instrumentCPUID_loads : Loads ∅ (instrumentCPUID : Insertion w Unit) ∅ :=
  clearReg_loads.bind <| clearReg_loads.bind <| clearReg_loads.bind clearReg_loads

theorem instrumentMUL_loads : Loads ∅ (instrumentMUL ins : Insertion w Unit) ∅ :=
  .ite (((loadRegMem_loads unknown0_loads).bind <| loadReg_loads.bind <|
    (setReg_loads (by simp)).bind <| (setReg_loads (by simp)).bind <|
    setReg_loads (by simp)).weaken (Set.empty_subset _)) unknown_loads

theorem loadIMUL_loads (h : Loads L otherwise (insert .src L)) :
    Loads L (loadIMUL ins otherwise) (insert .src L) :=
  loadReg_loads.ite (loadMem_loads.ite h)

theorem instrumentIMUL_loads : Loads ∅ (instrumentIMUL ins : Insertion w Unit) ∅ := by
  refine instrumentMUL_loads.ite (.ite ?_ (.ite ?_ (abort_loads _)))
  · exact (loadReg_loads.bind <| (loadIMUL_loads (clearTaintSet_loads.ite unknown_loads)).bind <|
      (setReg_loads (by simp)).bind <| setReg_loads (by simp)).weaken (Set.empty_subset _)
  · exact (loadReg_loads.bind <| (loadIMUL_loads unknown_loads).bind <|
      (setReg_loads (by simp)).bind <| setReg_loads (by simp)).weaken (Set.empty_subset _)

theorem instrumentLEA_loads : Loads ∅ (instrumentLEA ins : Insertion w Unit) ∅ :=
  (loadReg_loads.bind <| loadReg_loads.bind <| setReg_loads (by simp)).weaken (Set.empty_subset _)

theorem instrumentMOV_loads : Loads ∅ (instrumentMOV ins : Insertion w Unit) ∅ :=
  ((loadRegMemImm_loads unknown1_loads).bind <| setRegMemAddress_loads (by simp)).weaken
    (Set.empty_subset _)

theorem instrumentMOVS_loads : Loads ∅ (instrumentMOVS ins : Insertion w Unit) ∅ :=
  (taintForMemory_loads.bind <| taintForMemory_loads.bind <| .ite
    ((loadReg_loads.bind <| setTaintForMemory_loads (by simp)).weaken (Set.empty_subset _))
    ((setTaintForMemory_loads (by simp)).weaken (Set.empty_subset _)))

theorem instrumentPOP_loads : Loads ∅ (instrumentPOP ins : Insertion w Unit) ∅ :=
  (needRead_loads.bind <| taintForMemory_loads.bind <| setRegMemAddress_loads (by simp)).weaken
    (Set.empty_subset _)

theorem instrumentPOPFD_loads : Loads ∅ (instrumentPOPFD ins : Insertion w Unit) ∅ :=
  (needRead_loads.bind <| taintForMemory_loads.bind loadReg_loads).weaken (Set.empty_subset _)

theorem instrumentPUSH_loads : Loads ∅ (instrumentPUSH ins : Insertion w Unit) ∅ :=
  ((loadRegMemImm_loads unknown0_loads).bind <| needWrite_loads.bind <|
    setTaintForMemory_loads (by simp)).weaken (Set.empty_subset _)

theorem instrumentPUSHFD_loads : Loads ∅ (instrumentPUSHFD : Insertion w Unit) ∅ :=
  (loadReg_loads.bind <| setTaintForMemory_loads (by simp)).weaken (Set.empty_subset _)

theorem instrumentSAR_loads : Loads ∅ (instrumentSAR ins : Insertion w Unit) ∅ :=
  ((loadRegMem_loads unknown0_loads).bind <| (loadRegImm_loads unknown0_loads).bind <|
    (setRegMem_loads (by simp) unknown0_loads).bind <|
    setReg_loads (by simp)).weaken (Set.empty_subset _)

theorem instrumentSCASB_loads : Loads ∅ (instrumentSCASB ins : Insertion w Unit) ∅ :=
  (needRead_loads.bind <| taintForMemory_loads.bind <| loadReg_loads.bind <|
    (setReg_loads (by simp)).bind <| .ite (setReg_loads (by simp)) pure_loads).weaken
    (Set.empty_subset _)

theorem instrumentSETcc_loads : Loads ∅ (instrumentSETcc ins : Insertion w Unit) ∅ :=
  loadReg_loads.bind <| .ite ((setReg_loads (by simp)).weaken (Set.empty_subset _)) <| .ite
    ((needWrite_loads.bind <| loadReg_loads.bind <| loadReg_loads.bind <|
      setTaintForMemory_loads (by simp)).weaken (Set.empty_subset _)) unknown0_loads

theorem instrumentSHLD_loads : Loads ∅ (instrumentSHLD ins : Insertion w Unit) ∅ :=
  ((loadRegMem_loads unknown0_loads).bind <| loadReg_loads.bind <|
    (loadReg_loads.ite (clearTaintSet_loads.ite unknown0_loads)).bind <|
    (setRegMem_loads (by simp) unknown0_loads).bind <|
    setReg_loads (by simp)).weaken (Set.empty_subset _)

theorem storeString_loads {r : REG} : Loads ∅ (storeString ins r : Insertion w Unit) ∅ :=
  (loadReg_loads.bind <| loadReg_loads.bind <| needWrite_loads.bind <|
    setTaintForMemory_loads (by simp)).weaken (Set.empty_subset _)

theorem instrumentTEST_loads : Loads ∅ (instrumentTEST ins : Insertion w Unit) ∅ :=
  ((loadRegMem_loads unknown0_loads).bind <| (loadRegImm_loads unknown1_loads).bind <|
    setReg_loads (by simp)).weaken (Set.empty_subset _)

theorem instrumentXADD_loads : Loads ∅ (instrumentXADD ins : Insertion w Unit) ∅ :=
  ((loadRegMem_loads unknown0_loads).bind <| (loadReg_loads.ite unknown1_loads).bind <|
    (setRegMem_loads (by simp) unknown0_loads).bind <| (setReg_loads (by simp)).bind <|
    setReg_loads (by simp)).weaken (Set.empty_subset _)

theorem instrumentXCHG_loads : Loads ∅ (instrumentXCHG ins : Insertion w Unit) ∅ :=
  ((loadRegMem_loads unknown0_loads).bind <| (loadRegMem_loads unknown0_loads).bind <|
    (setRegMem_loads (by simp) unknown0_loads).bind <|
    setRegMem_loads (by simp) unknown1_loads).weaken (Set.empty_subset _)

theorem instrumentXOR_loads : Loads ∅ (instrumentXOR ins : Insertion w Unit) ∅ :=
  ((loadRegMem_loads unknown0_loads).bind <| (loadRegMemImm_loads unknown1_loads).bind <|
    (clearReg_loads.ite (setRegMem_loads (by simp) unknown0_loads)).bind <|
    setReg_loads (by simp)).weaken (Set.empty_subset _)

theorem instrumentPXOR_loads : Loads ∅ (instrumentPXOR ins : Insertion w Unit) ∅ :=
  ((loadReg_loads.ite unknown0_loads).bind <| (loadRegMem_loads unknown0_loads).bind <|
    (setReg_loads (by simp)).ite unknown0_loads).weaken (Set.empty_subset _)

theorem combineOperands_loads : Loads ∅ (combineOperands ins : Insertion w Unit) ∅ :=
  ((loadRegMem_loads unknown0_loads).bind <| (loadRegMemImm_loads unknown1_loads).bind <|
    setRegMem_loads (by simp) unknown0_loads).weaken (Set.empty_subset _)

theorem instrumentPMOVMSKB_loads : Loads ∅ (instrumentPMOVMSKB ins : Insertion w Unit) ∅ :=
  ((loadRegMemImm_loads unknown1_loads).bind <|
    setRegMem_loads (by simp) unknown0_loads).weaken (Set.empty_subset _)

theorem instrumentCMPSW_loads : Loads ∅ (instrumentCMPSW ins : Insertion w Unit) ∅ :=
  instrumentCMP_loads.ite (.ite instrumentDEC_loads pure_loads)

theorem clearTaintForMemory_loads :
    Loads ∅ (insertCall .clearTaintForMemory : Insertion w Unit) ∅ :=
  insertCall_loads (by simp [Call.uses])

/-- Every handler loads each scratch set before it reads it. -/
theorem dataflow_loads (ins : INS) : Loads ∅ (dataflow ins : Insertion w Unit) ∅ := by
  unfold dataflow
  cases ins.opcode with
  | ADC | SBB => exact instrumentADC_loads
  | ADD | AND | OR | SUB | PSUBB => exact instrumentADD_loads
  | CDQ => exact instrumentCDQ_loads
  | CLD | STD | BSF | BSR => exact clearReg_loads
  | CMOVNLE | CMOVB | CMOVNB | CMOVZ | CMOVNZ | CMOVBE | CMOVNBE | CMOVS | CMOVNS | CMOVL | CMOVNL
  | CMOVLE => exact instrumentCMOVcc_loads
  | CMP => exact instrumentCMP_loads
  | CMPSB => exact instrumentCMPSB_loads
  | CMPSW => exact instrumentCMPSW_loads
  | CMPXCHG => exact instrumentCMPXCHG_loads
  | CPUID => exact instrumentCPUID_loads
  | CWDE => exact instrumentCWDE_loads
  | DEC | INC | NEG => exact instrumentDEC_loads
  | DIV => exact instrumentDIV_loads
  | FNSTCW | STMXCSR => exact clearTaintForMemory_loads
  | FNSTSW => exact clearReg_loads.ite pure_loads
  | IDIV => exact instrumentIDIV_loads
  | IMUL => exact instrumentIMUL_loads
  | LEA => exact instrumentLEA_loads
  | MOV | MOVZX | MOVSX | MOVAPS | MOVD | MOVDQA | MOVDQU | MOVHPD | MOVLPD | MOVQ | MOVSD_XMM =>
    exact instrumentMOV_loads
  | MOVSB | MOVSW | MOVSD => exact instrumentMOVS_loads
  | MUL => exact instrumentMUL_loads
  | PALIGNR | PCMPEQB | PSHUFD | XORPS => exact combineOperands_loads
  | PMOVMSKB => exact instrumentPMOVMSKB_loads
  | POP => exact instrumentPOP_loads
  | POPFD => exact instrumentPOPFD_loads
  | PUSH => exact instrumentPUSH_loads
  | PUSHFD => exact instrumentPUSHFD_loads
  | PXOR => exact instrumentPXOR_loads
  | RDTSC => exact clearReg_loads.bind clearReg_loads
  | SAR | SHL | SHR => exact instrumentSAR_loads
  | SCASB => exact instrumentSCASB_loads
  | SETB | SETNB | SETZ | SETNZ | SETBE | SETNBE | SETS | SETL | SETNL | SETLE | SETNLE =>
    exact instrumentSETcc_loads
  | SHLD | SHRD => exact instrumentSHLD_loads
  | STOSB | STOSD => exact storeString_loads
  | TEST => exact instrumentTEST_loads
  | XADD => exact instrumentXADD_loads
  | XCHG => exact instrumentXCHG_loads
  | XOR => exact instrumentXOR_loads
  | _ => exact pure_loads

end

/-! ## The order -/

/-- Every entry of `map` is one of `map'`, with at least its marks. -/
def EntriesLe {α : Type} (map map' : α → Option (Set ℕ)) : Prop :=
  ∀ a S, map a = some S → ∃ S', map' a = some S' ∧ S ⊆ S'

namespace EntriesLe

variable {α : Type} {map map' : α → Option (Set ℕ)} {S S' : Set ℕ} {P : α → Prop} [DecidablePred P]

theorem refl (map : α → Option (Set ℕ)) : EntriesLe map map := fun _ S h => ⟨S, h, subset_rfl⟩

theorem antisymm (h : EntriesLe map map') (h' : EntriesLe map' map) : map = map' := by
  funext a
  cases hm : map a with
  | none =>
    cases hm' : map' a with
    | none => rfl
    | some S' =>
      obtain ⟨S, hS, -⟩ := h' a S' hm'
      rw [hm] at hS
      cases hS
  | some S =>
    obtain ⟨S', hm', hle⟩ := h a S hm
    obtain ⟨S₁, hm₁, hle'⟩ := h' a S' hm'
    obtain rfl : S = S₁ := Option.some.inj (hm ▸ hm₁)
    rw [hm', hle.antisymm hle']

theorem getD (h : EntriesLe map map') (a : α) : (map a).getD ∅ ⊆ (map' a).getD ∅ := by
  cases hm : map a with
  | none => exact Set.empty_subset _
  | some S =>
    obtain ⟨S', hm', hle⟩ := h a S hm
    rw [hm']
    exact hle

theorem isSome (h : EntriesLe map map') {a : α} (ha : (map a).isSome = true) :
    (map' a).isSome = true := by
  obtain ⟨S, hS⟩ := Option.isSome_iff_exists.1 ha
  obtain ⟨S', hS', -⟩ := h a S hS
  exact Option.isSome_iff_exists.2 ⟨S', hS'⟩

/-- The entries in `P` are overwritten. -/
theorem put (h : EntriesLe map map') (hS : S ⊆ S') :
    EntriesLe (fun a => if P a then some S else map a) (fun a => if P a then some S' else map' a) := by
  intro a T hT
  by_cases hP : P a
  · simp only [if_pos hP] at hT
    exact ⟨S', if_pos hP, Option.some.inj hT ▸ hS⟩
  · simp only [if_neg hP] at hT
    obtain ⟨T', hT', hle⟩ := h a T hT
    exact ⟨T', (if_neg hP).trans hT', hle⟩

/-- The entries in `P` are overwritten where there is one. -/
theorem refresh (h : EntriesLe map map') (hS : S ⊆ S') :
    EntriesLe (fun a => if P a ∧ (map a).isSome then some S else map a)
      (fun a => if P a ∧ (map' a).isSome then some S' else map' a) := by
  intro a T hT
  by_cases hP : P a ∧ (map a).isSome = true
  · simp only [if_pos hP] at hT
    exact ⟨S', if_pos ⟨hP.1, h.isSome hP.2⟩, Option.some.inj hT ▸ hS⟩
  · simp only [if_neg hP] at hT
    -- an entry that is left alone is not in `P`
    have hP' : ¬ P a := fun hp => hP ⟨hp, by rw [hT]; rfl⟩
    obtain ⟨T', hT', hle⟩ := h a T hT
    exact ⟨T', (if_neg fun hc => hP' hc.1).trans hT', hle⟩

variable [DecidableEq α] {a : α}

theorem update (h : EntriesLe map map') (hS : S ⊆ S') :
    EntriesLe (Function.update map a (some S)) (Function.update map' a (some S')) := by
  intro b T hT
  by_cases hb : b = a
  · subst hb
    rw [Function.update_self] at hT ⊢
    exact ⟨S', rfl, Option.some.inj hT ▸ hS⟩
  · rw [Function.update_of_ne hb] at hT ⊢
    exact h b T hT

theorem update_right (h : EntriesLe map map') (hS : (map' a).getD ∅ ⊆ S') :
    EntriesLe map (Function.update map' a (some S')) := by
  intro b T hT
  by_cases hb : b = a
  · subst hb
    rw [Function.update_self]
    have hle := (h.getD b).trans hS
    rw [hT] at hle
    exact ⟨S', rfl, hle⟩
  · rw [Function.update_of_ne hb]
    exact h b T hT

end EntriesLe

/-- More taint in the maps and in the scratch sets in `L`. -/
structure Below (L : Set Scratch) (t t' : Taint w) : Prop where
  reg : EntriesLe t.reg t'.reg
  mem : EntriesLe t.mem t'.mem
  control : EntriesLe t.control t'.control
  scratch : ∀ s ∈ L, t.scratch s ⊆ t'.scratch s

namespace Below

variable {L M : Set Scratch} {t t' : Taint w} {S S' : Set ℕ}

theorem mono (h : Below L t t') (hM : M ⊆ L) : Below M t t' :=
  ⟨h.reg, h.mem, h.control, fun s hs => h.scratch s (hM hs)⟩

theorem active (h : Below L t t') : t.active ⊆ t'.active := by
  rintro m ⟨addr, S, hS, hm⟩
  obtain ⟨S', hS', hle⟩ := h.control addr S hS
  exact ⟨addr, S', hS', hle hm⟩

theorem regMarks (h : Below L t t') (r : REG) : t.regMarks r ⊆ t'.regMarks r := h.reg.getD r

theorem addressMarks (h : Below L t t') (r : REG) : t.addressMarks r ⊆ t'.addressMarks r := by
  unfold Taint.addressMarks
  split
  · exact h.regMarks r
  · exact subset_rfl

theorem bytesMarks (h : Below L t t') (addrs : List (ADDRINT w)) :
    t.bytesMarks addrs ⊆ t'.bytesMarks addrs := by
  rintro m ⟨addr, ha, hm⟩
  exact ⟨addr, ha, h.mem.getD addr hm⟩

theorem readMarks (h : Below L t t') (addrs : List (ADDRINT w)) (b i : REG) :
    t.readMarks addrs b i ⊆ t'.readMarks addrs b i :=
  Set.union_subset_union (Set.union_subset_union (h.bytesMarks addrs) (h.addressMarks b))
    (h.addressMarks i)

theorem scratchMarks (h : Below L t t') {args : List Scratch} (hargs : ∀ s ∈ args, s ∈ L) :
    t.scratchMarks args ⊆ t'.scratchMarks args := by
  rintro m ⟨s, hs, hm⟩
  exact ⟨s, hs, h.scratch s (hargs s hs) hm⟩

theorem load (h : Below L t t') (set : Scratch) (hS : S ⊆ S') :
    Below (insert set L) (t.load set S) (t'.load set S') := by
  refine ⟨h.reg, h.mem, h.control, fun s hs => ?_⟩
  by_cases he : s = set
  · rw [he, Taint.load_scratch_same, Taint.load_scratch_same]
    exact hS
  · rw [Taint.load_scratch_other _ _ he, Taint.load_scratch_other _ _ he]
    exact h.scratch s (hs.resolve_left he)

theorem setReg (h : Below L t t') (dest : REG) (hS : S ⊆ S') :
    Below L (t.setReg dest S) (t'.setReg dest S') := by
  refine ⟨?_, by simpa using h.mem, by simpa using h.control, by simpa using h.scratch⟩
  unfold Taint.setReg
  split
  · exact h.reg
  · exact h.reg.put (Set.union_subset_union hS h.active)

/-- One call. -/
theorem step (h : Below L t t') (ctx : Context w) {c : Call w} (hc : ∀ s ∈ c.uses, s ∈ L) :
    Below (c.loads L) (c.step ctx t) (c.step ctx t') := by
  induction c with
  | clearTaintSet set => exact h.load set subset_rfl
  | taintForRegister reg set => exact h.load set (h.regMarks reg)
  | taintForMemory ea b i set => exact h.load set (h.readMarks _ b i)
  | setTaintForRegister dest args => exact h.setReg dest (h.scratchMarks hc)
  | setTaintForMemory args =>
    exact ⟨h.reg, h.mem.put (Set.union_subset_union (h.scratchMarks hc) h.active), h.control,
      h.scratch⟩
  | clearTaintForRegister reg => exact ⟨h.reg.refresh h.active, h.mem, h.control, h.scratch⟩
  | clearTaintForMemory => exact ⟨h.reg, h.mem.refresh h.active, h.control, h.scratch⟩
  | ifThen check call ih =>
    -- the check reads the machine's values only
    simp only [Call.step]
    split
    · refine (ih hc).mono ?_
      cases call with
      | clearTaintSet | taintForRegister | taintForMemory => exact Set.subset_insert _ _
      | _ => exact subset_rfl
    · exact h

/-- A list of calls that loads before it reads. -/
theorem calls (h : Below L t t') (ctx : Context w) {cs : List (Call w)}
    (hcs : LoadsFirst L cs) : Below ∅ (stepCalls ctx t cs) (stepCalls ctx t' cs) := by
  induction cs generalizing L t t' with
  | nil => exact h.mono (Set.empty_subset _)
  | cons c cs ih => exact ih (h.step ctx hcs.1) hcs.2

end Below

/-! ## Agreement -/

/-- The same maps, and the same scratch sets in `L`. -/
structure AgreeOn (L : Set Scratch) (t t' : Taint w) : Prop where
  reg : t.reg = t'.reg
  mem : t.mem = t'.mem
  control : t.control = t'.control
  scratch : ∀ s ∈ L, t.scratch s = t'.scratch s

theorem agreeOn_iff {L : Set Scratch} {t t' : Taint w} :
    AgreeOn L t t' ↔ Below L t t' ∧ Below L t' t := by
  constructor
  · intro h
    exact ⟨⟨h.reg ▸ .refl _, h.mem ▸ .refl _, h.control ▸ .refl _, fun s hs => (h.scratch s hs).le⟩,
      h.reg ▸ .refl _, h.mem ▸ .refl _, h.control ▸ .refl _, fun s hs => (h.scratch s hs).ge⟩
  · intro ⟨h, h'⟩
    exact ⟨h.reg.antisymm h'.reg, h.mem.antisymm h'.mem, h.control.antisymm h'.control,
      fun s hs => (h.scratch s hs).antisymm (h'.scratch s hs)⟩

/-- A program. -/
theorem AgreeOn.program {t t' : Taint w} (h : AgreeOn ∅ t t') (es : List (Executed w)) :
    AgreeOn ∅ (stepProgram t es) (stepProgram t' es) := by
  induction es generalizing t t' with
  | nil => exact h
  | cons e es ih =>
    obtain ⟨hle, hge⟩ := agreeOn_iff.1 h
    have hcs := (dataflow_loads e.ins : Loads ∅ (dataflow e.ins : Insertion w Unit) ∅).calls
    exact ih (agreeOn_iff.2 ⟨hle.calls e.ctx hcs, hge.calls e.ctx hcs⟩)

/-! ## The maps after a program -/

/-- Whatever the scratch sets hold, a program whose handlers do not abort ends with the same
maps. -/
theorem execute_scratch_independent {n : Nat} {st : TaintState w} (h : st.WidthOk n)
    {scratch scratch' : Scratch → Bitset} (hs : ∀ s, (scratch s).Ok n)
    (hs' : ∀ s, (scratch' s).Ok n) (program : List (Executed w))
    (ha : ∀ e ∈ program, (dataflow e.ins : Insertion w Unit).Accepted) :
    ∃ r r', execute { st with scratch := scratch } program = some r ∧
      execute { st with scratch := scratch' } program = some r' ∧
      r.regTaintMap = r'.regTaintMap ∧ r.memTaintMap = r'.memTaintMap ∧
      r.controlTaintMap = r'.controlTaintMap := by
  have h1 : ({ st with scratch := scratch }).WidthOk n := ⟨h.reg, h.mem, h.control, hs, h.marks⟩
  have h2 : ({ st with scratch := scratch' }).WidthOk n := ⟨h.reg, h.mem, h.control, hs', h.marks⟩
  obtain ⟨r, hr, hrok, hrt⟩ := execute_gives program h1 ha
  obtain ⟨r', hr', hrok', hrt'⟩ := execute_gives program h2 ha
  have hstart : AgreeOn ∅ ({ st with scratch := scratch }).taint
      ({ st with scratch := scratch' }).taint :=
    ⟨rfl, rfl, rfl, fun s hs => absurd hs (Set.notMem_empty s)⟩
  have hagree : AgreeOn ∅ r.taint r'.taint := by
    rw [hrt, hrt']
    exact hstart.program program
  obtain ⟨hreg, hmem, hcontrol⟩ := hrok.ext_taint hrok'
  exact ⟨r, r', hr, hr', hreg hagree.reg, hmem hagree.mem, hcontrol hagree.control⟩

/-- `ADD EAX, EBX` from the initial state, with marks 1 left in `dest` and 0 in `eflags`. -/
theorem execute_scratch_independent_add :
    ∃ r r' : TaintState 32,
      execute { TaintState.initial 2 with scratch := fun _ => .init 2 }
        [⟨⟨.ADD, [⟨.reg .EAX, false, 32⟩, ⟨.reg .EBX, false, 32⟩], false, false, false, false,
          false, ""⟩, ⟨0, 0, 0, 0, 0, fun _ => 0, fun _ => 0⟩⟩] = some r ∧
      execute { TaintState.initial 2 with
          scratch := fun s => if s = .dest then ⟨[2], 2⟩ else ⟨[1], 2⟩ }
        [⟨⟨.ADD, [⟨.reg .EAX, false, 32⟩, ⟨.reg .EBX, false, 32⟩], false, false, false, false,
          false, ""⟩, ⟨0, 0, 0, 0, 0, fun _ => 0, fun _ => 0⟩⟩] = some r' ∧
      r.regTaintMap = r'.regTaintMap ∧ r.memTaintMap = r'.memTaintMap ∧
      r.controlTaintMap = r'.controlTaintMap := by
  have h2 : ∀ v : BitVec 32, v = 1 ∨ v = 2 → Bitset.Ok 2 ⟨[v], 2⟩ := by
    intro v hv
    refine ⟨rfl, rfl, fun pos hp => ?_⟩
    by_contra hge
    have hle : pos / 32 = 0 ∨ 1 ≤ pos / 32 := by omega
    rcases hle with h0 | h1
    · have hm : 2 ≤ pos % 32 ∧ pos % 32 < 32 := by omega
      revert hp
      simp only [Bitset.bit, bitsetBits, h0]
      generalize pos % 32 = i at hm
      rcases hv with rfl | rfl <;> obtain ⟨h2, h32⟩ := hm <;> interval_cases i <;> decide
    · rw [Bitset.bit_false_of_length h1] at hp
      cases hp
  refine execute_scratch_independent (TaintState.initial_ok 2) (fun _ => Bitset.init_ok 2) ?_ _ ?_
  · intro s
    split
    · exact h2 2 (.inr rfl)
    · exact h2 1 (.inl rfl)
  · intro e he message
    rw [List.mem_singleton.1 he]
    intro hexit
    cases hexit

end Dytan
