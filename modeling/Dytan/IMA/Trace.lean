import Dytan.IMA.Memory

/-!
# What a frame knows of the instructions it has executed

`Frame.Trace`: the instructions of the source that a frame has executed are a walk through its
function. As long as the operands of a bitcast or of an allocation call were not executed again since
it was, the bitcast has the value of its operand, and the arguments of the call say how large the block
is that it allocated.

`Frame.At`: where the frame at work is in what is inserted after the last of these instructions.
`MemoryState.Invariant.step`: every step keeps both.
-/

namespace Dytan.IMA

open Lib.Dominance (Since since_concat)

variable {address : String → BitVec 32} {m : Module} {src : SourceFunction}
  {fr fr' : Frame} {trace : List Instruction} {allocations allocations' : Nat}
  {blocks blocks' : Nat → Option Block} {c d i u x : Instruction} {memory memory' : Memory}
  {known : Set InstId} {rest : List Instruction}

/-! ## Operands -/

theorem getArgOperand_mem {n : Nat} {id : InstId} (h : x.getArgOperand n = .instruction id) :
    .instruction id ∈ x.operands := by
  unfold Instruction.getArgOperand at h
  rw [List.getD_eq_getElem?_getD] at h
  cases hn : x.operands[n]? with
  | none => rw [hn] at h; cases h
  | some v =>
    rw [hn] at h
    obtain rfl : v = .instruction id := h
    exact List.mem_of_getElem? hn

theorem passed_of_eval {n : Nat} {v : BitVec 32} (h : fr.eval (x.getArgOperand n) = some v) :
    fr.passed address x n = some v := by
  unfold Frame.passed
  split
  · rename_i hv
    rw [hv] at h
    cases h
  · exact h

/-- Frames with the same values of the operands. -/
theorem passed_congr (hc : src.Closed) (hx : x ∈ src.instructions)
    (harguments : fr'.arguments = fr.arguments)
    (hvalue : ∀ d ∈ src.instructions, .instruction d.id ∈ x.operands →
      fr'.value d.id = fr.value d.id) (n : Nat) :
    fr'.passed address x n = fr.passed address x n := by
  unfold Frame.passed
  split
  · rfl
  · cases hv : x.getArgOperand n with
    | instruction id =>
      obtain ⟨d, hd, rfl⟩ := hc x hx id (getArgOperand_mem hv)
      exact hvalue d hd (getArgOperand_mem hv)
    | argument k =>
      unfold Frame.eval
      rw [harguments]
    | constant | global | undefValue => rfl

theorem requested_congr (hpassed : ∀ n, fr'.passed address x n = fr.passed address x n) :
    fr'.requested address x = fr.requested address x := by
  unfold Frame.requested
  rw [hpassed, hpassed]

theorem stores_congr (hpassed : ∀ n, fr'.passed address x n = fr.passed address x n)
    (hblocks : fr'.blocks = fr.blocks) {bytes : List (BitVec 8)} :
    fr'.stores address x bytes = fr.stores address x bytes := by
  have hresult : ∀ ci v, fr'.Result ci v ↔ fr.Result ci v := by
    intro ci v
    unfold Frame.Result
    rw [hblocks]
  simp only [Frame.stores, hpassed, hblocks, hresult]

/-! ## The instructions a frame has executed -/

/-- What a frame knows after the instructions in `trace`. -/
structure Frame.Trace (address : String → BitVec 32) (src : SourceFunction)
    (trace : List Instruction) (allocations : Nat) (blocks : Nat → Option Block) (fr : Frame) :
    Prop where
  verified : src.Verified
  mem : ∀ x ∈ trace, x ∈ src.instructions
  function : fr.blocks = (runOnFunction src.toFunction).function.blocks
  walk : src.Walk (trace ++ fr.rest.filter Instruction.fromSource)
  bitcast : ∀ u ∈ src.instructions, u.opcode = .BitCastInst → ∀ c ∈ src.instructions,
    u.getOperand 0 = .instruction c.id → Since c u trace →
    ∀ v, fr.value c.id = some v → fr.value u.id = some v
  allocated : ∀ c ∈ src.instructions, c.opcode.allocates = true → ∀ n,
    fr.allocation c.id = some n → n < allocations ∧ ∃ block, blocks n = some block ∧
      fr.value c.id = some block.pointer ∧
      ((∀ d ∈ src.instructions, .instruction d.id ∈ c.operands → Since d c trace) →
        fr.requested address c = some block.size)

/-- What comes of executing `x`. -/
structure Frame.Executed (address : String → BitVec 32) (fr : Frame) (x : Instruction)
    (allocations : Nat) (blocks : Nat → Option Block) (fr' : Frame) : Prop where
  function : fr'.blocks = fr.blocks
  arguments : fr'.arguments = fr.arguments
  value : ∀ id, id ≠ x.id → fr'.value id = fr.value id
  allocation : ∀ id, id ≠ x.id → fr'.allocation id = fr.allocation id
  bitcast : x.opcode = .BitCastInst → ∀ v, fr.passed address x 0 = some v →
    fr'.value x.id = some v
  allocated : x.opcode.allocates = true → ∀ n, fr'.allocation x.id = some n →
    n < allocations ∧ ∃ block, blocks n = some block ∧ fr'.value x.id = some block.pointer ∧
      fr.requested address x = some block.size

theorem opcode_ne_other (h : i.opcode = .StoreInst ∨ i.opcode = .BitCastInst ∨
    i.opcode.allocates = true) : i.opcode ≠ .other := by
  rintro he
  rw [he] at h
  simp [Opcode.allocates] at h

/-- An operand of an instruction that is reached is another instruction. -/
theorem SourceFunction.Verified.operand_ne (hv : src.Verified) (hx : x ∈ src.instructions)
    (hop : x.opcode ≠ .other) (hwalk : src.Walk (trace ++ [x])) (hd : d ∈ src.instructions)
    (hmem : .instruction d.id ∈ x.operands) : d.id ≠ x.id := by
  intro he
  exact (hv.dominates x hx hop d hd hmem).ne hwalk (src.eq_of_id hd hx he)

theorem Frame.Executed.passed (h : fr.Executed address x allocations blocks fr')
    (hv : src.Verified) (hx : x ∈ src.instructions) (hop : x.opcode ≠ .other)
    (hwalk : src.Walk (trace ++ [x])) (n : Nat) :
    fr'.passed address x n = fr.passed address x n := by
  refine passed_congr hv.closed hx h.arguments (fun d hd hmem => h.value d.id ?_) n
  exact hv.operand_ne hx hop hwalk hd hmem

/-- An instruction of the source. -/
theorem Frame.Trace.execute (h : fr.Trace address src trace allocations blocks)
    (hx : x ∈ src.instructions) (hwalk : src.Walk (trace ++ [x]))
    (hexec : fr.Executed address x allocations' blocks' fr')
    (hrest : src.Walk (trace ++ [x] ++ fr'.rest.filter Instruction.fromSource))
    (hle : allocations ≤ allocations') (hblocks : ∀ n < allocations, blocks' n = blocks n) :
    fr'.Trace address src (trace ++ [x]) allocations' blocks' := by
  have hne : ∀ y ∈ src.instructions, y ≠ x → y.id ≠ x.id :=
    fun y hy hyx he => hyx (src.eq_of_id hy hx he)
  refine ⟨h.verified, ?_, hexec.function.trans h.function, hrest, ?_, ?_⟩
  · intro y hy
    rcases List.mem_append.1 hy with hy | hy
    · exact h.mem y hy
    · exact List.mem_singleton.1 hy ▸ hx
  · intro u hu hop c hc hoperand hsince v hcv
    have hmem : .instruction c.id ∈ u.operands := getArgOperand_mem hoperand
    by_cases hux : u = x
    · subst hux
      have hcu := h.verified.operand_ne hu (opcode_ne_other (.inr (.inl hop))) hwalk hc hmem
      refine hexec.bitcast hop v ?_
      rw [hexec.value _ hcu] at hcv
      unfold Frame.passed
      rw [show u.getArgOperand 0 = .instruction c.id from hoperand]
      exact hcv
    · obtain ⟨hsince, hcx⟩ := (since_concat.1 hsince).resolve_left hux
      rw [hexec.value _ (hne u hu hux)]
      rw [hexec.value _ (hne c hc hcx)] at hcv
      exact h.bitcast u hu hop c hc hoperand hsince v hcv
  · intro c hc hal n hn
    by_cases hcx : c = x
    · subst hcx
      obtain ⟨hlt, block, hblock, hpointer, hsize⟩ := hexec.allocated hal n hn
      refine ⟨hlt, block, hblock, hpointer, fun _ => ?_⟩
      rw [requested_congr (hexec.passed h.verified hc (opcode_ne_other (.inr (.inr hal))) hwalk)]
      exact hsize
    · rw [hexec.allocation _ (hne c hc hcx)] at hn
      obtain ⟨hlt, block, hblock, hpointer, hsize⟩ := h.allocated c hc hal n hn
      refine ⟨by omega, block, (hblocks n hlt).trans hblock, ?_, fun hsince => ?_⟩
      · rw [hexec.value _ (hne c hc hcx), hpointer]
      · have hdx : ∀ d ∈ src.instructions, .instruction d.id ∈ c.operands →
            Since d c trace ∧ d ≠ x :=
          fun d hd hmem => (since_concat.1 (hsince d hd hmem)).resolve_left hcx
        rw [requested_congr (passed_congr h.verified.closed hc hexec.arguments fun d hd hmem =>
          hexec.value _ (hne d hd (hdx d hd hmem).2))]
        exact hsize fun d hd hmem => (hdx d hd hmem).1

/-- An instruction that is inserted, and whatever other frames do. -/
theorem Frame.Trace.keep (h : fr.Trace address src trace allocations blocks)
    (hfunction : fr'.blocks = fr.blocks) (harguments : fr'.arguments = fr.arguments)
    (hallocation : fr'.allocation = fr.allocation)
    (hrest : fr'.rest.filter Instruction.fromSource = fr.rest.filter Instruction.fromSource)
    (hvalue : ∀ d ∈ src.instructions, fr'.value d.id = fr.value d.id)
    (hle : allocations ≤ allocations') (hblocks : ∀ n < allocations, blocks' n = blocks n) :
    fr'.Trace address src trace allocations' blocks' := by
  refine ⟨h.verified, h.mem, hfunction.trans h.function, hrest ▸ h.walk, ?_, ?_⟩
  · intro u hu hop c hc hoperand hsince v hcv
    rw [hvalue u hu]
    rw [hvalue c hc] at hcv
    exact h.bitcast u hu hop c hc hoperand hsince v hcv
  · intro c hc hal n hn
    rw [hallocation] at hn
    obtain ⟨hlt, block, hblock, hpointer, hsize⟩ := h.allocated c hc hal n hn
    refine ⟨by omega, block, (hblocks n hlt).trans hblock, (hvalue c hc).trans hpointer, ?_⟩
    rw [requested_congr (passed_congr h.verified.closed hc harguments fun d hd _ => hvalue d hd)]
    exact hsize

/-- Where the frame at work is: after the last instruction in `trace`, and the casts and products in
`known` that are inserted after it. If that is a store, it was executed just now. -/
structure Frame.At (address : String → BitVec 32) (src : SourceFunction)
    (trace : List Instruction) (known : Set InstId) (allocations : Nat)
    (blocks : Nat → Option Block) (memory : Memory) (fr : Frame) : Prop where
  traced : fr.Trace address src trace allocations blocks
  attached : Attached src trace.getLast? known fr.rest
  cast : ∀ ci x, trace.getLast? = some x → .bitcast_inst ci x.id ∈ known →
    ∀ a, fr.passed address x 1 = some a → fr.value (.bitcast_inst ci x.id) = some a
  product : ∀ c ∈ src.instructions, ∀ si, .second c.id si ∈ known → ∀ n k,
    fr.passed address c 0 = some n → fr.passed address c 1 = some k →
    fr.value (.second c.id si) = some (n * k)
  wrote : ∀ x, trace.getLast? = some x → x.opcode = .StoreInst →
    (∃ i ∈ fr.rest.head?, i.fromSource = false) → ∃ a bytes before,
      fr.passed address x 1 = some a ∧ fr.stores address x bytes = true ∧
      memory = Memory.write before a bytes

theorem notSource_ne (hi : i.fromSource = false) (hd : d ∈ src.instructions) : d.id ≠ i.id := by
  intro he
  have hd' := (src.given d hd).1
  obtain ⟨n, hn⟩ := fromSource_iff.1 hd'
  rw [fromSource_iff.2 ⟨n, he.symm.trans hn⟩] at hi
  cases hi

/-- An instruction that is inserted has the value `result`. -/
theorem Frame.At.update (h : fr.At address src trace known allocations blocks memory)
    (hr : fr.rest = i :: rest) (hi : i.fromSource = false) {result : BitVec 32}
    {known' : Set InstId} (hattached : Attached src trace.getLast? known' rest)
    (hknown : known' ⊆ insert i.id known)
    (hcast : ∀ ci x, i.id = .bitcast_inst ci x.id → trace.getLast? = some x →
      ∀ a, fr.passed address x 1 = some a → result = a)
    (hproduct : ∀ c ∈ src.instructions, ∀ si, i.id = .second c.id si → ∀ n k,
      fr.passed address c 0 = some n → fr.passed address c 1 = some k → result = n * k) :
    Frame.At address src trace known' allocations blocks memory
      { fr with rest := rest, value := Function.update fr.value i.id (some result) } := by
  have hvalue : ∀ d ∈ src.instructions,
      Function.update fr.value i.id (some result) d.id = fr.value d.id :=
    fun d hd => Function.update_of_ne (notSource_ne hi hd) _ _
  have hlast : ∀ x, trace.getLast? = some x → x ∈ src.instructions :=
    fun x hx => h.traced.mem x (List.mem_of_getLast? hx)
  have hpassed : ∀ x ∈ src.instructions, ∀ n, Frame.passed address
      { fr with rest := rest, value := Function.update fr.value i.id (some result) } x n =
      fr.passed address x n :=
    fun x hx => passed_congr h.traced.verified.closed hx rfl fun d hd _ => hvalue d hd
  constructor
  · refine h.traced.keep rfl rfl rfl ?_ hvalue le_rfl fun _ _ => rfl
    rw [hr, List.filter_cons, hi, if_neg Bool.false_ne_true]
  · exact hattached
  · intro ci x hx hmem a ha
    rw [hpassed x (hlast x hx)] at ha
    by_cases hid : .bitcast_inst ci x.id = i.id
    · rw [hid, ← hcast ci x hid.symm hx a ha]
      exact Function.update_self ..
    · have hmem' := (hknown hmem).resolve_left hid
      exact (Function.update_of_ne hid _ _).trans (h.cast ci x hx hmem' a ha)
  · intro c hc si hmem n k hn hk
    rw [hpassed c hc] at hn hk
    by_cases hid : .second c.id si = i.id
    · rw [hid, ← hproduct c hc si hid.symm n k hn hk]
      exact Function.update_self ..
    · have hmem' := (hknown hmem).resolve_left hid
      exact (Function.update_of_ne hid _ _).trans (h.product c hc si hmem' n k hn hk)
  · intro x hx hop _
    obtain ⟨a, bytes, before, ha, hbytes, hmemory⟩ :=
      h.wrote x hx hop ⟨i, by rw [hr]; rfl, hi⟩
    refine ⟨a, bytes, before, (hpassed x (hlast x hx) 1).trans ha, ?_, hmemory⟩
    rw [stores_congr (hpassed x (hlast x hx)) (by rfl)]
    exact hbytes

theorem Attached.of_none (h : Attached src none known rest) (last : Option Instruction) :
    Attached src last known rest := by
  generalize hnone : (none : Option Instruction) = start at h
  induction h with
  | nil => exact .nil
  | source hx hrest _ => exact .source hx hrest
  | beside hi _ ih => exact .beside hi (ih hnone)
  | cast | pointer | product | memory => cases hnone

theorem Attached.source_inv {last : Option Instruction} (h : Attached src last known (x :: rest))
    (hx : x.fromSource = true) : x ∈ src.instructions ∧ Attached src (some x) ∅ rest := by
  cases h with
  | source hmem hrest => exact ⟨hmem, hrest⟩
  | beside hi => cases hi <;> cases hx
  | cast | pointer | product | memory => cases hx

/-- The step at an instruction that is inserted. -/
theorem Frame.At.insert {counter v : BitVec 32}
    (h : fr.At address src trace known allocations blocks memory) (hr : fr.rest = i :: rest)
    (hi : i.fromSource = false) (hcasts : fr.casts address i (.value v) = true)
    (hfr' : fr.execute counter i rest v = some fr') :
    ∃ known', fr'.At address src trace known' allocations blocks memory := by
  obtain ⟨result, hresult, rfl⟩ := Option.map_eq_some_iff.1 hfr'
  have hattached := h.attached
  rw [hr] at hattached
  generalize hlast : trace.getLast? = last at hattached
  cases hattached with
  | source hx => cases hi.symm.trans (src.given i hx).1
  | beside hb hrest =>
    refine ⟨known, h.update hr hi (hlast ▸ hrest) (Set.subset_insert _ _) ?_ ?_⟩
    · cases hb <;> exact fun ci x hid => InstId.noConfusion hid
    · cases hb <;> exact fun c _ si hid => InstId.noConfusion hid
  | @cast x c _ _ hrest =>
    obtain rfl : v = result := Option.some.inj hresult
    refine ⟨_, h.update hr hi (hlast ▸ hrest) subset_rfl ?_ fun c _ si hid => InstId.noConfusion hid⟩
    intro ci y hid hy a ha
    obtain rfl : x = y := Option.some.inj (hlast.symm.trans hy)
    have hoperand : fr.passed address (castOf c.id x) 0 = some a := ha
    unfold Frame.casts at hcasts
    rw [hoperand] at hcasts
    simpa [castOf, eq_comm] using hcasts
  | pointer _ _ hrest =>
    exact ⟨known, h.update hr hi (hlast ▸ hrest) (Set.subset_insert _ _)
      (fun ci x hid => InstId.noConfusion hid) fun c _ si hid => InstId.noConfusion hid⟩
  | @product x c _ _ hc hrest =>
    refine ⟨_, h.update hr hi (hlast ▸ hrest) subset_rfl (fun ci x hid => InstId.noConfusion hid) ?_⟩
    intro c' hc' si hid n k hn hk
    obtain rfl : c = c' := src.eq_of_id hc hc' (InstId.second.inj hid).1
    obtain ⟨p, hp, hresult⟩ := Option.bind_eq_some_iff.1 hresult
    obtain ⟨q, hq, hresult⟩ := Option.bind_eq_some_iff.1 hresult
    obtain rfl : p = n := Option.some.inj ((passed_of_eval hp).symm.trans hn)
    obtain rfl : q = k := Option.some.inj ((passed_of_eval hq).symm.trans hk)
    exact (Option.some.inj hresult).symm
  | memory _ _ hrest =>
    exact ⟨known, h.update hr hi (hlast ▸ hrest) (Set.subset_insert _ _)
      (fun ci x hid => InstId.noConfusion hid) fun c _ si hid => InstId.noConfusion hid⟩

/-- After an instruction of the source. -/
theorem Frame.Trace.at (h : fr.Trace address src trace allocations blocks)
    (hx : x ∈ src.instructions) (hwalk : src.Walk (trace ++ [x]))
    (hexec : fr.Executed address x allocations' blocks' fr')
    (hrest : src.Walk (trace ++ [x] ++ fr'.rest.filter Instruction.fromSource))
    (hattached : Attached src (some x) ∅ fr'.rest) (hle : allocations ≤ allocations')
    (hblocks : ∀ n < allocations, blocks' n = blocks n)
    (hwrote : x.opcode = .StoreInst → ∃ a bytes before, fr.passed address x 1 = some a ∧
      fr.stores address x bytes = true ∧ memory = Memory.write before a bytes) :
    fr'.At address src (trace ++ [x]) ∅ allocations' blocks' memory := by
  have hlast : (trace ++ [x]).getLast? = some x := List.getLast?_concat
  refine ⟨h.execute hx hwalk hexec hrest hle hblocks, hlast ▸ hattached,
    fun _ _ _ hmem => absurd hmem (Set.notMem_empty _),
    fun _ _ _ hmem => absurd hmem (Set.notMem_empty _), fun y hy hop _ => ?_⟩
  obtain rfl : x = y := Option.some.inj (hlast.symm.trans hy)
  obtain ⟨a, bytes, before, ha, hbytes, hmemory⟩ := hwrote hop
  have hpassed := hexec.passed h.verified hx (opcode_ne_other (.inl hop)) hwalk
  refine ⟨a, bytes, before, (hpassed 1).trans ha, ?_, hmemory⟩
  rw [stores_congr hpassed hexec.function]
  exact hbytes

/-! ## The frames of an execution -/

/-- The frame at work. -/
def Frame.Active (address : String → BitVec 32) (allocations : Nat) (blocks : Nat → Option Block)
    (memory : Memory) (fr : Frame) : Prop :=
  ∃ src trace known, fr.At address src trace known allocations blocks memory

/-- A frame that waits for a call to return. -/
def Frame.Suspended (address : String → BitVec 32) (allocations : Nat)
    (blocks : Nat → Option Block) (fr : Frame) : Prop :=
  ∃ src trace call rest, fr.Trace address src trace allocations blocks ∧ fr.rest = call :: rest ∧
    call ∈ src.instructions ∧ call.opcode.allocates = false ∧ Attached src (some call) ∅ rest

theorem Frame.Suspended.later (h : fr.Suspended address allocations blocks)
    (hle : allocations ≤ allocations') (hblocks : ∀ n < allocations, blocks' n = blocks n) :
    fr.Suspended address allocations' blocks' := by
  obtain ⟨src, trace, call, rest, htrace, hcall⟩ := h
  exact ⟨src, trace, call, rest,
    htrace.keep rfl rfl rfl rfl (fun _ _ => rfl) hle hblocks, hcall⟩

theorem SourceFunction.block_chain {b : List Instruction} (hb : b ∈ src.blocks) :
    b.IsChain src.Next := by
  have hsuffix : ∀ l pre, b = pre ++ l → l.IsChain src.Next := by
    intro l
    induction l with
    | nil => exact fun _ _ => .nil
    | cons x l ih =>
      intro pre he
      have hl := ih (pre ++ [x]) (by rw [he, List.append_assoc]; rfl)
      cases l with
      | nil => exact .singleton x
      | cons y l => exact .cons_cons (.inl ⟨b, hb, pre, l, by rw [he]; simp⟩) hl
  exact hsuffix b [] rfl

/-- The instructions of the source in a block. -/
theorem filter_block (hc : src.Closed) {n : Nat} {b : List Instruction}
    (hb : (runOnFunction src.toFunction).function.blocks[n]? = some b) :
    src.blocks[n]? = some (b.filter Instruction.fromSource) := by
  rw [← runOnFunction_source hc, Function.sources, List.getElem?_map, hb]
  rfl

theorem Module.entry_active (hm : m.Verified) {name : String} {arguments : List (BitVec 32)}
    (h : m.entry name arguments = some fr) : fr.Active address allocations blocks memory := by
  obtain ⟨src, hsrc, h⟩ := Option.bind_eq_some_iff.1 h
  obtain rfl := Option.some.inj h
  have hv := hm name src hsrc
  have hattached := runOnFunction_attached hv.closed
  have hfilter := @filter_block src hv.closed
  generalize hblocks : (runOnFunction src.toFunction).function.blocks = bs at hattached hfilter
  have hwalk : src.Walk ((bs.headD []).filter Instruction.fromSource) ∧
      Attached src none ∅ (bs.headD []) := by
    cases bs with
    | nil => exact ⟨⟨fun _ hx => absurd hx (Option.some_ne_none _).symm, .nil⟩, .nil⟩
    | cons b bs =>
      have hb := hfilter (n := 0) rfl
      have hhead : src.blocks.head? = some (b.filter Instruction.fromSource) :=
        (List.head?_eq_getElem? ..).trans hb
      refine ⟨⟨fun x hx => ?_, src.block_chain (List.mem_of_getElem? hb)⟩,
        hattached b List.mem_cons_self⟩
      unfold SourceFunction.Entry
      rw [List.headD_eq_head?_getD, hhead]
      exact hx
  refine ⟨src, [], ∅, ⟨hv, fun _ hx => absurd hx List.not_mem_nil, hblocks.symm, hwalk.1, ?_, ?_⟩,
    hwalk.2, fun _ _ hx => ?_, fun _ _ _ hmem => absurd hmem (Set.notMem_empty _), fun _ hx => ?_⟩
  · exact fun u _ _ c _ _ _ v hv => absurd hv (Option.some_ne_none v).symm
  · exact fun c _ _ n hn => absurd hn (Option.some_ne_none n).symm
  · cases hx
  · cases hx

/-! ## Steps keep the invariant -/

/-- The instruction of the source is executed by a plain step. -/
theorem Frame.executed {counter v : BitVec 32} (hal : x.opcode.allocates = false)
    (hcasts : x.opcode = .BitCastInst → fr.casts address x (.value v) = true)
    (hfr' : fr.execute counter x rest v = some fr') :
    fr.Executed address x allocations blocks fr' ∧ fr'.rest = rest := by
  obtain ⟨result, hresult, rfl⟩ := Option.map_eq_some_iff.1 hfr'
  refine ⟨⟨rfl, rfl, fun id hid => Function.update_of_ne hid _ _, fun _ _ => rfl, ?_, ?_⟩, rfl⟩
  · intro hop u hu
    unfold Frame.result at hresult
    rw [hop] at hresult
    obtain rfl : v = result := Option.some.inj hresult
    have hcast := hcasts hop
    unfold Frame.casts at hcast
    rw [hop, hu] at hcast
    obtain rfl : u = v := by simpa using hcast
    exact Function.update_self ..
  · rw [hal]
    exact fun h => absurd h Bool.false_ne_true

/-- An allocation call. -/
theorem Frame.executed_allocation {counter v : BitVec 32} {size : ℕ}
    (hal : x.opcode.allocates = true) (hsize : fr.requested address x = some size)
    (hfr' : fr.execute counter x rest v = some fr') :
    fr.Executed address x (allocations + 1)
      (Function.update blocks allocations (some ⟨v, size⟩))
      { fr' with allocation := Function.update fr'.allocation x.id (some allocations) } ∧
    fr'.rest = rest := by
  obtain ⟨result, hresult, rfl⟩ := Option.map_eq_some_iff.1 hfr'
  obtain rfl : v = result := by
    unfold Frame.result at hresult
    cases hop : x.opcode <;> simp_all [Opcode.allocates]
  refine ⟨⟨rfl, rfl, fun id hid => Function.update_of_ne hid _ _,
    fun id hid => Function.update_of_ne hid _ _, fun hop => ?_, fun _ n hn => ?_⟩, rfl⟩
  · rw [hop] at hal
    cases hal
  · have hself : Function.update fr.allocation x.id (some allocations) x.id = some n := hn
    rw [Function.update_self] at hself
    obtain rfl := Option.some.inj hself
    exact ⟨Nat.lt_succ_self _, ⟨v, size⟩, Function.update_self .., Function.update_self .., hsize⟩

theorem memoryAfter_store {effect : Effect} (hx : x.fromSource = true) (hop : x.opcode = .StoreInst)
    (h : fr.memoryAfter address memory x effect = some memory') : ∃ a bytes before,
      fr.passed address x 1 = some a ∧ fr.stores address x bytes = true ∧
      memory' = Memory.write before a bytes := by
  cases effect with
  | unchanged =>
    rw [Frame.memoryAfter, if_pos ⟨hx, hop⟩] at h
    cases h
  | store bytes =>
    simp only [Frame.memoryAfter] at h
    split_ifs at h with hstores
    obtain ⟨a, ha, rfl⟩ := Option.map_eq_some_iff.1 h
    exact ⟨a, bytes, memory, ha, hstores.2.2, rfl⟩
  | any after =>
    rw [Frame.memoryAfter, hop, if_neg fun hn => Bool.false_ne_true hn.2] at h
    cases h

theorem memoryAfter_inserted {effect : Effect} (hi : i.fromSource = false)
    (h : fr.memoryAfter address memory i effect = some memory') : memory' = memory := by
  unfold Frame.memoryAfter at h
  cases effect <;> simp [hi] at h
  exact h.symm

theorem Attached.inserted {last : Option Instruction} (h : Attached src last known (i :: rest))
    (hi : i.fromSource = false) : i.opcode.allocates = false ∧ i.opcode ≠ .ReturnInst ∧
      ∀ successors, i.opcode ≠ .BranchInst successors := by
  cases h with
  | source hx => cases hi.symm.trans (src.given i hx).1
  | beside hb => cases hb <;> simp [loadCounter, incCounter, storeCounter, tagFree, Opcode.allocates]
  | cast => simp [castOf, Opcode.allocates]
  | pointer => simp [tagPointer, Opcode.allocates]
  | product => simp [productOf, Opcode.allocates]
  | memory => simp [tagMemory, Opcode.allocates]

namespace MemoryState

variable {t t' : MemoryState} {event : Choice × Effect} {choice : Choice} {effect : Effect}
  {frames frames' : List Frame}

def Stack (address : String → BitVec 32) (allocations : Nat) (blocks : Nat → Option Block)
    (memory : Memory) : List Frame → Prop
  | [] => True
  | fr :: frames => fr.Active address allocations blocks memory ∧
      ∀ g ∈ frames, g.Suspended address allocations blocks

def Invariant (address : String → BitVec 32) (t : MemoryState) : Prop :=
  Stack address t.state.allocations t.blocks t.memory t.state.frames

theorem record_eq (hal : i.opcode.allocates = false) (h : t.record address fr i choice = some blocks) :
    blocks = t.blocks := by
  unfold record at h
  split at h
  · rw [hal, if_neg Bool.false_ne_true] at h
    exact (Option.some.inj h).symm
  · exact (Option.some.inj h).symm

theorem step_spec (hs : t.step m address event = some t') :
    ∃ fr i frames rest events, t.state.next = some (fr, i) ∧ t.state.frames = fr :: frames ∧
      fr.rest = i :: rest ∧ fr.events t.state.ima_tag_count i = some events ∧
      fr.memoryAfter address t.memory i event.2 = some t'.memory ∧
      t.record address fr i event.1 = some t'.blocks ∧ fr.casts address i event.1 = true ∧
      t.state.stepAt m fr frames i rest event.1 = some t'.state := by
  obtain ⟨⟨fr, i⟩, hnext, hs⟩ := Option.bind_eq_some_iff.1 hs
  obtain ⟨memory, hmemory, hs⟩ := Option.bind_eq_some_iff.1 hs
  obtain ⟨blocks, hblocks, hs⟩ := Option.bind_eq_some_iff.1 hs
  split_ifs at hs with hcasts
  obtain ⟨state, hstate, hs⟩ := Option.bind_eq_some_iff.1 hs
  obtain rfl := Option.some.inj hs
  obtain ⟨fr', i', frames, rest, events, hnext', hf, hr, hevents, hstate⟩ := State.step_next hstate
  obtain ⟨rfl, rfl⟩ := Prod.mk.inj (Option.some.inj (hnext'.symm.trans hnext))
  exact ⟨fr', i', frames, rest, events, hnext, hf, hr, hevents, hmemory, hblocks, hcasts, hstate⟩

/-- The frame a call returns to runs on. -/
theorem returns_stack {counter v : BitVec 32} (h : m.returns counter v frames = some frames')
    (hw : ∀ g ∈ frames, g.Suspended address allocations blocks) :
    Stack address allocations blocks memory frames' := by
  cases frames with
  | nil =>
    obtain rfl := Option.some.inj h
    trivial
  | cons caller frames =>
    obtain ⟨⟨src, trace, call, rest, htrace, hr, hcall, hal, hattached⟩, hw⟩ :=
      List.forall_mem_cons.1 hw
    have hsource : call.fromSource = true := (src.given call hcall).1
    unfold Module.returns at h
    simp only [hr] at h
    split at h
    · rename_i name hdefines
      obtain ⟨fr', hfr', h⟩ := Option.bind_eq_some_iff.1 h
      obtain rfl := Option.some.inj h
      have hop : ∃ callee, call.opcode = .CallInst callee := by
        unfold Module.defines at hdefines
        split at hdefines
        · exact ⟨_, by assumption⟩
        · cases hdefines
      obtain ⟨callee, hop⟩ := hop
      obtain ⟨hexec, hrest⟩ := @Frame.executed address caller fr' allocations blocks call rest
        counter v hal (fun hb => Opcode.noConfusion (hop.symm.trans hb)) hfr'
      have hwalk := htrace.walk
      rw [hr, List.filter_cons, hsource, if_pos rfl, List.append_cons] at hwalk
      refine ⟨⟨src, _, ∅, htrace.at hcall hwalk.left hexec (hrest ▸ hwalk) (hrest ▸ hattached) le_rfl
        (fun _ _ => rfl) fun hb => ?_⟩, hw⟩
      rw [hop] at hb
      cases hb
    · obtain rfl := Option.some.inj h
      refine ⟨⟨src, trace, ∅, htrace, hr ▸ .source hcall hattached,
        fun _ _ _ hmem => absurd hmem (Set.notMem_empty _),
        fun _ _ _ hmem => absurd hmem (Set.notMem_empty _), fun _ _ _ hhead => ?_⟩, hw⟩
      obtain ⟨i, hi, hsource'⟩ := hhead
      rw [hr] at hi
      obtain rfl : call = i := Option.some.inj hi
      cases hsource.symm.trans hsource'

/-- A step at an instruction that is inserted. -/
theorem Invariant.step_inserted (h : t.Invariant address) (hf : t.state.frames = fr :: frames)
    (hr : fr.rest = i :: rest) (hi : i.fromSource = false)
    (hmemory : fr.memoryAfter address t.memory i effect = some t'.memory)
    (hblocks : t.record address fr i choice = some t'.blocks)
    (hcasts : fr.casts address i choice = true)
    (hs : t.state.stepAt m fr frames i rest choice = some t'.state) : t'.Invariant address := by
  unfold Invariant at h ⊢
  rw [hf] at h
  obtain ⟨⟨src, trace, known, hat⟩, hframes⟩ := h
  obtain ⟨hal, hreturn, hbranch⟩ := (hr ▸ hat.attached).inserted hi
  rw [memoryAfter_inserted hi hmemory, record_eq hal hblocks]
  rcases State.stepAt_cases hs with ⟨_, _, -, hal', -⟩ | ⟨fr', v, c', rfl, -, hfr', -, hs'⟩ |
    ⟨_, hop, -⟩ | ⟨_, _, _, hsource, -⟩ | ⟨hop, -⟩
  · cases hal.symm.trans hal'
  · obtain ⟨known', hat'⟩ := hat.insert hr hi hcasts hfr'
    rw [hs']
    exact ⟨⟨src, trace, known', hat'⟩, hframes⟩
  · exact absurd hop (hbranch _)
  · cases hi.symm.trans hsource
  · exact absurd hop hreturn

/-- A step at an instruction of the source. -/
theorem Invariant.step_source (hm : m.Verified) (h : t.Invariant address)
    (hf : t.state.frames = fr :: frames) (hr : fr.rest = x :: rest) (hx : x.fromSource = true)
    (hmemory : fr.memoryAfter address t.memory x effect = some t'.memory)
    (hblocks : t.record address fr x choice = some t'.blocks)
    (hcasts : fr.casts address x choice = true)
    (hs : t.state.stepAt m fr frames x rest choice = some t'.state) : t'.Invariant address := by
  unfold Invariant at h ⊢
  rw [hf] at h
  obtain ⟨⟨src, trace, known, hat⟩, hframes⟩ := h
  obtain ⟨hmem, hattached⟩ := (hr ▸ hat.attached).source_inv hx
  have hwalk := hat.traced.walk
  rw [hr, List.filter_cons, hx, if_pos rfl, List.append_cons] at hwalk
  rcases State.stepAt_cases hs with ⟨fr', v, rfl, hal, hfr', hs'⟩ |
    ⟨fr', v, c', rfl, hal, hfr', -, hs'⟩ | ⟨successors, hop, n, hn, b, hb, hs'⟩ |
    ⟨name, arguments, callee, -, hal, hcallee, hs'⟩ | ⟨hop, v, frames', hframes', hs'⟩
  · -- an allocation
    rw [record, if_pos hal] at hblocks
    obtain ⟨size, hsize, hblocks⟩ := Option.bind_eq_some_iff.1 hblocks
    obtain ⟨hexec, hrest⟩ := @Frame.executed_allocation address fr fr' t.state.allocations t.blocks x
      rest _ v size hal hsize hfr'
    have hlater : ∀ k < t.state.allocations, Function.update t.blocks t.state.allocations
        (some ⟨v, size⟩) k = t.blocks k := fun k hk => Function.update_of_ne (by omega) _ _
    rw [hs', ← Option.some.inj hblocks]
    refine ⟨⟨src, _, ∅, hat.traced.at hmem hwalk.left hexec (hrest ▸ hwalk) (hrest ▸ hattached)
      (Nat.le_succ _) hlater fun hop => ?_⟩, fun g hg => (hframes g hg).later (Nat.le_succ _) hlater⟩
    rw [hop] at hal
    cases hal
  · -- another instruction of the frame
    rw [hs', record_eq hal hblocks]
    obtain ⟨hexec, hrest⟩ := @Frame.executed address fr fr' t.state.allocations t.blocks x rest _ v
      hal (fun _ => hcasts) hfr'
    exact ⟨⟨src, _, ∅, hat.traced.at hmem hwalk.left hexec (hrest ▸ hwalk) (hrest ▸ hattached)
      le_rfl (fun _ _ => rfl) fun hop => memoryAfter_store hx hop hmemory⟩, hframes⟩
  · -- a branch
    have hal : x.opcode.allocates = false := by rw [hop]; rfl
    have hexec : fr.Executed address x t.state.allocations t.blocks { fr with rest := b } :=
      ⟨rfl, rfl, fun _ _ => rfl, fun _ _ => rfl, fun he => Opcode.noConfusion (hop.symm.trans he),
        fun he => absurd (hal.symm.trans he) Bool.false_ne_true⟩
    rw [hat.traced.function] at hb
    have hsrc := filter_block hat.traced.verified.closed hb
    have hattached' := runOnFunction_attached hat.traced.verified.closed b (List.mem_of_getElem? hb)
    rw [hs', record_eq hal hblocks]
    refine ⟨⟨src, _, ∅, hat.traced.at hmem hwalk.left hexec ?_ (hattached'.of_none _) le_rfl
      (fun _ _ => rfl) fun he => Opcode.noConfusion (hop.symm.trans he)⟩, hframes⟩
    refine ⟨fun y hy => hwalk.left.1 y ?_, List.isChain_append.2 ⟨hwalk.left.2,
      src.block_chain (List.mem_of_getElem? hsrc), fun y hy z hz => ?_⟩⟩
    · cases trace <;> exact hy
    · obtain rfl : x = y := by simpa using hy
      exact .inr ⟨successors, n, _, hop, hn, hsrc, hz⟩
  · -- a call of a function of the module
    rw [hs', record_eq hal hblocks]
    exact ⟨Module.entry_active hm hcallee,
      List.forall_mem_cons.2 ⟨⟨src, trace, x, rest, hat.traced, hr, hmem, hal, hattached⟩, hframes⟩⟩
  · -- a return
    have hal : x.opcode.allocates = false := by rw [hop]; rfl
    rw [hs', record_eq hal hblocks]
    exact returns_stack hframes' hframes

theorem Invariant.step (hm : m.Verified) (h : t.Invariant address)
    (hs : t.step m address event = some t') : t'.Invariant address := by
  obtain ⟨fr, i, frames, rest, events, -, hf, hr, -, hmemory, hblocks, hcasts, hs⟩ := step_spec hs
  cases hi : i.fromSource with
  | false => exact h.step_inserted hf hr hi hmemory hblocks hcasts hs
  | true => exact h.step_source hm hf hr hi hmemory hblocks hcasts hs

theorem Starts.invariant (hm : m.Verified) (h : t.Starts m) : t.Invariant address := by
  obtain ⟨name, arguments, fr, hentry, hframes⟩ := h
  unfold Invariant
  rw [hframes]
  exact ⟨Module.entry_active hm hentry, fun g hg => absurd hg List.not_mem_nil⟩

end MemoryState

end Dytan.IMA
