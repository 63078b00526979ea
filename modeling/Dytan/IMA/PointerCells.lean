import Dytan.IMA.Trace

/-!
# The cells that are tagged

A store that is found comes after the allocation call and after the bitcast of its result, which come
after the arguments of the call, by dominance. So the pointer is the value that it stores or the address
it stores at (`Frame.At.cell`), and the arguments still say how large the block is (`Frame.At.whole`).

`MemoryState.tags_iff`: along an execution every `DYTAN_tag_pointer` is for a cell that holds the pointer,
and every `DYTAN_tag_memory` for the whole block, if and only if the stores that are found store the
pointer.
-/

namespace Dytan.IMA

variable {address : String → BitVec 32} {m : Module} {src : SourceFunction} {fr : Frame}
  {trace : List Instruction} {allocations : Nat} {blocks : Nat → Option Block}
  {c i x : Instruction} {memory : Memory} {known : Set InstId} {rest : List Instruction}

/-! ## The cells -/

theorem SourceFunction.Found.dominates (hv : src.Verified) (h : src.Found c x) :
    Lib.Dominance.Dominates src.Entry src.Next c x := by
  have hop := opcode_ne_other (.inl h.opcode)
  rcases h.operand with hmem | ⟨u, hu, huop, hcu, hmem⟩
  · exact hv.dominates x h.store hop c h.call hmem
  · have hcu := hv.dominates u hu (opcode_ne_other (.inr (.inl huop))) c h.call hcu
    exact hcu.trans (hv.dominates x h.store hop u hu hmem)

theorem mem_source (hc : src.Closed) (hi : i ∈ (runOnFunction src.toFunction).function.instructions)
    (hsource : i.fromSource = true) : i ∈ src.instructions := by
  obtain ⟨b, hb, hi⟩ := List.mem_flatten.1 hi
  refine List.mem_flatten.2 ⟨b.filter Instruction.fromSource, ?_, List.mem_filter.2 ⟨hi, hsource⟩⟩
  rw [← runOnFunction_source hc]
  exact List.mem_map_of_mem hb

theorem source_mem (hc : src.Closed) (hx : x ∈ src.instructions) :
    x ∈ (runOnFunction src.toFunction).function.instructions := by
  obtain ⟨b, hb, hx⟩ := List.mem_flatten.1 hx
  rw [← runOnFunction_source hc] at hb
  obtain ⟨b, hb', rfl⟩ := List.mem_map.1 hb
  exact List.mem_flatten.2 ⟨b, hb', (List.mem_filter.1 hx).1⟩

/-- The value of an operand of the store `x` that is the result of the call `c` or a bitcast of it. -/
theorem Frame.At.result (h : fr.At address src trace known allocations blocks memory)
    (hlast : trace.getLast? = some x) (hf : src.Found c x) {n k : Nat} {block : Block}
    (hn : fr.allocation c.id = some n) (hblock : blocks n = some block)
    (hr : fr.Result c.id (x.getOperand k)) : fr.passed address x k = some block.pointer := by
  have hv := h.traced.verified
  obtain ⟨init, rfl⟩ := List.getLast?_eq_some_iff.1 hlast
  obtain ⟨-, block', hblock', hpointer, -⟩ := h.traced.allocated c hf.call hf.allocates n hn
  obtain rfl : block = block' := Option.some.inj (hblock.symm.trans hblock')
  have hof : ∀ id, x.getOperand k = .instruction id →
      fr.passed address x k = fr.value id := by
    intro id hid
    unfold Frame.passed
    rw [show x.getArgOperand k = .instruction id from hid]
    rfl
  rcases hr with hid | ⟨u, hu, hop, hoperand, hid⟩
  · rw [hof c.id hid, hpointer]
  · obtain ⟨j, hj, hju⟩ := hv.closed x hf.store u.id (getArgOperand_mem hid)
    have hu : u ∈ src.instructions := by
      rw [h.traced.function] at hu
      refine mem_source hv.closed hu (fromSource_iff.2 ?_)
      rw [← hju]
      exact (src.source j hj).1
    rw [hof u.id hid]
    have hcu := hv.dominates u hu (opcode_ne_other (.inr (.inl hop))) c hf.call
      (getArgOperand_mem hoperand)
    have hux := hv.dominates x hf.store (opcode_ne_other (.inl hf.opcode)) u hu
      (getArgOperand_mem hid)
    exact h.traced.bitcast u hu hop c hf.call hoperand (hcu.since hux h.traced.walk.left) _ hpointer

/-- A store that is found has the pointer as its value or as its address. -/
theorem SourceFunction.Found.operand_cases (hv : src.Verified) (hf : src.Found c x)
    (hblocks : fr.blocks = (runOnFunction src.toFunction).function.blocks) :
    fr.Result c.id (x.getOperand 0) ∨ fr.Result c.id (x.getOperand 1) := by
  have hnth : ∀ v ∈ x.operands, x.getOperand 0 = v ∨ x.getOperand 1 = v := by
    have hlength := hv.store x hf.store hf.opcode
    unfold Instruction.getOperand
    match x.operands, hlength with
    | [v, w], _ => simp [eq_comm]
  rcases hf.operand with hmem | ⟨u, hu, huop, hcu, hmem⟩
  · exact (hnth _ hmem).imp .inl .inl
  · have huc : u.getOperand 0 = .instruction c.id := by
      have hlength := hv.bitcast u hu huop
      unfold Instruction.getOperand
      match u.operands, hlength, hcu with
      | [v], _, hcu => exact (List.mem_singleton.1 hcu).symm
    have hu' : u ∈ fr.blocks.flatten := hblocks ▸ source_mem hv.closed hu
    exact (hnth _ hmem).imp (fun h => .inr ⟨u, hu', huop, huc, h⟩) fun h => .inr ⟨u, hu', huop, huc, h⟩

/-- The cell that is tagged after the store `x` holds the pointer if the store has it as its value, and
is the first of the block if not. -/
theorem Frame.At.cell (h : fr.At address src trace known allocations blocks memory)
    (hr : fr.rest = tagPointer c.id x.id :: rest) (hlast : trace.getLast? = some x)
    (hf : src.Found c x) (hmem : .bitcast_inst c.id x.id ∈ known) {n : Nat} {block : Block}
    (hn : fr.allocation c.id = some n) (hblock : blocks n = some block) :
    ∃ a, fr.passed address (tagPointer c.id x.id) 0 = some a ∧
      (fr.Result c.id (x.getOperand 0) → memory.word a = block.pointer) ∧
      (¬ fr.Result c.id (x.getOperand 0) → a = block.pointer) := by
  obtain ⟨a, bytes, before, ha, hbytes, hmemory⟩ :=
    h.wrote x hlast hf.opcode ⟨_, by rw [hr]; rfl, rfl⟩
  refine ⟨a, h.cast c.id x hlast hmem a ha, fun hresult => ?_, fun hnot => ?_⟩
  · have hc : c ∈ fr.blocks.flatten := by
      rw [h.traced.function]
      exact source_mem h.traced.verified.closed hf.call
    rw [hmemory, stores_pointer hbytes hc hf.allocates hresult (h.result hlast hf hn hblock hresult)]
    exact word_write
  · have hresult := (hf.operand_cases h.traced.verified h.traced.function).resolve_left hnot
    exact Option.some.inj (ha.symm.trans (h.result hlast hf hn hblock hresult))

/-- The block that is tagged. -/
theorem Frame.At.whole (h : fr.At address src trace known allocations blocks memory)
    (hlast : trace.getLast? = some x) (hf : src.Found c x) {second : Value}
    (hsize : c.SizeOf x known second) {n : Nat} {block : Block}
    (hn : fr.allocation c.id = some n) (hblock : blocks n = some block) :
    fr.passed address (tagMemory c.id x.id second) 0 = some block.pointer ∧
      ∃ size, fr.passed address (tagMemory c.id x.id second) 1 = some size ∧
        (block.size < 2 ^ 32 → size.toNat = block.size) := by
  have hv := h.traced.verified
  obtain ⟨init, rfl⟩ := List.getLast?_eq_some_iff.1 hlast
  obtain ⟨-, block', hblock', hpointer, hrequested⟩ :=
    h.traced.allocated c hf.call hf.allocates n hn
  obtain rfl : block = block' := Option.some.inj (hblock.symm.trans hblock')
  refine ⟨hpointer, ?_⟩
  -- the operands of the call were not executed again
  have hsome := hrequested fun d hd hmem =>
    (hv.dominates c hf.call (opcode_ne_other (.inr (.inr hf.allocates))) d hd hmem).since
      (hf.dominates hv) h.traced.walk.left
  unfold Frame.requested at hsome
  cases hsize with
  | malloc hop =>
    rw [hop] at hsome
    obtain ⟨size, hpassed, hsize⟩ := Option.map_eq_some_iff.1 hsome
    exact ⟨size, hpassed, fun _ => hsize⟩
  | realloc hop =>
    rw [hop] at hsome
    obtain ⟨size, hpassed, hsize⟩ := Option.map_eq_some_iff.1 hsome
    exact ⟨size, hpassed, fun _ => hsize⟩
  | calloc hop hmem =>
    rw [hop] at hsome
    obtain ⟨num, hnum, hsome⟩ := Option.bind_eq_some_iff.1 hsome
    obtain ⟨size, hpassed, hsome⟩ := Option.bind_eq_some_iff.1 hsome
    refine ⟨num * size, h.product c hf.call x.id hmem num size hnum hpassed, fun hlt => ?_⟩
    rw [BitVec.toNat_mul, Nat.mod_eq_of_lt]
    · exact Option.some.inj hsome
    · rwa [Option.some.inj hsome]

theorem Attached.pointer_inv {last : Option Instruction} {ci si : InstId}
    (h : Attached src last known (i :: rest)) (hid : i.id = .tag_pointer ci si) :
    ∃ c x, last = some x ∧ c.id = ci ∧ x.id = si ∧ i = tagPointer c.id x.id ∧ src.Found c x ∧
      .bitcast_inst c.id x.id ∈ known := by
  cases h with
  | source hi =>
    obtain ⟨⟨n, hn⟩, -⟩ := src.source i hi
    cases hn.symm.trans hid
  | beside hb => cases hb <;> cases hid
  | cast | product | memory => cases hid
  | @pointer x c _ _ hf hmem =>
    cases hid
    exact ⟨c, x, rfl, rfl, rfl, rfl, hf, hmem⟩

theorem Attached.memory_inv {last : Option Instruction} {ci si : InstId}
    (h : Attached src last known (i :: rest)) (hid : i.id = .tag_memory ci si) :
    ∃ c x second, last = some x ∧ c.id = ci ∧ i = tagMemory c.id x.id second ∧ src.Found c x ∧
      c.SizeOf x known second := by
  cases h with
  | source hi =>
    obtain ⟨⟨n, hn⟩, -⟩ := src.source i hi
    cases hn.symm.trans hid
  | beside hb => cases hb <;> cases hid
  | cast | product | pointer => cases hid
  | @memory x c _ second _ hf hsize =>
    cases hid
    exact ⟨c, x, second, rfl, rfl, rfl, hf, hsize⟩

namespace MemoryState

variable {t t' : MemoryState} {event : Choice × Effect}

/-- In a step the tags are as they should be if and only if the pointer is what is stored. -/
theorem tags_iff_storesPointer (h : t.Invariant address) (hs : t.step m address event = some t') :
    t.Tags address event ↔ t.StoresPointer event := by
  obtain ⟨fr, i, frames, rest, events, hnext, hf, hr, hevents, -⟩ := step_spec hs
  unfold Invariant at h
  rw [hf] at h
  obtain ⟨⟨src, trace, known, hat⟩, -⟩ := h
  have hattached : Attached src trace.getLast? known (i :: rest) := hr ▸ hat.attached
  -- what the last execution of the call allocated
  have hallocated : ∀ c x, src.Found c x → ((∃ si, i = tagPointer c.id si) ∨
      ∃ si second, i = tagMemory c.id si second) →
      ∃ n block, fr.allocation c.id = some n ∧ t.blocks n = some block := by
    intro c x hfound htag
    obtain ⟨n, v, hn, -, -⟩ := events_tag htag hevents
    obtain ⟨-, block, hblock, -⟩ := hat.traced.allocated c hfound.call hfound.allocates n hn
    exact ⟨n, block, hn, hblock⟩
  have hpointer : ∀ ci si, i.id = .tag_pointer ci si → ∃ block a, t.Allocated fr ci block ∧
      (∀ block', t.Allocated fr ci block' → block' = block) ∧
      fr.passed address i 0 = some a ∧ fr.passed address i 1 = some 4 ∧
      ((∃ x ∈ fr.blocks.flatten, x.id = si ∧ fr.Result ci (x.getOperand 0)) →
        t.memory.word a = block.pointer) ∧
      (¬ (∃ x ∈ fr.blocks.flatten, x.id = si ∧ fr.Result ci (x.getOperand 0)) →
        a = block.pointer) := by
    intro ci si hid
    obtain ⟨c, x, hlast, rfl, rfl, rfl, hfound, hmem⟩ := hattached.pointer_inv hid
    obtain ⟨n, block, hn, hblock⟩ := hallocated c x hfound (.inl ⟨_, rfl⟩)
    obtain ⟨a, ha, hstored, hthrough⟩ := hat.cell hr hlast hfound hmem hn hblock
    have hx : x ∈ fr.blocks.flatten := by
      rw [hat.traced.function]
      exact source_mem hat.traced.verified.closed hfound.store
    refine ⟨block, a, ⟨n, hn, hblock⟩, ?_, ha, rfl, ?_, fun hnot => hthrough fun hr => hnot ⟨x, hx, rfl, hr⟩⟩
    · rintro block' ⟨n', hn', hblock'⟩
      obtain rfl : n = n' := Option.some.inj (hn.symm.trans hn')
      exact Option.some.inj (hblock'.symm.trans hblock)
    · rintro ⟨y, hy, hid, hresult⟩
      have hy : y ∈ src.instructions := by
        rw [hat.traced.function] at hy
        refine mem_source hat.traced.verified.closed hy (fromSource_iff.2 ?_)
        rw [hid]
        exact (src.source x hfound.store).1
      obtain rfl : y = x := src.eq_of_id hy hfound.store hid
      exact hstored hresult
  constructor
  · intro htags fr' i' hnext' ci si hid
    obtain ⟨rfl, rfl⟩ := Prod.mk.inj (Option.some.inj (hnext.symm.trans hnext'))
    obtain ⟨block, a, hall, hunique, ha, -, -, hthrough⟩ := hpointer ci si hid
    by_cases hstored : ∃ x ∈ fr.blocks.flatten, x.id = si ∧ fr.Result ci (x.getOperand 0)
    · exact .inl hstored
    · refine .inr fun block' hall' => ?_
      obtain rfl := hunique block' hall'
      obtain ⟨block'', a', hall'', ha', -, hword⟩ := (htags fr i hnext).1 ci si hid
      obtain rfl := hunique block'' hall''
      obtain rfl : a = a' := Option.some.inj (ha.symm.trans ha')
      rwa [hthrough hstored] at hword
  · intro hstores fr' i' hnext'
    obtain ⟨rfl, rfl⟩ := Prod.mk.inj (Option.some.inj (hnext.symm.trans hnext'))
    constructor
    · intro ci si hid
      obtain ⟨block, a, hall, -, ha, hfour, hstored, hthrough⟩ := hpointer ci si hid
      refine ⟨block, a, hall, ha, hfour, ?_⟩
      by_cases hcase : ∃ x ∈ fr.blocks.flatten, x.id = si ∧ fr.Result ci (x.getOperand 0)
      · exact hstored hcase
      · rw [hthrough hcase]
        exact (hstores fr i hnext ci si hid).resolve_left hcase block hall
    · intro ci si hid
      obtain ⟨c, x, second, hlast, rfl, rfl, hfound, hsize⟩ := hattached.memory_inv hid
      obtain ⟨n, block, hn, hblock⟩ := hallocated c x hfound (.inr ⟨_, _, rfl⟩)
      obtain ⟨hpointer, size, hpassed, hsize⟩ := hat.whole hlast hfound hsize hn hblock
      exact ⟨block, size, ⟨n, hn, hblock⟩, hpointer, hpassed, hsize⟩

/-- In every execution of an instrumented module whose functions are well formed: whenever
`DYTAN_tag_pointer` is called, the four bytes it is called for hold the pointer that the allocation
returned, and whenever `DYTAN_tag_memory` is called, it is for the whole block, if and only if each
`DYTAN_tag_pointer` comes after a store of the pointer, or after a store through it when the block
begins with its own address. -/
theorem tags_iff {events : List (Choice × Effect)} (hm : m.Verified) (h : t.Starts m)
    (hr : Lib.run (step m address) t events = some t') :
    Lib.Along (step m address) (Tags address) t events ↔
      Lib.Along (step m address) StoresPointer t events := by
  refine Lib.along_iff_along (I := Invariant address) (V := fun _ _ => True) ?_ ?_ (h.invariant hm)
    (fun _ _ _ _ _ _ => trivial) hr
  · exact fun s event s' hs _ _ hstep => hs.step hm hstep
  · exact fun s event s' hs _ hstep => tags_iff_storesPointer hs hstep

end MemoryState

/-! ## A store of the pointer, and one through it -/

/-- Instruction 0 calls `malloc`, 1 is a store, 2 returns. -/
def storeOnce (operands : List Value) : List Instruction :=
  [⟨.source 0, .CallInst (some "malloc"), [.constant 4]⟩, ⟨.source 1, .StoreInst, operands⟩,
    ⟨.source 2, .ReturnInst, []⟩]

/-- One function stores the pointer at the address that is passed, the other a byte at the pointer. -/
def storeModule : Module
  | "keep" => some (.straight (storeOnce [.instruction (.source 0), .argument 0])
      (by decide) (by decide))
  | "fill" => some (.straight (storeOnce [.constant 0x41, .instruction (.source 0)])
      (by decide) (by decide))
  | _ => none

theorem storeOnce_verified {operands : List Value}
    {given : ∀ i ∈ storeOnce operands, i.fromSource ∧ ima_tag_count ∉ i.operands}
    {nodup : ((storeOnce operands).map Instruction.id).Nodup} (hlength : operands.length = 2)
    (hoperands : ∀ d, .instruction d ∈ operands → d = .source 0) :
    (SourceFunction.straight (storeOnce operands) given nodup).Verified := by
  have hmem : ∀ i, i ∈ (SourceFunction.straight (storeOnce operands) given nodup).instructions ↔
      i ∈ storeOnce operands := by
    intro i
    simp [SourceFunction.straight, Function.instructions]
  -- only the store has an operand that is an instruction
  have hdef : ∀ i ∈ storeOnce operands, ∀ d, .instruction d ∈ i.operands →
      d = .source 0 ∧ i = ⟨.source 1, .StoreInst, operands⟩ := by
    intro i hi d hd
    simp only [storeOnce, List.mem_cons, List.not_mem_nil, or_false] at hi
    rcases hi with rfl | rfl | rfl
    · simp at hd
    · exact ⟨hoperands d hd, rfl⟩
    · simp at hd
  constructor
  · intro i hi d hd
    obtain ⟨rfl, -⟩ := hdef i ((hmem i).1 hi) d hd
    exact ⟨_, (hmem _).2 List.mem_cons_self, rfl⟩
  · intro x hx hop
    have hx := (hmem x).1 hx
    simp only [storeOnce, List.mem_cons, List.not_mem_nil, or_false] at hx
    rcases hx with rfl | rfl | rfl
    · cases hop
    · exact hlength
    · cases hop
  · intro u hu hop
    have hu := (hmem u).1 hu
    simp only [storeOnce, List.mem_cons, List.not_mem_nil, or_false] at hu
    rcases hu with rfl | rfl | rfl <;> cases hop
  · intro i hi _ d hd hd' p hwalk
    obtain ⟨hid, rfl⟩ := hdef i ((hmem i).1 hi) d.id hd'
    have hd := (hmem d).1 hd
    simp only [storeOnce, List.mem_cons, List.not_mem_nil, or_false] at hd
    obtain rfl : d = ⟨.source 0, .CallInst (some "malloc"), [.constant 4]⟩ := by
      rcases hd with rfl | rfl | rfl
      · rfl
      · cases hid
      · cases hid
    -- the instruction before the store is the call
    rcases List.eq_nil_or_concat p with rfl | ⟨p, y, rfl⟩
    · cases hwalk.1 _ rfl
    · rw [List.concat_eq_append] at hwalk ⊢
      have hnext := (List.isChain_append.1 hwalk.2).2.2 y (by simp) _ rfl
      rcases hnext with ⟨b, hb, pre, post, he⟩ | ⟨-, n, b, -, -, hb, hhead⟩
      · obtain rfl := List.mem_singleton.1 hb
        rcases pre with _ | ⟨z, _ | ⟨w, pre⟩⟩
        · obtain ⟨rfl, -⟩ := List.cons.inj he
          exact List.mem_append_right _ List.mem_cons_self
        · simp [storeOnce] at he
        · have hlength := congrArg List.length he
          simp [storeOnce] at hlength
          omega
      · obtain rfl := List.mem_singleton.1 (List.mem_of_getElem? hb)
        cases hhead

namespace MemoryState

/-- The function is about to run with an address to store at. -/
def storeStart (name : String) : MemoryState where
  state := ⟨0, 0, (storeModule.entry name [0x200]).toList⟩
  memory _ := 0
  blocks _ := none

/-- Four steps to the call of `DYTAN_tag_pointer`: `malloc` returns 0x1000, the counter is loaded, the
store writes `bytes`, its address is cast. -/
def storeRun (bytes : List (BitVec 8)) (a : BitVec 32) : List (Choice × Effect) :=
  [(.value 0x1000, .unchanged), (.value 0, .unchanged), (.value 0, .store bytes),
    (.value a, .unchanged)]

theorem storeModule_verified : storeModule.Verified := by
  intro name src hsrc
  unfold storeModule at hsrc
  split at hsrc
  · obtain rfl := Option.some.inj hsrc
    exact storeOnce_verified rfl (by simp)
  · obtain rfl := Option.some.inj hsrc
    exact storeOnce_verified rfl (by simp)
  · cases hsrc

/-- The cell at 0x200, where the pointer is stored, and the four bytes of the block are tagged. -/
theorem tags_iff_keep : Lib.Along (step storeModule fun _ => 0) (Tags fun _ => 0) (storeStart "keep")
    (storeRun (littleEndian 0x1000) 0x200 ++ [(.value 0, .unchanged), (.value 0, .unchanged)]) := by
  have hr : (Lib.run (step storeModule fun _ => 0) (storeStart "keep")
      (storeRun (littleEndian 0x1000) 0x200 ++
        [(.value 0, .unchanged), (.value 0, .unchanged)])).isSome := by decide
  obtain ⟨t', ht'⟩ := Option.isSome_iff_exists.1 hr
  refine (tags_iff storeModule_verified ⟨"keep", [0x200], _, rfl, rfl⟩ ht').2 ?_
  have hother : ∀ (t : MemoryState) event, (∀ fr i, t.state.next = some (fr, i) →
      ∀ ci si, i.id ≠ .tag_pointer ci si) → t.StoresPointer event :=
    fun t _ hne fr i hnext ci si hid => absurd hid (hne fr i hnext ci si)
  refine (Lib.Along.cons rfl).2 ⟨hother _ _ ?_, (Lib.Along.cons rfl).2 ⟨hother _ _ ?_,
    (Lib.Along.cons rfl).2 ⟨hother _ _ ?_, (Lib.Along.cons rfl).2 ⟨hother _ _ ?_,
    (Lib.Along.cons rfl).2 ⟨?_, (Lib.Along.cons rfl).2 ⟨hother _ _ ?_, Lib.Along.nil⟩⟩⟩⟩⟩⟩
  case refine_5 =>
    intro fr i hi ci si hid
    cases hi
    cases hid
    exact .inl (by decide)
  all_goals
    intro fr i hi ci si
    cases hi
    exact InstId.noConfusion

/-- A byte is stored through the pointer: `DYTAN_tag_pointer` is called for the block, which does not
hold a pointer. -/
theorem fill_tags_block :
    storeModule.Verified ∧ (storeStart "fill").Starts storeModule ∧
      (Lib.run (step storeModule fun _ => 0) (storeStart "fill")
        (storeRun [0x41] 0x1000 ++ [(.value 0, .unchanged)])).isSome ∧
      ¬ Lib.Along (step storeModule fun _ => 0) (Tags fun _ => 0) (storeStart "fill")
        (storeRun [0x41] 0x1000 ++ [(.value 0, .unchanged)]) := by
  refine ⟨storeModule_verified, ⟨"fill", [0x200], _, rfl, rfl⟩, by decide, fun htags => ?_⟩
  obtain ⟨t, ht, fr, i, hnext, hid, hblock, hpassed, hword⟩ : ∃ t,
      Lib.run (step storeModule fun _ => 0) (storeStart "fill") (storeRun [0x41] 0x1000) = some t ∧
      ∃ fr i, t.state.next = some (fr, i) ∧ i.id = .tag_pointer (.source 0) (.source 1) ∧
        (∀ block, t.Allocated fr (.source 0) block → block.pointer = 0x1000) ∧
        fr.passed (fun _ => 0) i 0 = some 0x1000 ∧ t.memory.word 0x1000 = 0x41 := by
    refine ⟨_, rfl, _, _, rfl, rfl, ?_, rfl, by decide⟩
    rintro block ⟨n, hn, hblock⟩
    cases hn
    cases hblock
    rfl
  obtain ⟨block, a, hall, ha, -, hcell⟩ :=
    (htags (storeRun [0x41] 0x1000) _ [] rfl t ht fr i hnext).1 _ _ hid
  obtain rfl : 0x1000 = a := Option.some.inj (hpassed.symm.trans ha)
  rw [hword, hblock block hall] at hcell
  exact absurd hcell (by decide)

end MemoryState

end Dytan.IMA
