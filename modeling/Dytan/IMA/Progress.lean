import Dytan.IMA.PointerCells

/-!
# What is inserted can be executed

No instruction that the pass inserted stops an execution. A tag of an allocation call comes after the
call, by dominance, and after the load of the counter that follows the call; the product of the
arguments of `calloc` comes after a call that was executed with both of them.

`Frame.Reached`: the calls that a frame has executed have been loaded, and had their arguments.
`MemoryState.progress`: at an inserted instruction there is a step.
-/

namespace Dytan.IMA

/-! ## A call that is tagged is loaded -/

section
variable {src : SourceFunction} {f f' : Function} {second : Second} {name : String}
  {i u ci x c : Instruction} {is stores news : List Instruction}

/-- `i` is a tag for the call `ci`. -/
def Instruction.Tags (i : Instruction) (ci : InstId) : Prop :=
  ∃ si, i.id = .tag_pointer ci si ∨ i.id = .tag_memory ci si

theorem subset_insertAfter {x : InstId} (h : i ∈ f.instructions) :
    i ∈ (f.insertAfter x news).instructions := by
  obtain ⟨b, hb, hi⟩ := List.mem_flatten.1 h
  refine List.mem_flatten.2 ⟨_, List.mem_map_of_mem hb, List.mem_flatMap.2 ⟨i, hi, ?_⟩⟩
  split_ifs
  · exact List.mem_cons_self
  · exact List.mem_singleton_self i

theorem inserted_mem (h : ci ∈ f.instructions) (hu : u ∈ news) :
    u ∈ (f.insertAfter ci.id news).instructions := by
  obtain ⟨b, hb, hci⟩ := List.mem_flatten.1 h
  refine List.mem_flatten.2 ⟨_, List.mem_map_of_mem hb, List.mem_flatMap.2 ⟨ci, hci, ?_⟩⟩
  rw [if_pos rfl]
  exact List.mem_cons_of_mem _ hu

/-- The function at work has the instructions of the source, and with each tag the load for its
call. -/
structure LoadsTagged (src : SourceFunction) (f : Function) : Prop where
  source : ∀ i ∈ src.instructions, i ∈ f.instructions
  load : ∀ u ∈ f.instructions, ∀ ci, u.Tags ci → loadCounter ci ∈ f.instructions

theorem LoadsTagged.insertAfter (h : LoadsTagged src f) {x : InstId}
    (hnews : ∀ u ∈ news, ∀ ci, u.Tags ci → loadCounter ci ∈ f.instructions) :
    LoadsTagged src (f.insertAfter x news) := by
  refine ⟨fun i hi => subset_insertAfter (h.source i hi), fun u hu ci htag => ?_⟩
  refine subset_insertAfter ?_
  rcases mem_insertAfter hu with hu | hu
  · exact h.load u hu ci htag
  · exact hnews u hu ci htag

theorem tagStore_tags {c : InstId}
    (hsecond : ∀ si, ∀ u ∈ (second ci si).1, u.id = .second ci.id si) (last : Bool)
    (hu : u ∈ tagStore second ci x last) (htag : u.Tags c) : c = ci.id := by
  obtain ⟨si, hid⟩ := htag
  simp only [tagStore, List.append_assoc, List.mem_append, List.mem_cons, List.not_mem_nil,
    or_false] at hu
  rcases hu with (rfl | rfl) | hu | rfl | hu
  · rcases hid with hid | hid <;> cases hid
  · rcases hid with hid | hid <;> cases hid
    rfl
  · rw [hsecond x.id u hu] at hid
    rcases hid with hid | hid <;> cases hid
  · rcases hid with hid | hid <;> cases hid
    rfl
  · split_ifs at hu
    · simp only [List.mem_cons, List.not_mem_nil, or_false] at hu
      rcases hu with rfl | rfl <;> rcases hid with hid | hid <;> cases hid
    · cases hu

theorem LoadsTagged.tagStores (h : LoadsTagged src f) (hload : loadCounter ci.id ∈ f.instructions)
    (hsecond : ∀ si, ∀ u ∈ (second ci si).1, u.id = .second ci.id si) :
    LoadsTagged src (tagStores second ci stores f) := by
  induction stores generalizing f with
  | nil => exact h
  | cons si stores ih =>
    refine ih (h.insertAfter fun u hu c htag => ?_) (subset_insertAfter hload)
    rw [tagStore_tags hsecond _ hu htag]
    exact hload

theorem LoadsTagged.instrumentAllocation (h : LoadsTagged src f) (hci : ci ∈ src.instructions)
    {frees : Bool} (hsecond : ∀ si, ∀ u ∈ (second ci si).1, u.id = .second ci.id si)
    (hf : instrumentAllocation name frees second f ci = .ok f') : LoadsTagged src f' := by
  unfold IMA.instrumentAllocation at hf
  cases hs : storeinst_vector f name ci with
  | error message => rw [hs] at hf; cases hf
  | ok stores =>
    rw [hs] at hf
    obtain rfl := Except.ok.inj hf
    have hfree : LoadsTagged src (if frees then f.insertAfter ci.id [tagFree ci] else f) := by
      split_ifs
      · refine h.insertAfter (List.forall_mem_singleton.2 fun c htag => ?_)
        obtain ⟨si, hid | hid⟩ := htag <;> cases hid
      · exact h
    refine (hfree.insertAfter (List.forall_mem_singleton.2 fun c htag => ?_)).tagStores
      (inserted_mem (hfree.source ci hci) (List.mem_singleton_self _)) hsecond
    obtain ⟨si, hid | hid⟩ := htag <;> cases hid

theorem LoadsTagged.visit {p : Pass} (h : LoadsTagged src p.function) (hi : i ∈ src.instructions) :
    LoadsTagged src (p.visit i).function := by
  have hinstrumented : ∀ r, (∀ f, r = .ok f → LoadsTagged src f) →
      LoadsTagged src (p.instrumented r).function := by
    intro r hr
    cases r with
    | ok f => exact hr f rfl
    | error message => exact h
  unfold Pass.visit
  split
  · split_ifs
    · exact hinstrumented _ fun f => h.instrumentAllocation hi fun si u hu =>
        absurd hu List.not_mem_nil
    · exact hinstrumented _ fun f => h.instrumentAllocation hi fun si u hu =>
        absurd hu List.not_mem_nil
    · refine hinstrumented _ fun f => h.instrumentAllocation hi fun si u hu => ?_
      rw [List.mem_singleton.1 hu]
    · refine h.insertAfter (List.forall_mem_singleton.2 fun c htag => ?_)
      obtain ⟨si, hid | hid⟩ := htag <;> cases hid
    · exact h
  · exact h

theorem runOnFunction_loads (src : SourceFunction) :
    LoadsTagged src (runOnFunction src.toFunction).function := by
  have hloop : ∀ (is : List Instruction) (p : Pass), LoadsTagged src p.function →
      (∀ i ∈ is, i ∈ src.instructions) → LoadsTagged src (is.foldl Pass.visit p).function := by
    intro is
    induction is with
    | nil => exact fun p h _ => h
    | cons i is ih =>
      intro p h his
      obtain ⟨hi, his⟩ := List.forall_mem_cons.1 his
      exact ih (p.visit i) (h.visit hi) his
  refine hloop _ _ ⟨fun i hi => hi, fun u hu ci htag => ?_⟩ fun i hi => hi
  obtain ⟨⟨n, hn⟩, -⟩ := src.source u hu
  obtain ⟨si, hid | hid⟩ := htag <;> cases hn.symm.trans hid

/-- A product is of the arguments of a call of `calloc`, after a store of its result. -/
def ProductsFound (src : SourceFunction) (f : Function) : Prop :=
  ∀ u ∈ f.instructions, ∀ ci si, u.id = .second ci si → ∃ c x, src.Found c x ∧ c.id = ci ∧
    x.id = si ∧ c.opcode = .CallInst (some "calloc")

theorem runOnFunction_products (hc : src.Closed) :
    ProductsFound src (runOnFunction src.toFunction).function := by
  refine runOnFunction_rule hc (fun f i _ x _ news hnews h u hmem ci si hid => ?_)
    fun u hu ci si hid => ?_
  · rcases mem_insertAfter hmem with hu | hu
    · exact h u hu ci si hid
    · cases hnews with
      | free | load =>
        obtain rfl := List.mem_singleton.1 hu
        cases hid
      | @tags _ second last hfound hsized =>
        simp only [tagStore, List.append_assoc, List.mem_append, List.mem_cons, List.not_mem_nil,
          or_false] at hu
        rcases hu with (rfl | rfl) | hu | rfl | hu
        · cases hid
        · cases hid
        · cases hsized with
          | malloc | realloc => cases hu
          | calloc hop =>
            obtain rfl := List.mem_singleton.1 hu
            obtain ⟨rfl, rfl⟩ := InstId.second.inj hid
            exact ⟨i, x, hfound, rfl, rfl, hop⟩
        · cases hid
        · split_ifs at hu
          · simp only [List.mem_cons, List.not_mem_nil, or_false] at hu
            rcases hu with rfl | rfl <;> cases hid
          · cases hu
  · obtain ⟨⟨n, hn⟩, -⟩ := src.source u hu
    cases hn.symm.trans hid

/-- What is loaded in a block. -/
theorem Grouped.load_mem {loaded : Set InstId} {b : List Instruction} {ci : InstId}
    (h : Grouped loaded b) (hmem : loadCounter ci ∈ b) : ci ∈ loaded := by
  induction h with
  | nil => cases hmem
  | plain hi _ ih =>
    rcases List.mem_cons.1 hmem with rfl | hmem
    · exact hi.kind.elim
    · exact ih hmem
  | @allocation i rest hi hsource _ _ ih =>
    rcases List.mem_cons.1 hmem with rfl | hmem
    · cases hsource
    · rcases List.mem_cons.1 hmem with he | hmem
      · rw [InstId.load_ima_tag_count.inj (congrArg Instruction.id he)]
        exact hi
      · exact ih hmem
  | last _ ih =>
    have hskip : ∀ {u : Instruction} {l : List Instruction}, u.opcode ≠ .LoadInst →
        loadCounter ci ∈ u :: l → loadCounter ci ∈ l := by
      intro u l hop hl
      refine (List.mem_cons.1 hl).resolve_left ?_
      rintro rfl
      exact hop rfl
    exact ih (hskip Opcode.noConfusion (hskip Opcode.noConfusion (hskip Opcode.noConfusion hmem)))

end

/-! ## What a frame has executed -/

/-- No size that is asked of `calloc` is the address of a global variable. -/
def SourceFunction.SizesGiven (src : SourceFunction) : Prop :=
  ∀ c ∈ src.instructions, c.opcode = .CallInst (some "calloc") → ∀ name, .global name ∉ c.operands

def Module.SizesGiven (m : Module) : Prop := ∀ name src, m name = some src → src.SizesGiven

/-- A frame that has executed the instructions in `trace`. -/
structure Frame.Reached (src : SourceFunction) (trace : List Instruction) (fr : Frame) : Prop where
  verified : src.Verified
  given : src.SizesGiven
  source : ∀ x ∈ trace, x ∈ src.instructions
  function : fr.blocks = (runOnFunction src.toFunction).function.blocks
  inside : ∀ i ∈ fr.rest, i ∈ fr.blocks.flatten
  walk : src.Walk (trace ++ fr.rest.filter Instruction.fromSource)
  allocated : ∀ c ∈ trace, c.opcode.allocates = true → (fr.allocation c.id).isSome
  loaded : ∀ c ∈ trace, loadCounter c.id ∈ fr.blocks.flatten →
    (fr.value (.load_ima_tag_count c.id)).isSome ∨ fr.rest.head? = some (loadCounter c.id)
  sized : ∀ c ∈ trace, c.opcode = .CallInst (some "calloc") → ∀ n < 2,
    (fr.eval (c.getArgOperand n)).isSome

/-- `fr'` has values for what `fr` has. -/
structure Frame.Later (fr fr' : Frame) : Prop where
  blocks : fr'.blocks = fr.blocks
  arguments : fr'.arguments = fr.arguments
  value : ∀ id, (fr.value id).isSome → (fr'.value id).isSome
  allocation : ∀ id, (fr.allocation id).isSome → (fr'.allocation id).isSome

section
variable {address : String → BitVec 32} {m : Module} {src : SourceFunction} {fr fr' : Frame}
  {frames frames' : List Frame} {trace rest : List Instruction} {c i x : Instruction}
  {counter v : BitVec 32} {known : Set InstId} {events : List (Lib.Ticket.Event 32)}
  {allocations : Nat}

theorem Frame.Later.eval (h : fr.Later fr') {v : Value} (hv : (fr.eval v).isSome) :
    (fr'.eval v).isSome := by
  cases v with
  | instruction id => exact h.value id hv
  | argument n =>
    unfold Frame.eval
    rwa [h.arguments]
  | constant | global | undefValue => exact hv

theorem Frame.later_update (rest : List Instruction) (id : InstId) (result : BitVec 32) :
    fr.Later { fr with rest := rest, value := Function.update fr.value id (some result) } := by
  refine ⟨rfl, rfl, fun k hk => ?_, fun _ hk => hk⟩
  by_cases hid : k = id
  · subst hid
    simp
  · simpa only [Function.update_of_ne hid] using hk

theorem Frame.later_allocate (id : InstId) (n : Nat) :
    fr.Later { fr with allocation := Function.update fr.allocation id (some n) } := by
  refine ⟨rfl, rfl, fun _ hk => hk, fun k hk => ?_⟩
  by_cases hid : k = id
  · subst hid
    simp
  · simpa only [Function.update_of_ne hid] using hk

theorem Frame.Later.trans {fr'' : Frame} (h : fr.Later fr') (h' : fr'.Later fr'') :
    fr.Later fr'' :=
  ⟨h'.blocks.trans h.blocks, h'.arguments.trans h.arguments,
    fun id hid => h'.value id (h.value id hid), fun id hid => h'.allocation id (h.allocation id hid)⟩

/-- An instruction that is inserted. -/
theorem Frame.Reached.insert (h : fr.Reached src trace) (hr : fr.rest = i :: rest)
    (hi : i.fromSource = false) (result : BitVec 32) :
    Frame.Reached src trace
      { fr with rest := rest, value := Function.update fr.value i.id (some result) } := by
  have hlater := @Frame.later_update fr rest i.id result
  refine ⟨h.verified, h.given, h.source, h.function,
    fun j hj => h.inside j (hr ▸ List.mem_cons_of_mem _ hj), ?_, h.allocated,
    fun c hc hload => .inl ?_, ?_⟩
  · have hwalk := h.walk
    rwa [hr, List.filter_cons, hi, if_neg Bool.false_ne_true] at hwalk
  · rcases h.loaded c hc hload with hv | hhead
    · exact hlater.value _ hv
    · rw [hr] at hhead
      obtain rfl : i = loadCounter c.id := Option.some.inj hhead
      exact Option.isSome_iff_exists.2 ⟨_, Function.update_self ..⟩
  · exact fun c hc hop n hn => hlater.eval (h.sized c hc hop n hn)

/-- An instruction of the source. -/
theorem Frame.Reached.execute (h : fr.Reached src trace) (hr : fr.rest = x :: rest)
    (hx : x ∈ src.instructions) (hlater : fr.Later fr')
    (hinside : ∀ j ∈ fr'.rest, j ∈ fr.blocks.flatten)
    (hwalk : src.Walk (trace ++ [x] ++ fr'.rest.filter Instruction.fromSource))
    (hallocated : x.opcode.allocates = true → (fr'.allocation x.id).isSome)
    (hloaded : loadCounter x.id ∈ fr.blocks.flatten → fr'.rest.head? = some (loadCounter x.id))
    (hsized : x.opcode = .CallInst (some "calloc") → ∀ n < 2, (fr.eval (x.getArgOperand n)).isSome) :
    fr'.Reached src (trace ++ [x]) := by
  refine ⟨h.verified, h.given,
    List.forall_mem_append.2 ⟨h.source, List.forall_mem_singleton.2 hx⟩,
    hlater.blocks.trans h.function, hlater.blocks ▸ hinside, hwalk, ?_, ?_, ?_⟩
  · refine List.forall_mem_append.2 ⟨fun c hc hal => ?_, List.forall_mem_singleton.2 hallocated⟩
    exact hlater.allocation _ (h.allocated c hc hal)
  · rw [hlater.blocks]
    refine List.forall_mem_append.2 ⟨fun c hc hload => .inl ?_,
      List.forall_mem_singleton.2 fun hload => .inr (hloaded hload)⟩
    rcases h.loaded c hc hload with hv | hhead
    · exact hlater.value _ hv
    · rw [hr] at hhead
      obtain rfl : x = loadCounter c.id := Option.some.inj hhead
      cases (src.given _ hx).1
  · refine List.forall_mem_append.2 ⟨fun c hc hop n hn => ?_,
      List.forall_mem_singleton.2 fun hop n hn => ?_⟩
    · exact hlater.eval (h.sized c hc hop n hn)
    · exact hlater.eval (hsized hop n hn)

/-- A call that is loaded allocates, and the load comes next. -/
theorem Frame.Running.load_next (h : fr.Running events allocations) (hr : fr.rest = x :: rest)
    (hx : x.fromSource = true) (hload : loadCounter x.id ∈ fr.blocks.flatten) :
    x.opcode.allocates = true ∧ rest.head? = some (loadCounter x.id) := by
  obtain ⟨loaded, hblocks, hpos⟩ := h
  obtain ⟨b, hb, hload⟩ := List.mem_flatten.1 hload
  have hmem : x.id ∈ loaded := (hblocks b hb).load_mem hload
  cases hpos with
  | between hgrouped =>
    rw [hr] at hgrouped
    cases hgrouped with
    | plain hplain => exact absurd hmem hplain.notLoaded
    | allocation _ _ hal => exact ⟨hal, rfl⟩
    | last => cases hx
  | allocated hr' | tagged hr' | incremented hr' =>
    obtain ⟨rfl, -⟩ := List.cons.inj (hr.symm.trans hr')
    cases hx

/-- A call of the source that a frame waits for is not loaded. -/
theorem Frame.Waiting.notLoaded (h : fr.Waiting events) (hr : fr.rest = x :: rest) :
    loadCounter x.id ∉ fr.blocks.flatten := by
  obtain ⟨loaded, hblocks, -, call, rest', hr', hplain, -⟩ := h
  obtain ⟨rfl, -⟩ := List.cons.inj (hr.symm.trans hr')
  intro hload
  obtain ⟨b, hb, hload⟩ := List.mem_flatten.1 hload
  exact hplain.notLoaded ((hblocks b hb).load_mem hload)

/-! ## The frames of an execution -/

/-- The frame at work. -/
def Frame.AtWork (fr : Frame) : Prop :=
  ∃ src trace known, fr.Reached src trace ∧ Attached src trace.getLast? known fr.rest

/-- A frame that waits for a call to return. -/
def Frame.Held (fr : Frame) : Prop :=
  ∃ src trace call rest, fr.Reached src trace ∧ fr.rest = call :: rest ∧
    call ∈ src.instructions ∧ call.opcode.allocates = false ∧ Attached src (some call) ∅ rest

def FramesReached : List Frame → Prop
  | [] => True
  | fr :: frames => fr.AtWork ∧ ∀ g ∈ frames, g.Held

theorem Attached.tail (h : Attached src trace.getLast? known (i :: rest))
    (hi : i.fromSource = false) : ∃ known', Attached src trace.getLast? known' rest := by
  generalize trace.getLast? = last at h ⊢
  cases h with
  | source hx => cases hi.symm.trans (src.given i hx).1
  | beside _ hrest | cast hrest | pointer _ _ hrest | product _ hrest | memory _ _ hrest =>
    exact ⟨_, hrest⟩

theorem Attached.concat (h : Attached src (some x) ∅ rest) :
    Attached src (trace ++ [x]).getLast? ∅ rest := by
  rwa [List.getLast?_concat]

theorem Module.entry_reached (hm : m.Verified) (hg : m.SizesGiven) {name : String}
    {arguments : List (BitVec 32)} (h : m.entry name arguments = some fr) : fr.AtWork := by
  obtain ⟨src, hsrc, h⟩ := Option.bind_eq_some_iff.1 h
  obtain rfl := Option.some.inj h
  have hv := hm name src hsrc
  have hattached := runOnFunction_attached hv.closed
  have hfilter := @filter_block src hv.closed
  refine ⟨src, [], ∅, ⟨hv, hg name src hsrc, fun x hx => absurd hx List.not_mem_nil, rfl, ?_, ?_, ?_,
    ?_, ?_⟩, ?_⟩
  · generalize (runOnFunction src.toFunction).function.blocks = bs
    cases bs with
    | nil => exact fun i hi => hi
    | cons b bs => exact fun i hi => List.mem_append_left _ hi
  · rw [List.nil_append]
    generalize (runOnFunction src.toFunction).function.blocks = bs at hfilter
    cases bs with
    | nil => exact ⟨fun _ hx => absurd hx (Option.some_ne_none _).symm, .nil⟩
    | cons b bs =>
      have hb := hfilter (n := 0) rfl
      have hhead := (List.head?_eq_getElem? ..).trans hb
      refine ⟨fun x hx => ?_, src.block_chain (List.mem_of_getElem? hb)⟩
      unfold SourceFunction.Entry
      rw [List.headD_eq_head?_getD, hhead]
      exact hx
  · exact fun c hc => absurd hc List.not_mem_nil
  · exact fun c hc => absurd hc List.not_mem_nil
  · exact fun c hc => absurd hc List.not_mem_nil
  · generalize (runOnFunction src.toFunction).function.blocks = bs at hattached
    cases bs with
    | nil => exact .nil
    | cons b bs => exact hattached b List.mem_cons_self

/-- A step of a frame at an instruction of the source. -/
theorem Frame.Reached.executed (h : fr.Reached src trace) (hr : fr.rest = x :: rest)
    (hx : x ∈ src.instructions) (hfr' : fr.execute counter x rest v = some fr')
    (hallocates : x.opcode.allocates = false)
    (hloaded : loadCounter x.id ∈ fr.blocks.flatten → rest.head? = some (loadCounter x.id))
    (hattached : Attached src (some x) ∅ rest) : fr'.AtWork := by
  obtain ⟨result, rfl, -, -⟩ := Frame.execute_spec hfr'
  have hsource : x.fromSource = true := (src.given x hx).1
  have hwalk := h.walk
  rw [hr, List.filter_cons, hsource, if_pos rfl, List.append_cons] at hwalk
  refine ⟨src, _, ∅, h.execute hr hx (Frame.later_update rest x.id result)
    (fun j hj => h.inside j (hr ▸ List.mem_cons_of_mem _ hj)) hwalk (fun hal => ?_) hloaded
    fun hop => ?_, hattached.concat⟩
  · cases hallocates.symm.trans hal
  · rw [hop] at hallocates
    cases hallocates

theorem Module.returns_reached (h : m.returns counter v frames = some frames')
    (hheld : ∀ g ∈ frames, g.Held) (hwaiting : ∀ g ∈ frames, g.Waiting events) :
    FramesReached frames' := by
  cases frames with
  | nil =>
    obtain rfl := Option.some.inj h
    trivial
  | cons caller frames =>
    obtain ⟨⟨src, trace, call, rest, hreached, hr, hcall, hal, hattached⟩, hheld⟩ :=
      List.forall_mem_cons.1 hheld
    obtain ⟨hwait, -⟩ := List.forall_mem_cons.1 hwaiting
    unfold Module.returns at h
    simp only [hr] at h
    split at h
    · obtain ⟨fr', hfr', h⟩ := Option.bind_eq_some_iff.1 h
      obtain rfl := Option.some.inj h
      exact ⟨hreached.executed hr hcall hfr' hal
        (fun hload => absurd hload (hwait.notLoaded hr)) hattached, hheld⟩
    · obtain rfl := Option.some.inj h
      exact ⟨⟨src, trace, ∅, hreached, hr ▸ .source hcall hattached⟩, hheld⟩

/-- An operand that is not the address of a global variable. -/
theorem passed_eq_eval {n : Nat} (hglobal : ∀ name, .global name ∉ x.operands) :
    fr.passed address x n = fr.eval (x.getArgOperand n) := by
  unfold Frame.passed
  split
  · rename_i name hv
    refine absurd ?_ (hglobal name)
    unfold Instruction.getArgOperand at hv
    rw [List.getD_eq_getElem?_getD] at hv
    cases hn : x.operands[n]? with
    | none =>
      rw [hn] at hv
      cases hv
    | some w =>
      rw [hn] at hv
      obtain rfl : w = .global name := hv
      exact List.mem_of_getElem? hn
  · rfl

/-- The arguments of a call of `calloc` that is executed. -/
theorem SourceFunction.SizesGiven.requested (hg : src.SizesGiven) (hx : x ∈ src.instructions)
    {size : ℕ} (hsize : fr.requested address x = some size)
    (hop : x.opcode = .CallInst (some "calloc")) :
    ∀ n < 2, (fr.eval (x.getArgOperand n)).isSome := by
  have hglobal := hg x hx hop
  unfold Frame.requested at hsize
  rw [hop] at hsize
  obtain ⟨num, hnum, hsize⟩ := Option.bind_eq_some_iff.1 hsize
  obtain ⟨each, heach, -⟩ := Option.bind_eq_some_iff.1 hsize
  rw [passed_eq_eval hglobal] at hnum heach
  intro n hn
  interval_cases n
  · rw [hnum]
    rfl
  · rw [heach]
    rfl

/-! ## What is inserted -/

/-- The instruction `i` can be executed. -/
structure Frame.Executes (fr : Frame) (counter : BitVec 32) (i : Instruction) : Prop where
  events : (fr.events counter i).isSome
  result : ∀ v, (fr.result counter i v).isSome
  counter : (fr.counter counter i).isSome

theorem Frame.Running.executes_beside (h : fr.Running events allocations) (hr : fr.rest = i :: rest)
    (hi : i.Beside) : fr.Executes counter i := by
  obtain ⟨loaded, -, hpos⟩ := h
  -- a group is entered at its first instruction
  have hbetween : Grouped loaded fr.rest → i.opcode = .CallInst (some "DYTAN_free") := by
    intro hgrouped
    rw [hr] at hgrouped
    cases hi with
    | free => rfl
    | load | inc | store =>
      cases hgrouped with
      | plain hplain => exact hplain.kind.elim
      | allocation _ hsource => cases hsource
  cases hi with
  | free ci => exact ⟨rfl, fun _ => rfl, rfl⟩
  | load ci =>
    cases hpos with
    | between hgrouped => cases hbetween hgrouped
    | allocated hr' _ _ _ hn =>
      obtain ⟨he, -⟩ := List.cons.inj (hr.symm.trans hr')
      obtain rfl := InstId.load_ima_tag_count.inj (congrArg Instruction.id he)
      refine ⟨?_, fun _ => rfl, rfl⟩
      simp [Frame.events, loadCounter, hn]
    | tagged hr' | incremented hr' => cases (List.cons.inj (hr.symm.trans hr')).1
  | inc ci =>
    cases hpos with
    | between hgrouped => cases hbetween hgrouped
    | tagged hr' _ _ _ hv =>
      obtain ⟨he, -⟩ := List.cons.inj (hr.symm.trans hr')
      obtain rfl := InstId.inc_ima_tag_count.inj (congrArg Instruction.id he)
      refine ⟨rfl, fun _ => ?_, rfl⟩
      simp [Frame.result, incCounter, Instruction.getOperand, Frame.eval, hv]
    | allocated hr' | incremented hr' => cases (List.cons.inj (hr.symm.trans hr')).1
  | store ci =>
    cases hpos with
    | between hgrouped => cases hbetween hgrouped
    | incremented hr' _ _ hn hv =>
      obtain ⟨he, -⟩ := List.cons.inj (hr.symm.trans hr')
      obtain rfl := InstId.store_ima_tag_count.inj (congrArg Instruction.id he)
      refine ⟨?_, fun _ => rfl, ?_⟩
      · simp [Frame.events, storeCounter, Instruction.getOperand, Frame.eval, hn, hv]
      · simp [Frame.counter, storeCounter, Instruction.getOperand, Frame.eval, hv]
    | allocated hr' | tagged hr' => cases (List.cons.inj (hr.symm.trans hr')).1

/-- A tag comes after the call it is for and the load for it. -/
theorem Frame.Reached.executes_tag (h : fr.Reached src trace) (hr : fr.rest = i :: rest)
    (hlast : trace.getLast? = some x) (hmem : i ∈ fr.blocks.flatten) (hf : src.Found c x)
    (htag : (∃ si, i = tagPointer c.id si) ∨ ∃ si second, i = tagMemory c.id si second) :
    fr.Executes counter i := by
  obtain ⟨init, rfl⟩ := List.getLast?_eq_some_iff.1 hlast
  have hc : c ∈ init ++ [x] :=
    List.mem_append_left _ (hf.dominates h.verified init h.walk.left)
  have hload : loadCounter c.id ∈ fr.blocks.flatten := by
    rw [h.function] at hmem ⊢
    refine (runOnFunction_loads src).load i hmem c.id ?_
    rcases htag with ⟨si, rfl⟩ | ⟨si, second, rfl⟩
    · exact ⟨si, .inl rfl⟩
    · exact ⟨si, .inr rfl⟩
  have hvalue : (fr.value (.load_ima_tag_count c.id)).isSome := by
    refine (h.loaded c hc hload).resolve_right fun hhead => ?_
    rw [hr] at hhead
    obtain rfl : i = loadCounter c.id := Option.some.inj hhead
    rcases htag with ⟨si, he⟩ | ⟨si, second, he⟩ <;> cases he
  obtain ⟨n, hn⟩ := Option.isSome_iff_exists.1 (h.allocated c hc hf.allocates)
  obtain ⟨v, hv⟩ := Option.isSome_iff_exists.1 hvalue
  rcases htag with ⟨si, rfl⟩ | ⟨si, second, rfl⟩
  · refine ⟨?_, fun _ => rfl, rfl⟩
    simp [Frame.events, tagPointer, Instruction.getArgOperand, Frame.eval, hn, hv]
  · refine ⟨?_, fun _ => rfl, rfl⟩
    simp [Frame.events, tagMemory, Instruction.getArgOperand, Frame.eval, hn, hv]

/-- The product of the arguments of a call of `calloc`. -/
theorem Frame.Reached.executes_product (h : fr.Reached src trace) (hlast : trace.getLast? = some x)
    (hx : x ∈ src.instructions) (hc : c ∈ src.instructions)
    (hmem : productOf c x ∈ fr.blocks.flatten) : fr.Executes counter (productOf c x) := by
  obtain ⟨init, rfl⟩ := List.getLast?_eq_some_iff.1 hlast
  rw [h.function] at hmem
  obtain ⟨c', x', hf, hcid, hxid, hop⟩ :=
    runOnFunction_products h.verified.closed _ hmem c.id x.id rfl
  obtain rfl := src.eq_of_id hf.call hc hcid
  obtain rfl := src.eq_of_id hf.store hx hxid
  have hc' : c' ∈ init ++ [x'] :=
    List.mem_append_left _ (hf.dominates h.verified init h.walk.left)
  obtain ⟨num, hnum⟩ := Option.isSome_iff_exists.1 (h.sized c' hc' hop 0 (by omega))
  obtain ⟨each, heach⟩ := Option.isSome_iff_exists.1 (h.sized c' hc' hop 1 (by omega))
  refine ⟨rfl, fun v => ?_, rfl⟩
  have hresult : fr.result counter (productOf c' x') v = some (num * each) := by
    change (fr.eval (c'.getArgOperand 0)).bind (fun a =>
      (fr.eval (c'.getArgOperand 1)).bind fun b => some (a * b)) = some (num * each)
    rw [hnum, heach]
    rfl
  rw [hresult]
  rfl

/-- Every instruction that is inserted. -/
theorem Frame.Reached.executes (h : fr.Reached src trace) (hrunning : fr.Running events allocations)
    (hr : fr.rest = i :: rest) (hi : i.fromSource = false)
    (hattached : Attached src trace.getLast? known (i :: rest)) : fr.Executes counter i := by
  have hmem : i ∈ fr.blocks.flatten := h.inside i (hr ▸ List.mem_cons_self)
  generalize hlast : trace.getLast? = last at hattached
  cases hattached with
  | source hx => cases hi.symm.trans (src.given i hx).1
  | beside hb => exact hrunning.executes_beside hr hb
  | cast => exact ⟨rfl, fun _ => rfl, rfl⟩
  | pointer hf => exact h.executes_tag hr hlast hmem hf (.inl ⟨_, rfl⟩)
  | product hc => exact h.executes_product hlast (h.source _ (List.mem_of_getLast? hlast)) hc hmem
  | memory hf => exact h.executes_tag hr hlast hmem hf (.inr ⟨_, _, rfl⟩)

/-- The step at an instruction that is inserted stays in the frame. -/
theorem State.stepAt_inserted {s : State} {v : BitVec 32} (hal : i.opcode.allocates = false)
    (hi : i.fromSource = false) (hreturn : i.opcode ≠ .ReturnInst)
    (hbranch : ∀ successors, i.opcode ≠ .BranchInst successors) :
    s.stepAt m fr frames i rest (.value v) = (fr.execute s.ima_tag_count i rest v).bind fun fr' =>
      (fr.counter s.ima_tag_count i).bind fun counter =>
        some { s with ima_tag_count := counter, frames := fr' :: frames } := by
  unfold State.stepAt
  cases hop : i.opcode with
  | ReturnInst => exact absurd hop hreturn
  | BranchInst successors => exact absurd hop (hbranch successors)
  | _ =>
    rw [hop] at hal
    simp only [hal, hi, Bool.false_eq_true, if_false, false_and]
    rfl

end

namespace MemoryState

variable {address : String → BitVec 32} {m : Module} {t t' : MemoryState} {fr : Frame}
  {frames : List Frame} {i x : Instruction} {rest : List Instruction} {event : Choice × Effect}
  {c : BitVec 32} {events : List (Lib.Ticket.Event 32)}

theorem reached_inserted (h : FramesReached t.state.frames) (hf : t.state.frames = fr :: frames)
    (hr : fr.rest = i :: rest) (hi : i.fromSource = false)
    (hs : t.state.stepAt m fr frames i rest event.1 = some t'.state) :
    FramesReached t'.state.frames := by
  rw [hf] at h
  obtain ⟨⟨src, trace, known, hreached, hattached⟩, hheld⟩ := h
  rw [hr] at hattached
  obtain ⟨hal, hreturn, hbranch⟩ := hattached.inserted hi
  obtain ⟨fr', v, c', hfr', -, hs'⟩ := State.stepAt_local hs hal hi hbranch hreturn
  obtain ⟨result, rfl, -, -⟩ := Frame.execute_spec hfr'
  obtain ⟨known', htail⟩ := hattached.tail hi
  rw [hs']
  exact ⟨⟨src, trace, known', hreached.insert hr hi result, htail⟩, hheld⟩

theorem reached_source (hm : m.Verified) (hg : m.SizesGiven) (hcounter : t.state.Invariant c events)
    (h : FramesReached t.state.frames) (hf : t.state.frames = fr :: frames)
    (hr : fr.rest = x :: rest) (hx : x.fromSource = true) {blocks : Nat → Option Block}
    (hblocks : t.record address fr x event.1 = some blocks)
    (hs : t.state.stepAt m fr frames x rest event.1 = some t'.state) :
    FramesReached t'.state.frames := by
  have hstack := hcounter.frames
  rw [hf] at h hstack
  obtain ⟨⟨src, trace, known, hreached, hattached⟩, hheld⟩ := h
  obtain ⟨hrunning, hwaiting⟩ := hstack
  obtain ⟨hmem, hattached⟩ := (hr ▸ hattached).source_inv hx
  have hnext := hrunning.load_next hr hx
  have hwalk := hreached.walk
  rw [hr, List.filter_cons, hx, if_pos rfl, List.append_cons] at hwalk
  rcases State.stepAt_cases hs with ⟨fr', v, hchoice, hal, hfr', hs'⟩ |
    ⟨fr', v, c', -, hal, hfr', -, hs'⟩ | ⟨successors, hop, n, hn, b, hb, hs'⟩ |
    ⟨name, arguments, callee, -, hal, hcallee, hs'⟩ | ⟨-, v, frames', hframes', hs'⟩
  · -- an allocation
    rw [hchoice, record, if_pos hal] at hblocks
    obtain ⟨size, hsize, -⟩ := Option.bind_eq_some_iff.1 hblocks
    obtain ⟨result, rfl, -, -⟩ := Frame.execute_spec hfr'
    have hlater := (@Frame.later_update fr rest x.id result).trans
      (Frame.later_allocate x.id t.state.allocations)
    rw [hs']
    refine ⟨⟨src, _, ∅, hreached.execute hr hmem hlater
      (fun j hj => hreached.inside j (hr ▸ List.mem_cons_of_mem _ hj)) hwalk (fun _ => ?_)
      (fun hload => (hnext hload).2) (hreached.given.requested hmem hsize), hattached.concat⟩, hheld⟩
    exact Option.isSome_iff_exists.2 ⟨_, Function.update_self ..⟩
  · -- another instruction of the frame
    rw [hs']
    exact ⟨hreached.executed hr hmem hfr' hal (fun hload => (hnext hload).2) hattached, hheld⟩
  · -- a branch
    have hal : x.opcode.allocates = false := by rw [hop]; rfl
    have hlater : fr.Later { fr with rest := b } := ⟨rfl, rfl, fun _ h => h, fun _ h => h⟩
    have hinside : ∀ j ∈ b, j ∈ fr.blocks.flatten :=
      fun j hj => List.mem_flatten.2 ⟨b, List.mem_of_getElem? hb, hj⟩
    rw [hreached.function] at hb
    have hsrc := filter_block hreached.verified.closed hb
    have hbegin := runOnFunction_attached hreached.verified.closed b (List.mem_of_getElem? hb)
    rw [hs']
    refine ⟨⟨src, _, ∅, hreached.execute hr hmem hlater hinside ?_ (fun he => ?_) (fun hload => ?_)
      fun he => ?_, hbegin.of_none _⟩, hheld⟩
    · refine ⟨fun y hy => hwalk.left.1 y ?_, List.isChain_append.2 ⟨hwalk.left.2,
        src.block_chain (List.mem_of_getElem? hsrc), fun y hy z hz => ?_⟩⟩
      · cases trace <;> exact hy
      · obtain rfl : x = y := by simpa using hy
        exact .inr ⟨successors, n, _, hop, hn, hsrc, hz⟩
    · cases hal.symm.trans he
    · cases hal.symm.trans (hnext hload).1
    · cases hop.symm.trans he
  · -- a call of a function of the module
    rw [hs']
    exact ⟨Module.entry_reached hm hg hcallee,
      List.forall_mem_cons.2 ⟨⟨src, trace, x, rest, hreached, hr, hmem, hal, hattached⟩, hheld⟩⟩
  · -- a return
    rw [hs']
    exact Module.returns_reached hframes' hheld hwaiting

/-- What every state of an execution has. -/
structure Ready (address : String → BitVec 32) (t : MemoryState) : Prop where
  invariant : t.Invariant address
  counter : ∃ c events, t.state.Invariant c events
  reached : FramesReached t.state.frames

theorem Ready.step (hm : m.Verified) (hg : m.SizesGiven) (h : t.Ready address)
    (hs : t.step m address event = some t') : t'.Ready address := by
  obtain ⟨fr, i, frames, rest, _, -, hf, hr, hevents, -, hblocks, -, hstep⟩ := step_spec hs
  obtain ⟨c, events, hcounter⟩ := h.counter
  have hstate : t.state.step m event.1 = some t'.state := by
    unfold State.step
    simp only [hf, hr, hevents]
    exact hstep
  refine ⟨h.invariant.step hm hs, ⟨c, _, State.step_invariant hcounter hstate⟩, ?_⟩
  cases hi : i.fromSource with
  | false => exact reached_inserted h.reached hf hr hi hstep
  | true => exact reached_source hm hg hcounter h.reached hf hr hi hblocks hstep

theorem Starts.ready (hm : m.Verified) (hg : m.SizesGiven) (h : t.Starts m) : t.Ready address := by
  refine ⟨h.invariant hm, ⟨_, _, State.Starts.invariant h⟩, ?_⟩
  obtain ⟨name, arguments, fr, hentry, hframes⟩ := h
  rw [hframes]
  exact ⟨Module.entry_reached hm hg hentry, fun g hg => absurd hg List.not_mem_nil⟩

/-- At an instruction that is inserted there is a step, to what comes after it. -/
theorem Ready.progress (h : t.Ready address) (hf : t.state.frames = fr :: frames)
    (hr : fr.rest = i :: rest) (hi : i.fromSource = false) (m : Module) :
    ∃ event t' fr', t.step m address event = some t' ∧ t'.state.frames = fr' :: frames ∧
      fr'.rest = rest := by
  obtain ⟨c, events, hcounter⟩ := h.counter
  have hreached := h.reached
  have hstack := hcounter.frames
  rw [hf] at hreached hstack
  obtain ⟨⟨src, trace, known, hreached, hattached⟩, -⟩ := hreached
  rw [hr] at hattached
  obtain ⟨hal, hreturn, hbranch⟩ := hattached.inserted hi
  have hexecutes : fr.Executes t.state.ima_tag_count i :=
    hreached.executes hstack.1 hr hi hattached
  -- what is left open of a cast is the value of its operand
  generalize hv : (fr.passed address i 0).getD 0 = v
  obtain ⟨out, hout⟩ := Option.isSome_iff_exists.1 hexecutes.events
  obtain ⟨result, hresult⟩ := Option.isSome_iff_exists.1 (hexecutes.result v)
  obtain ⟨counter, hctr⟩ := Option.isSome_iff_exists.1 hexecutes.counter
  have hcasts : fr.casts address i (.value v) = true := by
    unfold Frame.casts
    rw [← hv]
    cases fr.passed address i 0 <;> simp
  obtain ⟨state, hstep, hframes⟩ : ∃ state, t.state.step m (.value v) = some state ∧
      state.frames = { fr with
        rest := rest, value := Function.update fr.value i.id (some result) } :: frames := by
    refine ⟨{ t.state with
      ima_tag_count := counter
      frames := { fr with
        rest := rest, value := Function.update fr.value i.id (some result) } :: frames }, ?_, rfl⟩
    unfold State.step
    simp only [hf, hr, hout]
    refine (State.stepAt_inserted hal hi hreturn hbranch).trans ?_
    simp [Frame.execute, hresult, hctr]
  refine ⟨(.value v, .unchanged), ⟨state, t.memory, t.blocks⟩, _, ?_, hframes, rfl⟩
  have hnext : t.state.next = some (fr, i) := by
    rw [State.next, hf]
    simp [hr]
  unfold MemoryState.step
  simp [hnext, hcasts, hstep, Frame.memoryAfter, hi, record, hal]

end MemoryState

end Dytan.IMA
