import Dytan.IMA.Grouped

/-!
# What is inserted after an instruction

`Insertion src i x news`: at the instruction `i` the pass inserts `news` after `x`.
`runOnFunction_rule`: what holds of a function and is kept by these insertions holds of what the pass
makes of it. So, without what is inserted, every block is as it was (`runOnFunction_source`).

`Attached src last known rest`: in `rest`, between two instructions of the source comes what is
inserted after the first. `last` is the instruction of the source before `rest`, and `known` the casts
and products that come between it and `rest`. `runOnFunction_attached`: so is every block.
-/

namespace Dytan.IMA

/-- The operands that are instructions are instructions of the function. -/
def SourceFunction.Closed (src : SourceFunction) : Prop :=
  ∀ i ∈ src.instructions, ∀ d, .instruction d ∈ i.operands → ∃ j ∈ src.instructions, j.id = d

/-- `x` is a store, and the allocation call `c` or a bitcast of it one of its operands. -/
structure SourceFunction.Found (src : SourceFunction) (c x : Instruction) : Prop where
  call : c ∈ src.instructions
  allocates : c.opcode.allocates = true
  store : x ∈ src.instructions
  opcode : x.opcode = .StoreInst
  operand : .instruction c.id ∈ x.operands ∨ ∃ u ∈ src.instructions, u.opcode = .BitCastInst ∧
    .instruction c.id ∈ u.operands ∧ .instruction u.id ∈ x.operands

/-- The size of what an allocation call allocates, as it is passed to `DYTAN_tag_memory`. -/
inductive Instruction.Sized (c : Instruction) : Second → Prop
  | malloc : c.opcode = .CallInst (some "malloc") →
      Sized c fun ci _ => ([], ci.getArgOperand 0)
  | realloc : c.opcode = .CallInst (some "realloc") →
      Sized c fun ci _ => ([], ci.getArgOperand 1)
  | calloc : c.opcode = .CallInst (some "calloc") →
      Sized c fun ci si => ([⟨.second ci.id si, .Mul, [ci.getArgOperand 0, ci.getArgOperand 1]⟩],
        .instruction (.second ci.id si))

/-- At the instruction `i` the pass inserts `news` after `x`. -/
inductive Insertion (src : SourceFunction) (i : Instruction) :
    Instruction → List Instruction → Prop
  | free : Insertion src i i [tagFree i]
  | load : Insertion src i i [loadCounter i.id]
  | tags {x : Instruction} {second : Second} (last : Bool) :
      src.Found i x → i.Sized second → Insertion src i x (tagStore second i x last)

section
variable {src : SourceFunction} {loaded : Set InstId} {f f' : Function} {second : Second}
  {name : String} {i ci c x : Instruction} {is stores news rest b : List Instruction}
  {P : Function → Prop}

theorem Inserting.found (h : Inserting src loaded f) (hc : src.Closed) (hci : ci ∈ src.instructions)
    (hal : ci.opcode.allocates = true) (hs : storeinst_vector f name ci = .ok stores) :
    ∀ s ∈ stores, src.Found ci s := by
  intro s hmem
  obtain ⟨hsrc, hop⟩ := h.mem_stores hci hs s hmem
  refine ⟨hci, hal, hsrc, hop, ?_⟩
  rcases pointerStores_mem (storeinst_vector_ok hs) s hmem with hs | ⟨-, hs | ⟨u, hu, huop, hs⟩⟩
  · cases hs
  · exact .inl (h.uses _ s hs).1
  · obtain ⟨hci', hu | hu⟩ := h.uses _ u hu
    · exact .inr ⟨u, hu, huop, hci', (h.uses _ s hs).1⟩
    · obtain ⟨j, hj, hid⟩ := hc s hsrc u.id (h.uses _ s hs).1
      obtain ⟨⟨n, hn⟩, -⟩ := src.source j hj
      exact absurd (hid.symm.trans hn) (hu.id n)

theorem tagStores_rule
    (hP : ∀ f x last, src.Found ci x → P f → P (f.insertAfter x.id (tagStore second ci x last)))
    (hstores : ∀ s ∈ stores, src.Found ci s) (h : P f) : P (tagStores second ci stores f) := by
  induction stores generalizing f with
  | nil => exact h
  | cons si stores ih =>
    obtain ⟨hsi, hstores⟩ := List.forall_mem_cons.1 hstores
    exact ih hstores (hP f si _ hsi h)

theorem instrumentAllocation_rule (h : Inserting src loaded f) (hc : src.Closed)
    (hci : ci ∈ src.instructions) (hal : ci.opcode.allocates = true) (hsecond : ci.Sized second)
    (hP : ∀ f x news, Insertion src ci x news → P f → P (f.insertAfter x.id news)) (hf : P f)
    {frees : Bool} (hok : instrumentAllocation name frees second f ci = .ok f') : P f' := by
  unfold instrumentAllocation at hok
  cases hs : storeinst_vector f name ci with
  | error message => rw [hs] at hok; cases hok
  | ok stores =>
    rw [hs] at hok
    obtain rfl := Except.ok.inj hok
    refine tagStores_rule (fun f x last hx => hP f x _ (.tags last hx hsecond))
      (h.found hc hci hal hs) (hP _ _ _ .load ?_)
    split_ifs
    · exact hP _ _ _ .free hf
    · exact hf

/-- What the insertions at an instruction keep, the visit keeps. -/
theorem Pass.visit_rule {p : Pass} (h : Inserting src loaded p.function) (hc : src.Closed)
    (hi : i ∈ src.instructions)
    (hP : ∀ f x news, Insertion src i x news → P f → P (f.insertAfter x.id news))
    (hp : P p.function) : P (p.visit i).function := by
  have hinstrumented : ∀ r, (∀ f, r = .ok f → P f) → P (p.instrumented r).function := by
    intro r hr
    cases r with
    | ok f => exact hr f rfl
    | error message => exact hp
  unfold Pass.visit
  split
  · rename_i name hop
    split_ifs with hmalloc hrealloc hcalloc hfree
    · have hal : i.opcode.allocates = true := by simp [hop, Opcode.allocates, hmalloc]
      refine hinstrumented _ fun f => instrumentAllocation_rule h hc hi hal (.malloc ?_) hP hp
      rw [hop, hmalloc]
    · have hal : i.opcode.allocates = true := by simp [hop, Opcode.allocates, hrealloc]
      refine hinstrumented _ fun f => instrumentAllocation_rule h hc hi hal (.realloc ?_) hP hp
      rw [hop, hrealloc]
    · have hal : i.opcode.allocates = true := by simp [hop, Opcode.allocates, hcalloc]
      refine hinstrumented _ fun f => instrumentAllocation_rule h hc hi hal (.calloc ?_) hP hp
      rw [hop, hcalloc]
    · exact hP _ _ _ .free hp
    · exact hp
  · exact hp

/-- What holds of a function and is kept by all insertions holds of what the pass makes of it. -/
theorem runOnFunction_rule (hc : src.Closed)
    (hP : ∀ f, ∀ i ∈ src.instructions, ∀ x ∈ src.instructions, ∀ news, Insertion src i x news →
      P f → P (f.insertAfter x.id news))
    (h : P src.toFunction) : P (runOnFunction src.toFunction).function := by
  have hloop : ∀ (is : List Instruction) (p : Pass) (loaded : Set InstId),
      Inserting src loaded p.function → P p.function →
      (∀ i ∈ is, i ∈ src.instructions ∧ i.id ∉ loaded) → (is.map Instruction.id).Nodup →
      P (is.foldl Pass.visit p).function := by
    intro is
    induction is with
    | nil => exact fun p loaded _ hp _ _ => hp
    | cons i is ih =>
      intro p loaded hins hp his hnodup
      obtain ⟨⟨hi, hout⟩, his⟩ := List.forall_mem_cons.1 his
      obtain ⟨hid, hnodup⟩ := List.nodup_cons.1 hnodup
      obtain ⟨loaded', hsub, hins'⟩ := Pass.visit_spec hins hi hout
      refine ih _ loaded' hins' (Pass.visit_rule hins hc hi (fun f x news hnews => ?_) hp)
        (fun j hj => ⟨(his j hj).1, fun hj' => ?_⟩) hnodup
      · refine hP f i hi x ?_ news hnews
        cases hnews with
        | free | load => exact hi
        | tags _ hx _ => exact hx.store
      · rcases hsub hj' with he | hj'
        · exact hid (he ▸ List.mem_map_of_mem hj)
        · exact (his j hj).2 hj'
  exact hloop src.instructions _ ∅ Inserting.init h (fun i hi => ⟨hi, Set.notMem_empty _⟩) src.nodup

/-! ### The instructions of the source -/

/-- An instruction that is inserted is not from the source, and none of the calls the pass looks for. -/
def Instruction.Added (u : Instruction) : Prop := u.fromSource = false ∧ u.opcode.handled = false

theorem tagFree_added : (tagFree ci).Added := ⟨rfl, by simp [tagFree, Opcode.handled]⟩

theorem loadCounter_added {ci : InstId} : (loadCounter ci).Added := ⟨rfl, rfl⟩

theorem tagStore_added (hsecond : ∀ si, ∀ u ∈ (second ci si).1, u.Added) (last : Bool) :
    ∀ u ∈ tagStore second ci x last, u.Added := by
  intro u hu
  simp only [tagStore, List.append_assoc, List.mem_append, List.mem_cons, List.not_mem_nil,
    or_false] at hu
  rcases hu with (rfl | rfl) | hu | rfl | hu
  · exact ⟨rfl, rfl⟩
  · exact ⟨rfl, by simp [tagPointer, Opcode.handled]⟩
  · exact hsecond x.id u hu
  · exact ⟨rfl, by simp [tagMemory, Opcode.handled]⟩
  · split_ifs at hu
    · simp only [List.mem_cons, List.not_mem_nil, or_false] at hu
      rcases hu with rfl | rfl <;> exact ⟨rfl, rfl⟩
    · cases hu

theorem Insertion.added (h : Insertion src i x news) : ∀ u ∈ news, u.Added := by
  cases h with
  | free => exact List.forall_mem_singleton.2 tagFree_added
  | load => exact List.forall_mem_singleton.2 loadCounter_added
  | tags last _ hsecond =>
    refine tagStore_added (fun si u hu => ?_) last
    cases hsecond with
    | malloc | realloc => cases hu
    | calloc =>
      obtain rfl := List.mem_singleton.1 hu
      exact ⟨rfl, rfl⟩

/-- `g` puts instructions that are inserted after each instruction. -/
def Expands (g : Instruction → List Instruction) : Prop :=
  ∀ j, ∃ news, g j = j :: news ∧ ∀ u ∈ news, u.Added

variable {g g' : Instruction → List Instruction}

theorem expands_insert {id : InstId} (hnews : ∀ u ∈ news, u.Added) :
    Expands fun j => if j.id = id then j :: news else [j] := by
  intro j
  dsimp only
  split
  · exact ⟨news, rfl, hnews⟩
  · exact ⟨[], rfl, fun u hu => absurd hu List.not_mem_nil⟩

theorem Expands.filter (hg : Expands g) :
    (b.flatMap g).filter Instruction.fromSource = b.filter Instruction.fromSource := by
  induction b with
  | nil => rfl
  | cons j b ih =>
    obtain ⟨news, hj, hnews⟩ := hg j
    have hnil : news.filter Instruction.fromSource = [] :=
      List.filter_eq_nil_iff.2 fun u hu => by simp [(hnews u hu).1]
    rw [List.flatMap_cons, List.filter_append, ih, hj, List.filter_cons, List.filter_cons, hnil]
    split <;> rfl

/-- The instructions of the source, in each block. -/
def Function.sources (f : Function) : List (List Instruction) :=
  f.blocks.map (List.filter Instruction.fromSource)

theorem Insertion.sources (h : Insertion src i x news) :
    (f.insertAfter x.id news).sources = f.sources := by
  unfold Function.sources Function.insertAfter
  rw [List.map_map]
  exact List.map_congr_left fun b _ => (expands_insert h.added).filter

theorem SourceFunction.sources_eq (src : SourceFunction) : src.toFunction.sources = src.blocks := by
  have hall : ∀ b ∈ src.blocks, b.filter Instruction.fromSource = b := by
    intro b hb
    exact List.filter_eq_self.2 fun i hi => (src.given i (List.mem_flatten.2 ⟨b, hb, hi⟩)).1
  exact (List.map_congr_left hall).trans (List.map_id _)

theorem runOnFunction_source (hc : src.Closed) :
    (runOnFunction src.toFunction).function.sources = src.blocks := by
  refine runOnFunction_rule (P := fun f => f.sources = src.blocks) hc
    (fun f i _ x _ news hnews h => hnews.sources.trans h) ?_
  exact src.sources_eq

/-! ### Casts, products and tags -/

/-- The address of the store, as it is passed to `DYTAN_tag_pointer`. -/
def castOf (ci : InstId) (x : Instruction) : Instruction :=
  ⟨.bitcast_inst ci x.id, .BitCastInst, [x.getOperand 1]⟩

/-- The size of the memory that the call `c` of `calloc` allocates. -/
def productOf (c x : Instruction) : Instruction :=
  ⟨.second c.id x.id, .Mul, [c.getArgOperand 0, c.getArgOperand 1]⟩

/-- What is inserted beside the tags. -/
inductive Instruction.Beside : Instruction → Prop
  | load (ci : InstId) : Beside (loadCounter ci)
  | inc (ci : InstId) : Beside (incCounter ci)
  | store (ci : InstId) : Beside (storeCounter ci)
  | free (ci : Instruction) : Beside (tagFree ci)

/-- The value that is passed as the size of what `c` allocates. -/
inductive Instruction.SizeOf (c x : Instruction) (known : Set InstId) : Value → Prop
  | malloc : c.opcode = .CallInst (some "malloc") → SizeOf c x known (c.getArgOperand 0)
  | realloc : c.opcode = .CallInst (some "realloc") → SizeOf c x known (c.getArgOperand 1)
  | calloc : c.opcode = .CallInst (some "calloc") → .second c.id x.id ∈ known →
      SizeOf c x known (.instruction (.second c.id x.id))

/-- The rest of a block after the instruction `last` of the source and the casts and products in
`known`. -/
inductive Attached (src : SourceFunction) :
    Option Instruction → Set InstId → List Instruction → Prop
  | nil {last : Option Instruction} {known : Set InstId} : Attached src last known []
  | source {last : Option Instruction} {known : Set InstId} {x : Instruction}
      {rest : List Instruction} :
      x ∈ src.instructions → Attached src (some x) ∅ rest → Attached src last known (x :: rest)
  | beside {last : Option Instruction} {known : Set InstId} {i : Instruction}
      {rest : List Instruction} :
      i.Beside → Attached src last known rest → Attached src last known (i :: rest)
  | cast {x c : Instruction} {known : Set InstId} {rest : List Instruction} :
      Attached src (some x) (insert (.bitcast_inst c.id x.id) known) rest →
      Attached src (some x) known (castOf c.id x :: rest)
  | pointer {x c : Instruction} {known : Set InstId} {rest : List Instruction} :
      src.Found c x → .bitcast_inst c.id x.id ∈ known → Attached src (some x) known rest →
      Attached src (some x) known (tagPointer c.id x.id :: rest)
  | product {x c : Instruction} {known : Set InstId} {rest : List Instruction} :
      c ∈ src.instructions → Attached src (some x) (insert (.second c.id x.id) known) rest →
      Attached src (some x) known (productOf c x :: rest)
  | memory {x c : Instruction} {known : Set InstId} {second : Value} {rest : List Instruction} :
      src.Found c x → c.SizeOf x known second → Attached src (some x) known rest →
      Attached src (some x) known (tagMemory c.id x.id second :: rest)

variable {last : Option Instruction} {known known' : Set InstId}

theorem Instruction.SizeOf.mono {v : Value} (h : c.SizeOf x known v) (hk : known ⊆ known') :
    c.SizeOf x known' v := by
  cases h with
  | malloc hop => exact .malloc hop
  | realloc hop => exact .realloc hop
  | calloc hop hmem => exact .calloc hop (hk hmem)

theorem Attached.mono (h : Attached src last known rest) (hk : known ⊆ known') :
    Attached src last known' rest := by
  induction h generalizing known' with
  | nil => exact .nil
  | source hx hrest _ => exact .source hx hrest
  | beside hi _ ih => exact .beside hi (ih hk)
  | cast _ ih => exact .cast (ih (Set.insert_subset_insert hk))
  | pointer hf hmem _ ih => exact .pointer hf (hk hmem) (ih hk)
  | product hc _ ih => exact .product hc (ih (Set.insert_subset_insert hk))
  | memory hf hsize _ ih => exact .memory hf (hsize.mono hk) (ih hk)

/-- Whole groups after an instruction of the source. -/
theorem Attached.insertAfter (hx : x ∈ src.instructions)
    (hnews : ∀ rest, Attached src (some x) ∅ rest → Attached src (some x) ∅ (news ++ rest))
    (h : Attached src last known b) :
    Attached src last known (b.flatMap fun j => if j.id = x.id then j :: news else [j]) := by
  obtain ⟨⟨n, hn⟩, -⟩ := src.source x hx
  have hskip : ∀ i rest, (∀ n, i.id ≠ .source n) →
      (i :: rest).flatMap (fun j => if j.id = x.id then j :: news else [j]) =
        i :: rest.flatMap fun j => if j.id = x.id then j :: news else [j] := by
    intro i rest hid
    rw [List.flatMap_cons, if_neg (hn ▸ hid n), List.singleton_append]
  induction h with
  | nil => exact .nil
  | @source _ _ y rest hy _ ih =>
    rw [List.flatMap_cons]
    split
    · rename_i hid
      obtain rfl := src.eq_of_id hy hx hid
      exact .source hy (hnews _ ih)
    · exact .source hy ih
  | beside hi _ ih =>
    rw [hskip _ _ (by cases hi <;> exact fun n => InstId.noConfusion)]
    exact .beside hi ih
  | cast _ ih =>
    rw [hskip _ _ fun n => InstId.noConfusion]
    exact .cast ih
  | pointer hf hmem _ ih =>
    rw [hskip _ _ fun n => InstId.noConfusion]
    exact .pointer hf hmem ih
  | product hc _ ih =>
    rw [hskip _ _ fun n => InstId.noConfusion]
    exact .product hc ih
  | memory hf hsize _ ih =>
    rw [hskip _ _ fun n => InstId.noConfusion]
    exact .memory hf hsize ih

/-- A group of tags. -/
theorem Attached.tags (hf : src.Found c x) (hsecond : c.Sized second) (last : Bool)
    (h : Attached src (some x) ∅ rest) :
    Attached src (some x) ∅ (tagStore second c x last ++ rest) := by
  have hlast : Attached src (some x) ∅
      ((if last then [incCounter c.id, storeCounter c.id] else []) ++ rest) := by
    cases last with
    | true => exact .beside (.inc _) (.beside (.store _) h)
    | false => exact h
  cases hsecond with
  | malloc hop =>
    exact .cast (.pointer hf (Set.mem_insert _ _)
      (.memory hf (.malloc hop) (hlast.mono (Set.empty_subset _))))
  | realloc hop =>
    exact .cast (.pointer hf (Set.mem_insert _ _)
      (.memory hf (.realloc hop) (hlast.mono (Set.empty_subset _))))
  | calloc hop =>
    exact .cast (.pointer hf (Set.mem_insert _ _) (.product hf.call
      (.memory hf (.calloc hop (Set.mem_insert _ _)) (hlast.mono (Set.empty_subset _)))))

theorem Insertion.attached (h : Insertion src i x news) (hx : x ∈ src.instructions)
    (hf : ∀ b ∈ f.blocks, Attached src none ∅ b) :
    ∀ b ∈ (f.insertAfter x.id news).blocks, Attached src none ∅ b := by
  intro b hb
  obtain ⟨b', hb', rfl⟩ := List.mem_map.1 hb
  refine (hf b' hb').insertAfter hx fun rest hrest => ?_
  cases h with
  | free => exact .beside (.free _) hrest
  | load => exact .beside (.load _) hrest
  | tags last hfound hsecond => exact hrest.tags hfound hsecond last

theorem runOnFunction_attached (hc : src.Closed) :
    ∀ b ∈ (runOnFunction src.toFunction).function.blocks, Attached src none ∅ b := by
  refine runOnFunction_rule (P := fun f => ∀ b ∈ f.blocks, Attached src none ∅ b) hc
    (fun f i _ x hx news hnews h => hnews.attached hx h) fun b hb => ?_
  have hall : ∀ i ∈ b, i ∈ src.instructions := fun i hi => List.mem_flatten.2 ⟨b, hb, hi⟩
  clear hb
  generalize (none : Option Instruction) = last
  induction b generalizing last with
  | nil => exact .nil
  | cons i b ih =>
    obtain ⟨hi, hall⟩ := List.forall_mem_cons.1 hall
    exact .source hi (ih hall _)

end

end Dytan.IMA
