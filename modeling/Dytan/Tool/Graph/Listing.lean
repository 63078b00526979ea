import Dytan.Tool.Graph.Scan

/-!
# The second pass on any list of instructions

`Listing`: instructions at increasing addresses, which need not be next to each other, may branch
anywhere and may have the addresses that the source uses as flags.

A turn of the loop goes to the block of the instruction (`Blocks.opened`) and, at a transfer, calls
`BranchIns` (`buildIns_eq`). What the operations change is said in two parts: the extents of the
blocks and `addressMap` (`Blocks.Grows`), and the edges (`Blocks.Links`).
-/

namespace Dytan

variable {w : Nat}

structure Listing (w : Nat) where
  firstIns : FlowINS w
  rest : List (FlowINS w)
  invalid : ADDRINT w
  width : 3 ≤ w
  increasing : (firstIns :: rest).Pairwise fun i j => i.address < j.address

namespace Listing

def instructions (r : Listing w) : List (FlowINS w) := r.firstIns :: r.rest

/-- The maps of the first pass. -/
def maps (r : Listing w) : Maps w := .ofRoutine r.instructions

/-- What the second pass builds. -/
def blocks (r : Listing w) : Option (Blocks w) := routineBlocks r.invalid r.firstIns r.rest

end Listing

namespace Blocks

variable {g g' g'' : Blocks w} {a cur : ADDRINT w} {b c A B : BlockPtr w}
  {N N' : BlockPtr w → Prop} {S S' P P' : BlockPtr w → BlockPtr w → Prop}

/-! ## Extents -/

/-- The blocks not in `N` keep their extents, and blocks are allocated. -/
structure Grows (g g' : Blocks w) (N : BlockPtr w → Prop) : Prop where
  starting : ∀ B, ¬ N B → (g'.heap B).startingAddress = (g.heap B).startingAddress
  ending : ∀ B, ¬ N B → (g'.heap B).endingAddress = (g.heap B).endingAddress
  addressMap : ∀ a, g'.addressMap a = g.addressMap a ∨
    g.addressMap a = none ∧ g'.addressMap a = some (.block a)

theorem Grows.refl : Grows g g N := ⟨fun _ _ => rfl, fun _ _ => rfl, fun _ => .inl rfl⟩

theorem Grows.trans (h : Grows g g' N) (h' : Grows g' g'' N) : Grows g g'' N where
  starting B hB := (h'.starting B hB).trans (h.starting B hB)
  ending B hB := (h'.ending B hB).trans (h.ending B hB)
  addressMap a := by
    rcases h.addressMap a with he | ⟨hn, he⟩
    · rw [← he]
      exact h'.addressMap a
    · rcases h'.addressMap a with he' | ⟨hn', -⟩
      · exact .inr ⟨hn, he'.trans he⟩
      · rw [he] at hn'
        cases hn'

theorem Grows.mono (h : Grows g g' N) (hN : ∀ B, N B → N' B) : Grows g g' N' :=
  ⟨fun B hB => h.starting B fun hn => hB (hN B hn), fun B hB => h.ending B fun hn => hB (hN B hn),
    h.addressMap⟩

/-- An address stays mapped. -/
theorem Grows.mapped (h : Grows g g' N) (ha : g.addressMap a = some B) :
    g'.addressMap a = some B := by
  rcases h.addressMap a with he | ⟨hn, -⟩
  · rw [he, ha]
  · rw [ha] at hn
    cases hn

theorem Grows.of_mem {f : BasicBlock (BlockPtr w) w → BasicBlock (BlockPtr w) w} (hB : N B) :
    Grows g (g.modify B f) N := by
  have hne : ∀ A, ¬ N A → A ≠ B := fun A hA he => hA (he ▸ hB)
  exact ⟨fun A hA => by rw [heap_modify, Heap.modify_of_ne _ _ (hne A hA)],
    fun A hA => by rw [heap_modify, Heap.modify_of_ne _ _ (hne A hA)], fun _ => .inl rfl⟩

theorem Grows.insertPreds : Grows g (g.modify B (·.insertPreds b)) N :=
  ⟨fun _ _ => Heap.modify_field BasicBlock.startingAddress (by intro _; rfl) _ _ _,
    fun _ _ => Heap.modify_field BasicBlock.endingAddress (by intro _; rfl) _ _ _, fun _ => .inl rfl⟩

theorem Grows.insertSuccs : Grows g (g.modify B (·.insertSuccs b)) N :=
  ⟨fun _ _ => Heap.modify_field BasicBlock.startingAddress (by intro _; rfl) _ _ _,
    fun _ _ => Heap.modify_field BasicBlock.endingAddress (by intro _; rfl) _ _ _, fun _ => .inl rfl⟩

theorem Grows.getBasicBlockAt (h : g.getBasicBlockAt a = (b, g')) :
    Grows g g' N ∧ g'.addressMap a = some b := by
  unfold Blocks.getBasicBlockAt at h
  split at h
  · rename_i b' hb
    cases h
    exact ⟨.refl, hb⟩
  · rename_i hn
    cases h
    refine ⟨⟨fun _ _ => rfl, fun _ _ => rfl, fun x => ?_⟩, Function.update_self ..⟩
    by_cases hx : x = a
    · subst hx
      exact .inr ⟨hn, Function.update_self ..⟩
    · exact .inl (Function.update_of_ne hx ..)

theorem Grows.predecessorAt (h : g.predecessorAt a c = (b, g')) : Grows g g' N := by
  rcases hg : g.getBasicBlockAt a with ⟨b₁, g₁⟩
  rw [Blocks.predecessorAt, hg] at h
  cases h
  exact (Grows.getBasicBlockAt hg).1.trans .insertPreds

/-! ## Edges -/

/-- `g'` is `g` with the edges `S` to successors and `P` to predecessors. -/
structure Links (g g' : Blocks w) (S P : BlockPtr w → BlockPtr w → Prop) : Prop where
  succs : ∀ A B, B ∈ (g'.heap A).successors ↔ B ∈ (g.heap A).successors ∨ S A B
  preds : ∀ A B, A ∈ (g'.heap B).predecessors ↔ A ∈ (g.heap B).predecessors ∨ P A B

/-- No edge. -/
def noEdge (_ _ : BlockPtr w) : Prop := False

/-- The edge from `A` to `B`. -/
def edge (A B : BlockPtr w) (X Y : BlockPtr w) : Prop := X = A ∧ Y = B

theorem Links.refl : Links g g noEdge noEdge :=
  ⟨fun _ _ => (or_iff_left id).symm, fun _ _ => (or_iff_left id).symm⟩

theorem Links.trans (h : Links g g' S P) (h' : Links g' g'' S' P') :
    Links g g'' (fun A B => S A B ∨ S' A B) fun A B => P A B ∨ P' A B :=
  ⟨fun A B => by rw [h'.succs, h.succs, or_assoc], fun A B => by rw [h'.preds, h.preds, or_assoc]⟩

theorem Links.congr (h : Links g g' S P) (hS : ∀ A B, S A B ↔ S' A B) (hP : ∀ A B, P A B ↔ P' A B) :
    Links g g' S' P' :=
  ⟨fun A B => by rw [h.succs, hS], fun A B => by rw [h.preds, hP]⟩

theorem Links.of_fields {f : BasicBlock (BlockPtr w) w → BasicBlock (BlockPtr w) w}
    (hs : ∀ b, (f b).successors = b.successors) (hp : ∀ b, (f b).predecessors = b.predecessors) :
    Links g (g.modify B f) noEdge noEdge := by
  refine ⟨fun A X => ?_, fun X A => ?_⟩
  · rw [heap_modify, Heap.modify_field BasicBlock.successors hs]
    exact (or_iff_left id).symm
  · rw [heap_modify, Heap.modify_field BasicBlock.predecessors hp]
    exact (or_iff_left id).symm

theorem Links.insertSuccs : Links g (g.modify A (·.insertSuccs B)) (edge A B) noEdge := by
  refine ⟨fun X Y => ?_, fun X Y => ?_⟩
  · by_cases hX : X = A
    · subst hX
      rw [heap_modify, Heap.modify_same]
      unfold BasicBlock.insertSuccs edge
      dsimp only
      split_ifs with hmem
      · refine ⟨.inl, fun h => h.elim id ?_⟩
        rintro ⟨-, rfl⟩
        exact hmem
      · simp
    · rw [heap_modify, Heap.modify_of_ne _ _ hX]
      exact (or_iff_left fun h => hX h.1).symm
  · rw [heap_modify, Heap.modify_field BasicBlock.predecessors (by intro _; rfl)]
    exact (or_iff_left id).symm

theorem Links.insertPreds : Links g (g.modify B (·.insertPreds A)) noEdge (edge A B) := by
  refine ⟨fun X Y => ?_, fun X Y => ?_⟩
  · rw [heap_modify, Heap.modify_field BasicBlock.successors (by intro _; rfl)]
    exact (or_iff_left id).symm
  · by_cases hY : Y = B
    · subst hY
      rw [heap_modify, Heap.modify_same]
      unfold BasicBlock.insertPreds edge
      dsimp only
      split_ifs with hmem
      · refine ⟨.inl, fun h => h.elim id ?_⟩
        rintro ⟨rfl, -⟩
        exact hmem
      · simp
    · rw [heap_modify, Heap.modify_of_ne _ _ hY]
      exact (or_iff_left fun h => hY h.2).symm

theorem Links.of_heap (h : g'.heap = g.heap) : Links g g' noEdge noEdge := by
  refine ⟨fun A B => ?_, fun A B => ?_⟩
  · rw [h]
    exact (or_iff_left id).symm
  · rw [h]
    exact (or_iff_left id).symm

theorem heap_getBasicBlockAt (h : g.getBasicBlockAt a = (b, g')) : g'.heap = g.heap := by
  unfold getBasicBlockAt at h
  split at h
  · cases h
    rfl
  · cases h
    rfl

theorem Links.predecessorAt (h : g.predecessorAt a c = (b, g')) :
    Links g g' noEdge (edge c b) := by
  rcases hg : g.getBasicBlockAt a with ⟨b₁, g₁⟩
  rw [Blocks.predecessorAt, hg] at h
  cases h
  exact ((Links.of_heap (heap_getBasicBlockAt hg)).trans .insertPreds).congr
    (fun _ _ => or_iff_left id) fun _ _ => or_iff_right id

/-! ## `BranchIns` -/

section
variable {branches : AddressSets w} {next : ADDRINT w}

/-- The blocks `BranchIns` makes for what is outside the routine. -/
def OutsideAt (cur : ADDRINT w) (B : BlockPtr w) : Prop :=
  B = .calledFunction cur ∨ B = .indirectTarget cur

/-- The instruction becomes the last of its block. -/
theorem branchIns_grows (h : g.branchIns branches cur next c = some g') :
    Grows ((g.modify c (·.setEnding cur)).setAddress cur c) g' (OutsideAt cur) := by
  have hcalled : OutsideAt cur (.calledFunction cur) := .inl rfl
  have hindirect : OutsideAt cur (.indirectTarget cur) := .inr rfl
  unfold branchIns at h
  dsimp only at h
  generalize (g.modify c (·.setEnding cur)).setAddress cur c = g₀ at h ⊢
  cases hb : branches cur with
  | nil =>
    rw [hb] at h
    cases h
  | cons target targets =>
    simp only [hb] at h
    split_ifs at h
    · rcases hp : predecessorAt _ next c with ⟨o, g₁⟩
      rw [hp] at h
      cases h
      exact (((Grows.of_mem hcalled).trans .insertSuccs).trans .insertPreds).trans
        ((Grows.predecessorAt hp).trans .insertSuccs)
    · split at h
      · cases h
        exact Grows.insertPreds.trans .insertSuccs
      · cases h
    · rcases hp : predecessorAt _ next c with ⟨o, g₁⟩
      rw [hp] at h
      cases h
      exact (((Grows.of_mem hindirect).trans .insertPreds).trans .insertSuccs).trans
        ((Grows.predecessorAt hp).trans .insertSuccs)
    · cases h
      exact ((Grows.of_mem hindirect).trans .insertPreds).trans .insertSuccs
    all_goals
      rcases hp : predecessorAt g₀ target c with ⟨b, g₁⟩
      rw [hp] at h
      dsimp only at h
      have htarget : Grows g₀ (g₁.modify c (·.insertSuccs b)) (OutsideAt cur) :=
        (Grows.predecessorAt hp).trans .insertSuccs
      cases targets
    · rcases hp' : predecessorAt _ next c with ⟨o, g₂⟩
      rw [hp'] at h
      cases h
      exact (htarget.trans (Grows.predecessorAt hp')).trans .insertSuccs
    · dsimp only at h
      rcases hp' : predecessorAt _ _ c with ⟨o, g₂⟩
      rw [hp'] at h
      cases h
      exact (htarget.trans (Grows.predecessorAt hp')).trans .insertSuccs
    · cases h
      exact htarget
    · dsimp only at h
      rcases hp' : predecessorAt _ _ c with ⟨o, g₂⟩
      rw [hp'] at h
      cases h
      exact (htarget.trans (Grows.predecessorAt hp')).trans .insertSuccs

theorem exists_branchIns (next : ADDRINT w) (c : BlockPtr w) (hb : branches cur ≠ [])
    (h2 : g.addressMap 2 ≠ none) : ∃ g', g.branchIns branches cur next c = some g' := by
  have hreturn : ((g.modify c (·.setEnding cur)).setAddress cur c).addressMap 2 ≠ none := by
    change Function.update g.addressMap cur (some c) 2 ≠ none
    by_cases h : 2 = cur
    · rw [h, Function.update_self]
      exact Option.some_ne_none c
    · rw [Function.update_of_ne h]
      exact h2
  unfold branchIns
  dsimp only
  generalize (g.modify c (·.setEnding cur)).setAddress cur c = g₀ at hreturn ⊢
  cases hset : branches cur with
  | nil => exact absurd hset hb
  | cons target targets =>
    dsimp only
    split_ifs
    · exact ⟨_, rfl⟩
    · cases hr : g₀.addressMap 2 with
      | none => exact absurd hr hreturn
      | some b => exact ⟨_, rfl⟩
    · exact ⟨_, rfl⟩
    · exact ⟨_, rfl⟩
    · cases targets
      · exact ⟨_, rfl⟩
      · exact ⟨_, rfl⟩
    · cases targets
      · exact ⟨_, rfl⟩
      · exact ⟨_, rfl⟩

/-- Blocks in `addressMap` are not outside the routine. -/
def Inside (g : Blocks w) : Prop := ∀ a B, g.addressMap a = some B → B.inRoutine

theorem Inside.grows (h : Inside g) (hg : Grows g g' N) : Inside g' := by
  intro a B hB
  rcases hg.addressMap a with he | ⟨-, he⟩
  · rw [he] at hB
    exact h a B hB
  · rw [he] at hB
    cases hB
    trivial

theorem Inside.setAddress (h : Inside g) (hc : c.inRoutine) : Inside (g.setAddress a c) := by
  intro x B hB
  by_cases hx : x = a
  · subst hx
    have he : (g.setAddress x c).addressMap x = some c := Function.update_self ..
    rw [he] at hB
    cases hB
    exact hc
  · have he : (g.setAddress a c).addressMap x = g.addressMap x := Function.update_of_ne hx ..
    rw [he] at hB
    exact h x B hB

end

/-! ## A turn of the loop -/

/-- The instruction is put in its block. -/
def opened (m : Maps w) (g : Blocks w) (previous cur : ADDRINT w) :
    Option (BlockPtr w) → BlockPtr w × Blocks w
  | none =>
    let (b, g) := g.getBasicBlockAt cur
    (b, g.modify b (·.setStarting cur))
  | some c =>
    if (m.targets cur).isEmpty = false then
      let (b, g) := (g.modify c (·.setEnding previous)).getBasicBlockAt cur
      (b, ((g.modify c (·.insertSuccs b)).modify b (·.insertPreds c)).modify b (·.setStarting cur))
    else (c, g.setAddress cur c)

/-- A turn of the loop puts the instruction in its block, and ends the block at a transfer. -/
theorem buildIns_eq (m : Maps w) (g : Blocks w) (previous cur next : ADDRINT w)
    (currentBlock : Option (BlockPtr w)) :
    g.buildIns m previous cur next currentBlock =
      if m.branches cur = [] then
        some (some (g.opened m previous cur currentBlock).1, (g.opened m previous cur currentBlock).2)
      else
        ((g.opened m previous cur currentBlock).2.branchIns m.branches cur next
          (g.opened m previous cur currentBlock).1).bind fun g => some (none, g) := by
  cases currentBlock with
  | none =>
    cases hb : m.branches cur with
    | nil => simp only [buildIns, opened, hb, if_true]
    | cons target targets => simp only [buildIns, opened, hb, reduceCtorEq, if_false]; rfl
  | some c =>
    by_cases ht : (m.targets cur).isEmpty = false
    · cases hb : m.branches cur with
      | nil => simp only [buildIns, opened, ht, hb, if_true]
      | cons target targets => simp only [buildIns, opened, ht, hb, reduceCtorEq, if_true, if_false]; rfl
    · cases hb : m.branches cur with
      | nil => simp [buildIns, opened, ht, hb]
      | cons target targets =>
        simp only [buildIns, opened, if_neg ht, hb, reduceCtorEq, if_false, List.isEmpty_cons, if_true,
          Scan.branchIns_setAddress]
        rfl

end Blocks

end Dytan
