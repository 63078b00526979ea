import Dytan.Tool.Graph.EdgesExact
import Dytan.Tool.Graph.Ipdom

/-!
# The calls `Controlflow` inserts

`Controlflow` puts a `PushControl` in front of every conditional branch and, at the beginning of
its immediate post-dominator, a `PopControl` for all branches that end there. `Blocks.Correct` says
that the graph it uses is right: control runs through a block from its first to its last
instruction, the edges are exact, and so are the immediate post-dominators. It holds of the graph
`RoutineGraph` builds for a routine that does not begin with a transfer, has no jump to the beginning
of its own block and leads to a return from every block, if the post-dominators are right
(`Scan.correct`).
-/

namespace Dytan

open Lib.PostDom

variable {w : Nat}

/-- `XED_CATEGORY_COND_BR`. -/
def FlowKind.isConditional : FlowKind w → Bool
  | .conditionalBranch _ => true
  | _ => false

/-- One turn of the first loop: `none` is a null block or post-dominator, which is followed. -/
def addControl (g : Blocks w) (controls : AddressSets w) (ins : FlowINS w) :
    Option (AddressSets w) :=
  if ins.kind.isConditional then do
    let block ← g.addressMap ins.address
    let ipdomBlock ← (g.heap block).postDominator
    return controls.insert (g.heap ipdomBlock).startingAddress ins.address
  else some controls

/-- The map `controls` of `Controlflow`. -/
def controlflow (g : Blocks w) (instructions : List (FlowINS w)) : Option (AddressSets w) :=
  instructions.foldlM (addControl g) fun _ => []

/-- `RoutineGraph(rtn)`; `depth` and `fuel` bound the calls of the third pass. -/
def routineGraph (depth fuel : Nat) (r : Routine w) : Option (Blocks w) := do
  let g ← routineBlocks r.invalid r.firstIns r.rest
  let h ← g.heap.buildPostDominanceTree depth fuel .returnBlock []
  return { g with heap := h }

namespace TaintState

/-- The `PushControl` inserted before the instruction. -/
def pushBefore (st : TaintState w) (ins : FlowINS w) : Option (TaintState w) :=
  if ins.kind.isConditional then st.pushControl ins.address else some st

/-- The calls inserted before the instruction; that of `PopControl` is inserted later. -/
def controlBefore (controls : AddressSets w) (st : TaintState w) (ins : FlowINS w) :
    Option (TaintState w) := do
  let st ← st.pushBefore ins
  return if controls ins.address = [] then st else st.popControl (controls ins.address)

end TaintState

/-- The graph of the routine is right, as far as `Controlflow` uses it. -/
structure Blocks.Correct (g : Blocks w) (r : Routine w) : Prop where
  mapped : ∀ i ∈ r.instructions, ∃ A, g.addressMap i.address = some A ∧ A ≠ .returnBlock
  starting : ∀ B i, r.FirstOf g B i → (g.heap B).startingAddress = i.address
  /-- Control goes on in the block before its last instruction, -/
  straight : ∀ A i, r.Holds g A i → ¬ r.LastOf g A i → i.kind ≠ .ret ∧
    ∀ j ∈ r.instructions, i.Passes j.address → r.Holds g A j ∧ ¬ r.FirstOf g A j
  /-- and enters a block at its first. -/
  entered : ∀ A i, r.LastOf g A i → ∀ j ∈ r.instructions, i.Passes j.address →
    ∃ B, r.FirstOf g B j
  edges : r.EdgesExact g
  postDominator : ∀ A i D, r.Holds g A i → (g.heap A).postDominator = some D →
    Immediate g.heap.Flows .returnBlock D A
  /-- The address at which a region ends is that of the first instruction of a block. -/
  ends : ∀ A i D, r.Holds g A i → (g.heap A).postDominator = some D → ∀ j ∈ r.instructions,
    (g.heap D).startingAddress = j.address → r.FirstOf g D j

/-! ## The map `controls` -/

section
variable {g : Blocks w} {controls : AddressSets w} {is : List (FlowINS w)} {x a : ADDRINT w}

/-- The address at which the region of a branch ends. -/
def Blocks.EndsAt (g : Blocks w) (x a : ADDRINT w) : Prop :=
  ∃ A D, g.addressMap x = some A ∧ (g.heap A).postDominator = some D ∧
    (g.heap D).startingAddress = a

theorem addControl_eq {ins : FlowINS w} {controls' : AddressSets w}
    (h : addControl g controls ins = some controls') :
    (ins.kind.isConditional → ∃ a, g.EndsAt ins.address a) ∧
    (x ∈ controls' a ↔ x ∈ controls a ∨
      ins.kind.isConditional ∧ x = ins.address ∧ g.EndsAt ins.address a) := by
  unfold addControl at h
  split_ifs at h with hc
  · obtain ⟨A, hA, h⟩ := Option.bind_eq_some_iff.1 h
    obtain ⟨D, hD, h⟩ := Option.bind_eq_some_iff.1 h
    obtain rfl := Option.some.inj h
    refine ⟨fun _ => ⟨_, A, D, hA, hD, rfl⟩, ?_⟩
    rw [AddressSets.mem_insert]
    refine or_congr_right ⟨?_, ?_⟩
    · rintro ⟨rfl, rfl⟩
      exact ⟨hc, rfl, A, D, hA, hD, rfl⟩
    · rintro ⟨-, rfl, A', D', hA', hD', rfl⟩
      obtain rfl := Option.some.inj (hA.symm.trans hA')
      obtain rfl := Option.some.inj (hD.symm.trans hD')
      exact ⟨rfl, rfl⟩
  · obtain rfl := Option.some.inj h
    simp [hc]

/-- Every branch has a place where its region ends, and is in the set of that address only. -/
theorem controlflow_spec (h : controlflow g is = some controls) :
    (∀ i ∈ is, i.kind.isConditional → ∃ a, g.EndsAt i.address a) ∧
    ∀ x a, x ∈ controls a ↔ ∃ i ∈ is, i.kind.isConditional ∧ x = i.address ∧ g.EndsAt x a := by
  have hfold : ∀ (is : List (FlowINS w)) (start : AddressSets w),
      is.foldlM (addControl g) start = some controls →
      (∀ i ∈ is, i.kind.isConditional → ∃ a, g.EndsAt i.address a) ∧
      ∀ x a, x ∈ controls a ↔ x ∈ start a ∨
        ∃ i ∈ is, i.kind.isConditional ∧ x = i.address ∧ g.EndsAt x a := by
    intro is
    induction is with
    | nil =>
      intro start h
      obtain rfl := Option.some.inj h
      simp
    | cons ins is ih =>
      intro start h
      rw [List.foldlM_cons] at h
      obtain ⟨next, hnext, h⟩ := Option.bind_eq_some_iff.1 h
      obtain ⟨hends, hmem⟩ := ih next h
      refine ⟨List.forall_mem_cons.2 ⟨(addControl_eq (x := 0) (a := 0) hnext).1, hends⟩,
        fun x a => ?_⟩
      rw [hmem, (addControl_eq hnext).2, List.exists_mem_cons_iff, or_assoc]
      refine or_congr_right (or_congr_left ?_)
      constructor
      · rintro ⟨hc, rfl, he⟩
        exact ⟨hc, rfl, he⟩
      · rintro ⟨hc, rfl, he⟩
        exact ⟨hc, rfl, he⟩
  obtain ⟨hends, hmem⟩ := hfold is _ h
  exact ⟨hends, fun x a => (hmem x a).trans (by simp)⟩

/-- No null block is followed when every branch has a place where its region ends. -/
theorem exists_controlflow (hends : ∀ i ∈ is, i.kind.isConditional → ∃ a, g.EndsAt i.address a) :
    ∃ controls, controlflow g is = some controls := by
  unfold controlflow
  generalize (fun _ => [] : AddressSets w) = start
  induction is generalizing start with
  | nil => exact ⟨start, rfl⟩
  | cons ins is ih =>
    obtain ⟨hins, hrest⟩ := List.forall_mem_cons.1 hends
    have hnext : ∃ next, addControl g start ins = some next := by
      unfold addControl
      split_ifs with hc
      · obtain ⟨a, A, D, hA, hD, -⟩ := hins hc
        exact ⟨_, by rw [hA, Option.bind_eq_bind, Option.bind_some, hD]; rfl⟩
      · exact ⟨_, rfl⟩
    obtain ⟨next, hnext⟩ := hnext
    rw [List.foldlM_cons, hnext]
    exact ih hrest next

end

/-! ## The graph of a routine -/

namespace Scan

variable {r : Routine w} {g : Blocks w} {src dst : List (FlowINS w)} {heap : Heap (BlockPtr w) w}

theorem of_heap (h : Scan r src dst g)
    (hp : ∀ B, (heap B).predecessors = (g.heap B).predecessors)
    (hs : ∀ B, (heap B).startingAddress = (g.heap B).startingAddress) :
    Scan r src dst { g with heap := heap } where
  returnBlock := h.returnBlock
  free := h.free
  addressMap := h.addressMap
  starting i hi hl := (hs _).trans (h.starting i hi hl)
  preds B hB x := by
    dsimp only
    rw [hp]
    exact h.preds B hB x

theorem reaches_block (h : Scan r r.instructions r.instructions g) {x : BlockPtr w}
    (hx : Reaches g.heap.Flows .returnBlock x) :
    x = .returnBlock ∨ ∃ i ∈ r.instructions, ∃ a, r.InBlock a i ∧ x = .block a := by
  obtain ⟨p, hp⟩ := hx
  induction hp with
  | exit => exact .inl rfl
  | @cons x y p hflow _ ih =>
    have hy : y.inRoutine := by
      rcases ih with rfl | ⟨i, -, a, -, rfl⟩ <;> trivial
    obtain ⟨i, hi, a, ha, rfl, -⟩ := (h.preds y hy x).1 hflow
    exact .inr ⟨i, hi, a, ha, rfl⟩

/-- In a routine that begins with no transfer, all but the last instruction of a block go on to the
next. -/
theorem correct (h : Scan r r.instructions r.instructions g) (hr : r.Regular)
    (hfirst : r.firstIns.kind = .other)
    (hstart : (g.heap .returnBlock).startingAddress = 2)
    (hreach : ∀ i ∈ r.instructions, ∀ a, r.InBlock a i → Reaches g.heap.Flows .returnBlock (.block a))
    (hpd : ∀ i ∈ r.instructions, ∀ a D, r.InBlock a i →
      (g.heap (.block a)).postDominator = some D → Immediate g.heap.Flows .returnBlock D (.block a)) :
    g.Correct r where
  mapped i hi := by
    obtain ⟨a, ha⟩ := Routine.exists_inBlock hi
    exact ⟨.block a, h.addressMap i hi a ha, fun he => by cases he⟩
  starting B i hf := by
    obtain ⟨hi, hl, rfl⟩ := h.firstOf_iff.1 hf
    exact h.starting i hi hl
  straight A i hA hlast := by
    obtain ⟨hi, a, ha, rfl⟩ := h.holds_iff.1 hA
    have hfinal : ¬ r.Final i := fun hf => hlast (h.lastOf_iff.2 ⟨hi, hf, a, ha, rfl⟩)
    have hkind : i.kind = .other := by
      rcases List.mem_cons.1 hi with rfl | hrest
      · exact hfirst
      · by_contra hk
        have ht : i.kind.isTransfer := by
          cases hkind : i.kind with
          | other => exact absurd hkind hk
          | _ => rfl
        exact hfinal fun j _ hj => Routine.leader_of_transfer hrest ht hj.symm
    refine ⟨by simp [hkind], fun j hj hp => ?_⟩
    have hnext : j.address = i.nextAddress := by
      rw [FlowINS.Passes, hkind] at hp
      exact hp
    have hl : ¬ r.Leader j := fun hl => hfinal fun k hk hki =>
      Routine.eq_of_address hj hk (hnext.trans hki.symm) ▸ hl
    obtain ⟨pre, post, hsplit⟩ := Routine.split_of_next hi hj hnext.symm
    have hja : r.InBlock a j := (Routine.inBlock_next hsplit hl).2 ha
    exact ⟨h.holds_iff.2 ⟨hj, a, hja, rfl⟩, fun hf => hl (h.firstOf_iff.1 hf).2.1⟩
  entered A i hl j hj hp := by
    obtain ⟨hi, hf, -⟩ := h.lastOf_iff.1 hl
    exact ⟨_, h.firstOf_iff.2 ⟨hj, Routine.leader_of_passes hi hf hj hp, rfl⟩⟩
  edges := h.exact_iff.2 hr
  postDominator A i D hA hD := by
    obtain ⟨hi, a, ha, rfl⟩ := h.holds_iff.1 hA
    exact hpd i hi a D ha hD
  ends A i D hA hD j hj hjD := by
    obtain ⟨hi, a, ha, rfl⟩ := h.holds_iff.1 hA
    have hreachD := (hpd i hi a D ha hD).strict.reaches (hreach i hi a ha)
    rcases h.reaches_block hreachD with rfl | ⟨k, -, b, hb, rfl⟩
    · exact absurd (hjD.symm.trans hstart) (Routine.instructions_ne_two hj)
    · obtain ⟨⟨first, hfirst, rfl, hl⟩, -⟩ := hb
      have hjfirst : j.address = first.address := hjD.symm.trans (h.starting first hfirst hl)
      obtain rfl := Routine.eq_of_address hj hfirst hjfirst
      exact h.firstOf_iff.2 ⟨hj, hl, rfl⟩

end Scan

end Dytan
