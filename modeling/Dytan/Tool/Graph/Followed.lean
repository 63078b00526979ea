import Dytan.Tool.Graph.TreeAgrees
import Dytan.Tool.Graph.Mirrored
import Dytan.Tool.Graph.Controlflow

/-!
# The blocks `Controlflow` follows

`Controlflow` reports a null block or post-dominator, and follows it. The block of a branch is not
null (`Scan.addressMap`); its post-dominator is when the third pass, which goes backwards from the
return block, does not meet the block.

What the second pass leaves is a graph of new blocks (`Routine.blockGraph`), so the third pass ends
for every routine. `Routine.Leads` says on the instructions which blocks it meets, and
`controlflow_iff` when `Controlflow` follows no null pointer, also with the predecessors of the blocks
in another order than that in which they were added (`Heap.Reordered`).
-/

namespace Dytan

open Relation Lib.PostDom

variable {w : Nat}

/-! ## What the second pass leaves is new -/

/-- The third pass has not been at the block. -/
structure BasicBlock.Untouched {P : Type} (b : BasicBlock P w) : Prop where
  postDominator : b.postDominator = none
  isPostDominated : b.isPostDominated = false
  postDominated : b.postDominated = fun _ => none
  nodup : b.predecessors.Nodup

namespace BasicBlock.Untouched

variable {P : Type} {b : BasicBlock P w}

theorem new : (BasicBlock.new : BasicBlock P w).Untouched := ⟨rfl, rfl, rfl, List.nodup_nil⟩

theorem setStarting (h : b.Untouched) (a : ADDRINT w) : (b.setStarting a).Untouched :=
  ⟨h.postDominator, h.isPostDominated, h.postDominated, h.nodup⟩

theorem setEnding (h : b.Untouched) (a : ADDRINT w) : (b.setEnding a).Untouched :=
  ⟨h.postDominator, h.isPostDominated, h.postDominated, h.nodup⟩

variable [DecidableEq P]

theorem insertSuccs (h : b.Untouched) (p : P) : (b.insertSuccs p).Untouched :=
  ⟨h.postDominator, h.isPostDominated, h.postDominated, h.nodup⟩

theorem insertPreds (h : b.Untouched) (p : P) : (b.insertPreds p).Untouched := by
  refine ⟨h.postDominator, h.isPostDominated, h.postDominated, ?_⟩
  unfold BasicBlock.insertPreds
  dsimp only
  split_ifs with hp
  · exact h.nodup
  · exact List.Nodup.append h.nodup (List.nodup_singleton p) (by simpa using hp)

end BasicBlock.Untouched

namespace Blocks

variable {g g' : Blocks w} {a cur next : ADDRINT w} {b c B : BlockPtr w} {m : Maps w}
  {branches : AddressSets w}

/-- The third pass has not been at the blocks. -/
def Untouched (g : Blocks w) : Prop := ∀ B, (g.heap B).Untouched

namespace Untouched

theorem modify {f : BasicBlock (BlockPtr w) w → BasicBlock (BlockPtr w) w} (h : g.Untouched)
    (hf : ∀ b, b.Untouched → (f b).Untouched) : (g.modify B f).Untouched := by
  intro x
  rw [heap_modify]
  by_cases hx : x = B
  · rw [hx, Heap.modify_same]
    exact hf _ (h B)
  · rw [Heap.modify_of_ne _ _ hx]
    exact h x

theorem insertSuccs (h : g.Untouched) : (g.modify B (·.insertSuccs b)).Untouched :=
  h.modify fun _ hb => hb.insertSuccs b

theorem insertPreds (h : g.Untouched) : (g.modify B (·.insertPreds b)).Untouched :=
  h.modify fun _ hb => hb.insertPreds b

theorem setEnding (h : g.Untouched) : (g.modify B (·.setEnding a)).Untouched :=
  h.modify fun _ hb => hb.setEnding a

theorem setStarting (h : g.Untouched) : (g.modify B (·.setStarting a)).Untouched :=
  h.modify fun _ hb => hb.setStarting a

theorem setExtent {a' : ADDRINT w} (h : g.Untouched) :
    (g.modify B fun block => (block.setStarting a).setEnding a').Untouched :=
  h.modify fun _ hb => (hb.setStarting a).setEnding a'

theorem setAddress (h : g.Untouched) : (g.setAddress a c).Untouched := h

theorem getBasicBlockAt (h : g.Untouched) (hg : g.getBasicBlockAt a = (b, g')) :
    g'.Untouched := by
  intro x
  rw [heap_getBasicBlockAt hg]
  exact h x

theorem predecessorAt (h : g.Untouched) (hp : g.predecessorAt a c = (b, g')) : g'.Untouched := by
  rcases hg : g.getBasicBlockAt a with ⟨b₁, g₁⟩
  rw [Blocks.predecessorAt, hg] at hp
  cases hp
  exact (h.getBasicBlockAt hg).insertPreds

theorem branchIns (h : g.Untouched) (hg : g.branchIns branches cur next c = some g') :
    g'.Untouched := by
  unfold Blocks.branchIns at hg
  dsimp only at hg
  have hend : ((g.modify c (·.setEnding cur)).setAddress cur c).Untouched := h.setEnding.setAddress
  generalize (g.modify c (·.setEnding cur)).setAddress cur c = g₀ at hg hend
  cases hb : branches cur with
  | nil =>
    rw [hb] at hg
    cases hg
  | cons target targets =>
    simp only [hb] at hg
    split_ifs at hg
    · rcases hp : Blocks.predecessorAt _ next c with ⟨o, g₁⟩
      rw [hp] at hg
      cases hg
      exact (hend.setExtent.insertSuccs.insertPreds.predecessorAt hp).insertSuccs
    · split at hg
      · cases hg
        exact hend.insertPreds.insertSuccs
      · cases hg
    · rcases hp : Blocks.predecessorAt _ next c with ⟨o, g₁⟩
      rw [hp] at hg
      cases hg
      exact (hend.setExtent.insertPreds.insertSuccs.predecessorAt hp).insertSuccs
    · cases hg
      exact hend.setExtent.insertPreds.insertSuccs
    all_goals
      rcases hp : Blocks.predecessorAt g₀ target c with ⟨b, g₁⟩
      rw [hp] at hg
      dsimp only at hg
      have htarget : (g₁.modify c (·.insertSuccs b)).Untouched := (hend.predecessorAt hp).insertSuccs
      cases targets
    · rcases hp' : Blocks.predecessorAt _ next c with ⟨o, g₂⟩
      rw [hp'] at hg
      cases hg
      exact (htarget.predecessorAt hp').insertSuccs
    · dsimp only at hg
      rcases hp' : Blocks.predecessorAt _ _ c with ⟨o, g₂⟩
      rw [hp'] at hg
      cases hg
      exact (htarget.predecessorAt hp').insertSuccs
    · cases hg
      exact htarget
    · dsimp only at hg
      rcases hp' : Blocks.predecessorAt _ _ c with ⟨o, g₂⟩
      rw [hp'] at hg
      cases hg
      exact (htarget.predecessorAt hp').insertSuccs

theorem opened {q : ADDRINT w} (h : g.Untouched) (currentBlock : Option (BlockPtr w)) :
    (g.opened m q a currentBlock).2.Untouched := by
  cases currentBlock with
  | none =>
    rcases hg : g.getBasicBlockAt a with ⟨b, g₁⟩
    simp only [Blocks.opened, hg]
    exact (h.getBasicBlockAt hg).setStarting
  | some c =>
    by_cases ht : (m.targets a).isEmpty = false
    · rcases hg : (g.modify c (·.setEnding q)).getBasicBlockAt a with ⟨b, g₁⟩
      simp only [Blocks.opened, ht, if_true, hg]
      exact (h.setEnding.getBasicBlockAt hg).insertSuccs.insertPreds.setStarting
    · simp only [Blocks.opened, if_neg ht]
      exact h.setAddress

theorem buildLoop {invalid q : ADDRINT w} {post : List (FlowINS w)} (h : g.Untouched)
    {currentBlock : Option (BlockPtr w)}
    (hg : g.buildLoop m invalid q currentBlock post = some g') : g'.Untouched := by
  induction post generalizing g q currentBlock with
  | nil =>
    cases currentBlock with
    | none =>
      cases hg
      exact h
    | some c =>
      cases hg
      exact h.setEnding
  | cons ins post ih =>
    rw [Blocks.buildLoop] at hg
    obtain ⟨⟨currentBlock', g₁⟩, hg₁, hg⟩ := Option.bind_eq_some_iff.1 hg
    have hopened := h.opened (m := m) (q := q) (a := ins.address) currentBlock
    rw [buildIns_eq] at hg₁
    refine ih ?_ hg
    split_ifs at hg₁
    · cases hg₁
      exact hopened
    · obtain ⟨g₂, hg₂, he⟩ := Option.bind_eq_some_iff.1 hg₁
      cases he
      exact hopened.branchIns hg₂

theorem initial (f : ADDRINT w) : (Blocks.initial f).Untouched := by
  have hnew : Untouched ⟨fun _ => .new, Function.update (fun _ => none) f (some (.block f))⟩ :=
    fun _ => .new
  exact hnew.setStarting.setAddress.setExtent.setAddress

end Untouched

end Blocks

/-! ## The graph of a routine -/

namespace Routine

variable {r : Routine w} {g : Blocks w} {i j l : FlowINS w} {a : ADDRINT w} {B : BlockPtr w}

open Classical in
/-- The return block and the blocks that begin at an instruction. -/
noncomputable def nodes (r : Routine w) : Finset (BlockPtr w) :=
  insert .returnBlock ((r.instructions.filter r.Leader).map fun i => .block i.address).toFinset

theorem mem_nodes : B ∈ r.nodes ↔
    B = .returnBlock ∨ ∃ i ∈ r.instructions, r.Leader i ∧ B = .block i.address := by
  simp only [nodes, Finset.mem_insert, List.mem_toFinset, List.mem_map, List.mem_filter,
    decide_eq_true_eq]
  refine or_congr_right ⟨?_, ?_⟩
  · rintro ⟨i, ⟨hi, hl⟩, rfl⟩
    exact ⟨i, hi, hl, rfl⟩
  · rintro ⟨i, hi, hl, rfl⟩
    exact ⟨i, ⟨hi, hl⟩, rfl⟩

theorem returnBlock_start (hg : routineBlocks r.invalid r.firstIns r.rest = some g) :
    (g.heap .returnBlock).startingAddress = 2 := by
  obtain ⟨hhead, htail⟩ := List.pairwise_cons.1 r.increasing
  obtain ⟨g₁, hg₁, hkeeps⟩ := (Blocks.initial_ready r.firstIns.address).buildLoop (m := r.maps)
    r.invalid (some (.block r.firstIns.address)) htail hhead
  obtain rfl : g₁ = g := Option.some.inj (hg₁.symm.trans hg)
  rw [hkeeps.starting .returnBlock trivial fun a ha he => ?_]
  · simp [Blocks.initial, Blocks.setAddress, Heap.modify_same, BasicBlock.setStarting,
      BasicBlock.setEnding]
  · -- only the block of 2 is the return block
    have hfirst := (r.possible r.firstIns first_mem).1
    unfold blockAt at he
    split_ifs at he with h2
    rw [h2] at ha
    exact (Blocks.flag_lt r.width (n := 2) (by decide) (BitVec.lt_trans hfirst ha)).2 rfl

/-- The second pass leaves a graph of new blocks, which begin at different addresses. -/
theorem blockGraph (hg : routineBlocks r.invalid r.firstIns r.rest = some g) :
    BlockGraph g.heap .returnBlock r.nodes ∧ DistinctStarts g.heap .returnBlock := by
  obtain ⟨g₁, hg₁, hscan⟩ := Scan.routineBlocks r
  obtain rfl : g₁ = g := Option.some.inj (hg₁.symm.trans hg)
  have hnew : g₁.Untouched := (Blocks.Untouched.initial r.firstIns.address).buildLoop hg
  have hstart : ∀ i ∈ r.instructions, ∀ a, r.InBlock a i →
      (g₁.heap (.block a)).startingAddress = a ∧ a ≠ 2 := by
    rintro i - a ⟨⟨first, hfirst, rfl, hl⟩, -, -⟩
    exact ⟨hscan.starting first hfirst hl, instructions_ne_two hfirst⟩
  refine ⟨⟨mem_nodes.2 (.inl rfl), fun B hB => ?_, fun B _ => (hnew B).nodup, fun B hB A hA => ?_,
    fun B => ⟨(hnew B).postDominator, (hnew B).isPostDominated, (hnew B).postDominated⟩⟩,
    fun A B hA hB he => ?_⟩
  · rcases mem_nodes.1 hB with rfl | ⟨i, hi, hl, rfl⟩
    · exact iff_of_true (returnBlock_start hg) rfl
    · obtain ⟨hsi, hne⟩ := hstart i hi _ (inBlock_self hi hl)
      rw [hsi]
      exact iff_of_false hne (by simp)
  · have hin : B.inRoutine := by
      rcases mem_nodes.1 hB with rfl | ⟨i, -, -, rfl⟩ <;> trivial
    obtain ⟨i, -, a, ⟨⟨first, hfirst, rfl, hl⟩, -, -⟩, rfl, -⟩ := (hscan.preds B hin A).1 hA
    exact ⟨mem_nodes.2 (.inr ⟨first, hfirst, hl, rfl⟩), by simp⟩
  · rcases hscan.reaches_block hA with rfl | ⟨i, hi, a, ha, rfl⟩
    · rcases hscan.reaches_block hB with rfl | ⟨j, hj, b, hb, rfl⟩
      · rfl
      · rw [returnBlock_start hg, (hstart j hj b hb).1] at he
        exact absurd he.symm (hstart j hj b hb).2
    · rcases hscan.reaches_block hB with rfl | ⟨j, hj, b, hb, rfl⟩
      · rw [returnBlock_start hg, (hstart i hi a ha).1] at he
        exact absurd he (hstart i hi a ha).2
      · rw [(hstart i hi a ha).1, (hstart j hj b hb).1] at he
        rw [he]

/-! ## Which instructions lead to a return -/

/-- Control is taken to go from `i` to `j`: a jump to the beginning of its own block is taken to go
on to the next instruction as well, and so is the first instruction, of whatever kind it is. -/
def Follows (r : Routine w) (i j : FlowINS w) : Prop :=
  j ∈ r.instructions ∧
    ((r.Ends i ∧ i.Passes j.address) ∨ (¬ r.Ends i ∧ j.address = i.nextAddress) ∨
      ∃ target, r.Ends i ∧ i.kind = .jump target ∧ r.InBlock target i ∧
        j.address = i.nextAddress)

/-- Control is taken to lead from the instruction to a return, which is not the first
instruction. -/
def Leads (r : Routine w) (i : FlowINS w) : Prop :=
  ∃ l ∈ r.rest, ReflTransGen r.Follows i l ∧ l.kind = .ret

/-- A block is a predecessor of the blocks that its last instruction is taken to go to. -/
theorem contributes_iff (hi : i ∈ r.instructions) (ha : r.InBlock a i) (hj : j ∈ r.instructions)
    (hl : r.Leader j) :
    r.Contributes r.instructions i a (.block j.address) ↔ r.Follows i j := by
  unfold Follows
  by_cases he : r.Ends i
  · simp only [hj, he, true_and, not_true, false_and, false_or]
    by_cases hk : ∀ target, i.kind ≠ .jump target
    · rw [(exactAt_of_ne_jump he.1 hk).1 j hj hl]
      refine ⟨.inl, fun h => h.resolve_right ?_⟩
      rintro ⟨target, ht, -⟩
      exact hk target ht
    · push Not at hk
      obtain ⟨target, hk⟩ := hk
      obtain ⟨n, hn⟩ := exists_next hi
      have hnext : j.address = n ↔ j.address = i.nextAddress := by
        rcases hn.cases with ⟨rfl, -⟩ | ⟨rfl, hno⟩
        · exact .rfl
        · exact iff_of_false (r.invalid_ne.2 j hj) (hno j hj)
      rw [contributes_transfer he hn, FlowINS.Enters, FlowINS.Passes]
      simp only [hk]
      refine or_congr_right ⟨?_, ?_⟩
      · rintro ⟨hta, hjn⟩
        exact ⟨target, rfl, hta ▸ ha, hnext.1 hjn⟩
      · rintro ⟨t, ht, hb, hjn⟩
        obtain rfl := FlowKind.jump.inj ht
        exact ⟨hb.unique ha, hnext.2 hjn⟩
  · simp only [hj, he, false_and, not_false_eq_true, true_and, false_or, exists_const, or_false]
    exact contributes_plain he hj hl

/-- Within a block an instruction is taken to go on to the next, and to no other. -/
theorem follows_of_not_final (hi : i ∈ r.instructions) (hf : ¬ r.Final i) (ha : r.InBlock a i) :
    ∃ j, r.Follows i j ∧ r.InBlock a j ∧ i.address < j.address ∧ ∀ k, r.Follows i k → k = j := by
  unfold Final at hf
  push Not at hf
  obtain ⟨j, hj, hji, hl⟩ := hf
  have he : ¬ r.Ends i := fun he => hl (leader_of_transfer he.1 he.2 hji.symm)
  obtain ⟨pre, post, hsplit⟩ := split_of_next hi hj hji.symm
  refine ⟨j, ⟨hj, .inr (.inl ⟨he, hji⟩)⟩, (inBlock_next hsplit hl).2 ha, hji ▸ r.forward i hi, ?_⟩
  rintro k ⟨hk, ⟨he', -⟩ | ⟨-, hki⟩ | ⟨-, he', -⟩⟩
  · exact absurd he' he
  · exact eq_of_address hk hj (hki.trans hji.symm)
  · exact absurd he' he

/-- The last instruction of a block is taken to go to beginnings of blocks. -/
theorem Follows.leader (h : r.Follows i j) (hi : i ∈ r.instructions) (hf : r.Final i) :
    r.Leader j := by
  obtain ⟨hj, ⟨-, hp⟩ | ⟨-, hji⟩ | ⟨-, -, -, -, hji⟩⟩ := h
  · exact leader_of_passes hi hf hj hp
  · exact hf j hj hji
  · exact hf j hj hji

/-- An instruction leads to the last one of its block. -/
theorem exists_final (hi : i ∈ r.instructions) (ha : r.InBlock a i) :
    ∃ l ∈ r.instructions, r.Final l ∧ r.InBlock a l ∧ ReflTransGen r.Follows i l := by
  have hall : ∀ n (i : FlowINS w), 2 ^ w - i.address.toNat ≤ n → i ∈ r.instructions →
      r.InBlock a i → ∃ l ∈ r.instructions, r.Final l ∧ r.InBlock a l ∧
        ReflTransGen r.Follows i l := by
    intro n
    induction n with
    | zero =>
      intro i hn
      have hlt := i.address.isLt
      omega
    | succ n ih =>
      intro i hn hi ha
      by_cases hf : r.Final i
      · exact ⟨i, hi, hf, ha, .refl⟩
      · obtain ⟨j, hfollows, hja, hlt, -⟩ := follows_of_not_final hi hf ha
        rw [BitVec.lt_def] at hlt
        have hj := j.address.isLt
        obtain ⟨l, hl, hlf, hla, hrun⟩ := ih j (by omega) hfollows.1 hja
        exact ⟨l, hl, hlf, hla, ReflTransGen.head hfollows hrun⟩
  exact hall _ i (Nat.le_refl _) hi ha

/-- In a block, only the last instruction is taken to return. -/
theorem final_of_ret (hi : i ∈ r.rest) (hk : i.kind = .ret) : r.Final i := fun _ _ hji =>
  leader_of_transfer hi (by rw [hk]; rfl) hji.symm

end Routine

namespace Scan

variable {r : Routine w} {g : Blocks w} {i : FlowINS w} {a : ADDRINT w}

/-- The third pass meets the blocks whose instructions lead to a return. -/
theorem reaches_iff (h : Scan r r.instructions r.instructions g) (hi : i ∈ r.instructions)
    (ha : r.InBlock a i) : Reaches g.heap.Flows .returnBlock (.block a) ↔ r.Leads i := by
  constructor
  · rintro ⟨path, hpath⟩
    generalize hB : BlockPtr.block a = B at hpath
    induction hpath generalizing a i with
    | exit => cases hB
    | @cons B C path hflow hpath ih =>
      subst hB
      obtain ⟨l, hl, hf, hla, hrun⟩ := Routine.exists_final hi ha
      have hC : C = .returnBlock ∨ ∃ j ∈ r.instructions, ∃ b, r.InBlock b j ∧ C = .block b :=
        h.reaches_block ⟨path, hpath⟩
      rcases hC with rfl | ⟨-, -, -, ⟨⟨j, hj, rfl, hjl⟩, -, -⟩, rfl⟩
      · have hc := (h.preds_last (B := .returnBlock) hl hf hla trivial).1 hflow
        by_cases he : r.Ends l
        · obtain ⟨n, hn⟩ := Routine.exists_next hl
          exact ⟨l, he.1, hrun, (Routine.contributes_transfer he hn).1 hc⟩
        · exact absurd hc (Routine.not_contributes_return he)
      · have hc := (h.preds_last (B := .block j.address) hl hf hla trivial).1 hflow
        have hfollows := (Routine.contributes_iff hl hla hj hjl).1 hc
        obtain ⟨k, hk, hjk, hret⟩ := ih hj (Routine.inBlock_self hj hjl) rfl
        exact ⟨k, hk, (hrun.tail hfollows).trans hjk, hret⟩
  · rintro ⟨l, hl, hrun, hret⟩
    induction hrun using ReflTransGen.head_induction_on generalizing a with
    | refl =>
      obtain ⟨n, hn⟩ := Routine.exists_next hi
      have hf := Routine.final_of_ret hl hret
      have he : r.Ends l := ⟨hl, by rw [hret]; rfl⟩
      refine Reaches.step (b := .returnBlock) ?_ .refl
      rw [Heap.Flows, h.preds_last (B := .returnBlock) hi hf ha trivial,
        Routine.contributes_transfer he hn]
      exact hret
    | @head i j hfollows hrun ih =>
      have hj := hfollows.1
      by_cases hf : r.Final i
      · have hjl := hfollows.leader hi hf
        refine Reaches.step ?_ (ih hj (Routine.inBlock_self hj hjl))
        rw [Heap.Flows, h.preds_last (B := .block j.address) hi hf ha trivial,
          Routine.contributes_iff hi ha hj hjl]
        exact hfollows
      · obtain ⟨k, -, hka, -, hone⟩ := Routine.follows_of_not_final hi hf ha
        rw [← hone j hfollows] at hka
        exact ih hj hka

end Scan

/-! ## The null pointers -/

namespace PassState

variable {P : Type} [DecidableEq P] {h h' : Heap P w} {root b : P} {nodes : Finset P}
  {depth fuel : Nat}

/-- A block has a post-dominator in the end if it leads to the return. -/
theorem postDominator_iff (hg : BlockGraph h root nodes)
    (hbuild : h.buildPostDominanceTree depth fuel root [] = some h') (hb : b ≠ root) :
    (∃ p, (h' b).postDominator = some p) ↔ Reaches h.Flows root b := by
  have hfull := FullHeap.blocks_buildPostDominanceTree depth fuel ⟨h, fun _ _ => none⟩ root []
  rw [hbuild] at hfull
  obtain ⟨f, hf, rfl⟩ := Option.map_eq_some_iff.1 hfull
  obtain ⟨s, hsteps, hdone, rfl⟩ := steps_of_build [root] hf
  have hs := (start_sane hg).steps hg hsteps
  rw [← hs.reaches_iff hdone, hs.mem_met hb, Option.ne_none_iff_exists']
  rfl

end PassState

/-! ## The order of the predecessors -/

/-- The same blocks, with their predecessors in another order: a set of pointers has them as they are
allocated. -/
structure Heap.Reordered {P : Type} (h h' : Heap P w) : Prop where
  predecessors : ∀ b, (h' b).predecessors.Perm (h b).predecessors
  block : ∀ b, h' b = { h b with predecessors := (h' b).predecessors }

namespace Heap.Reordered

variable {P : Type} {h h' : Heap P w} {root : P} {nodes : Finset P}

theorem refl (h : Heap P w) : h.Reordered h := ⟨fun _ => .refl _, fun _ => rfl⟩

theorem flows (hr : h.Reordered h') : h'.Flows = h.Flows := by
  funext a b
  exact propext (hr.predecessors b).mem_iff

theorem startingAddress (hr : h.Reordered h') (b : P) :
    (h' b).startingAddress = (h b).startingAddress := by rw [hr.block b]

theorem blockGraph (hr : h.Reordered h') (hg : BlockGraph h root nodes) :
    BlockGraph h' root nodes where
  root_mem := hg.root_mem
  root_start b hb := by rw [hr.startingAddress, hg.root_start b hb]
  nodup b hb := (hr.predecessors b).nodup_iff.2 (hg.nodup b hb)
  closed b hb a ha := hg.closed b hb a (hr.flows ▸ ha)
  fresh b := by
    rw [hr.block b]
    exact hg.fresh b

theorem distinctStarts (hr : h.Reordered h') (hd : DistinctStarts h root) :
    DistinctStarts h' root := by
  intro a b ha hb he
  rw [hr.flows] at ha hb
  rw [hr.startingAddress, hr.startingAddress] at he
  exact hd a b ha hb he

end Heap.Reordered

namespace Routine

variable {r : Routine w} {g : Blocks w} {depth fuel : Nat}

/-- With the predecessors in any order the third pass ends. -/
theorem buildPostDominanceTree_reordered (hg : routineBlocks r.invalid r.firstIns r.rest = some g)
    {h : Heap (BlockPtr w) w} (hr : g.heap.Reordered h) :
    ∃ h', h.buildPostDominanceTree r.nodes.card r.nodes.card .returnBlock [] = some h' := by
  obtain ⟨hgraph, hdistinct⟩ := blockGraph hg
  obtain ⟨s, -, -, hbuild⟩ :=
    PassState.exists_done (hr.blockGraph hgraph) (hr.distinctStarts hdistinct) (Nat.le_refl _)
  exact ⟨s.heap, hbuild _ (Nat.le_refl _)⟩

/-- `Controlflow` then follows no null pointer exactly if every conditional branch is taken to lead to
a return. -/
theorem controlflow_reordered (hg : routineBlocks r.invalid r.firstIns r.rest = some g)
    {h h' : Heap (BlockPtr w) w} (hr : g.heap.Reordered h)
    (hbuild : h.buildPostDominanceTree depth fuel .returnBlock [] = some h') :
    (∃ controls, controlflow { g with heap := h' } r.instructions = some controls) ↔
      ∀ i ∈ r.instructions, i.kind.isConditional → r.Leads i := by
  obtain ⟨g₀, hg₀, hscan⟩ := Scan.routineBlocks r
  obtain rfl := Option.some.inj (hg.symm.trans hg₀)
  have hgraph := hr.blockGraph (blockGraph hg).1
  have hends : ∀ i ∈ r.instructions,
      ((∃ a, Blocks.EndsAt { g with heap := h' } i.address a) ↔ r.Leads i) := by
    intro i hi
    obtain ⟨a, ha⟩ := exists_inBlock hi
    have hmap := hscan.addressMap i hi a ha
    rw [← hscan.reaches_iff hi ha, ← hr.flows,
      ← PassState.postDominator_iff hgraph hbuild (by simp)]
    constructor
    · rintro ⟨-, A, D, hA, hD, -⟩
      obtain rfl : BlockPtr.block a = A := Option.some.inj (hmap.symm.trans hA)
      exact ⟨D, hD⟩
    · rintro ⟨D, hD⟩
      exact ⟨_, .block a, D, hmap, hD, rfl⟩
  constructor
  · rintro ⟨controls, hcontrols⟩ i hi hc
    exact (hends i hi).1 ((controlflow_spec hcontrols).1 i hi hc)
  · exact fun hall => exists_controlflow fun i hi hc => (hends i hi).2 (hall i hi hc)

/-- Controlflow follows no null pointer exactly if every conditional branch is taken to lead to a
return. The third pass ends for every routine. So it is with the predecessors in any other order. -/
theorem controlflow_iff (r : Routine w) :
    (∃ depth fuel g, routineGraph depth fuel r = some g) ∧
    (∀ depth fuel g, routineGraph depth fuel r = some g →
      ((∃ controls, controlflow g r.instructions = some controls) ↔
        ∀ i ∈ r.instructions, i.kind.isConditional → r.Leads i)) ∧
    ∀ g h, routineBlocks r.invalid r.firstIns r.rest = some g → g.heap.Reordered h →
      (∃ depth fuel h', h.buildPostDominanceTree depth fuel .returnBlock [] = some h') ∧
      ∀ depth fuel h', h.buildPostDominanceTree depth fuel .returnBlock [] = some h' →
        ((∃ controls, controlflow { g with heap := h' } r.instructions = some controls) ↔
          ∀ i ∈ r.instructions, i.kind.isConditional → r.Leads i) := by
  obtain ⟨g₀, hg₀, -⟩ := Scan.routineBlocks r
  have hsame := Heap.Reordered.refl g₀.heap
  refine ⟨?_, fun depth fuel g hg => ?_, fun g h hg hr => ⟨?_, fun depth fuel h' hbuild => ?_⟩⟩
  · obtain ⟨h', hbuild⟩ := buildPostDominanceTree_reordered hg₀ hsame
    refine ⟨r.nodes.card, r.nodes.card, { g₀ with heap := h' }, ?_⟩
    rw [routineGraph, hg₀, Option.bind_eq_bind, Option.bind_some, hbuild]
    rfl
  · rw [routineGraph, hg₀, Option.bind_eq_bind, Option.bind_some] at hg
    obtain ⟨h', hbuild, he⟩ := Option.bind_eq_some_iff.1 hg
    cases he
    exact controlflow_reordered hg₀ hsame hbuild
  · obtain ⟨h', hbuild⟩ := buildPostDominanceTree_reordered hg hr
    exact ⟨_, _, h', hbuild⟩
  · exact controlflow_reordered hg hr hbuild

/-- A branch in a loop without an end. -/
def endless : Routine 32 where
  firstIns := ⟨0x10, 0x11, .other⟩
  rest := [⟨0x11, 0x13, .conditionalBranch 0x10⟩, ⟨0x13, 0x15, .jump 0x10⟩]
  invalid := 0
  width := three_le_word
  increasing := by decide
  contiguous := by decide
  forward := by decide
  possible := by
    simp only [List.forall_mem_cons, FlowKind.target?, Option.mem_def, Option.some.injEq,
      forall_eq', reduceCtorEq, false_implies, implies_true]
    decide
  calls := by decide
  invalid_ne := by decide

/-- The block of the branch is there, and has no post-dominator. -/
theorem endless_null : ∃ g, routineGraph 4 4 endless = some g ∧
    g.addressMap 0x11 = some (.block 0x10) ∧ (g.heap (.block 0x10)).postDominator = none ∧
    controlflow g endless.instructions = none := by
  refine ⟨(routineGraph 4 4 endless).get (by decide +kernel), (Option.some_get _).symm, ?_, ?_, ?_⟩
  · decide +kernel
  · decide +kernel
  · rfl

end Routine

end Dytan
