import Dytan.Tool.Graph.RoutineGraph
import Dytan.Tool.Graph.TreeBuilder

/-!
# Immediate post-dominators

What `buildPostDominanceTree` leaves in the blocks: the immediate post-dominators, when every edge
is stable where the pass meets it (`buildPostDominanceTree_correct`). An edge that is not makes the
post-dominator of a block wrong that the pass does not come back to (`nested_branch_wrong`).
-/

namespace Dytan

open Lib.PostDom

namespace Heap

variable {P : Type} {w : Nat} [DecidableEq P] {h : Heap P w} {root : P} {nodes : Finset P}
  {depth fuel : Nat}

omit [DecidableEq P] in
/-- Before the pass only the root is found. -/
theorem NewGraph.visiting (hg : NewGraph h root nodes) : Visiting h h root nodes [] [] [root] := by
  have hnone : ∀ {b}, Reaches (ofList []) root b → b = root := by
    intro b hb
    rcases hb.cases with hb | ⟨c, hc, -⟩
    · exact hb
    · cases hc
  have hstrict : ∀ {b y}, Reaches (ofList []) root y → ¬ Strict (ofList []) root b y := by
    intro b y hy hst
    rw [hnone hy] at hst
    exact not_strict_exit hst
  have htree : Tree h root nodes (ofList []) :=
    { root_mem := hg.root_mem
      root_start := hg.root_start
      starts := hg.starts
      inside := fun a b he => by cases he
      found := fun b hb hne => absurd (hnone hb) hne
      marked := fun b hb hne => absurd (hnone hb) hne
      fresh := fun b hb _ => hg.fresh b hb
      below := fun b y hy hby => absurd hby (hstrict hy)
      entry := fun b hb a y hy => by rw [(hg.fresh b hb).2.2] at hy; cases hy
      null := fun b hb a hy => by rw [(hg.fresh b hb).2.2] at hy; cases hy }
  refine ⟨htree, fun _ => rfl, fun a b he => (nomatch he), fun b => ?_, fun b hb => ?_,
    fun b hb => .inl ?_⟩
  · constructor
    · intro hb
      exact .inl (hnone hb)
    · rintro (rfl | hb)
      · exact .refl
      · cases hb
  · rw [List.mem_singleton.1 hb]
    exact .refl
  · rw [hnone hb]
    exact List.mem_singleton_self _

/-- The pass leaves a tree for all edges of the graph. -/
theorem NewGraph.tree (hg : NewGraph h root nodes)
    (hst : StableOrder root [] (edgeOrder (fun b => (h b).predecessors) fuel [] root []))
    (hd : nodes.card < depth) (hf : nodes.card < fuel) :
    ∃ h' edges, buildPostDominanceTree depth fuel h root [] = some h' ∧
      Tree h' root nodes (ofList edges) ∧
      ∀ a p, Path (ofList edges) root a p ↔ Path h.Flows root a p := by
  obtain ⟨h', edges, hcall, ht, hsound, hcomplete⟩ :=
    hg.visiting.build hg hst hd (by simpa using hf)
  refine ⟨h', edges, hcall, ht, fun a p => ?_⟩
  constructor
  · exact Path.mono hsound
  · exact Path.of_complete fun a b he hb => hcomplete b hb a he

omit [DecidableEq P] in
theorem Tree.immediate {edges : List (P × P)} {flows : P → P → Prop} {B : P}
    (ht : Tree h root nodes (ofList edges))
    (hpath : ∀ a p, Path (ofList edges) root a p ↔ Path flows root a p) (hB : Reaches flows root B)
    (hne : B ≠ root) : ∃ D, (h B).postDominator = some D ∧ Immediate flows root D B := by
  obtain ⟨p, hp⟩ := hB
  obtain ⟨D, hD, him⟩ := ht.found B ⟨p, (hpath B p).2 hp⟩ hne
  exact ⟨D, hD, him.congr hpath⟩

/-- Where every edge is stable when the pass meets it, every block that leads to the root has its
immediate post-dominator in the end. -/
theorem buildPostDominanceTree_correct (hg : NewGraph h root nodes)
    (hst : StableOrder root [] (edgeOrder (fun b => (h b).predecessors) fuel [] root []))
    (hd : nodes.card < depth) (hf : nodes.card < fuel) :
    ∃ h', buildPostDominanceTree depth fuel h root [] = some h' ∧
      ∀ B, Reaches h.Flows root B → B ≠ root →
        ∃ D, (h' B).postDominator = some D ∧ Immediate h.Flows root D B := by
  obtain ⟨h', edges, hcall, ht, hpath⟩ := hg.tree hst hd hf
  exact ⟨h', hcall, fun B hB hne => ht.immediate hpath hB hne⟩

/-- A block that branches to two blocks, which both lead to the root. -/
inductive Diamond | root | left | right | top
deriving DecidableEq

def diamond : Heap Diamond 32
  | .root => { BasicBlock.new with startingAddress := 2, predecessors := [.left, .right] }
  | .left => { BasicBlock.new with startingAddress := 0x11, predecessors := [.top] }
  | .right => { BasicBlock.new with startingAddress := 0x12, predecessors := [.top] }
  | .top => { BasicBlock.new with startingAddress := 0x10 }

theorem diamond_newGraph : diamond.NewGraph .root {.root, .left, .right, .top} := by
  have hclosed : ∀ b ∈ ({.root, .left, .right, .top} : Finset Diamond),
      ∀ a ∈ (diamond b).predecessors,
        a ∈ ({.root, .left, .right, .top} : Finset Diamond) ∧ a ≠ .root := by decide
  refine ⟨by decide, rfl, by decide, by decide, fun a b hb hab => hclosed b hb a hab, fun b _ => ?_⟩
  cases b <;> exact ⟨rfl, rfl, rfl⟩

theorem diamond_postDominators : ∃ h', buildPostDominanceTree 5 5 diamond .root [] = some h' ∧
    ∀ B, Reaches diamond.Flows .root B → B ≠ .root →
      ∃ D, (h' B).postDominator = some D ∧ Immediate diamond.Flows .root D B := by
  exact buildPostDominanceTree_correct diamond_newGraph (.of_pairwise (by decide)) (by decide)
    (by decide)

end Heap

/-- The branch at 11 goes to the blocks at 12 and 30, the branch at 12 to those at 13 and 40. -/
def nestedBranch : Option (Blocks 32) :=
  routineBlocks 0 ⟨0x10, 0x11, .other⟩
    [⟨0x11, 0x12, .conditionalBranch 0x30⟩, ⟨0x12, 0x13, .conditionalBranch 0x40⟩,
      ⟨0x13, 0x14, .jump 0x14⟩, ⟨0x14, 0x15, .jump 0x15⟩, ⟨0x15, 0x30, .ret⟩,
      ⟨0x30, 0x40, .jump 0x40⟩, ⟨0x40, 0x41, .ret⟩]

/-- The block at 10 keeps the block at 40 as post-dominator, though it can return at 15. -/
theorem nested_branch_wrong : ∃ g h', nestedBranch = some g ∧
    g.heap.buildPostDominanceTree 9 9 .returnBlock [] = some h' ∧
    Reaches g.heap.Flows .returnBlock (.block 0x10) ∧
    (h' (.block 0x10)).postDominator = some (.block 0x40) ∧
    ¬ Immediate g.heap.Flows .returnBlock (.block 0x40) (.block 0x10) := by
  obtain ⟨g, hg⟩ := Option.isSome_iff_exists.1 (show nestedBranch.isSome by decide +kernel)
  have hedge : ∀ a b : BlockPtr 32, nestedBranch.any (fun g => a ∈ (g.heap b).predecessors) →
      g.heap.Flows a b := by
    intro a b hab
    rw [hg] at hab
    simpa [Heap.Flows] using hab
  obtain ⟨h', hbuild⟩ := Option.isSome_iff_exists.1 (show (nestedBranch.bind fun g =>
    g.heap.buildPostDominanceTree 9 9 .returnBlock []).isSome by decide +kernel)
  have hpd : (nestedBranch.bind fun g => (g.heap.buildPostDominanceTree 9 9 .returnBlock []).bind
      fun h' => (h' (.block 0x10)).postDominator) = some (.block 0x40) := by decide +kernel
  rw [hg, Option.bind_some] at hbuild hpd
  rw [hbuild, Option.bind_some] at hpd
  have hpath : Path g.heap.Flows .returnBlock (.block 0x10) [.block 0x10, .block 0x12, .block 0x13,
      .block 0x14, .block 0x15, .returnBlock] :=
    .cons (hedge _ _ (by decide +kernel)) <| .cons (hedge _ _ (by decide +kernel)) <|
      .cons (hedge _ _ (by decide +kernel)) <| .cons (hedge _ _ (by decide +kernel)) <|
      .cons (hedge _ _ (by decide +kernel)) .exit
  refine ⟨g, h', hg, hbuild, ⟨_, hpath⟩, hpd, fun him => ?_⟩
  have hmem := him.strict.2 _ hpath
  simp at hmem

end Dytan
