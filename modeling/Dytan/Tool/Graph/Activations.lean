import Dytan.Tool.Graph.Controlflow
import Dytan.Taint.PopControl
import Dytan.Taint.Marks

/-!
# Runs of instrumented routines

`Instrumented`: a routine with the graph and the calls `Controlflow` has for it. A run executes the
instructions of activations on a stack; between two instructions the other analysis functions
change any taint but `controlTaintMap`.

`Activation.no_leak`: after one activation, none of its branches has an entry that had none before,
if no tainted branch has the return block for its immediate post-dominator and no `PopControl`
returns early (`Clean`).
-/

namespace Dytan

open Lib.PostDom Relation

variable {w : Nat}

/-- A routine instrumented by `Controlflow`. -/
structure Instrumented (w : Nat) where
  routine : Routine w
  graph : Blocks w
  correct : graph.Correct routine
  controls : AddressSets w
  inserted : controlflow graph routine.instructions = some controls

/-- What `RoutineGraph` builds for a regular routine in which every block leads to a return, when
every edge is stable where the third pass meets it. -/
theorem exists_instrumented {r : Routine w} {g : Blocks w} {nodes : Finset (BlockPtr w)}
    {depth fuel : Nat} (hg : routineBlocks r.invalid r.firstIns r.rest = some g) (hr : r.Regular)
    (hfirst : r.firstIns.kind = .other) (hnew : g.heap.NewGraph .returnBlock nodes)
    (hst : Heap.StableOrder .returnBlock []
      (Heap.edgeOrder (fun b => (g.heap b).predecessors) fuel [] .returnBlock []))
    (hd : nodes.card < depth) (hf : nodes.card < fuel)
    (hreach : ∀ i ∈ r.instructions, ∀ A, g.addressMap i.address = some A →
      Reaches g.heap.Flows .returnBlock A) :
    ∃ rtn : Instrumented w, rtn.routine = r ∧ routineGraph depth fuel r = some rtn.graph := by
  obtain ⟨h', edges, hbuild, htree, hpath⟩ := hnew.tree hst hd hf
  have hpreds : ∀ B, (h' B).predecessors = (g.heap B).predecessors :=
    Heap.untouched_predecessors.buildPostDominanceTree hbuild
  have hstarts : ∀ B, (h' B).startingAddress = (g.heap B).startingAddress :=
    Heap.untouched_startingAddress.buildPostDominanceTree hbuild
  have hflows : Heap.Flows h' = g.heap.Flows := by
    funext a b
    unfold Heap.Flows
    rw [hpreds]
  obtain ⟨g₁, hg₁, hscan⟩ := Scan.routineBlocks r
  obtain rfl := Option.some.inj (hg.symm.trans hg₁)
  have hfound : ∀ i ∈ r.instructions, ∀ a, r.InBlock a i →
      ∃ D, (h' (.block a)).postDominator = some D ∧
        Immediate g.heap.Flows .returnBlock D (.block a) := fun i hi a ha =>
    htree.immediate hpath (hreach i hi _ (hscan.addressMap i hi a ha)) (by simp)
  have hcorrect : Blocks.Correct { g with heap := h' } r := by
    refine (hscan.of_heap hpreds hstarts).correct hr hfirst ?_ (fun i hi a ha => ?_)
      fun i hi a D ha hD => ?_
    · exact (hstarts .returnBlock).trans hnew.root_start
    · rw [hflows]
      exact hreach i hi _ (hscan.addressMap i hi a ha)
    · obtain ⟨D', hD', him⟩ := hfound i hi a ha
      obtain rfl := Option.some.inj (hD.symm.trans hD')
      rw [hflows]
      exact him
  obtain ⟨controls, hcontrols⟩ : ∃ controls,
      controlflow { g with heap := h' } r.instructions = some controls := by
    refine exists_controlflow fun i hi _ => ?_
    obtain ⟨a, ha⟩ := Routine.exists_inBlock hi
    obtain ⟨D, hD, -⟩ := hfound i hi a ha
    exact ⟨_, .block a, D, hscan.addressMap i hi a ha, hD, rfl⟩
  refine ⟨⟨r, { g with heap := h' }, hcorrect, controls, hcontrols⟩, rfl, ?_⟩
  rw [routineGraph, hg, Option.bind_eq_bind, Option.bind_some, hbuild]
  rfl

/-- An activation, in front of the instruction `ins`. -/
structure Frame (w : Nat) where
  rtn : Instrumented w
  ins : FlowINS w
  mem : ins ∈ rtn.routine.instructions

/-- The activations, the last first, and the taint. -/
abbrev Running (w : Nat) := List (Frame w) × TaintState w

def Instrumented.enter (rtn : Instrumented w) : Frame w :=
  ⟨rtn, rtn.routine.firstIns, Routine.first_mem⟩

/-- The calls before the next instruction and the instruction. A call of a routine that is not
instrumented passes to the next instruction. -/
inductive Executes : Running w → Running w → Prop
  | pass {f : Frame w} {rest : List (Frame w)} {st st' : TaintState w} {j : FlowINS w}
      (hj : j ∈ f.rtn.routine.instructions) :
      st.controlBefore f.rtn.controls f.ins = some st' → f.ins.Passes j.address →
      Executes (f :: rest, st) (⟨f.rtn, j, hj⟩ :: rest, st')
  | call {f : Frame w} {rest : List (Frame w)} {st st' : TaintState w} {j : FlowINS w}
      (hj : j ∈ f.rtn.routine.instructions) (rtn : Instrumented w) :
      st.controlBefore f.rtn.controls f.ins = some st' → f.ins.kind.isCall →
      j.address = f.ins.nextAddress →
      Executes (f :: rest, st) (rtn.enter :: ⟨f.rtn, j, hj⟩ :: rest, st')
  | ret {f : Frame w} {rest : List (Frame w)} {st st' : TaintState w} :
      st.controlBefore f.rtn.controls f.ins = some st' → f.ins.kind = .ret →
      Executes (f :: rest, st) (rest, st')

/-- The other analysis functions. -/
def Analyses (n : Nat) (c c' : Running w) : Prop :=
  c'.1 = c.1 ∧ c'.2.controlTaintMap = c.2.controlTaintMap ∧ c'.2.WidthOk n

/-- A step that meets `P` where it executes an instruction. -/
def StepsWhile (n : Nat) (P : Running w → Prop) (c c' : Running w) : Prop :=
  Analyses n c c' ∨ P c ∧ Executes c c'

/-- A tainted branch whose region ends in the routine, and a `PopControl` that does not return
early. -/
def Clean (f : Frame w) (st : TaintState w) : Prop :=
  (f.ins.kind.isConditional → st.flagsTainted → ∀ A, f.rtn.graph.addressMap f.ins.address = some A →
    (f.rtn.graph.heap A).postDominator ≠ some .returnBlock) ∧
  ∀ st', st.pushBefore f.ins = some st' →
    ¬ TaintState.Interrupted st'.controlTaintMap (f.rtn.controls f.ins.address)

/-- One activation and no other. -/
def Alone (P : Frame w → TaintState w → Prop) (c : Running w) : Prop :=
  c.1.length ≤ 1 ∧ ∀ f ∈ c.1.head?, P f c.2

/-! ## Steps -/

/-- The taint after an instruction is that after the calls before it. -/
theorem Executes.taint {c c' : Running w} (h : Executes c c') :
    ∃ f ∈ c.1.head?, c.2.controlBefore f.rtn.controls f.ins = some c'.2 := by
  cases h with
  | pass hj hst hp => exact ⟨_, rfl, hst⟩
  | call hj rtn hst hcall hnext => exact ⟨_, rfl, hst⟩
  | ret hst hret => exact ⟨_, rfl, hst⟩

section
variable {n : Nat} {P : Running w → Prop} {rtn : Instrumented w} {i j : FlowINS w}
  {rest : List (Frame w)} {st st' : TaintState w} (hi : i ∈ rtn.routine.instructions)

theorem StepsWhile.pass (hj : j ∈ rtn.routine.instructions) (hP : P (⟨rtn, i, hi⟩ :: rest, st))
    (hst : st.controlBefore rtn.controls i = some st') (hp : i.Passes j.address) :
    StepsWhile n P (⟨rtn, i, hi⟩ :: rest, st) (⟨rtn, j, hj⟩ :: rest, st') :=
  .inr ⟨hP, @Executes.pass w ⟨rtn, i, hi⟩ rest st st' j hj hst hp⟩

theorem StepsWhile.call (hj : j ∈ rtn.routine.instructions) (callee : Instrumented w)
    (hP : P (⟨rtn, i, hi⟩ :: rest, st)) (hst : st.controlBefore rtn.controls i = some st')
    (hcall : i.kind.isCall) (hnext : j.address = i.nextAddress) :
    StepsWhile n P (⟨rtn, i, hi⟩ :: rest, st) (callee.enter :: ⟨rtn, j, hj⟩ :: rest, st') :=
  .inr ⟨hP, @Executes.call w ⟨rtn, i, hi⟩ rest st st' j hj callee hst hcall hnext⟩

theorem StepsWhile.ret (hP : P (⟨rtn, i, hi⟩ :: rest, st))
    (hst : st.controlBefore rtn.controls i = some st') (hr : i.kind = .ret) :
    StepsWhile n P (⟨rtn, i, hi⟩ :: rest, st) (rest, st') :=
  .inr ⟨hP, @Executes.ret w ⟨rtn, i, hi⟩ rest st st' hst hr⟩

end

namespace TaintState

variable {controls : AddressSets w} {st st' : TaintState w} {i : FlowINS w}

theorem controlBefore_of_nil (hpush : st.pushBefore i = some st') (hc : controls i.address = []) :
    st.controlBefore controls i = some st' := by
  rw [controlBefore, hpush, Option.bind_eq_bind, Option.bind_some, if_pos hc]
  rfl

theorem controlBefore_of_cons {a : ADDRINT w} {addrs : List (ADDRINT w)}
    (hpush : st.pushBefore i = some st') (hc : controls i.address = a :: addrs) :
    st.controlBefore controls i = some (st'.popControl (a :: addrs)) := by
  rw [controlBefore, hpush, Option.bind_eq_bind, Option.bind_some, hc,
    if_neg (List.cons_ne_nil _ _)]
  rfl

end TaintState

/-! ## The way to the end of a region -/

namespace Blocks.Correct

variable {g : Blocks w} {r : Routine w} {i j k : FlowINS w} {A B D : BlockPtr w}

/-- Control passes on in a block, or along an edge to the beginning of a block. -/
theorem passes (h : g.Correct r) (hi : r.Holds g A i) (hj : j ∈ r.instructions)
    (hp : i.Passes j.address) :
    (r.Holds g A j ∧ ¬ r.FirstOf g A j) ∨ ∃ B, r.FirstOf g B j ∧ g.heap.Flows A B := by
  by_cases hl : r.LastOf g A i
  · obtain ⟨B, hB⟩ := h.entered A i hl j hj hp
    exact .inr ⟨B, hB, ((h.edges A i hl).1 B j hB).2 hp⟩
  · exact .inl ((h.straight A i hi hl).2 j hj hp)

theorem returns (h : g.Correct r) (hi : r.Holds g A i) (hr : i.kind = .ret) :
    g.heap.Flows A .returnBlock := by
  by_cases hl : r.LastOf g A i
  · exact (h.edges A i hl).2.2 hr
  · exact absurd hr (h.straight A i hi hl).1

end Blocks.Correct

/-- Every way to the end of the activation leads through the beginning of `D`. -/
def Routine.Ahead (r : Routine w) (g : Blocks w) (D : BlockPtr w) (i : FlowINS w) : Prop :=
  r.FirstOf g D i ∨ ∃ A, r.Holds g A i ∧ Strict g.heap.Flows .returnBlock D A

theorem Routine.Ahead.next {r : Routine w} {g : Blocks w} {i j : FlowINS w} {D : BlockPtr w}
    (h : r.Ahead g D i) (hc : g.Correct r) (hj : j ∈ r.instructions) (hp : i.Passes j.address)
    (hfirst : ¬ r.FirstOf g D i) : r.Ahead g D j := by
  obtain ⟨A, hA, hne, hall⟩ := h.resolve_left hfirst
  rcases hc.passes hA hj hp with ⟨hAj, -⟩ | ⟨B, hB, hflow⟩
  · exact .inr ⟨A, hAj, hne, hall⟩
  · by_cases hDB : D = B
    · exact .inl (hDB ▸ hB)
    · refine .inr ⟨B, hB.1, hDB, fun p hpath => ?_⟩
      exact (List.mem_cons.1 (hall _ (.cons hflow hpath))).resolve_left hne

/-- An activation does not end in front of `D`. -/
theorem Routine.Ahead.not_ret {r : Routine w} {g : Blocks w} {i : FlowINS w} {D : BlockPtr w}
    (h : r.Ahead g D i) (hc : g.Correct r) (hD : D ≠ .returnBlock) (hfirst : ¬ r.FirstOf g D i) :
    i.kind ≠ .ret := by
  intro hr
  obtain ⟨A, hA, hne, hall⟩ := h.resolve_left hfirst
  have hmem := hall _ (.cons (hc.returns hA hr) .exit)
  rcases List.mem_cons.1 hmem with he | he
  · exact hne he
  · exact hD (List.mem_singleton.1 he)

namespace Instrumented

variable {rtn : Instrumented w} {k i : FlowINS w} {A D : BlockPtr w} {st st' : TaintState w}

/-- `k` is a branch of the routine, in the block `A`, and `D` the post-dominator of `A`. -/
structure Branch (rtn : Instrumented w) (k : FlowINS w) (A D : BlockPtr w) : Prop where
  holds : rtn.routine.Holds rtn.graph A k
  conditional : k.kind.isConditional
  postDominator : (rtn.graph.heap A).postDominator = some D

theorem exists_branch (hk : k ∈ rtn.routine.instructions) (hc : k.kind.isConditional) :
    ∃ A D, rtn.Branch k A D := by
  obtain ⟨-, A, D, hA, hD, -⟩ := (controlflow_spec rtn.inserted).1 k hk hc
  exact ⟨A, D, ⟨hk, hA⟩, hc, hD⟩

/-- The branch is in front of the place where its region ends, -/
theorem Branch.ahead (h : rtn.Branch k A D) : rtn.routine.Ahead rtn.graph D k :=
  .inr ⟨A, h.holds, (rtn.correct.postDominator A k D h.holds h.postDominator).strict⟩

theorem Branch.not_first (h : rtn.Branch k A D) : ¬ rtn.routine.FirstOf rtn.graph D k := by
  intro hf
  have hA := h.holds.2
  rw [hf.1.2] at hA
  exact (rtn.correct.postDominator A k D h.holds h.postDominator).strict.1 (Option.some.inj hA)

/-- where the branch is an argument of `PopControl`. -/
theorem Branch.mem_controls (h : rtn.Branch k A D) (hf : rtn.routine.FirstOf rtn.graph D i) :
    k.address ∈ rtn.controls i.address :=
  ((controlflow_spec rtn.inserted).2 _ _).2 ⟨k, h.holds.1, h.conditional, rfl, A, D, h.holds.2,
    h.postDominator, rtn.correct.starting D i hf⟩

/-- The branch has no entry, or `PopControl` is on the way. -/
def Settled (rtn : Instrumented w) (k : FlowINS w) (D : BlockPtr w) (i : FlowINS w)
    (st : TaintState w) : Prop :=
  st.controlTaintMap[k.address]? = none ∨
    D ≠ .returnBlock ∧ rtn.routine.Ahead rtn.graph D i

/-- The calls before an instruction. -/
theorem Branch.controlBefore (h : rtn.Branch k A D) (f : Frame w) (hrtn : f.rtn = rtn)
    (hclean : Clean f st) (hst : st.controlBefore f.rtn.controls f.ins = some st')
    (hs : rtn.Settled k D f.ins st) :
    st'.controlTaintMap[k.address]? = none ∨ (D ≠ .returnBlock ∧
      rtn.routine.Ahead rtn.graph D f.ins) ∧ ¬ rtn.routine.FirstOf rtn.graph D f.ins := by
  subst hrtn
  obtain ⟨st₁, hpush, hpop⟩ := Option.bind_eq_some_iff.1 hst
  obtain rfl := Option.some.inj hpop
  by_cases hf : f.rtn.routine.FirstOf f.rtn.graph D f.ins
  · have hmem := h.mem_controls hf
    rw [if_neg (List.ne_nil_of_mem hmem)]
    exact .inl ((TaintState.removes_of_not_interrupted (hclean.2 st₁ hpush) _).1 hmem)
  · by_cases hpending : D ≠ .returnBlock ∧ f.rtn.routine.Ahead f.rtn.graph D f.ins
    · exact .inr ⟨hpending, hf⟩
    · -- the branch has no entry, and gets none
      have hnone := hs.resolve_right hpending
      have hkeep : st₁.controlTaintMap[k.address]? = none := by
        rw [← hnone]
        unfold TaintState.pushBefore at hpush
        split_ifs at hpush with hc
        · refine TaintState.pushControl_of_ne hpush ?_
          by_cases he : k.address = f.ins.address
          · obtain rfl := Routine.eq_of_address h.holds.1 f.mem he
            refine .inr fun ht => hpending ⟨fun hD => ?_, h.ahead⟩
            exact hclean.1 hc ht A h.holds.2 (hD ▸ h.postDominator)
          · exact .inl he
        · rw [Option.some.inj hpush]
      split_ifs
      · exact .inl hkeep
      · exact .inl (TaintState.popControl_of_none hkeep)

/-- What a run of one activation keeps. -/
def KeepsSettled (rtn : Instrumented w) (k : FlowINS w) (D : BlockPtr w) (c : Running w) : Prop :=
  (c.1 = [] → c.2.controlTaintMap[k.address]? = none) ∧
    ∀ f, c.1 = [f] → f.rtn = rtn ∧ rtn.Settled k D f.ins c.2

theorem KeepsSettled.step {n : Nat} {c c' : Running w} (h : rtn.Branch k A D)
    (hk : rtn.KeepsSettled k D c) (hstep : StepsWhile n (Alone Clean) c c') :
    rtn.KeepsSettled k D c' := by
  rcases hstep with ⟨hstack, hmap, -⟩ | ⟨⟨hlen, hclean⟩, hex⟩
  · unfold KeepsSettled Settled
    rw [hstack, hmap]
    exact hk
  · cases hex with
    | @pass f rest st st' j hj hst hp =>
      obtain rfl : rest = [] := List.length_eq_zero_iff.1 (Nat.le_zero.1 (Nat.le_of_succ_le_succ hlen))
      obtain ⟨rfl, hs⟩ := hk.2 f rfl
      refine ⟨fun he => absurd he (List.cons_ne_nil _ _), fun f' hf' => ?_⟩
      obtain rfl := (List.cons.inj hf').1
      refine ⟨rfl, ?_⟩
      rcases h.controlBefore f rfl (hclean f rfl) hst hs with hn | ⟨⟨hD, ha⟩, hfirst⟩
      · exact .inl hn
      · exact .inr ⟨hD, ha.next f.rtn.correct hj hp hfirst⟩
    | @call f rest st st' j hj rtn' hst hcall hnext =>
      refine ⟨fun he => absurd he (List.cons_ne_nil _ _), fun f' hf' => ?_⟩
      exact absurd (List.cons.inj hf').2 (List.cons_ne_nil _ _)
    | @ret f rest st st' hst hret =>
      obtain rfl : rest = [] := List.length_eq_zero_iff.1 (Nat.le_zero.1 (Nat.le_of_succ_le_succ hlen))
      obtain ⟨rfl, hs⟩ := hk.2 f rfl
      refine ⟨fun _ => ?_, fun f' hf' => absurd hf' (List.cons_ne_nil _ _).symm⟩
      rcases h.controlBefore f rfl (hclean f rfl) hst hs with hn | ⟨⟨hD, ha⟩, hfirst⟩
      · exact hn
      · exact absurd hret (ha.not_ret f.rtn.correct hD hfirst)

end Instrumented

/-! ## Two routines with a branch -/

/-- A branch to one of two returns. -/
def twoReturns : Routine 32 where
  firstIns := ⟨0x10, 0x11, .other⟩
  rest := [⟨0x11, 0x13, .conditionalBranch 0x14⟩, ⟨0x13, 0x14, .ret⟩, ⟨0x14, 0x15, .ret⟩]
  invalid := 0
  width := three_le_word
  increasing := by decide
  contiguous := by decide
  forward := by decide
  possible := by
    simp only [List.forall_mem_cons, FlowKind.target?, Option.mem_def, Option.some.injEq,
      forall_eq', reduceCtorEq, false_implies, implies_true]
    decide
  calls := by decide
  invalid_ne := by decide

/-- A branch around a call. -/
def callUnderBranch : Routine 32 where
  firstIns := ⟨0x10, 0x11, .other⟩
  rest := [⟨0x11, 0x13, .conditionalBranch 0x15⟩, ⟨0x13, 0x14, .call true⟩, ⟨0x14, 0x15, .other⟩,
    ⟨0x15, 0x16, .ret⟩]
  invalid := 0
  width := three_le_word
  increasing := by decide
  contiguous := by decide
  forward := by decide
  possible := by
    simp only [List.forall_mem_cons, FlowKind.target?, Option.mem_def, Option.some.injEq,
      forall_eq', reduceCtorEq, false_implies, implies_true]
    decide
  calls := by decide
  invalid_ne := by decide

def twoReturnsBlocks : Blocks 32 :=
  (routineBlocks twoReturns.invalid twoReturns.firstIns twoReturns.rest).get (by decide)

def callUnderBranchBlocks : Blocks 32 :=
  (routineBlocks callUnderBranch.invalid callUnderBranch.firstIns callUnderBranch.rest).get
    (by decide)

def twoReturnsNodes : Finset (BlockPtr 32) :=
  {.returnBlock, .block 0x10, .block 0x13, .block 0x14}

def callUnderBranchNodes : Finset (BlockPtr 32) :=
  {.returnBlock, .block 0x10, .block 0x13, .block 0x14, .block 0x15}

section
variable {rtn : Instrumented w} {r : Routine w}

theorem Instrumented.mem_of_routine (hr : rtn.routine = r) {i : FlowINS w}
    (hi : i ∈ r.instructions) : i ∈ rtn.routine.instructions := by
  rw [hr]
  exact hi

/-- Where `PopControl` is inserted is computed from the routine. -/
theorem Instrumented.controls_of_all (hr : rtn.routine = r) {steps fuel : Nat}
    (hgraph : routineGraph steps fuel r = some rtn.graph) {c : FlowINS w → List (ADDRINT w)}
    (hall : ((routineGraph steps fuel r).bind fun g => controlflow g r.instructions).all fun found =>
      r.instructions.all fun i => found i.address = c i) :
    ∀ i ∈ r.instructions, rtn.controls i.address = c i := by
  rw [hgraph, Option.bind_some, ← hr, rtn.inserted, Option.all_some, List.all_eq_true] at hall
  intro i hi
  exact of_decide_eq_true (hall i (Instrumented.mem_of_routine hr hi))

end

/-- The region of the branch ends in the return block: no `PopControl` is inserted. -/
theorem instrumented_twoReturns : ∃ rtn : Instrumented 32, rtn.routine = twoReturns ∧
    routineGraph 5 5 twoReturns = some rtn.graph ∧
      ∀ i ∈ twoReturns.instructions, rtn.controls i.address = [] := by
  have hclosed : ∀ b ∈ twoReturnsNodes, ∀ a ∈ (twoReturnsBlocks.heap b).predecessors,
      a ∈ twoReturnsNodes ∧ a ≠ .returnBlock := by decide +kernel
  have hnew : twoReturnsBlocks.heap.NewGraph .returnBlock twoReturnsNodes := by
    refine ⟨by decide, by decide +kernel, by decide +kernel, by decide +kernel,
      fun a b hb hab => hclosed b hb a hab, fun b hb => ?_⟩
    simp only [twoReturnsNodes, Finset.mem_insert, Finset.mem_singleton] at hb
    rcases hb with rfl | rfl | rfl | rfl <;> exact ⟨by decide +kernel, by decide +kernel, rfl⟩
  have horder : (Heap.edgeOrder (fun b => (twoReturnsBlocks.heap b).predecessors) 5 []
      .returnBlock []).Pairwise fun e e' => e.2 ≠ e'.1 := by decide +kernel
  have h13 : Reaches twoReturnsBlocks.heap.Flows .returnBlock (.block 0x13) :=
    .step (show _ ∈ _ by decide +kernel) .refl
  have h14 : Reaches twoReturnsBlocks.heap.Flows .returnBlock (.block 0x14) :=
    .step (show _ ∈ _ by decide +kernel) .refl
  have h10 : Reaches twoReturnsBlocks.heap.Flows .returnBlock (.block 0x10) :=
    .step (show _ ∈ _ by decide +kernel) h13
  have hmap : ∀ i ∈ twoReturns.instructions, ∀ A ∈ twoReturnsBlocks.addressMap i.address,
      A = .block 0x10 ∨ A = .block 0x13 ∨ A = .block 0x14 := by decide +kernel
  obtain ⟨rtn, hr, hgraph⟩ := exists_instrumented (Option.some_get _).symm
    (Routine.Regular.of_plain rfl (by simp [twoReturns])) rfl hnew (.of_pairwise horder)
    (show twoReturnsNodes.card < 5 by decide) (by decide) fun i hi A hA => by
      rcases hmap i hi A hA with rfl | rfl | rfl
      exacts [h10, h13, h14]
  exact ⟨rtn, hr, hgraph, rtn.controls_of_all hr hgraph (by decide +kernel)⟩

/-- The region of the branch ends at the last instruction. -/
theorem instrumented_callUnderBranch : ∃ rtn : Instrumented 32, rtn.routine = callUnderBranch ∧
    routineGraph 6 6 callUnderBranch = some rtn.graph ∧
      ∀ i ∈ callUnderBranch.instructions,
        rtn.controls i.address = if i.address = 0x15 then [0x11] else [] := by
  have hclosed : ∀ b ∈ callUnderBranchNodes, ∀ a ∈ (callUnderBranchBlocks.heap b).predecessors,
      a ∈ callUnderBranchNodes ∧ a ≠ .returnBlock := by decide +kernel
  have hnew : callUnderBranchBlocks.heap.NewGraph .returnBlock callUnderBranchNodes := by
    refine ⟨by decide, by decide +kernel, by decide +kernel, by decide +kernel,
      fun a b hb hab => hclosed b hb a hab, fun b hb => ?_⟩
    simp only [callUnderBranchNodes, Finset.mem_insert, Finset.mem_singleton] at hb
    rcases hb with rfl | rfl | rfl | rfl | rfl <;>
      exact ⟨by decide +kernel, by decide +kernel, rfl⟩
  have horder : (Heap.edgeOrder (fun b => (callUnderBranchBlocks.heap b).predecessors) 6 []
      .returnBlock []).Pairwise fun e e' => e.2 ≠ e'.1 := by decide +kernel
  have h15 : Reaches callUnderBranchBlocks.heap.Flows .returnBlock (.block 0x15) :=
    .step (show _ ∈ _ by decide +kernel) .refl
  have h14 : Reaches callUnderBranchBlocks.heap.Flows .returnBlock (.block 0x14) :=
    .step (show _ ∈ _ by decide +kernel) h15
  have h13 : Reaches callUnderBranchBlocks.heap.Flows .returnBlock (.block 0x13) :=
    .step (show _ ∈ _ by decide +kernel) h14
  have h10 : Reaches callUnderBranchBlocks.heap.Flows .returnBlock (.block 0x10) :=
    .step (show _ ∈ _ by decide +kernel) h15
  have hmap : ∀ i ∈ callUnderBranch.instructions,
      ∀ A ∈ callUnderBranchBlocks.addressMap i.address,
        A = .block 0x10 ∨ A = .block 0x13 ∨ A = .block 0x14 ∨ A = .block 0x15 := by
    decide +kernel
  obtain ⟨rtn, hr, hgraph⟩ := exists_instrumented (Option.some_get _).symm
    (Routine.Regular.of_plain rfl (by simp [callUnderBranch])) rfl hnew (.of_pairwise horder)
    (show callUnderBranchNodes.card < 6 by decide) (by decide) fun i hi A hA => by
      rcases hmap i hi A hA with rfl | rfl | rfl | rfl
      exacts [h10, h13, h14, h15]
  exact ⟨rtn, hr, hgraph, rtn.controls_of_all hr hgraph (by decide +kernel)⟩

/-- `EFLAGS` is tainted. -/
def taintedFlags : TaintState 32 where
  regTaintMap := Function.update (fun _ => none) .EFLAGS (some ⟨[1], 1⟩)
  memTaintMap _ := none
  controlTaintMap := ∅
  scratch _ := .init 1
  numberOfTaintMarks := 1

/-- The branch at `b` has the entry `set`. -/
def TaintState.withControl (st : TaintState w) (b : ADDRINT w) (set : Bitset) : TaintState w :=
  { st with controlTaintMap := st.controlTaintMap.insert b set }

/-- And the branch at 11 has been executed. -/
def taintedBranch : TaintState 32 := taintedFlags.withControl 0x11 ⟨[1], 1⟩

/-! ## After one activation -/

/-- A branch of the routine without an entry at the beginning has none at the end. -/
theorem Activation.no_leak {n : Nat} {rtn : Instrumented w} {st st' : TaintState w}
    (hrun : ReflTransGen (StepsWhile n (Alone Clean)) ([rtn.enter], st) ([], st')) {k : FlowINS w}
    (hk : k ∈ rtn.routine.instructions) (hc : k.kind.isConditional)
    (hnone : st.controlTaintMap[k.address]? = none) :
    st'.controlTaintMap[k.address]? = none := by
  obtain ⟨A, D, h⟩ := rtn.exists_branch hk hc
  have hstart : rtn.KeepsSettled k D ([rtn.enter], st) := by
    refine ⟨fun he => absurd he (List.cons_ne_nil _ _), fun f hf => ?_⟩
    obtain rfl := (List.cons.inj hf).1
    exact ⟨rfl, .inl hnone⟩
  have hend : rtn.KeepsSettled k D ([], st') := by
    generalize hd : (([], st') : Running w) = d at hrun
    clear hd
    induction hrun with
    | refl => exact hstart
    | tail _ hstep ih => exact ih.step h hstep
  exact hend.1 rfl

theorem Activation.no_leak_taken : ∃ (rtn : Instrumented 32) (st' : TaintState 32),
    rtn.routine = callUnderBranch ∧
    ReflTransGen (StepsWhile 1 (Alone Clean)) ([rtn.enter], taintedFlags) ([], st') ∧
    st'.controlTaintMap[(0x11 : ADDRINT 32)]? = none := by
  obtain ⟨rtn, hr, hgraph, hcontrols⟩ := instrumented_callUnderBranch
  have hmem : ∀ i ∈ callUnderBranch.instructions, i ∈ rtn.routine.instructions :=
    fun i hi => rtn.mem_of_routine hr hi
  have h10 := hmem ⟨0x10, 0x11, .other⟩ (by decide)
  have h11 := hmem ⟨0x11, 0x13, .conditionalBranch 0x15⟩ (by decide)
  have h15 := hmem ⟨0x15, 0x16, .ret⟩ (by decide)
  have hc10 : rtn.controls 0x10 = [] := hcontrols ⟨0x10, 0x11, .other⟩ (by decide)
  have hc11 : rtn.controls 0x11 = [] :=
    hcontrols ⟨0x11, 0x13, .conditionalBranch 0x15⟩ (by decide)
  have hc15 : rtn.controls 0x15 = [0x11] := hcontrols ⟨0x15, 0x16, .ret⟩ (by decide)
  have henter : rtn.enter = ⟨rtn, _, h10⟩ := by simp [Instrumented.enter, hr, callUnderBranch]
  have hends : ∀ A, rtn.graph.addressMap 0x11 = some A →
      (rtn.graph.heap A).postDominator ≠ some .returnBlock := by
    have hall : (routineGraph 6 6 callUnderBranch).all fun g => (g.addressMap 0x11).all fun A =>
        (g.heap A).postDominator ≠ some .returnBlock := by decide +kernel
    intro A hA
    rw [hgraph, Option.all_some, hA, Option.all_some] at hall
    exact of_decide_eq_true hall
  have hclean : ∀ i (hi : i ∈ rtn.routine.instructions) (st : TaintState 32),
      (i.kind.isConditional → i.address = 0x11) → (rtn.controls i.address).length ≤ 1 →
      Alone Clean ([⟨rtn, i, hi⟩], st) := by
    intro i hi st hcond hlen
    refine ⟨Nat.le_refl _, fun f hf => ?_⟩
    obtain rfl := Option.some.inj hf
    refine ⟨fun hc _ A hA => hends A (hcond hc ▸ hA), fun st' _ hint => ?_⟩
    have := hint.two_le_length
    dsimp only at this
    omega
  have hpush : taintedFlags.controlBefore rtn.controls ⟨0x11, 0x13, .conditionalBranch 0x15⟩ =
      some taintedBranch := TaintState.controlBefore_of_nil rfl hc11
  have hpop : taintedBranch.controlBefore rtn.controls ⟨0x15, 0x16, .ret⟩ =
      some (taintedBranch.popControl [0x11]) := TaintState.controlBefore_of_cons rfl hc15
  have hrun : ReflTransGen (StepsWhile 1 (Alone Clean)) ([rtn.enter], taintedFlags)
      ([], taintedBranch.popControl [0x11]) := by
    rw [henter]
    have hlen10 : (rtn.controls 0x10).length ≤ 1 := by rw [hc10]; exact Nat.zero_le _
    have hlen11 : (rtn.controls 0x11).length ≤ 1 := by rw [hc11]; exact Nat.zero_le _
    have hlen15 : (rtn.controls 0x15).length ≤ 1 := by rw [hc15]; exact Nat.le_refl _
    refine .trans (.single (.pass h10 h11 (hclean _ h10 _ (fun hc => absurd hc (by decide)) hlen10)
      (TaintState.controlBefore_of_nil rfl hc10) rfl)) ?_
    refine .trans (.single (.pass h11 h15 (hclean _ h11 _ (fun _ => rfl) hlen11) hpush
      (.inl rfl))) ?_
    exact .single (.ret h15 (hclean _ h15 _ (fun hc => absurd hc (by decide)) hlen15) hpop rfl)
  exact ⟨rtn, _, hr, hrun, Activation.no_leak hrun h11 rfl rfl⟩

/-- The branch to the two returns keeps its entry. -/
theorem Activation.two_returns_leak : ∃ (rtn : Instrumented 32) (st' : TaintState 32)
    (k : FlowINS 32), rtn.routine = twoReturns ∧ routineGraph 5 5 twoReturns = some rtn.graph ∧
    ReflTransGen (StepsWhile 1 (Alone fun _ _ => True)) ([rtn.enter], taintedFlags) ([], st') ∧
    k ∈ rtn.routine.instructions ∧ k.kind.isConditional ∧
    taintedFlags.controlTaintMap[k.address]? = none ∧ st'.controlTaintMap[k.address]? ≠ none := by
  obtain ⟨rtn, hr, hgraph, hcontrols⟩ := instrumented_twoReturns
  have hmem : ∀ i ∈ twoReturns.instructions, i ∈ rtn.routine.instructions :=
    fun i hi => rtn.mem_of_routine hr hi
  have h10 := hmem ⟨0x10, 0x11, .other⟩ (by decide)
  have h11 := hmem ⟨0x11, 0x13, .conditionalBranch 0x14⟩ (by decide)
  have h14 := hmem ⟨0x14, 0x15, .ret⟩ (by decide)
  have hc10 : rtn.controls 0x10 = [] := hcontrols ⟨0x10, 0x11, .other⟩ (by decide)
  have hc11 : rtn.controls 0x11 = [] :=
    hcontrols ⟨0x11, 0x13, .conditionalBranch 0x14⟩ (by decide)
  have hc14 : rtn.controls 0x14 = [] := hcontrols ⟨0x14, 0x15, .ret⟩ (by decide)
  have henter : rtn.enter = ⟨rtn, _, h10⟩ := by simp [Instrumented.enter, hr, twoReturns]
  have halone : ∀ (f : Frame 32) (st : TaintState 32), Alone (fun _ _ => True) ([f], st) :=
    fun f st => ⟨Nat.le_refl _, fun _ _ => trivial⟩
  have hpush : taintedFlags.controlBefore rtn.controls ⟨0x11, 0x13, .conditionalBranch 0x14⟩ =
      some taintedBranch := TaintState.controlBefore_of_nil rfl hc11
  refine ⟨rtn, taintedBranch, _, hr, hgraph, ?_, h11, rfl, rfl,
    by simp [taintedBranch, TaintState.withControl]⟩
  rw [henter]
  refine .trans (.single (.pass h10 h11 (halone _ _)
    (TaintState.controlBefore_of_nil rfl hc10) rfl)) ?_
  refine .trans (.single (.pass h11 h14 (halone _ _) hpush (.inl rfl))) ?_
  exact .single (.ret h14 (halone _ _) (TaintState.controlBefore_of_nil rfl hc14) rfl)

end Dytan
