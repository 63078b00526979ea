import Dytan.Tool.Graph.TreeBuilder
import Mathlib.Logic.Relation

/-!
# The pass of `buildPostDominanceTree`, edge by edge

`FullHeap`: the blocks with `immediatelyPostDominated`, which `addPredecessorAsPostDominated` writes
along with what `Heap` has.

`PassState` is the pass between two calls of `addPredecessorAsPostDominated`, with the blocks that
have been the current block, and `PassState.step` goes to the next call or the next block. The runs
of the steps are the runs of `buildPostDominanceTree` (`build_of_steps`, `steps_of_build`).
-/

namespace Dytan

open Relation

variable {P : Type} {w : Nat}

structure FullHeap (P : Type) (w : Nat) where
  blocks : Heap P w
  immediatelyPostDominated : P → ADDRINT w → Option P

namespace FullHeap

variable [DecidableEq P]

/-- `immediatelyPostDominated[key] = entry` of a block, or its `erase`. -/
def setImmediate (f : FullHeap P w) (this : P) (key : ADDRINT w) (entry : Option P) : FullHeap P w :=
  { f with
    immediatelyPostDominated := Function.update f.immediatelyPostDominated this
      (Function.update (f.immediatelyPostDominated this) key entry) }

/-- `addImmediatePostDominator`. -/
def addImmediatePostDominator (f : FullHeap P w) (this newBlock : P) : FullHeap P w :=
  f.setImmediate this (f.blocks newBlock).startingAddress (some newBlock)

/-- `addPredecessorAsPostDominated`. -/
def addPredecessorAsPostDominated (depth : Nat) (f : FullHeap P w) (this predecessor : P) :
    Option (FullHeap P w) :=
  if (f.blocks predecessor).isPostDominated = false then do
    let f := { f with blocks := f.blocks.modify predecessor (·.setPostDominator this) }
    let f := f.addImmediatePostDominator this predecessor
    let h ← f.blocks.passDownPostDominanceInfo depth this predecessor
    return { f with blocks := h }
  else do
    let competingSibling ← (f.blocks predecessor).postDominator
    let (newPostDominator, h) ← f.blocks.getCommonPostDominator depth this predecessor
    let f := f.setImmediate this (h predecessor).startingAddress none
    let h ← h.deleteDownPostDominanceInfo depth competingSibling (h predecessor).postDominated
      (h predecessor).startingAddress (h newPostDominator).startingAddress
    let f := { f with blocks := h.modify predecessor (·.setPostDominator newPostDominator) }
    return f.addImmediatePostDominator newPostDominator predecessor

/-- One turn of the loop of `buildPostDominanceTree`. -/
def addPredecessor (depth : Nat) (currentBlock : P) (state : FullHeap P w × List P)
    (targetBlock : P) : Option (FullHeap P w × List P) := do
  let (f, blockQueue) := state
  let blockQueue :=
    if (f.blocks targetBlock).postDominator = none then blockQueue ++ [targetBlock] else blockQueue
  let f ← f.addPredecessorAsPostDominated depth currentBlock targetBlock
  return (f, blockQueue)

/-- `buildPostDominanceTree`; `depth` bounds the calls of the functions on blocks. -/
def buildPostDominanceTree (depth : Nat) :
    Nat → FullHeap P w → P → List P → Option (FullHeap P w)
  | 0, _, _, _ => none
  | fuel + 1, f, currentBlock, blockQueue => do
    let (f, blockQueue) ←
      (f.blocks currentBlock).predecessors.foldlM (addPredecessor depth currentBlock) (f, blockQueue)
    match blockQueue with
    | [] => return f
    | nextBlock :: blockQueue => buildPostDominanceTree depth fuel f nextBlock blockQueue

/-! ## Without `immediatelyPostDominated` -/

theorem blocks_addPredecessorAsPostDominated (depth : Nat) (f : FullHeap P w) (this t : P) :
    (f.addPredecessorAsPostDominated depth this t).map blocks =
      f.blocks.addPredecessorAsPostDominated depth this t := by
  unfold addPredecessorAsPostDominated Heap.addPredecessorAsPostDominated
  split_ifs
  · simp only [addImmediatePostDominator, setImmediate]
    cases Heap.passDownPostDominanceInfo depth (f.blocks.modify t (·.setPostDominator this)) this t <;>
      rfl
  · cases (f.blocks t).postDominator with
    | none => rfl
    | some competing =>
      cases hc : f.blocks.getCommonPostDominator depth this t with
      | none => rfl
      | some r =>
        obtain ⟨new, h⟩ := r
        simp only [Option.bind_eq_bind, Option.bind_some]
        cases h.deleteDownPostDominanceInfo depth competing (h t).postDominated
          (h t).startingAddress (h new).startingAddress <;> rfl

theorem blocks_foldlM (depth : Nat) (this : P) (ts : List P) (f : FullHeap P w) (queue : List P) :
    (ts.foldlM (addPredecessor depth this) (f, queue)).map (fun s => (s.1.blocks, s.2)) =
      ts.foldlM (Heap.addPredecessor depth this) (f.blocks, queue) := by
  induction ts generalizing f queue with
  | nil => rfl
  | cons t ts ih =>
    have hadd := blocks_addPredecessorAsPostDominated depth f this t
    rw [List.foldlM_cons, List.foldlM_cons]
    cases hf : f.addPredecessorAsPostDominated depth this t with
    | none =>
      rw [hf] at hadd
      simp [addPredecessor, Heap.addPredecessor, hf, ← hadd]
    | some f₁ =>
      rw [hf] at hadd
      simp only [addPredecessor, Heap.addPredecessor, hf, ← hadd, Option.map_some,
        Option.bind_eq_bind, Option.bind_some]
      exact ih f₁ _

theorem blocks_buildPostDominanceTree (depth fuel : Nat) (f : FullHeap P w) (this : P)
    (queue : List P) : (f.buildPostDominanceTree depth fuel this queue).map blocks =
      f.blocks.buildPostDominanceTree depth fuel this queue := by
  induction fuel generalizing f this queue with
  | zero => rfl
  | succ fuel ih =>
    have hfold := blocks_foldlM depth this (f.blocks this).predecessors f queue
    rw [buildPostDominanceTree, Heap.buildPostDominanceTree]
    cases hf : (f.blocks this).predecessors.foldlM (addPredecessor depth this) (f, queue) with
    | none =>
      rw [hf] at hfold
      simp [← hfold]
    | some s =>
      rw [hf] at hfold
      obtain ⟨f₁, queue₁⟩ := s
      simp only [← hfold, Option.map_some, Option.bind_eq_bind, Option.bind_some]
      cases queue₁ with
      | nil => rfl
      | cons next queue₁ => exact ih f₁ next queue₁

end FullHeap

/-! ## Steps -/

structure PassState (P : Type) (w : Nat) where
  full : FullHeap P w
  current : P
  /-- The predecessors of `current` that have not been visited. -/
  todo : List P
  queue : List P
  /-- The blocks that have been `current`. -/
  visited : List P

namespace PassState

variable [DecidableEq P]

def heap (s : PassState P w) : Heap P w := s.full.blocks

/-- `buildPostDominanceTree` is called for `root`, with an empty queue. -/
def start (h : Heap P w) (root : P) : PassState P w :=
  ⟨⟨h, fun _ _ => none⟩, root, (h root).predecessors, [], [root]⟩

/-- To the next call of `addPredecessorAsPostDominated`, or to the next block. -/
def step (depth : Nat) (s : PassState P w) : Option (PassState P w) :=
  match s.todo with
  | targetBlock :: todo => do
    let (full, queue) ← FullHeap.addPredecessor depth s.current (s.full, s.queue) targetBlock
    return { s with full, todo, queue }
  | [] =>
    match s.queue with
    | nextBlock :: queue =>
      some { s with current := nextBlock, todo := (s.heap nextBlock).predecessors, queue,
                    visited := s.visited ++ [nextBlock] }
    | [] => none

def Done (s : PassState P w) : Prop := s.todo = [] ∧ s.queue = []

/-- A run of the pass. -/
def Steps (depth : Nat) : PassState P w → PassState P w → Prop :=
  ReflTransGen fun s s' => s.step depth = some s'

/-- What the calls of the pass return from a state on. -/
def finish (depth fuel : Nat) (s : PassState P w) : Option (FullHeap P w) := do
  let (f, queue) ← s.todo.foldlM (FullHeap.addPredecessor depth s.current) (s.full, s.queue)
  match queue with
  | [] => return f
  | nextBlock :: queue => f.buildPostDominanceTree depth fuel nextBlock queue

variable {s s' : PassState P w} {depth fuel : Nat}

/-- What a step does. -/
theorem step_cases (h : s.step depth = some s') :
    (∃ t todo full queue, s.todo = t :: todo ∧
      FullHeap.addPredecessor depth s.current (s.full, s.queue) t = some (full, queue) ∧
      s' = { s with full, todo, queue }) ∨
    ∃ next queue, s.todo = [] ∧ s.queue = next :: queue ∧
      s' = ⟨s.full, next, (s.heap next).predecessors, queue, s.visited ++ [next]⟩ := by
  unfold step at h
  split at h
  · rename_i t todo htodo
    obtain ⟨⟨full, queue⟩, hadd, he⟩ := Option.bind_eq_some_iff.1 h
    cases he
    exact .inl ⟨t, todo, full, queue, htodo, hadd, rfl⟩
  · rename_i htodo
    split at h
    · rename_i next queue hqueue
      cases h
      exact .inr ⟨next, queue, htodo, hqueue, rfl⟩
    · cases h

theorem Steps.visited (h : Steps depth s s') : s.visited.length ≤ s'.visited.length := by
  induction h with
  | refl => exact Nat.le_refl _
  | tail _ hstep ih =>
    rcases step_cases hstep with ⟨t, todo, full, queue, -, -, rfl⟩ | ⟨next, queue, -, -, rfl⟩
    · exact ih
    · exact ih.trans (by simp)

theorem build_of_steps (hs : Steps depth s s') (hd : s'.Done)
    (hf : s'.visited.length ≤ s.visited.length + fuel) : s.finish depth fuel = some s'.full := by
  induction hs using ReflTransGen.head_induction_on generalizing fuel with
  | refl =>
    simp only [finish, hd.1, hd.2, List.foldlM_nil]
    rfl
  | @head s s₁ hstep hrest ih =>
    rcases step_cases hstep with ⟨t, todo, full, queue, htodo, hadd, rfl⟩ |
      ⟨next, queue, htodo, hqueue, rfl⟩
    · rw [← ih hf]
      simp only [finish, htodo, List.foldlM_cons, hadd, Option.bind_eq_bind, Option.bind_some]
    · have hlen := Steps.visited hrest
      rw [List.length_append, List.length_singleton] at hlen
      cases fuel with
      | zero => omega
      | succ fuel =>
        rw [← @ih fuel (by rw [List.length_append, List.length_singleton]; omega)]
        simp only [finish, htodo, hqueue, List.foldlM_nil]
        rfl

theorem steps_foldlM {full : FullHeap P w} {queue : List P} {current : P} {todo : List P}
    (visited : List P) {r : FullHeap P w × List P}
    (h : todo.foldlM (FullHeap.addPredecessor depth current) (full, queue) = some r) :
    Steps depth ⟨full, current, todo, queue, visited⟩ ⟨r.1, current, [], r.2, visited⟩ := by
  induction todo generalizing full queue with
  | nil =>
    cases h
    exact .refl
  | cons t todo ih =>
    rw [List.foldlM_cons] at h
    obtain ⟨⟨full₁, queue₁⟩, hadd, h⟩ := Option.bind_eq_some_iff.1 h
    refine ReflTransGen.head ?_ (ih h)
    simp only [step, hadd]
    rfl

theorem steps_of_build {full full' : FullHeap P w} {current : P} {queue : List P}
    (visited : List P) (h : full.buildPostDominanceTree depth fuel current queue = some full') :
    ∃ s, Steps depth ⟨full, current, (full.blocks current).predecessors, queue, visited⟩ s ∧
      s.Done ∧ s.full = full' := by
  induction fuel generalizing full current queue visited with
  | zero => cases h
  | succ fuel ih =>
    rw [FullHeap.buildPostDominanceTree] at h
    obtain ⟨⟨full₁, queue₁⟩, hfold, h⟩ := Option.bind_eq_some_iff.1 h
    have hsteps := steps_foldlM visited hfold
    cases queue₁ with
    | nil =>
      cases h
      exact ⟨_, hsteps, ⟨rfl, rfl⟩, rfl⟩
    | cons next queue₁ =>
      obtain ⟨s, hrest, hd⟩ := ih (visited ++ [next]) h
      exact ⟨s, hsteps.trans (ReflTransGen.head rfl hrest), hd⟩

end PassState

/-! ## The functions on blocks, where they return -/

namespace Heap

/-- `b` is `a`, or is met by following the post-dominators from `a`. -/
def Climbs (h : Heap P w) : P → P → Prop := ReflTransGen fun a b => (h a).postDominator = some b

/-- Entries aside, the blocks are the same. -/
structure SamePointers (h h' : Heap P w) : Prop where
  starting : ∀ b, (h' b).startingAddress = (h b).startingAddress
  predecessors : ∀ b, (h' b).predecessors = (h b).predecessors
  postDominator : ∀ b, (h' b).postDominator = (h b).postDominator
  isPostDominated : ∀ b, (h' b).isPostDominated = (h b).isPostDominated

/-- The block has an entry, not `NULL`. -/
def Entry (h : Heap P w) (b : P) (key : ADDRINT w) (y : P) : Prop :=
  (h b).postDominated key = some (some y)

variable {h h' h'' : Heap P w} {this t a b c new x y : P} {fuel : Nat}
  {deletable : ADDRINT w → Option (Option P)} {key last : ADDRINT w}

theorem SamePointers.refl : SamePointers h h :=
  ⟨fun _ => rfl, fun _ => rfl, fun _ => rfl, fun _ => rfl⟩

theorem SamePointers.trans (hs : SamePointers h h') (hs' : SamePointers h' h'') :
    SamePointers h h'' :=
  ⟨fun b => (hs'.starting b).trans (hs.starting b),
    fun b => (hs'.predecessors b).trans (hs.predecessors b),
    fun b => (hs'.postDominator b).trans (hs.postDominator b),
    fun b => (hs'.isPostDominated b).trans (hs.isPostDominated b)⟩

theorem SamePointers.climbs (hs : SamePointers h h') : h'.Climbs a b ↔ h.Climbs a b := by
  unfold Climbs
  simp only [hs.postDominator]

/-- There is one way up. -/
theorem Climbs.total (ha : h.Climbs a b) (hc : h.Climbs a c) : h.Climbs b c ∨ h.Climbs c b :=
  ReflTransGen.total_of_right_unique (fun _ _ _ h₁ h₂ => Option.some.inj (h₁.symm.trans h₂)) ha hc

theorem Climbs.cases (hc : h.Climbs a b) (ha : (h a).postDominator = some c) :
    b = a ∨ h.Climbs c b := by
  rcases ReflTransGen.cases_head hc with he | ⟨d, hd, hdb⟩
  · exact .inl he.symm
  · obtain rfl : c = d := Option.some.inj (ha.symm.trans hd)
    exact .inr hdb

theorem Climbs.eq_of_top (hc : h.Climbs a b) (ha : (h a).postDominator = none) : b = a := by
  rcases ReflTransGen.cases_head hc with he | ⟨d, hd, -⟩
  · exact he.symm
  · rw [ha] at hd
    cases hd

variable [DecidableEq P]

theorem SamePointers.setEntry (b : P) (key : ADDRINT w) (entry : Option P) :
    SamePointers h (h.modify b (·.setEntry key entry)) :=
  ⟨fun x => modify_field BasicBlock.startingAddress (by intro _; rfl) h b x,
    fun x => modify_field BasicBlock.predecessors (by intro _; rfl) h b x,
    fun x => modify_field BasicBlock.postDominator (by intro _; rfl) h b x,
    fun x => modify_field BasicBlock.isPostDominated (by intro _; rfl) h b x⟩

theorem SamePointers.eraseEntries (b : P) :
    SamePointers h (h.modify b (·.eraseEntries deletable key)) :=
  ⟨fun x => modify_field BasicBlock.startingAddress (by intro _; rfl) h b x,
    fun x => modify_field BasicBlock.predecessors (by intro _; rfl) h b x,
    fun x => modify_field BasicBlock.postDominator (by intro _; rfl) h b x,
    fun x => modify_field BasicBlock.isPostDominated (by intro _; rfl) h b x⟩

/-- The walk goes up to the first block with an entry for the sibling, or to the return block. -/
theorem getCommonPostDominator_climbs
    (hr : h.getCommonPostDominator fuel this t = some (new, h')) :
    h.Climbs this new ∧
      ((h new).startingAddress = 2 ∨ ∃ y, h.Entry new (h t).startingAddress y) ∧
      (∀ x, h.Climbs this x → ¬ h.Climbs new x → ∀ y, ¬ h.Entry x (h t).startingAddress y) ∧
      SamePointers h h' ∧ ∀ b key y, h'.Entry b key y ↔ h.Entry b key y := by
  induction fuel generalizing h this with
  | zero => cases hr
  | succ fuel ih =>
    unfold getCommonPostDominator at hr
    dsimp only at hr
    split at hr
    · rename_i y hy
      cases hr
      exact ⟨.refl, .inr ⟨y, hy⟩, fun x hx hn => absurd hx hn, .refl, fun _ _ _ => .rfl⟩
    · rename_i hnone
      have hno : ∀ y, ¬ h.Entry this (h t).startingAddress y := fun y hy => hnone y hy
      have hset : SamePointers h (h.modify this (·.setEntry (h t).startingAddress none)) :=
        .setEntry this _ none
      have hentry : ∀ b key y,
          Entry (h.modify this (·.setEntry (h t).startingAddress none)) b key y ↔
            h.Entry b key y := by
        intro b key y
        by_cases hb : b = this
        · subst hb
          by_cases hk : key = (h t).startingAddress
          · subst hk
            refine iff_of_false (fun he => ?_) (hno y)
            rw [Entry, modify_same, BasicBlock.setEntry] at he
            dsimp only at he
            rw [Function.update_self] at he
            cases he
          · rw [Entry, Entry, modify_same, BasicBlock.setEntry]
            dsimp only
            rw [Function.update_of_ne hk]
        · rw [Entry, Entry, modify_of_ne _ _ hb]
      split_ifs at hr with htwo
      · cases hr
        rw [startingAddress_setEntry] at htwo
        exact ⟨.refl, .inl htwo, fun x hx hn => absurd hx hn, hset, hentry⟩
      · split at hr
        · rename_i pd hpd
          rw [postDominator_setEntry] at hpd
          obtain ⟨hclimb, hstop, hfirst, hsame, hentries⟩ := ih hr
          simp only [hset.climbs, hset.starting, hentry] at hclimb hstop hfirst hentries
          refine ⟨ReflTransGen.head hpd hclimb, hstop, fun x hx hn y => ?_, hset.trans hsame,
            hentries⟩
          rcases hx.cases hpd with rfl | hx
          · exact hno y
          · exact hfirst x hx hn y
        · cases hr

/-- The new block is entered all the way up. -/
theorem passDownPostDominanceInfo_climbs
    (htop : ∀ b, (h b).startingAddress = 2 → (h b).postDominator = none)
    (hr : h.passDownPostDominanceInfo fuel this t = some h') :
    SamePointers h h' ∧
      (∀ b, h.Climbs this b → (h' b).postDominated =
        Function.update (h b).postDominated (h t).startingAddress (some (some t))) ∧
      ∀ b, ¬ h.Climbs this b → (h' b).postDominated = (h b).postDominated := by
  induction fuel generalizing h this with
  | zero => cases hr
  | succ fuel ih =>
    unfold passDownPostDominanceInfo at hr
    dsimp only at hr
    have hset : SamePointers h (h.modify this (·.setEntry (h t).startingAddress (some t))) :=
      .setEntry this _ _
    have hthis : (h.modify this (·.setEntry (h t).startingAddress (some t)) this).postDominated =
        Function.update (h this).postDominated (h t).startingAddress (some (some t)) := by
      rw [modify_same]
      rfl
    have hother : ∀ b, b ≠ this →
        (h.modify this (·.setEntry (h t).startingAddress (some t)) b).postDominated =
          (h b).postDominated := fun b hb => by rw [modify_of_ne _ _ hb]
    split_ifs at hr with htwo
    · split at hr
      · rename_i pd hpd
        rw [postDominator_setEntry] at hpd
        have htop' : ∀ b,
            (h.modify this (·.setEntry (h t).startingAddress (some t)) b).startingAddress = 2 →
              (h.modify this (·.setEntry (h t).startingAddress (some t)) b).postDominator = none := by
          intro b hb
          rw [hset.starting] at hb
          rw [hset.postDominator]
          exact htop b hb
        obtain ⟨hsame, hpassed, hkept⟩ := ih htop' hr
        simp only [hset.climbs, hset.starting] at hpassed hkept
        refine ⟨hset.trans hsame, fun b hb => ?_, fun b hb => ?_⟩
        · by_cases hup : h.Climbs pd b
          · rw [hpassed b hup]
            by_cases hb' : b = this
            · subst hb'
              rw [hthis, Function.update_idem]
            · rw [hother b hb']
          · rcases hb.cases hpd with rfl | hc
            · rw [hkept b hup, hthis]
            · exact absurd hc hup
        · have hne : b ≠ this := fun he => hb (he ▸ .refl)
          rw [hkept b fun hc => hb (ReflTransGen.head hpd hc), hother b hne]
      · cases hr
    · cases hr
      rw [startingAddress_setEntry] at htwo
      refine ⟨hset, fun b hb => ?_, fun b hb => ?_⟩
      · rw [hb.eq_of_top (htop this (not_not.1 htwo))]
        exact hthis
      · exact hother b fun he => hb (he ▸ .refl)

theorem deleteDownPostDominanceInfo_erases
    (hr : h.deleteDownPostDominanceInfo fuel this deletable key last = some h') :
    SamePointers h h' ∧ (∀ b k y, h'.Entry b k y → h.Entry b k y) ∧
      ((h this).startingAddress = last → h' = h) := by
  induction fuel generalizing h this with
  | zero => cases hr
  | succ fuel ih =>
    unfold deleteDownPostDominanceInfo at hr
    dsimp only at hr
    have herase : ∀ b k y, Entry (h.modify this (·.eraseEntries deletable key)) b k y →
        h.Entry b k y := by
      intro b k y he
      by_cases hb : b = this
      · subst hb
        rw [Entry, modify_same] at he
        simp only [BasicBlock.eraseEntries] at he
        split_ifs at he
        exact he
      · rwa [Entry, modify_of_ne _ _ hb] at he
    split_ifs at hr with hlast
    · split at hr
      · obtain ⟨hsame, hentries, -⟩ := ih hr
        exact ⟨(SamePointers.eraseEntries this).trans hsame,
          fun b k y he => herase b k y (hentries b k y he), fun he => absurd he hlast⟩
      · cases hr
        exact ⟨.eraseEntries this, herase, fun he => absurd he hlast⟩
    · cases hr
      exact ⟨.refl, fun _ _ _ => id, fun _ => rfl⟩

/-! ## Where the functions return -/

/-- Blocks `I` that point to blocks of lower rank, return block apart. -/
structure Descends (h : Heap P w) (I : P → Prop) (rank : P → Nat) : Prop where
  pointer : ∀ b, I b → (h b).startingAddress ≠ 2 → ∃ p, (h b).postDominator = some p
  lower : ∀ b p, I b → (h b).postDominator = some p → I p ∧ rank p < rank b

variable {I : P → Prop} {rank : P → Nat}

omit [DecidableEq P] in
theorem Descends.congr (hd : Descends h I rank) (hs : SamePointers h h') : Descends h' I rank := by
  refine ⟨fun b hb hne => ?_, fun b p hb hp => ?_⟩
  · rw [hs.starting] at hne
    rw [hs.postDominator]
    exact hd.pointer b hb hne
  · rw [hs.postDominator] at hp
    exact hd.lower b p hb hp

theorem exists_getCommonPostDominator (hd : Descends h I rank) (hI : I this)
    (hf : rank this < fuel) : ∃ r, h.getCommonPostDominator fuel this t = some r := by
  induction fuel generalizing h this with
  | zero => omega
  | succ fuel ih =>
    unfold getCommonPostDominator
    dsimp only
    split
    · exact ⟨_, rfl⟩
    · split_ifs with htwo
      · exact ⟨_, rfl⟩
      · rw [startingAddress_setEntry] at htwo
        obtain ⟨p, hp⟩ := hd.pointer this hI htwo
        obtain ⟨hIp, hlt⟩ := hd.lower this p hI hp
        rw [postDominator_setEntry, hp]
        exact ih (hd.congr (.setEntry ..)) hIp (by omega)

theorem exists_passDownPostDominanceInfo (hd : Descends h I rank) (hI : I this)
    (hf : rank this < fuel) : ∃ h', h.passDownPostDominanceInfo fuel this t = some h' := by
  induction fuel generalizing h this with
  | zero => omega
  | succ fuel ih =>
    unfold passDownPostDominanceInfo
    dsimp only
    split_ifs with htwo
    · rw [startingAddress_setEntry] at htwo
      obtain ⟨p, hp⟩ := hd.pointer this hI htwo
      obtain ⟨hIp, hlt⟩ := hd.lower this p hI hp
      rw [postDominator_setEntry, hp]
      exact ih (hd.congr (.setEntry ..)) hIp (by omega)
    · exact ⟨_, rfl⟩

theorem exists_deleteDownPostDominanceInfo (deletable : ADDRINT w → Option (Option P))
    (key last : ADDRINT w) (hd : Descends h I rank) (hI : I this) (hf : rank this < fuel) :
    ∃ h', h.deleteDownPostDominanceInfo fuel this deletable key last = some h' := by
  induction fuel generalizing h this with
  | zero => omega
  | succ fuel ih =>
    unfold deleteDownPostDominanceInfo
    dsimp only
    split_ifs
    · rw [postDominator_eraseEntries]
      cases hp : (h this).postDominator with
      | none => exact ⟨_, rfl⟩
      | some p =>
        obtain ⟨hIp, hlt⟩ := hd.lower this p hI hp
        exact ih (hd.congr (.eraseEntries this)) hIp (by omega)
    · exact ⟨_, rfl⟩

end Heap

namespace FullHeap

variable [DecidableEq P] {f f' : FullHeap P w} {this t competing new : P} {depth : Nat}

/-- `t` gets its first post-dominator. -/
structure Attaches (f f' : FullHeap P w) (this t : P) : Prop where
  starting : ∀ b, (f'.blocks b).startingAddress = (f.blocks b).startingAddress
  predecessors : ∀ b, (f'.blocks b).predecessors = (f.blocks b).predecessors
  source : (f'.blocks t).postDominator = some this ∧ (f'.blocks t).isPostDominated = true
  others : ∀ b, b ≠ t → (f'.blocks b).postDominator = (f.blocks b).postDominator ∧
    (f'.blocks b).isPostDominated = (f.blocks b).isPostDominated
  passed : ∀ b, f'.blocks.Climbs this b → (f'.blocks b).postDominated =
    Function.update (f.blocks b).postDominated (f.blocks t).startingAddress (some (some t))
  kept : ∀ b, ¬ f'.blocks.Climbs this b → (f'.blocks b).postDominated = (f.blocks b).postDominated
  immediate : f'.immediatelyPostDominated =
    (f.addImmediatePostDominator this t).immediatelyPostDominated

/-- `t`, which has a post-dominator, moves to `new`. -/
structure Moves (f f' : FullHeap P w) (this t competing new : P) : Prop where
  starting : ∀ b, (f'.blocks b).startingAddress = (f.blocks b).startingAddress
  predecessors : ∀ b, (f'.blocks b).predecessors = (f.blocks b).predecessors
  pointer : (f.blocks t).postDominator = some competing
  climbs : f.blocks.Climbs this new
  stop : (f.blocks new).startingAddress = 2 ∨
    ∃ y, f.blocks.Entry new (f.blocks t).startingAddress y
  first : ∀ x, f.blocks.Climbs this x → ¬ f.blocks.Climbs new x →
    ∀ y, ¬ f.blocks.Entry x (f.blocks t).startingAddress y
  source : (f'.blocks t).postDominator = some new ∧ (f'.blocks t).isPostDominated = true
  others : ∀ b, b ≠ t → (f'.blocks b).postDominator = (f.blocks b).postDominator ∧
    (f'.blocks b).isPostDominated = (f.blocks b).isPostDominated
  entries : ∀ b key y, f'.blocks.Entry b key y → f.blocks.Entry b key y
  kept : (f.blocks competing).startingAddress = (f.blocks new).startingAddress →
    ∀ b key y, f.blocks.Entry b key y → f'.blocks.Entry b key y
  immediate : f'.immediatelyPostDominated =
    ((f.setImmediate this (f.blocks t).startingAddress none).addImmediatePostDominator new
      t).immediatelyPostDominated

/-- What a call of `addPredecessorAsPostDominated` does when it returns. -/
theorem addPredecessor_cases
    (htop : ∀ b, (f.blocks b).startingAddress = 2 → (f.blocks b).postDominator = none)
    (ht : (f.blocks t).startingAddress ≠ 2)
    (hr : f.addPredecessorAsPostDominated depth this t = some f') :
    ((f.blocks t).isPostDominated = false ∧ Attaches f f' this t) ∨
    ((f.blocks t).isPostDominated = true ∧ ∃ competing new, Moves f f' this t competing new) := by
  unfold addPredecessorAsPostDominated at hr
  split_ifs at hr with hmarked
  · refine .inl ⟨hmarked, ?_⟩
    obtain ⟨h', hpass, he⟩ := Option.bind_eq_some_iff.1 hr
    cases he
    simp only [addImmediatePostDominator, setImmediate] at hpass
    have htop' : ∀ b, (f.blocks.modify t (·.setPostDominator this) b).startingAddress = 2 →
        (f.blocks.modify t (·.setPostDominator this) b).postDominator = none := by
      intro b hb
      rw [Heap.startingAddress_setPostDominator] at hb
      have hne : b ≠ t := fun he => ht (he ▸ hb)
      rw [Heap.modify_of_ne _ _ hne]
      exact htop b hb
    obtain ⟨hsame, hpassed, hkept⟩ := Heap.passDownPostDominanceInfo_climbs htop' hpass
    have hother : ∀ b, b ≠ t → f.blocks.modify t (·.setPostDominator this) b = f.blocks b :=
      fun b hb => Heap.modify_of_ne _ _ hb
    simp only [Heap.startingAddress_setPostDominator, Heap.postDominated_setPostDominator]
      at hpassed hkept
    refine ⟨fun b => ?_, fun b => ?_, ⟨?_, ?_⟩, fun b hb => ⟨?_, ?_⟩, fun b hb => ?_,
      fun b hb => ?_, ?_⟩
    · rw [hsame.starting, Heap.startingAddress_setPostDominator]
    · rw [hsame.predecessors, Heap.predecessors_setPostDominator]
    · rw [hsame.postDominator, Heap.modify_same]
      rfl
    · rw [hsame.isPostDominated, Heap.modify_same]
      rfl
    · rw [hsame.postDominator, hother b hb]
    · rw [hsame.isPostDominated, hother b hb]
    · exact hpassed b (hsame.climbs.1 hb)
    · exact hkept b fun hc => hb (hsame.climbs.2 hc)
    · simp only [addImmediatePostDominator, setImmediate, Heap.startingAddress_setPostDominator]
  · rw [Bool.not_eq_false] at hmarked
    refine .inr ⟨hmarked, ?_⟩
    obtain ⟨competing, hcompeting, hr⟩ := Option.bind_eq_some_iff.1 hr
    obtain ⟨⟨new, h₁⟩, hcommon, hr⟩ := Option.bind_eq_some_iff.1 hr
    obtain ⟨h₂, hdelete, he⟩ := Option.bind_eq_some_iff.1 hr
    cases he
    obtain ⟨hclimbs, hstop, hfirst, hsame, hentries⟩ := Heap.getCommonPostDominator_climbs hcommon
    obtain ⟨hsame', hentries', hkept⟩ := Heap.deleteDownPostDominanceInfo_erases hdelete
    have hboth := hsame.trans hsame'
    have hentry : ∀ b key y, Heap.Entry (h₂.modify t (·.setPostDominator new)) b key y ↔
        h₂.Entry b key y := fun b key y => by
      rw [Heap.Entry, Heap.Entry, Heap.postDominated_setPostDominator]
    simp only [addImmediatePostDominator, setImmediate]
    refine ⟨competing, new, fun b => ?_, fun b => ?_, hcompeting, hclimbs, hstop, hfirst, ⟨?_, ?_⟩,
      fun b hb => ⟨?_, ?_⟩, fun b key y he => ?_, fun hst b key y he => ?_, ?_⟩
    · rw [Heap.startingAddress_setPostDominator, hboth.starting]
    · rw [Heap.predecessors_setPostDominator, hboth.predecessors]
    · exact congrArg BasicBlock.postDominator (Heap.modify_same h₂ t _)
    · exact congrArg BasicBlock.isPostDominated (Heap.modify_same h₂ t _)
    · exact (congrArg BasicBlock.postDominator (Heap.modify_of_ne h₂ _ hb)).trans
        (hboth.postDominator b)
    · exact (congrArg BasicBlock.isPostDominated (Heap.modify_of_ne h₂ _ hb)).trans
        (hboth.isPostDominated b)
    · exact (hentries b key y).1 (hentries' b key y ((hentry b key y).1 he))
    · rw [hentry, hkept (by rw [hsame.starting, hsame.starting, hst])]
      exact (hentries b key y).2 he
    · simp only [addImmediatePostDominator, setImmediate, Heap.startingAddress_setPostDominator,
        hboth.starting, hsame.starting]

/-- A call returns when the walks descend. -/
theorem exists_addPredecessorAsPostDominated {I : P → Prop} {rank : P → Nat}
    (hd : f.blocks.Descends I rank) (hdepth : ∀ b, I b → rank b < depth) (hthis : I this)
    (hnew : (f.blocks t).isPostDominated = false → ¬ I t)
    (hold : (f.blocks t).isPostDominated = true →
      ∃ competing, (f.blocks t).postDominator = some competing ∧ I competing) :
    ∃ f', f.addPredecessorAsPostDominated depth this t = some f' := by
  unfold addPredecessorAsPostDominated
  split_ifs with hmarked
  · have hother : ∀ b, I b → f.blocks.modify t (·.setPostDominator this) b = f.blocks b :=
      fun b hb => Heap.modify_of_ne _ _ fun he => hnew hmarked (he ▸ hb)
    have hd' : Heap.Descends (f.blocks.modify t (·.setPostDominator this)) I rank := by
      refine ⟨fun b hb hne => ?_, fun b p hb hp => ?_⟩
      · rw [hother b hb] at hne ⊢
        exact hd.pointer b hb hne
      · rw [hother b hb] at hp
        exact hd.lower b p hb hp
    obtain ⟨h', hh'⟩ := Heap.exists_passDownPostDominanceInfo hd' hthis (hdepth this hthis) (t := t)
    simp only [addImmediatePostDominator, setImmediate, hh']
    exact ⟨_, rfl⟩
  · obtain ⟨competing, hcompeting, hI⟩ := hold (Bool.not_eq_false _ ▸ hmarked)
    obtain ⟨⟨new, h₁⟩, hh₁⟩ :=
      Heap.exists_getCommonPostDominator hd hthis (hdepth this hthis) (t := t)
    obtain ⟨-, -, -, hsame, -⟩ := Heap.getCommonPostDominator_climbs hh₁
    obtain ⟨h₂, hh₂⟩ := Heap.exists_deleteDownPostDominanceInfo (h₁ t).postDominated
      (h₁ t).startingAddress (h₁ new).startingAddress (hd.congr hsame) hI (hdepth competing hI)
    rw [hcompeting]
    simp only [Option.bind_eq_bind, Option.bind_some, hh₁, hh₂]
    exact ⟨_, rfl⟩

end FullHeap

end Dytan
