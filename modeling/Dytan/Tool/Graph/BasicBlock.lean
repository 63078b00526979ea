import Dytan.Taint.State

/-!
# Basic blocks and the post-dominance tree (`BasicBlock.H`, `RoutineGraph::buildPostDominanceTree`)

`Heap P w`: the blocks behind pointers of type `P`. The entries of `postDominated` are those of the
source's map: a key can be absent, `NULL` or a block, and `operator[]` inserts `NULL` for an absent
key. `none` results are a null pointer that is followed; the recursive functions take a bound on
the number of calls.

The sets of pointers are lists in the order in which an iterator visits them.
`immediatelyPostDominated`, which nothing reads, and the dominance half are left out.
-/

namespace Dytan

structure BasicBlock (P : Type) (w : Nat) where
  startingAddress : ADDRINT w
  endingAddress : ADDRINT w
  successors : List P
  predecessors : List P
  postDominator : Option P
  isPostDominated : Bool
  postDominated : ADDRINT w → Option (Option P)

/-- `new BasicBlock()`, with a null `PostDominator`. -/
def BasicBlock.new {P : Type} {w : Nat} : BasicBlock P w := ⟨0, 0, [], [], none, false, fun _ => none⟩

/-- `postDominated[key] = entry`. -/
def BasicBlock.setEntry {P : Type} {w : Nat} (block : BasicBlock P w) (key : ADDRINT w)
    (entry : Option P) : BasicBlock P w :=
  { block with postDominated := Function.update block.postDominated key (some entry) }

/-- `postDominated.erase` of `key` and of the keys of `deletable`. -/
def BasicBlock.eraseEntries {P : Type} {w : Nat} (block : BasicBlock P w)
    (deletable : ADDRINT w → Option (Option P)) (key : ADDRINT w) : BasicBlock P w :=
  { block with
    postDominated := fun a => if a = key ∨ (deletable a).isSome then none
                              else block.postDominated a }

/-- `setPostDominator`. -/
def BasicBlock.setPostDominator {P : Type} {w : Nat} (block : BasicBlock P w) (pd : P) :
    BasicBlock P w :=
  { block with isPostDominated := true, postDominator := some pd }

abbrev Heap (P : Type) (w : Nat) := P → BasicBlock P w

namespace Heap

variable {P : Type} {w : Nat} [DecidableEq P]

def modify (h : Heap P w) (b : P) (f : BasicBlock P w → BasicBlock P w) : Heap P w :=
  Function.update h b (f (h b))

/-- `getCommonPostDominator`. -/
def getCommonPostDominator : Nat → Heap P w → P → P → Option (P × Heap P w)
  | 0, _, _, _ => none
  | fuel + 1, h, this, siblingBlock =>
    let key := (h siblingBlock).startingAddress
    match (h this).postDominated key with
    | some (some _) => some (this, h)
    | _ =>
      -- the lookup left a `NULL` entry
      let h := h.modify this (·.setEntry key none)
      if (h this).startingAddress = 2 then some (this, h)
      else match (h this).postDominator with
        | some pd => getCommonPostDominator fuel h pd siblingBlock
        | none => none

/-- `passDownPostDominanceInfo`. -/
def passDownPostDominanceInfo : Nat → Heap P w → P → P → Option (Heap P w)
  | 0, _, _, _ => none
  | fuel + 1, h, this, newChild =>
    let h := h.modify this (·.setEntry (h newChild).startingAddress (some newChild))
    if (h this).startingAddress ≠ 2 then
      match (h this).postDominator with
      | some pd => passDownPostDominanceInfo fuel h pd newChild
      | none => none
    else some h

/-- `deleteDownPostDominanceInfo`. -/
def deleteDownPostDominanceInfo : Nat → Heap P w → P → (ADDRINT w → Option (Option P)) →
    ADDRINT w → ADDRINT w → Option (Heap P w)
  | 0, _, _, _, _, _ => none
  | fuel + 1, h, this, deletableBlocks, deletableBlocksParent, lastNodesStarting =>
    if (h this).startingAddress ≠ lastNodesStarting then
      let h := h.modify this (·.eraseEntries deletableBlocks deletableBlocksParent)
      match (h this).postDominator with
      | some pd =>
        deleteDownPostDominanceInfo fuel h pd deletableBlocks deletableBlocksParent
          lastNodesStarting
      | none => some h
    else some h

/-- `addPredecessorAsPostDominated`. -/
def addPredecessorAsPostDominated (fuel : Nat) (h : Heap P w) (this predecessor : P) :
    Option (Heap P w) :=
  if (h predecessor).isPostDominated = false then
    passDownPostDominanceInfo fuel (h.modify predecessor (·.setPostDominator this)) this predecessor
  else do
    let competingSibling ← (h predecessor).postDominator
    let (newPostDominator, h) ← getCommonPostDominator fuel h this predecessor
    let h ← deleteDownPostDominanceInfo fuel h competingSibling (h predecessor).postDominated
      (h predecessor).startingAddress (h newPostDominator).startingAddress
    return h.modify predecessor (·.setPostDominator newPostDominator)

/-- One turn of the loop of `buildPostDominanceTree`. -/
def addPredecessor (depth : Nat) (currentBlock : P) (state : Heap P w × List P) (targetBlock : P) :
    Option (Heap P w × List P) := do
  let (h, blockQueue) := state
  let blockQueue :=
    if (h targetBlock).postDominator = none then blockQueue ++ [targetBlock] else blockQueue
  let h ← h.addPredecessorAsPostDominated depth currentBlock targetBlock
  return (h, blockQueue)

/-- `buildPostDominanceTree`; `depth` bounds the calls of the functions on blocks. -/
def buildPostDominanceTree (depth : Nat) : Nat → Heap P w → P → List P → Option (Heap P w)
  | 0, _, _, _ => none
  | fuel + 1, h, currentBlock, blockQueue => do
    let (h, blockQueue) ←
      (h currentBlock).predecessors.foldlM (addPredecessor depth currentBlock) (h, blockQueue)
    match blockQueue with
    | [] => return h
    | nextBlock :: blockQueue => buildPostDominanceTree depth fuel h nextBlock blockQueue

/-! ## Simp lemmas -/

theorem modify_same (h : Heap P w) (b : P) (f : BasicBlock P w → BasicBlock P w) :
    h.modify b f b = f (h b) := Function.update_self ..

theorem modify_of_ne (h : Heap P w) {b x : P} (f : BasicBlock P w → BasicBlock P w) (hx : x ≠ b) :
    h.modify b f x = h x := Function.update_of_ne hx ..

/-- An update that leaves a field of the block alone. -/
theorem modify_field {α : Type} (field : BasicBlock P w → α) {f : BasicBlock P w → BasicBlock P w}
    (hf : ∀ block, field (f block) = field block) (h : Heap P w) (b x : P) :
    field (h.modify b f x) = field (h x) := by
  by_cases hx : x = b
  · subst hx; rw [modify_same, hf]
  · rw [modify_of_ne _ _ hx]

section
variable (h : Heap P w) (b x : P) (key : ADDRINT w)

@[simp] theorem startingAddress_setEntry (entry : Option P) :
    (h.modify b (·.setEntry key entry) x).startingAddress = (h x).startingAddress :=
  modify_field BasicBlock.startingAddress (by intro _; rfl) h b x

@[simp] theorem postDominator_setEntry (entry : Option P) :
    (h.modify b (·.setEntry key entry) x).postDominator = (h x).postDominator :=
  modify_field BasicBlock.postDominator (by intro _; rfl) h b x

@[simp] theorem startingAddress_eraseEntries (deletable : ADDRINT w → Option (Option P)) :
    (h.modify b (·.eraseEntries deletable key) x).startingAddress = (h x).startingAddress :=
  modify_field BasicBlock.startingAddress (by intro _; rfl) h b x

@[simp] theorem postDominator_eraseEntries (deletable : ADDRINT w → Option (Option P)) :
    (h.modify b (·.eraseEntries deletable key) x).postDominator = (h x).postDominator :=
  modify_field BasicBlock.postDominator (by intro _; rfl) h b x

@[simp] theorem startingAddress_setPostDominator (pd : P) :
    (h.modify b (·.setPostDominator pd) x).startingAddress = (h x).startingAddress :=
  modify_field BasicBlock.startingAddress (by intro _; rfl) h b x

@[simp] theorem predecessors_setPostDominator (pd : P) :
    (h.modify b (·.setPostDominator pd) x).predecessors = (h x).predecessors :=
  modify_field BasicBlock.predecessors (by intro _; rfl) h b x

@[simp] theorem postDominated_setPostDominator (pd : P) :
    (h.modify b (·.setPostDominator pd) x).postDominated = (h x).postDominated :=
  modify_field BasicBlock.postDominated (by intro _; rfl) h b x

end

/-! ## What the pass leaves alone -/

section
variable {α : Type} {field : BasicBlock P w → α} {h h' : Heap P w} {this : P}

/-- The functions of the pass do not write the field. -/
structure Untouched (field : BasicBlock P w → α) : Prop where
  setEntry : ∀ block key entry, field (block.setEntry key entry) = field block
  eraseEntries : ∀ block deletable key, field (block.eraseEntries deletable key) = field block
  setPostDominator : ∀ block pd, field (block.setPostDominator pd) = field block

omit [DecidableEq P] in
theorem untouched_startingAddress :
    Untouched (BasicBlock.startingAddress : BasicBlock P w → ADDRINT w) :=
  ⟨fun _ _ _ => rfl, fun _ _ _ => rfl, fun _ _ => rfl⟩

omit [DecidableEq P] in
theorem untouched_predecessors :
    Untouched (BasicBlock.predecessors : BasicBlock P w → List P) :=
  ⟨fun _ _ _ => rfl, fun _ _ _ => rfl, fun _ _ => rfl⟩

theorem Untouched.getCommonPostDominator (hf : Untouched field) {fuel : Nat} {siblingBlock new : P}
    (hr : h.getCommonPostDominator fuel this siblingBlock = some (new, h')) (x : P) :
    field (h' x) = field (h x) := by
  induction fuel generalizing h this with
  | zero => cases hr
  | succ fuel ih =>
    have hset : ∀ key, field (h.modify this (·.setEntry key none) x) = field (h x) := fun key =>
      modify_field field (fun _ => hf.setEntry _ _ _) h this x
    unfold Heap.getCommonPostDominator at hr
    dsimp only at hr
    split at hr
    · cases hr
      rfl
    · split_ifs at hr
      · cases hr
        exact hset _
      · split at hr
        · exact (ih hr).trans (hset _)
        · cases hr

theorem Untouched.passDownPostDominanceInfo (hf : Untouched field) {fuel : Nat} {newChild : P}
    (hr : h.passDownPostDominanceInfo fuel this newChild = some h') (x : P) :
    field (h' x) = field (h x) := by
  induction fuel generalizing h this with
  | zero => cases hr
  | succ fuel ih =>
    have hset : ∀ key entry, field (h.modify this (·.setEntry key entry) x) = field (h x) :=
      fun key entry => modify_field field (fun _ => hf.setEntry _ _ _) h this x
    unfold Heap.passDownPostDominanceInfo at hr
    dsimp only at hr
    split_ifs at hr
    · split at hr
      · exact (ih hr).trans (hset _ _)
      · cases hr
    · cases hr
      exact hset _ _

theorem Untouched.deleteDownPostDominanceInfo (hf : Untouched field) {fuel : Nat}
    {deletable : ADDRINT w → Option (Option P)} {parent last : ADDRINT w}
    (hr : h.deleteDownPostDominanceInfo fuel this deletable parent last = some h') (x : P) :
    field (h' x) = field (h x) := by
  induction fuel generalizing h this with
  | zero => cases hr
  | succ fuel ih =>
    have herase : field (h.modify this (·.eraseEntries deletable parent) x) = field (h x) :=
      modify_field field (fun _ => hf.eraseEntries _ _ _) h this x
    unfold Heap.deleteDownPostDominanceInfo at hr
    dsimp only at hr
    split_ifs at hr
    · split at hr
      · exact (ih hr).trans herase
      · cases hr
        exact herase
    · cases hr
      rfl

theorem Untouched.addPredecessorAsPostDominated (hf : Untouched field) {depth : Nat}
    {predecessor : P} (hr : h.addPredecessorAsPostDominated depth this predecessor = some h')
    (x : P) : field (h' x) = field (h x) := by
  have hset : ∀ (h : Heap P w) pd, field (h.modify predecessor (·.setPostDominator pd) x) =
      field (h x) := fun h pd => modify_field field (fun _ => hf.setPostDominator _ _) h predecessor x
  unfold Heap.addPredecessorAsPostDominated at hr
  split_ifs at hr
  · exact (hf.passDownPostDominanceInfo hr x).trans (hset h _)
  · obtain ⟨competing, -, hr⟩ := Option.bind_eq_some_iff.1 hr
    obtain ⟨⟨new, h₁⟩, hcommon, hr⟩ := Option.bind_eq_some_iff.1 hr
    obtain ⟨h₂, hdelete, hr⟩ := Option.bind_eq_some_iff.1 hr
    cases hr
    rw [hset, hf.deleteDownPostDominanceInfo hdelete, hf.getCommonPostDominator hcommon]

theorem Untouched.buildPostDominanceTree (hf : Untouched field) {depth fuel : Nat}
    {blockQueue : List P} (hr : h.buildPostDominanceTree depth fuel this blockQueue = some h')
    (x : P) : field (h' x) = field (h x) := by
  have hloop : ∀ (ts : List P) (state state' : Heap P w × List P) (this : P),
      ts.foldlM (addPredecessor depth this) state = some state' →
      field (state'.1 x) = field (state.1 x) := by
    intro ts
    induction ts with
    | nil =>
      intro state state' this he
      cases he
      rfl
    | cons t ts ih =>
      intro state state' this he
      rw [List.foldlM_cons] at he
      obtain ⟨next, hnext, he⟩ := Option.bind_eq_some_iff.1 he
      obtain ⟨h₁, hadd, hnext⟩ := Option.bind_eq_some_iff.1 hnext
      cases hnext
      exact (ih _ _ _ he).trans (hf.addPredecessorAsPostDominated hadd x)
  induction fuel generalizing h this blockQueue with
  | zero => cases hr
  | succ fuel ih =>
    unfold Heap.buildPostDominanceTree at hr
    obtain ⟨⟨h₁, queue⟩, hfold, hr⟩ := Option.bind_eq_some_iff.1 hr
    dsimp only at hr
    split at hr
    · cases hr
      exact hloop _ _ _ _ hfold
    · exact (ih hr).trans (hloop _ _ _ _ hfold)

end

end Heap

end Dytan
