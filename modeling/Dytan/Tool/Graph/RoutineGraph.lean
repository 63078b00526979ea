import Dytan.Tool.Graph.BasicBlock

/-!
# The routine graph (`RoutineGraph.H`: `mapper`, `BlockBuilder`, `BranchIns`)

A routine is its list of instructions, with what Pin tells of their control flow. A set of
addresses is the list of its elements in increasing order, which is how an iterator visits them.

Blocks are named by what they are allocated for: `Get_BasicBlock_At` allocates at most one block for
an address. Blocks not allocated yet are `BasicBlock.new`. Names of called routines, `allBlocks` and
the log files are left out.
-/

namespace Dytan

/-! ## Instructions -/

inductive FlowKind (w : Nat)
  | other
  | conditionalBranch (target : ADDRINT w)
  | jump (target : ADDRINT w)
  | indirectJump
  | call (hasFallThrough : Bool)
  | indirectCall (hasFallThrough : Bool)
  | ret
deriving DecidableEq, Repr

structure FlowINS (w : Nat) where
  address : ADDRINT w
  /-- `INS_NextAddress`. -/
  nextAddress : ADDRINT w
  kind : FlowKind w
deriving DecidableEq, Repr

namespace FlowKind

variable {w : Nat}

def isBranch : FlowKind w → Bool
  | .conditionalBranch _ | .jump _ | .indirectJump => true
  | _ => false

def isCall : FlowKind w → Bool
  | .call _ | .indirectCall _ => true
  | _ => false

def isRet : FlowKind w → Bool
  | .ret => true
  | _ => false

def isDirectBranchOrCall : FlowKind w → Bool
  | .conditionalBranch _ | .jump _ | .call _ => true
  | _ => false

def hasFallThrough : FlowKind w → Bool
  | .conditionalBranch _ | .other => true
  | .call b | .indirectCall b => b
  | _ => false

/-- `INS_DirectBranchOrCallTargetAddress`, of a branch. -/
def targetAddress : FlowKind w → ADDRINT w
  | .conditionalBranch target | .jump target => target
  | _ => 0

end FlowKind

/-! ## The first pass -/

/-- A `map<ADDRINT, set<ADDRINT> >`. -/
abbrev AddressSets (w : Nat) := ADDRINT w → List (ADDRINT w)

def AddressSets.insert {w : Nat} (sets : AddressSets w) (key a : ADDRINT w) : AddressSets w :=
  Function.update sets key
    (if (sets key).contains a then sets key else (sets key).orderedInsert (· ≤ ·) a)

structure Maps (w : Nat) where
  branches : AddressSets w
  targets : AddressSets w

namespace Maps

variable {w : Nat}

def insertBranch (m : Maps w) (addr target : ADDRINT w) : Maps w :=
  { m with branches := m.branches.insert addr target }

def insertTarget (m : Maps w) (target addr : ADDRINT w) : Maps w :=
  { m with targets := m.targets.insert target addr }

/-- The four copies of the fall-through case. -/
def fallThrough (m : Maps w) (ins : FlowINS w) : Maps w :=
  if ins.kind.hasFallThrough then
    (m.insertBranch ins.address ins.nextAddress).insertTarget ins.nextAddress ins.address
  else m

/-- `mapper`. -/
def mapper (m : Maps w) (ins : FlowINS w) : Maps w :=
  let m :=
    if ins.kind.isBranch then
      if ins.kind.isDirectBranchOrCall then
        ((m.insertBranch ins.address ins.kind.targetAddress).insertTarget ins.kind.targetAddress
          ins.address).fallThrough ins
      else (m.insertBranch ins.address 5).fallThrough ins
    else m
  let m :=
    if ins.kind.isCall then
      if ins.kind.isDirectBranchOrCall then (m.insertBranch ins.address 1).fallThrough ins
      else (m.insertBranch ins.address 4).fallThrough ins
    else m
  if ins.kind.isRet then m.insertBranch ins.address 2 else m

/-- The loop of `initializeRoutineInfo`. -/
def ofRoutine (instructions : List (FlowINS w)) : Maps w :=
  instructions.foldl mapper ⟨fun _ => [], fun _ => []⟩

end Maps

/-! ## The second pass -/

/-- Where a block has been allocated. -/
inductive BlockPtr (w : Nat)
  | block (a : ADDRINT w)
  | returnBlock
  | calledFunction (a : ADDRINT w)
  | indirectTarget (a : ADDRINT w)
deriving DecidableEq, Repr

namespace BasicBlock

variable {P : Type} {w : Nat} [DecidableEq P]

def insertPreds (block : BasicBlock P w) (pBlock : P) : BasicBlock P w :=
  { block with predecessors :=
      if pBlock ∈ block.predecessors then block.predecessors else block.predecessors ++ [pBlock] }

def insertSuccs (block : BasicBlock P w) (pBlock : P) : BasicBlock P w :=
  { block with successors :=
      if pBlock ∈ block.successors then block.successors else block.successors ++ [pBlock] }

omit [DecidableEq P] in
def setStarting (block : BasicBlock P w) (startAddr : ADDRINT w) : BasicBlock P w :=
  { block with startingAddress := startAddr }

omit [DecidableEq P] in
def setEnding (block : BasicBlock P w) (endAddr : ADDRINT w) : BasicBlock P w :=
  { block with endingAddress := endAddr }

end BasicBlock

/-- The blocks and `addressMap`. -/
structure Blocks (w : Nat) where
  heap : Heap (BlockPtr w) w
  addressMap : ADDRINT w → Option (BlockPtr w)

namespace Blocks

variable {w : Nat}

def modify (g : Blocks w) (b : BlockPtr w)
    (f : BasicBlock (BlockPtr w) w → BasicBlock (BlockPtr w) w) : Blocks w :=
  { g with heap := g.heap.modify b f }

def setAddress (g : Blocks w) (a : ADDRINT w) (b : BlockPtr w) : Blocks w :=
  { g with addressMap := Function.update g.addressMap a (some b) }

/-- `Get_BasicBlock_At`. -/
def getBasicBlockAt (g : Blocks w) (targetAddress : ADDRINT w) : BlockPtr w × Blocks w :=
  match g.addressMap targetAddress with
  | some b => (b, g)
  | none => (.block targetAddress, g.setAddress targetAddress (.block targetAddress))

/-- `p` becomes a predecessor of the block at `a`. -/
def predecessorAt (g : Blocks w) (a : ADDRINT w) (p : BlockPtr w) : BlockPtr w × Blocks w :=
  let (b, g) := g.getBasicBlockAt a
  (b, g.modify b (·.insertPreds p))

/-- `BranchIns`; `nextIns` is the address of `INS_Next(currentIns)`. `none` is an empty set of
branches or a missing return block. -/
def branchIns (branches : AddressSets w) (g : Blocks w) (currentAddress nextIns : ADDRINT w)
    (currentBlock : BlockPtr w) : Option (Blocks w) :=
  let g := (g.modify currentBlock (·.setEnding currentAddress)).setAddress currentAddress currentBlock
  match branches currentAddress with
  | [] => none
  | target :: targets =>
    if target = 1 then
      let calledFunction := .calledFunction currentAddress
      let g := g.modify calledFunction fun block => (block.setStarting 1).setEnding 1
      let g := g.modify currentBlock (·.insertSuccs calledFunction)
      let g := g.modify calledFunction (·.insertPreds currentBlock)
      let (othertargetBlock, g) := g.predecessorAt nextIns currentBlock
      some (g.modify calledFunction (·.insertSuccs othertargetBlock))
    else if target = 2 then
      match g.addressMap 2 with
      | some b =>
        let g := g.modify b (·.insertPreds currentBlock)
        some (g.modify currentBlock (·.insertSuccs b))
      | none => none
    else if target = 4 then
      let indirectTarget := .indirectTarget currentAddress
      let g := g.modify indirectTarget fun block => (block.setStarting 4).setEnding 4
      let g := g.modify indirectTarget (·.insertPreds currentBlock)
      let g := g.modify currentBlock (·.insertSuccs indirectTarget)
      let (othertargetBlock, g) := g.predecessorAt nextIns currentBlock
      some (g.modify indirectTarget (·.insertSuccs othertargetBlock))
    else if target = 5 then
      let indirectTarget := .indirectTarget currentAddress
      let g := g.modify indirectTarget fun block => (block.setStarting 5).setEnding 5
      let g := g.modify indirectTarget (·.insertPreds currentBlock)
      some (g.modify currentBlock (·.insertSuccs indirectTarget))
    else
      let (targetBlock, g) := g.predecessorAt target currentBlock
      let g := g.modify currentBlock (·.insertSuccs targetBlock)
      match targets with
      | other :: _ =>
        let (othertargetBlock, g) := g.predecessorAt other currentBlock
        some (g.modify currentBlock (·.insertSuccs othertargetBlock))
      | [] =>
        if target = (g.heap currentBlock).startingAddress then
          let (othertargetBlock, g) := g.predecessorAt nextIns currentBlock
          some (g.modify currentBlock (·.insertSuccs othertargetBlock))
        else some g

/-- One turn of the loop of `BlockBuilder`. -/
def buildIns (m : Maps w) (g : Blocks w) (previous currentAddress nextIns : ADDRINT w)
    (currentBlock : Option (BlockPtr w)) : Option (Option (BlockPtr w) × Blocks w) :=
  -- a transfer ends the block
  let close (g : Blocks w) (b : BlockPtr w) : Option (Option (BlockPtr w) × Blocks w) :=
    match m.branches currentAddress with
    | [] => some (some b, g)
    | _ => do return (none, ← g.branchIns m.branches currentAddress nextIns b)
  match currentBlock with
  | none =>
    let (currentBlock, g) := g.getBasicBlockAt currentAddress
    close (g.modify currentBlock (·.setStarting currentAddress)) currentBlock
  | some currentBlock =>
    if (m.targets currentAddress).isEmpty = false then
      let g := g.modify currentBlock (·.setEnding previous)
      let (newBlock, g) := g.getBasicBlockAt currentAddress
      let g := g.modify currentBlock (·.insertSuccs newBlock)
      let g := g.modify newBlock (·.insertPreds currentBlock)
      close (g.modify newBlock (·.setStarting currentAddress)) newBlock
    else if (m.branches currentAddress).isEmpty = false then close g currentBlock
    else some (some currentBlock, g.setAddress currentAddress currentBlock)

/-- The address of the first of `instructions`; `invalid` is that of an invalid instruction. -/
def headAddress (invalid : ADDRINT w) (instructions : List (FlowINS w)) : ADDRINT w :=
  (instructions.head?.map (·.address)).getD invalid

/-- The loop of `BlockBuilder`. -/
def buildLoop (m : Maps w) (invalid : ADDRINT w) :
    Blocks w → ADDRINT w → Option (BlockPtr w) → List (FlowINS w) → Option (Blocks w)
  | g, previous, currentBlock, [] =>
    match currentBlock with
    | some b => some (g.modify b (·.setEnding previous))
    | none => some g
  | g, previous, currentBlock, ins :: rest => do
    let (currentBlock, g) ←
      g.buildIns m previous ins.address (headAddress invalid rest) currentBlock
    buildLoop m invalid g ins.address currentBlock rest

end Blocks

/-- `BlockBuilder`: the blocks; `ReturnNode` is `.returnBlock`. -/
def blockBuilder {w : Nat} (m : Maps w) (invalid : ADDRINT w) (firstIns : FlowINS w)
    (rest : List (FlowINS w)) : Option (Blocks w) :=
  let g : Blocks w := ⟨fun _ => .new, fun _ => none⟩
  let (routineHead, g) := g.getBasicBlockAt firstIns.address
  let g := g.modify routineHead (·.setStarting firstIns.address)
  let g := g.setAddress firstIns.address routineHead
  let g := g.modify .returnBlock fun block => (block.setStarting 2).setEnding 2
  let g := g.setAddress 2 .returnBlock
  g.buildLoop m invalid firstIns.address (some routineHead) rest

/-- `RoutineGraph(rtn)` up to the third pass. -/
def routineBlocks {w : Nat} (invalid : ADDRINT w) (firstIns : FlowINS w)
    (rest : List (FlowINS w)) : Option (Blocks w) :=
  blockBuilder (.ofRoutine (firstIns :: rest)) invalid firstIns rest

end Dytan
