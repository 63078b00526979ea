import Mathlib.Data.List.Nodup
import Mathlib.Data.List.Perm.Basic

/-!
# The pass that tags allocations

`Function`: the blocks of a function and, for each value, its users in the order of its use list.
`SourceFunction`: a function as the pass is given it. `runOnFunction` is the pass: after an allocation
call (`malloc`, `realloc`, `calloc`) it loads the counter `ima_tag_count`, after each store of the
pointer it calls `DYTAN_tag_pointer` and `DYTAN_tag_memory` with what it loaded, and after the last of
these stores it writes one more than that back. It finds the counter and the functions that it calls
here; what it does without them is said for its loops.
-/

namespace Dytan.IMA

/-- An instruction: the `n`-th of the source, or one inserted for the call `ci` (at the store `si`). -/
inductive InstId
  | source (n : Nat)
  | load_ima_tag_count (ci : InstId)
  | bitcast_inst (ci si : InstId)
  | tag_pointer (ci si : InstId)
  | second (ci si : InstId)
  | tag_memory (ci si : InstId)
  | inc_ima_tag_count (ci : InstId)
  | store_ima_tag_count (ci : InstId)
  | tag_free (ci : InstId)
deriving DecidableEq

inductive Value
  | instruction (i : InstId)
  | argument (n : Nat)
  | constant (c : BitVec 32)
  | global (name : String)
  | undefValue
deriving DecidableEq

/-- The global variable that `doInitialization` adds to the module. -/
def ima_tag_count : Value := .global "ima_tag_count"

/-- The classes of instructions the pass tells apart, and those it creates. `CallInst` has the name of
the function called, if it is called directly; a branch has the blocks it can go to. -/
inductive Opcode
  | CallInst (calledFunction : Option String)
  | StoreInst
  | LoadInst
  | BitCastInst
  | CmpInst
  | ReturnInst
  | BranchInst (successors : List Nat)
  | Add
  | Mul
  | other
deriving DecidableEq

structure Instruction where
  id : InstId
  opcode : Opcode
  operands : List Value
deriving DecidableEq

def Instruction.getOperand (i : Instruction) (n : Nat) : Value := i.operands.getD n .undefValue

def Instruction.getArgOperand (i : Instruction) (n : Nat) : Value := i.operands.getD n .undefValue

def Instruction.fromSource (i : Instruction) : Bool :=
  match i.id with
  | .source _ => true
  | _ => false

/-- The block `n` of a function is `blocks[n]`, the first is the entry. -/
structure Function where
  blocks : List (List Instruction)
  uses : Value → List Instruction

def Function.instructions (f : Function) : List Instruction := f.blocks.flatten

/-- The users of `v` among `is`, each once for every operand that is `v`. -/
def users (v : Value) (is : List Instruction) : List Instruction :=
  is.flatMap fun i => (i.operands.filter (· = v)).map fun _ => i

/-- A function before the pass: its own instructions, no two with one name, none of which mentions the
counter, and use lists with all uses, in any order. -/
structure SourceFunction extends Function where
  given : ∀ i ∈ toFunction.instructions, i.fromSource ∧ ima_tag_count ∉ i.operands
  nodup : (toFunction.instructions.map Instruction.id).Nodup
  uses_perm : ∀ v, (toFunction.uses v).Perm (users v toFunction.instructions)

/-- New instructions before the next node of the instruction `i`; their uses are put in front. -/
def Function.insertAfter (f : Function) (i : InstId) (news : List Instruction) : Function where
  blocks := f.blocks.map (List.flatMap fun j => if j.id = i then j :: news else [j])
  uses v := (users v news).reverse ++ f.uses v

/-- The loop over the users of a bitcast of the pointer: the stores go to the front. -/
def bitcastStores (name : String) :
    List Instruction → List Instruction → Except String (List Instruction)
  | [], stores => .ok stores
  | user :: users, stores =>
    match user.opcode with
    | .StoreInst => bitcastStores name users (user :: stores)
    | .CmpInst => bitcastStores name users stores
    | _ => .error ("Having a new type of user for bitcast of " ++ name)

/-- The loop over the users of the pointer. -/
def pointerStores (f : Function) (name : String) :
    List Instruction → List Instruction → Except String (List Instruction)
  | [], stores => .ok stores
  | user :: users, stores =>
    match user.opcode with
    | .StoreInst => pointerStores f name users (user :: stores)
    | .BitCastInst => do
      let stores ← bitcastStores name (f.uses (.instruction user.id)) stores
      pointerStores f name users stores
    | .ReturnInst => .error ("Do not know how I can handle return of " ++ name)
    | _ => .error ("Having a new type of user for " ++ name)

/-- `storeinst_vector`, or why the call is not instrumented. -/
def storeinst_vector (f : Function) (name : String) (ci : Instruction) :
    Except String (List Instruction) := do
  if (f.uses (.instruction ci.id)).length ≠ 1 then
    .error ("Result of " ++ name ++ " is used by a strange number of users")
  else
    let stores ← pointerStores f name (f.uses (.instruction ci.id)) []
    if stores.length = 0 then .error ("No store instructions for pointer of " ++ name)
    else .ok stores

/-! ## What is inserted -/

def loadCounter (ci : InstId) : Instruction := ⟨.load_ima_tag_count ci, .LoadInst, [ima_tag_count]⟩

def incCounter (ci : InstId) : Instruction :=
  ⟨.inc_ima_tag_count ci, .Add, [.instruction (.load_ima_tag_count ci), .constant 1]⟩

def storeCounter (ci : InstId) : Instruction :=
  ⟨.store_ima_tag_count ci, .StoreInst, [.instruction (.inc_ima_tag_count ci), ima_tag_count]⟩

def tagPointer (ci si : InstId) : Instruction :=
  ⟨.tag_pointer ci si, .CallInst (some "DYTAN_tag_pointer"),
    [.instruction (.bitcast_inst ci si), .constant 4, .instruction (.load_ima_tag_count ci)]⟩

def tagMemory (ci si : InstId) (second : Value) : Instruction :=
  ⟨.tag_memory ci si, .CallInst (some "DYTAN_tag_memory"),
    [.instruction ci, second, .instruction (.load_ima_tag_count ci)]⟩

def tagFree (ci : Instruction) : Instruction :=
  ⟨.tag_free ci.id, .CallInst (some "DYTAN_free"), [ci.getArgOperand 0]⟩

/-- The size of the allocated memory: the instructions that compute it at a store, and its value. -/
abbrev Second := Instruction → InstId → List Instruction × Value

/-- The instructions after the store `si`, with the increment if it is the last. -/
def tagStore (second : Second) (ci si : Instruction) (last : Bool) : List Instruction :=
  [⟨.bitcast_inst ci.id si.id, .BitCastInst, [si.getOperand 1]⟩, tagPointer ci.id si.id] ++
    (second ci si.id).1 ++ [tagMemory ci.id si.id (second ci si.id).2] ++
    if last then [incCounter ci.id, storeCounter ci.id] else []

/-- The loop over `storeinst_vector`. -/
def tagStores (second : Second) (ci : Instruction) : List Instruction → Function → Function
  | [], f => f
  | si :: stores, f =>
    tagStores second ci stores (f.insertAfter si.id (tagStore second ci si stores.isEmpty))

/-- What the three functions share: the name of the allocation function for messages, whether the
memory that the call frees is untagged, and the size. -/
def instrumentAllocation (name : String) (frees : Bool) (second : Second) (f : Function)
    (ci : Instruction) : Except String Function := do
  let stores ← storeinst_vector f name ci
  let f := if frees then f.insertAfter ci.id [tagFree ci] else f
  .ok (tagStores second ci stores (f.insertAfter ci.id [loadCounter ci.id]))

def instrumentMalloc : Function → Instruction → Except String Function :=
  instrumentAllocation "malloc" false fun ci _ => ([], ci.getArgOperand 0)

def instrumentRealloc : Function → Instruction → Except String Function :=
  instrumentAllocation "realloc" true fun ci _ => ([], ci.getArgOperand 1)

def instrumentCalloc : Function → Instruction → Except String Function :=
  instrumentAllocation "calloc" false fun ci si =>
    ([⟨.second ci.id si, .Mul, [ci.getArgOperand 0, ci.getArgOperand 1]⟩],
      .instruction (.second ci.id si))

def instrumentFree (f : Function) (ci : Instruction) : Function :=
  f.insertAfter ci.id [tagFree ci]

/-- The pass at work: the function so far, what it returns, and its messages. -/
structure Pass where
  function : Function
  return_value : Bool
  errs : List String

def Pass.instrumented (p : Pass) : Except String Function → Pass
  | .ok f => { p with function := f, return_value := true }
  | .error message => { p with errs := p.errs ++ [message] }

/-- The body of the loop over instructions. -/
def Pass.visit (p : Pass) (i : Instruction) : Pass :=
  match i.opcode with
  | .CallInst (some name) =>
    if name = "malloc" then p.instrumented (instrumentMalloc p.function i)
    else if name = "realloc" then p.instrumented (instrumentRealloc p.function i)
    else if name = "calloc" then p.instrumented (instrumentCalloc p.function i)
    else if name = "free" then p.instrumented (.ok (instrumentFree p.function i))
    else p
  | _ => p

/-- The loop visits the instructions of the source: the ones inserted on the way are no calls of the
four functions. -/
def runOnFunction (f : Function) : Pass := f.instructions.foldl Pass.visit ⟨f, false, []⟩

/-- A call whose result the pass follows. -/
def Opcode.allocates : Opcode → Bool
  | .CallInst (some name) => name = "malloc" || name = "realloc" || name = "calloc"
  | _ => false

/-- A call the pass looks for. -/
def Opcode.handled : Opcode → Bool
  | .CallInst (some name) => name = "malloc" || name = "realloc" || name = "calloc" || name = "free"
  | _ => false

end Dytan.IMA
