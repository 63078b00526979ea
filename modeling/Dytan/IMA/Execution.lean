import Dytan.IMA.InstrumentIMA
import Dytan.Lib.Run
import Dytan.Lib.Ticket
import Mathlib.Logic.Function.Basic

/-!
# Executing an instrumented module

A module is executed by a stack of frames. What the instructions of the source compute is left open,
as are the values external functions return and the functions of the module they call back; the
counter `ima_tag_count` and what the pass inserts are as in the language of the instructions.

Each execution of an allocation call has a number. `State.out`: what a step does with the counter, as
events of a ticket counter whose users are these numbers: the load after a call draws, a tag call
uses what is passed as its last argument, the increment advances.
-/

namespace Dytan.IMA

open Lib.Ticket (Event)

structure Frame where
  blocks : List (List Instruction)
  rest : List Instruction
  value : InstId → Option (BitVec 32)
  arguments : List (BitVec 32)
  allocation : InstId → Option Nat -- the number of the last execution of each allocation call

structure State where
  ima_tag_count : BitVec 32
  allocations : Nat
  frames : List Frame

/-- The functions of a module, before the pass. -/
abbrev Module := String → Option SourceFunction

/-- What is left open in a step: a result, the block after a branch, a function that is called. -/
inductive Choice
  | value (v : BitVec 32)
  | successor (n : Nat)
  | enter (name : String) (arguments : List (BitVec 32))

def Frame.eval (fr : Frame) : Value → Option (BitVec 32)
  | .instruction i => fr.value i
  | .argument n => fr.arguments[n]?
  | .constant c => some c
  | .global _ | .undefValue => none

/-- The events of an instruction. None of the instructions that have one is executed on an undefined
value, or for an allocation call that was not. -/
def Frame.events (fr : Frame) (counter : BitVec 32) (i : Instruction) : Option (List (Event 32)) :=
  match i.id with
  | .load_ima_tag_count ci => do some [.draw (← fr.allocation ci) counter]
  | .tag_pointer ci _ | .tag_memory ci _ => do
    some [.use (← fr.allocation ci) (← fr.eval (i.getArgOperand 2))]
  | .store_ima_tag_count ci => do
    some [.advance (← fr.allocation ci) (← fr.eval (i.getOperand 0))]
  | _ => some []

/-- A call of a function of the module itself. -/
def Module.defines (m : Module) : Opcode → Option String
  | .CallInst (some name) => if (m name).isSome then some name else none
  | _ => none

/-- A function of the module after the pass, about to run. -/
def Module.entry (m : Module) (name : String) (arguments : List (BitVec 32)) : Option Frame := do
  let f := (runOnFunction (← m name).toFunction).function
  some ⟨f.blocks, f.blocks.headD [], fun _ => none, arguments, fun _ => none⟩

/-- The result of an instruction, `v` if it is left open. -/
def Frame.result (fr : Frame) (counter : BitVec 32) (i : Instruction) (v : BitVec 32) :
    Option (BitVec 32) :=
  match i.opcode with
  | .LoadInst => some (if i.getOperand 0 = ima_tag_count then counter else v)
  | .Add => do some ((← fr.eval (i.getOperand 0)) + (← fr.eval (i.getOperand 1)))
  | .Mul => do some ((← fr.eval (i.getOperand 0)) * (← fr.eval (i.getOperand 1)))
  | _ => some v

/-- The frame after an instruction that has `rest` after it. -/
def Frame.execute (fr : Frame) (counter : BitVec 32) (i : Instruction) (rest : List Instruction)
    (v : BitVec 32) : Option Frame :=
  (fr.result counter i v).map fun result =>
    { fr with rest := rest, value := Function.update fr.value i.id (some result) }

/-- The counter after an instruction. -/
def Frame.counter (fr : Frame) (counter : BitVec 32) (i : Instruction) : Option (BitVec 32) :=
  match i.opcode with
  | .StoreInst => if i.getOperand 1 = ima_tag_count then fr.eval (i.getOperand 0) else some counter
  | _ => some counter

/-- The frames after a return with the value `v`: a direct call of a function of the module is done,
any other call may go on. -/
def Module.returns (m : Module) (counter v : BitVec 32) : List Frame → Option (List Frame)
  | [] => some []
  | caller :: frames =>
    match caller.rest with
    | [] => none
    | call :: rest =>
      match m.defines call.opcode with
      | some _ => do some ((← caller.execute counter call rest v) :: frames)
      | none => some (caller :: frames)

/-- The step at the instruction `i`. What the pass inserts enters no function of the module: the module
may define the functions `DYTAN_tag_memory`, ..., but Pin runs others in their place. -/
def State.stepAt (m : Module) (s : State) (fr : Frame) (frames : List Frame) (i : Instruction)
    (rest : List Instruction) (choice : Choice) : Option State :=
  match i.opcode, choice with
  | .ReturnInst, .value v => do
    let frames ← m.returns s.ima_tag_count v frames
    some { s with frames := frames }
  | .BranchInst successors, .successor n =>
    if n ∈ successors then do
      let b ← fr.blocks[n]?
      some { s with frames := { fr with rest := b } :: frames }
    else none
  | .BranchInst _, _ => none
  | .CallInst _, .enter name arguments =>
    if i.opcode.allocates then none
    else if i.fromSource ∧ ∀ f ∈ m.defines i.opcode, f = name then do
      let callee ← m.entry name arguments
      some { s with frames := callee :: fr :: frames }
    else none
  | _, .value v =>
    if i.opcode.allocates then do
      let fr ← fr.execute s.ima_tag_count i rest v
      let allocation := Function.update fr.allocation i.id (some s.allocations)
      some { s with
        allocations := s.allocations + 1, frames := { fr with allocation := allocation } :: frames }
    else if i.fromSource ∧ (m.defines i.opcode).isSome then none
    else do
      let fr' ← fr.execute s.ima_tag_count i rest v
      let counter ← fr.counter s.ima_tag_count i
      some { s with ima_tag_count := counter, frames := fr' :: frames }
  | _, _ => none

/-- A step, unless the execution is over. -/
def State.step (m : Module) (s : State) (choice : Choice) : Option State :=
  match s.frames with
  | [] => none
  | fr :: frames =>
    match fr.rest with
    | [] => none
    | i :: rest => do
      let _ ← fr.events s.ima_tag_count i
      s.stepAt m fr frames i rest choice

def State.out (s : State) (_ : Choice) : List (Event 32) :=
  match s.frames with
  | [] => []
  | fr :: _ =>
    match fr.rest with
    | [] => []
    | i :: _ => (fr.events s.ima_tag_count i).getD []

end Dytan.IMA
