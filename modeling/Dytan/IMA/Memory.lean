import Dytan.IMA.FailedAllocations
import Dytan.IMA.Attached
import Dytan.Lib.Dominance
import Mathlib.Tactic.IntervalCases

/-!
# Executing an instrumented module with its memory

A store of the source writes the bytes of its value; results of allocation calls and bitcasts of them
are four bytes long, the sizes of other values are left open, and so is what calls of the source and
instructions of no class the pass tells apart do to memory. Nothing that is inserted writes to it: the
counter `ima_tag_count` is kept apart from it. A bitcast has the value of its operand.

`MemoryState.step`: a step, which also records what each execution of an allocation call is asked for
and returns.

`SourceFunction.Verified`: what the verifier of the language demands of a function.
-/

namespace Dytan.IMA

abbrev Memory := BitVec 32 → BitVec 8

def Memory.write (memory : Memory) (a : BitVec 32) (bytes : List (BitVec 8)) : Memory :=
  fun x => bytes.getD (x - a).toNat (memory x)

/-- The four bytes at `a`, little endian. -/
def Memory.word (memory : Memory) (a : BitVec 32) : BitVec 32 :=
  memory (a + 3#32) ++ memory (a + 2#32) ++ memory (a + 1#32) ++ memory a

def littleEndian (v : BitVec 32) : List (BitVec 8) :=
  [v.extractLsb' 0 8, v.extractLsb' 8 8, v.extractLsb' 16 8, v.extractLsb' 24 8]

/-- What an execution of an allocation call allocates. -/
structure Block where
  pointer : BitVec 32
  size : ℕ

structure MemoryState where
  state : State
  memory : Memory
  blocks : Nat → Option Block

/-- What is left open of memory in a step: the bytes of a stored value, or all of it. -/
inductive Effect
  | unchanged
  | store (bytes : List (BitVec 8))
  | any (memory : Memory)

/-- `v` is the result of the allocation call `ci` or a bitcast of it. -/
def Frame.Result (fr : Frame) (ci : InstId) (v : Value) : Prop :=
  v = .instruction ci ∨ ∃ u ∈ fr.blocks.flatten, u.opcode = .BitCastInst ∧
    u.getOperand 0 = .instruction ci ∧ v = .instruction u.id

instance (fr : Frame) (ci : InstId) (v : Value) : Decidable (fr.Result ci v) :=
  inferInstanceAs (Decidable (_ ∨ _))

/-- `bytes` can be what the store `i` writes. -/
def Frame.stores (address : String → BitVec 32) (fr : Frame) (i : Instruction)
    (bytes : List (BitVec 8)) : Bool :=
  (bytes.length = 4 || !fr.blocks.flatten.any fun ci =>
    ci.opcode.allocates && fr.Result ci.id (i.getOperand 0)) &&
  match fr.passed address i 0 with
  | some v => bytes.take 4 = (littleEndian v).take bytes.length
  | none => true

/-- Instructions that are not told apart, and calls. -/
def Opcode.leftOpen : Opcode → Bool
  | .CallInst _ | .other => true
  | _ => false

/-- The memory after the instruction `i`. -/
def Frame.memoryAfter (address : String → BitVec 32) (fr : Frame) (memory : Memory)
    (i : Instruction) : Effect → Option Memory
  | .unchanged => if i.fromSource ∧ i.opcode = .StoreInst then none else some memory
  | .store bytes =>
    if i.fromSource ∧ i.opcode = .StoreInst ∧ fr.stores address i bytes then
      (fr.passed address i 1).map (memory.write · bytes)
    else none
  | .any memory' => if i.fromSource ∧ i.opcode.leftOpen then some memory' else none

/-- A bitcast has the value of its operand. -/
def Frame.casts (address : String → BitVec 32) (fr : Frame) (i : Instruction) : Choice → Bool
  | .value v => i.opcode != .BitCastInst || (fr.passed address i 0).all (· = v)
  | _ => true

/-- The size of the memory that an allocation call asks for. -/
def Frame.requested (address : String → BitVec 32) (fr : Frame) (ci : Instruction) : Option ℕ :=
  match ci.opcode with
  | .CallInst (some name) =>
    if name = "malloc" then (fr.passed address ci 0).map BitVec.toNat
    else if name = "realloc" then (fr.passed address ci 1).map BitVec.toNat
    else if name = "calloc" then do
      return (← fr.passed address ci 0).toNat * (← fr.passed address ci 1).toNat
    else none
  | _ => none

namespace MemoryState

/-- No allocation call is executed on an undefined size. -/
def record (address : String → BitVec 32) (t : MemoryState) (fr : Frame) (i : Instruction) :
    Choice → Option (Nat → Option Block)
  | .value v =>
    if i.opcode.allocates then do
      let size ← fr.requested address i
      some (Function.update t.blocks t.state.allocations (some ⟨v, size⟩))
    else some t.blocks
  | _ => some t.blocks

def step (m : Module) (address : String → BitVec 32) (t : MemoryState) (event : Choice × Effect) :
    Option MemoryState := do
  let (fr, i) ← t.state.next
  let memory ← fr.memoryAfter address t.memory i event.2
  let blocks ← t.record address fr i event.1
  if fr.casts address i event.1 then do
    let state ← t.state.step m event.1
    some ⟨state, memory, blocks⟩
  else none

/-- A function of the module is about to run. -/
def Starts (m : Module) (t : MemoryState) : Prop := t.state.Starts m

/-- The last execution of the call `ci` in a frame allocated `block`. -/
def Allocated (t : MemoryState) (fr : Frame) (ci : InstId) (block : Block) : Prop :=
  ∃ n, fr.allocation ci = some n ∧ t.blocks n = some block

/-- When `DYTAN_tag_pointer` is called, the four bytes hold the pointer, and when `DYTAN_tag_memory`
is called, it is for the block, whose size is less than 2^32 unless a product overflowed. -/
def Tags (address : String → BitVec 32) (t : MemoryState) (_ : Choice × Effect) : Prop :=
  ∀ fr i, t.state.next = some (fr, i) →
    (∀ ci si, i.id = .tag_pointer ci si → ∃ block a, t.Allocated fr ci block ∧
      fr.passed address i 0 = some a ∧ fr.passed address i 1 = some 4 ∧
      t.memory.word a = block.pointer) ∧
    ∀ ci si, i.id = .tag_memory ci si → ∃ block size, t.Allocated fr ci block ∧
      fr.passed address i 0 = some block.pointer ∧ fr.passed address i 1 = some size ∧
      (block.size < 2 ^ 32 → size.toNat = block.size)

/-- When `DYTAN_tag_pointer` is called after the store `si`, the pointer is the value that is stored,
or the first four bytes of the block hold its address. -/
def StoresPointer (t : MemoryState) (_ : Choice × Effect) : Prop :=
  ∀ fr i, t.state.next = some (fr, i) → ∀ ci si, i.id = .tag_pointer ci si →
    (∃ x ∈ fr.blocks.flatten, x.id = si ∧ fr.Result ci (x.getOperand 0)) ∨
      ∀ block, t.Allocated fr ci block → t.memory.word block.pointer = block.pointer

end MemoryState

/-! ## Functions that are well formed -/

/-- `y` can be executed right after `x`. -/
def SourceFunction.Next (src : SourceFunction) (x y : Instruction) : Prop :=
  (∃ b ∈ src.blocks, [x, y] <:+: b) ∨
    ∃ successors n b, x.opcode = .BranchInst successors ∧ n ∈ successors ∧
      src.blocks[n]? = some b ∧ b.head? = some y

def SourceFunction.Entry (src : SourceFunction) (x : Instruction) : Prop :=
  (src.blocks.headD []).head? = some x

/-- Instructions in the order in which they may be executed. -/
abbrev SourceFunction.Walk (src : SourceFunction) : List Instruction → Prop :=
  Lib.Dominance.Walk src.Entry src.Next

/-- A function that is well formed: the definition of an operand is in the function, and dominates
its uses outside phi nodes. -/
structure SourceFunction.Verified (src : SourceFunction) : Prop where
  closed : src.Closed
  store : ∀ x ∈ src.instructions, x.opcode = .StoreInst → x.operands.length = 2
  bitcast : ∀ u ∈ src.instructions, u.opcode = .BitCastInst → u.operands.length = 1
  dominates : ∀ i ∈ src.instructions, i.opcode ≠ .other → ∀ d ∈ src.instructions,
    .instruction d.id ∈ i.operands → Lib.Dominance.Dominates src.Entry src.Next d i

def Module.Verified (m : Module) : Prop := ∀ name src, m name = some src → src.Verified

/-! ## Memory -/

section
variable {memory : Memory} {a v : BitVec 32} {bytes : List (BitVec 8)}

theorem word_write : (memory.write a (littleEndian v)).word a = v := by
  have hbyte : ∀ k : ℕ, k < 4 → memory.write a (littleEndian v) (a + BitVec.ofNat 32 k) =
      v.extractLsb' (8 * k) 8 := by
    intro k hk
    have hindex : (a + BitVec.ofNat 32 k - a).toNat = k := by
      rw [BitVec.add_comm, BitVec.add_sub_cancel, BitVec.toNat_ofNat]
      omega
    unfold Memory.write
    rw [hindex]
    interval_cases k <;> rfl
  have hzero := hbyte 0 (by omega)
  rw [show a + BitVec.ofNat 32 0 = a from BitVec.add_zero a] at hzero
  unfold Memory.word
  rw [hbyte 3 (by omega), hbyte 2 (by omega), hbyte 1 (by omega), hzero]
  ext i hi
  simp only [BitVec.getElem_append, BitVec.getElem_extractLsb']
  rw [← BitVec.getLsbD_eq_getElem hi]
  split_ifs <;> congr 1 <;> omega

/-- The bytes of a pointer that is stored. -/
theorem stores_pointer {address : String → BitVec 32} {fr : Frame} {i c : Instruction}
    (h : fr.stores address i bytes = true) (hc : c ∈ fr.blocks.flatten)
    (hal : c.opcode.allocates = true) (hr : fr.Result c.id (i.getOperand 0))
    (hv : fr.passed address i 0 = some v) : bytes = littleEndian v := by
  unfold Frame.stores at h
  rw [hv, Bool.and_eq_true, Bool.or_eq_true, decide_eq_true_eq, decide_eq_true_eq] at h
  obtain ⟨hlength | hnot, hbytes⟩ := h
  · rw [hlength] at hbytes
    rwa [List.take_of_length_le (by omega), List.take_of_length_le (by rfl)] at hbytes
  · have hany : (fr.blocks.flatten.any fun ci =>
        ci.opcode.allocates && fr.Result ci.id (i.getOperand 0)) = true :=
      List.any_eq_true.2 ⟨c, hc, by simp [hal, hr]⟩
    rw [hany] at hnot
    cases hnot

end

end Dytan.IMA
