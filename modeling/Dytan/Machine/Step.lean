import Dytan.Instrument.Run

/-!
# The machine under analysis

The instructions `MOV`, `LEA`, `PUSH`, `POP` to a register, `ADD`, `SUB`, `AND`, `OR`, `XOR`, `ADC`,
`SBB`, `CMP` and `TEST` on 32-bit operands: their effect on registers, status flags and memory
(`Instr.exec`) and what Pin reports about them, `Instr.report` to the handlers and `Instr.context` to
the inserted calls. `trace` is a straight-line program as the tool sees it.

The auxiliary flag is undefined after the logical operations; `undefinedAF` stands for it.
-/

namespace Dytan

/-! ## States -/

/-- The 32-bit general registers. -/
inductive GPR
  | EAX | EBX | ECX | EDX | ESI | EDI | EBP | ESP
deriving DecidableEq, Repr

def GPR.reg : GPR → REG
  | .EAX => .EAX
  | .EBX => .EBX
  | .ECX => .ECX
  | .EDX => .EDX
  | .ESI => .ESI
  | .EDI => .EDI
  | .EBP => .EBP
  | .ESP => .ESP

structure StatusFlags where
  cf : Bool
  pf : Bool
  af : Bool
  zf : Bool
  sf : Bool
  of : Bool
deriving DecidableEq, Repr

structure MachineState where
  reg : GPR → ADDRINT 32
  eflags : StatusFlags
  mem : ADDRINT 32 → BitVec 8

namespace MachineState

def setReg (s : MachineState) (r : GPR) (v : ADDRINT 32) : MachineState :=
  { s with reg := Function.update s.reg r v }

def setEflags (s : MachineState) (eflags : StatusFlags) : MachineState := { s with eflags := eflags }

/-- The four bytes at `a`, little endian. -/
def load (s : MachineState) (a : ADDRINT 32) : ADDRINT 32 :=
  s.mem (a + 3#32) ++ s.mem (a + 2#32) ++ s.mem (a + 1#32) ++ s.mem a

def store (s : MachineState) (a v : ADDRINT 32) : MachineState :=
  { s with mem := fun b =>
      if (b - a).toNat < 4 then v.extractLsb' (8 * (b - a).toNat) 8 else s.mem b }

@[simp] theorem setReg_mem (s : MachineState) (r : GPR) (v : ADDRINT 32) :
    (s.setReg r v).mem = s.mem := rfl
@[simp] theorem setReg_eflags (s : MachineState) (r : GPR) (v : ADDRINT 32) :
    (s.setReg r v).eflags = s.eflags := rfl
@[simp] theorem setEflags_reg (s : MachineState) (f : StatusFlags) :
    (s.setEflags f).reg = s.reg := rfl
@[simp] theorem setEflags_mem (s : MachineState) (f : StatusFlags) :
    (s.setEflags f).mem = s.mem := rfl
@[simp] theorem store_reg (s : MachineState) (a v : ADDRINT 32) : (s.store a v).reg = s.reg := rfl
@[simp] theorem store_eflags (s : MachineState) (a v : ADDRINT 32) :
    (s.store a v).eflags = s.eflags := rfl

end MachineState

/-! ## Operands -/

/-- `[base + index * 2^scale + disp]`. -/
structure MemoryOperand where
  base : Option GPR
  index : Option GPR
  scale : Fin 4
  disp : ADDRINT 32
deriving DecidableEq, Repr

def MachineState.optReg (s : MachineState) (r : Option GPR) : ADDRINT 32 := (r.map s.reg).getD 0

def MemoryOperand.effectiveAddress (m : MemoryOperand) (s : MachineState) : ADDRINT 32 :=
  s.optReg m.base + s.optReg m.index <<< m.scale.val + m.disp

/-- The register Pin reports for a base or index. -/
def addressReg (r : Option GPR) : REG := (r.map GPR.reg).getD .INVALID

inductive InsOperand
  | reg (r : GPR)
  | imm (v : ADDRINT 32)
  | mem (m : MemoryOperand)
deriving DecidableEq, Repr

namespace InsOperand

def memory? : InsOperand → Option MemoryOperand
  | .mem m => some m
  | _ => none

def value (s : MachineState) : InsOperand → ADDRINT 32
  | .reg r => s.reg r
  | .imm v => v
  | .mem m => s.load (m.effectiveAddress s)

def write (s : MachineState) (v : ADDRINT 32) : InsOperand → MachineState
  | .reg r => s.setReg r v
  | .imm _ => s
  | .mem m => s.store (m.effectiveAddress s) v

def kind : InsOperand → OperandKind
  | .reg r => .reg r.reg
  | .imm _ => .immediate
  | .mem m => .memory (addressReg m.base) (addressReg m.index)

/-- A destination that is not `ESP` or `EBP`. -/
def writable : InsOperand → Bool
  | .reg r => r != .ESP && r != .EBP
  | .imm _ => false
  | .mem _ => true

end InsOperand

/-! ## Instructions -/

inductive AluOp
  | ADD | SUB | AND | OR | XOR | ADC | SBB | CMP | TEST
deriving DecidableEq, Repr

namespace AluOp

def opcode : AluOp → XED_ICLASS
  | .ADD => .ADD
  | .SUB => .SUB
  | .AND => .AND
  | .OR => .OR
  | .XOR => .XOR
  | .ADC => .ADC
  | .SBB => .SBB
  | .CMP => .CMP
  | .TEST => .TEST

/-- The result goes to operand 0. -/
def writes : AluOp → Bool
  | .CMP | .TEST => false
  | _ => true

/-- The carry flag is an operand. -/
def usesCarry : AluOp → Bool
  | .ADC | .SBB => true
  | _ => false

def result (op : AluOp) (a b : ADDRINT 32) (cf : Bool) : ADDRINT 32 :=
  match op with
  | .ADD => a + b
  | .ADC => a + b + (BitVec.ofBool cf).setWidth 32
  | .SUB | .CMP => a - b
  | .SBB => a - b - (BitVec.ofBool cf).setWidth 32
  | .AND | .TEST => a &&& b
  | .OR => a ||| b
  | .XOR => a ^^^ b

/-- `PF`: the low byte has an even number of ones. -/
def parity (r : ADDRINT 32) : Bool := (List.range 8).foldl (fun p i => p ^^ r.getLsbD i) true

/-- The status flags after `op`. -/
def flags (undefinedAF : AluOp → ADDRINT 32 → ADDRINT 32 → Bool) (op : AluOp) (a b : ADDRINT 32)
    (cf : Bool) : StatusFlags :=
  let r := op.result a b cf
  let c := if op.usesCarry then cf.toNat else 0
  { cf := match op with
      | .ADD | .ADC => 2 ^ 32 ≤ a.toNat + b.toNat + c
      | .SUB | .CMP | .SBB => a.toNat < b.toNat + c
      | _ => false
    pf := parity r
    af := match op with
      | .ADD | .ADC => 16 ≤ a.toNat % 16 + b.toNat % 16 + c
      | .SUB | .CMP | .SBB => a.toNat % 16 < b.toNat % 16 + c
      | _ => undefinedAF op a b
    zf := r == 0
    sf := r.msb
    of := match op with
      | .ADD | .ADC => a.msb == b.msb && r.msb != a.msb
      | .SUB | .CMP | .SBB => a.msb != b.msb && r.msb != a.msb
      | _ => false }

/-- The result goes to operand 0, if `op` writes it. -/
def assign (op : AluOp) (dst src : InsOperand) (s : MachineState) : MachineState :=
  if op.writes then dst.write s (op.result (dst.value s) (src.value s) s.eflags.cf) else s

end AluOp

inductive Instr
  | mov (dst src : InsOperand)
  | lea (dst : GPR) (src : MemoryOperand)
  | push (src : InsOperand)
  | pop (dst : GPR)
  | alu (op : AluOp) (dst src : InsOperand)
deriving DecidableEq, Repr

/-- The top of the stack, and the place of the next push. -/
def stackTop : MemoryOperand := ⟨some .ESP, none, 0, 0⟩
def stackPush : MemoryOperand := ⟨some .ESP, none, 0, -4⟩

namespace Instr

/-- The instruction exists and does not name `ESP` or `EBP` as its destination. -/
def covered : Instr → Bool
  | .mov dst src => dst.writable && !(dst.memory?.isSome && src.memory?.isSome)
  | .lea dst _ => dst != .ESP && dst != .EBP
  | .push _ => true
  | .pop dst => dst != .ESP && dst != .EBP
  | .alu op dst src =>
    (if op.writes then dst.writable else match dst with | .imm _ => false | _ => true) &&
    !(dst.memory?.isSome && src.memory?.isSome) &&
    !(op == .TEST && src.memory?.isSome)

/-- The memory operand that is read. -/
def readOperand : Instr → Option MemoryOperand
  | .mov _ src => src.memory?
  | .lea _ _ => none
  | .push src => src.memory?
  | .pop _ => some stackTop
  | .alu _ dst src => dst.memory?.or src.memory?

/-- The memory operand that is written. -/
def writeOperand : Instr → Option MemoryOperand
  | .mov dst _ => dst.memory?
  | .lea _ _ => none
  | .push _ => some stackPush
  | .pop _ => none
  | .alu op dst _ => if op.writes then dst.memory? else none

/-- The effective addresses of the memory operands. -/
def accesses (i : Instr) (s : MachineState) : List (ADDRINT 32) :=
  (i.readOperand.toList ++ i.writeOperand.toList).map (·.effectiveAddress s)

def exec (undefinedAF : AluOp → ADDRINT 32 → ADDRINT 32 → Bool) (s : MachineState) :
    Instr → MachineState
  | .mov dst src => dst.write s (src.value s)
  | .lea dst src => s.setReg dst (src.effectiveAddress s)
  | .push src =>
    (s.store (stackPush.effectiveAddress s) (src.value s)).setReg .ESP (s.reg .ESP - 4)
  | .pop dst =>
    (s.setReg .ESP (s.reg .ESP + 4)).setReg dst (s.load (stackTop.effectiveAddress s))
  | .alu op dst src =>
    (op.assign dst src s).setEflags
      (op.flags undefinedAF (dst.value s) (src.value s) s.eflags.cf)

/-! ### What Pin reports -/

def opcode : Instr → XED_ICLASS
  | .mov _ _ => .MOV
  | .lea _ _ => .LEA
  | .push _ => .PUSH
  | .pop _ => .POP
  | .alu op _ _ => op.opcode

def operands : Instr → List Operand
  | .mov dst src => [{ kind := dst.kind }, { kind := src.kind }]
  | .lea dst src =>
    [{ kind := .reg dst.reg },
      { kind := .addressGenerator (addressReg src.base) (addressReg src.index) }]
  | .push src =>
    [{ kind := src.kind }, { kind := .reg .ESP, implicit := true },
      { kind := .memory .ESP .INVALID, implicit := true }]
  | .pop dst =>
    [{ kind := .reg dst.reg }, { kind := .reg .ESP, implicit := true },
      { kind := .memory .ESP .INVALID, implicit := true }]
  | .alu _ dst src =>
    [{ kind := dst.kind }, { kind := src.kind }, { kind := .reg .EFLAGS, implicit := true }]

/-- What the handler can ask about the instruction. -/
def report (i : Instr) : INS where
  opcode := i.opcode
  operands := i.operands
  isMemoryRead := i.readOperand.isSome
  isMemoryWrite := i.writeOperand.isSome

/-- What the inserted calls are passed; none of them asks for the value of a register. -/
def context (i : Instr) (s : MachineState) : Context 32 where
  memoryReadEA := (i.readOperand.map (·.effectiveAddress s)).getD 0
  memoryRead2EA := 0
  memoryReadSize := if i.readOperand.isSome then 4 else 0
  memoryWriteEA := (i.writeOperand.map (·.effectiveAddress s)).getD 0
  memoryWriteSize := if i.writeOperand.isSome then 4 else 0
  regValue _ := 0
  deref := s.load

end Instr

/-! ## Programs -/

section
variable (undefinedAF : AluOp → ADDRINT 32 → ADDRINT 32 → Bool)

/-- The state after a straight-line program. -/
def runProgram (s : MachineState) (program : List Instr) : MachineState :=
  program.foldl (Instr.exec undefinedAF) s

/-- The program as the tool sees it run from `s`. -/
def trace : List Instr → MachineState → List (Executed 32)
  | [], _ => []
  | i :: program, s => ⟨i.report, i.context s⟩ :: trace program (i.exec undefinedAF s)

/-- In the runs from `s₁` and `s₂` every memory operand has the same address, and no access reaches
the last byte of memory. -/
def SameAccesses : List Instr → MachineState → MachineState → Prop
  | [], _, _ => True
  | i :: program, s₁, s₂ =>
    i.accesses s₁ = i.accesses s₂ ∧ (∀ a ∈ i.accesses s₁, a.toNat + 4 < 2 ^ 32) ∧
      SameAccesses program (i.exec undefinedAF s₁) (i.exec undefinedAF s₂)

end

end Dytan
