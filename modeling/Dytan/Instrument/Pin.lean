import Dytan.Taint.State

/-!
# Instrumentation (`instrument_functions.c`, the Pin side)

`INS`: what Pin reports about an instruction, and its queries (`INS_OperandIsReg`, ...). `Call`: a
call inserted before an instruction, with its arguments; the opcode and the profiling flag, which
the analysis functions use for logging only, are left out. A handler of `instrument_functions.c` is
an `Insertion`: the calls it inserts, in order, and how it ends (normally, by an early `return` or
by `abort`).

`Context` is what Pin passes to the calls at run time, `Call.run` the execution of a call and
`runCalls` of all calls inserted for an instruction.
-/

namespace Dytan

/-! ## Instructions -/

inductive OperandKind
  | reg (reg : REG)
  | memory (baseReg indexReg : REG)
  | addressGenerator (baseReg indexReg : REG)
  | immediate
  | other
deriving DecidableEq, Repr

structure Operand where
  kind : OperandKind
  implicit : Bool := false
  /-- In bits. -/
  width : Nat := 32
deriving DecidableEq, Repr

/-- The opcodes in the dispatch table of `dytan.cpp`; `other` for the rest. -/
inductive XED_ICLASS
  | ADD | PUSH | POP | OR | ADC | SBB | AND | SUB | XOR | CMP | INC | DEC | IMUL
  | JO | JNO | JB | JNB | JZ | JNZ | JBE | JNBE | JS | JNS | JP | JNP | JL | JNL | JLE | JNLE
  | CMOVNLE | TEST | XCHG | MOV | LEA | PAUSE | CWDE | CDQ | CMPSW | PUSHFD | POPFD | SAHF | LAHF
  | MOVSB | MOVSW | CMPSB | STOSB | STOSD | SCASB | RET_NEAR | LEAVE | INT | JRCXZ | CALL_NEAR | JMP
  | HLT | CLD | STD | RDTSC | CMOVB | CMOVNB | CMOVZ | CMOVNZ | CMOVBE | CMOVNBE
  | SETB | SETNB | SETZ | SETNZ | SETBE | SETNBE | CPUID | BT | SHLD | CMPXCHG
  | NOP | NOP2 | NOP3 | NOP4 | NOP5 | NOP6 | NOP7 | NOP8 | NOP9 | MOVZX | XADD
  | MOVAPS | MOVD | MOVDQA | MOVDQU | CMOVS | CMOVNS | MOVHPD | CMOVL | CMOVNL | CMOVLE | MOVLPD
  | MOVQ | MOVSD | MOVSD_XMM | MUL | SETS | SETL | SETNL | SETLE | SETNLE | SHRD | BSF | BSR | MOVSX
  | BSWAP | PALIGNR | PCMPEQB | PMOVMSKB | ROL | ROR | SHL | SHR | SAR | NOT | NEG | DIV | PREFETCHT0
  | IDIV | PSHUFD | LDMXCSR | STMXCSR | PSUBB | FDIV | FLD | FST | FSTP | FLDCW | FNSTCW | FXCH | PXOR
  | FLDZ | FILD | FISTP | FNSTSW | FUCOM | FADDP | FDIVRP | FDIVP | FIDIVR | FIADD | FIST | XORPS
  | FCOMI | FCOMIP | FUCOMI | FUCOMIP
  -- no entry of the table, but `Instrument_CMOVcc` tests for them
  | CMOVNO | CMOVNP | CMOVO | CMOVP
  | other
deriving DecidableEq, Repr

structure INS where
  opcode : XED_ICLASS
  operands : List Operand
  isMemoryRead : Bool := false
  isMemoryWrite : Bool := false
  hasRealRep : Bool := false
  repPrefix : Bool := false
  repnePrefix : Bool := false
  disassemble : String := ""
deriving DecidableEq, Repr

namespace INS

variable (ins : INS) (n : Nat)

def operandKind : OperandKind := ((ins.operands[n]?).map Operand.kind).getD .other

/-- `INS_OperandIsReg`. -/
def operandIsReg : Bool := match ins.operandKind n with | .reg _ => true | _ => false

/-- `INS_OperandIsMemory`. -/
def operandIsMemory : Bool := match ins.operandKind n with | .memory _ _ => true | _ => false

/-- `INS_OperandIsImmediate`. -/
def operandIsImmediate : Bool := match ins.operandKind n with | .immediate => true | _ => false

/-- `INS_OperandReg`. -/
def operandReg : REG := match ins.operandKind n with | .reg r => r | _ => .INVALID

/-- `INS_OperandMemoryBaseReg`. -/
def operandMemoryBaseReg : REG :=
  match ins.operandKind n with
  | .memory b _ | .addressGenerator b _ => b
  | _ => .INVALID

/-- `INS_OperandMemoryIndexReg`. -/
def operandMemoryIndexReg : REG :=
  match ins.operandKind n with
  | .memory _ i | .addressGenerator _ i => i
  | _ => .INVALID

/-- `INS_OperandWidth`. -/
def operandWidth : Nat := ((ins.operands[n]?).map Operand.width).getD 0

/-- The loops of `Instrument_IMUL` and `Instrument_CMPSW` over `INS_OperandIsImplicit`. -/
def explicitOperandCount : Nat := ins.operands.countP fun o => !o.implicit

section
variable {ins n}

theorem kind_of_reg (h : ins.operandIsReg n = true) :
    ins.operandKind n = .reg (ins.operandReg n) := by
  unfold operandIsReg at h
  unfold operandReg
  split at h
  · rename_i hk; rw [hk]
  · cases h

theorem kind_of_memory (h : ins.operandIsMemory n = true) :
    ins.operandKind n = .memory (ins.operandMemoryBaseReg n) (ins.operandMemoryIndexReg n) := by
  unfold operandIsMemory at h
  unfold operandMemoryBaseReg operandMemoryIndexReg
  split at h
  · rename_i hk; rw [hk]
  · cases h

theorem kind_of_immediate (h : ins.operandIsImmediate n = true) :
    ins.operandKind n = .immediate := by
  unfold operandIsImmediate at h
  split at h
  · assumption
  · cases h

theorem isReg_of_memory (h : ins.operandIsMemory n = true) : ins.operandIsReg n = false := by
  simp [operandIsReg, kind_of_memory h]

end

end INS

/-! ## Inserted calls -/

/-- `IARG_MEMORYREAD_EA` or `IARG_MEMORYREAD2_EA`. -/
inductive ReadEA
  | MEMORYREAD
  | MEMORYREAD2
deriving DecidableEq, Repr

/-- What Pin passes to the calls when the instruction is reached. -/
structure Context (w : Nat) where
  memoryReadEA : ADDRINT w
  memoryRead2EA : ADDRINT w
  memoryReadSize : ADDRINT w
  memoryWriteEA : ADDRINT w
  memoryWriteSize : ADDRINT w
  regValue : REG → ADDRINT w
  /-- `*((ADDRINT *) start)`. -/
  deref : ADDRINT w → ADDRINT w

def Context.readEA {w : Nat} (ctx : Context w) : ReadEA → ADDRINT w
  | .MEMORYREAD => ctx.memoryReadEA
  | .MEMORYREAD2 => ctx.memoryRead2EA

/-- A check (`INS_InsertIfCall`) and the arguments it is inserted with. -/
inductive IfCall (w : Nat)
  | regValue (check : ADDRINT w → Bool) (reg : REG)
  | regValues (check : ADDRINT w → ADDRINT w → Bool) (reg1 reg2 : REG)
  | memoryRead (check : (ADDRINT w → ADDRINT w) → ADDRINT w → ADDRINT w → ADDRINT w → Bool)
      (reg : REG)

def IfCall.holds {w : Nat} (ctx : Context w) : IfCall w → Bool
  | .regValue check reg => check (ctx.regValue reg)
  | .regValues check reg1 reg2 => check (ctx.regValue reg1) (ctx.regValue reg2)
  | .memoryRead check reg => check ctx.deref ctx.memoryReadEA ctx.memoryReadSize (ctx.regValue reg)

inductive Call (w : Nat)
  | clearTaintSet (set : Scratch)
  | taintForRegister (reg : REG) (set : Scratch)
  | taintForMemory (ea : ReadEA) (baseReg indexReg : REG) (set : Scratch)
  | setTaintForRegister (dest : REG) (args : List Scratch)
  | setTaintForMemory (args : List Scratch)
  | clearTaintForRegister (reg : REG)
  | clearTaintForMemory
  /-- `INS_InsertIfCall`, `INS_InsertThenCall`. -/
  | ifThen (check : IfCall w) (call : Call w)

/-- One inserted call. -/
def Call.run {w : Nat} (ctx : Context w) (st : TaintState w) : Call w → Option (TaintState w)
  | .clearTaintSet set => some (st.clearTaintSet set)
  | .taintForRegister reg set => st.taintForRegister reg set
  | .taintForMemory ea baseReg indexReg set =>
    st.taintForMemory (ctx.readEA ea) ctx.memoryReadSize baseReg indexReg set
  | .setTaintForRegister dest args => st.setTaintForRegister dest (args.map st.scratch)
  | .setTaintForMemory args =>
    st.setTaintForMemory ctx.memoryWriteEA ctx.memoryWriteSize (args.map st.scratch)
  | .clearTaintForRegister reg => st.clearTaintForRegister reg
  | .clearTaintForMemory => st.clearTaintForMemory ctx.memoryWriteEA ctx.memoryWriteSize
  | .ifThen check call => if check.holds ctx then call.run ctx st else some st

/-- The calls inserted for an instruction, in order. -/
def runCalls {w : Nat} (ctx : Context w) (st : TaintState w) (calls : List (Call w)) :
    Option (TaintState w) :=
  calls.foldlM (Call.run ctx) st

/-! ## Handlers -/

/-- How a handler ends early: `return`, or `abort` after writing a message. -/
inductive Exit
  | returned
  | aborted (message : String)
deriving DecidableEq, Repr

structure Insertion (w : Nat) (α : Type) where
  calls : List (Call w)
  exit : Except Exit α

namespace Insertion

variable {w : Nat} {α β : Type}

instance : Monad (Insertion w) where
  pure a := ⟨[], .ok a⟩
  bind m f :=
    match m.exit with
    | .ok a => ⟨m.calls ++ (f a).calls, (f a).exit⟩
    | .error e => ⟨m.calls, .error e⟩

/-- `INS_InsertCall`. -/
def insertCall (call : Call w) : Insertion w Unit := ⟨[call], .ok ()⟩

/-- `return;` -/
def leave : Insertion w Unit := ⟨[], .error .returned⟩

/-- Write `message` and `abort()`. -/
def abort (message : String) : Insertion w Unit := ⟨[], .error (.aborted message)⟩

/-- The handler does not abort. -/
def Accepted (m : Insertion w α) : Prop := ∀ message, m.exit ≠ .error (.aborted message)

/-- The handler runs to its end. -/
def Completes (m : Insertion w Unit) : Prop := m.exit = .ok ()

@[simp] theorem pure_calls (a : α) : (pure a : Insertion w α).calls = [] := rfl
@[simp] theorem pure_exit (a : α) : (pure a : Insertion w α).exit = .ok a := rfl
@[simp] theorem insertCall_calls (c : Call w) : (insertCall c).calls = [c] := rfl
@[simp] theorem insertCall_exit (c : Call w) : (insertCall c).exit = .ok () := rfl
@[simp] theorem leave_calls : (leave : Insertion w Unit).calls = [] := rfl
@[simp] theorem leave_exit : (leave : Insertion w Unit).exit = .error .returned := rfl
@[simp] theorem abort_calls (message : String) : (abort message : Insertion w Unit).calls = [] := rfl
@[simp] theorem abort_exit (message : String) :
    (abort message : Insertion w Unit).exit = .error (.aborted message) := rfl

theorem bind_ok {m : Insertion w α} {a : α} (h : m.exit = .ok a) (f : α → Insertion w β) :
    (m >>= f) = ⟨m.calls ++ (f a).calls, (f a).exit⟩ := by
  change (match m.exit with
    | .ok a => (⟨m.calls ++ (f a).calls, (f a).exit⟩ : Insertion w β)
    | .error e => ⟨m.calls, .error e⟩) = _
  rw [h]

theorem bind_error {m : Insertion w α} {e : Exit} (h : m.exit = .error e) (f : α → Insertion w β) :
    (m >>= f) = ⟨m.calls, .error e⟩ := by
  change (match m.exit with
    | .ok a => (⟨m.calls ++ (f a).calls, (f a).exit⟩ : Insertion w β)
    | .error e => ⟨m.calls, .error e⟩) = _
  rw [h]

/-- A handler that completes completed its first part. -/
theorem completes_bind {m : Insertion w Unit} {f : Unit → Insertion w Unit} :
    Completes (m >>= f) ↔ Completes m ∧ Completes (f ()) := by
  unfold Completes
  cases h : m.exit with
  | ok a => rw [bind_ok h]; simp
  | error e => rw [bind_error h]; simp

theorem Completes.calls_bind {m : Insertion w Unit} {f : Unit → Insertion w Unit}
    (h : Completes m) : (m >>= f).calls = m.calls ++ (f ()).calls := by
  rw [bind_ok h]

end Insertion

end Dytan
