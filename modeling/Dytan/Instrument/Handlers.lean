import Dytan.Instrument.Pin

/-!
# The dataflow handlers (`instrument_functions.c`, with `IMPLICIT` defined)

One definition for each handler, and the dispatch table `instrumentFunctions` (`dytan.cpp`). The
blocks the handlers repeat are `loadRegMem`, `loadRegMemImm`, `loadRegImm` (load the marks of an
operand) and `setRegMem`, `setRegMemAddress` (assign to an operand).
-/

namespace Dytan

open Insertion

variable {w : Nat} (ins : INS)

/-! ## Check functions -/

def CF_MASK : ADDRINT w := 1#w <<< 1
def PF_MASK : ADDRINT w := 1#w <<< 2
def ZF_MASK : ADDRINT w := 1#w <<< 6
def SF_MASK : ADDRINT w := 1#w <<< 7
def OF_MASK : ADDRINT w := 1#w <<< 11

section
variable (eflags : ADDRINT w)

def checkCMOVNB : Bool := eflags &&& CF_MASK == 0#w
def checkCMOVB : Bool := eflags &&& CF_MASK == 1#w
def checkCMOVBE : Bool := eflags &&& CF_MASK == 1#w || eflags &&& ZF_MASK == 1#w
def checkCMOVNLE : Bool := eflags &&& ZF_MASK == 0#w && eflags &&& SF_MASK == 0#w
def checkCMOVNL : Bool := eflags &&& SF_MASK == eflags &&& OF_MASK
def checkCMOVL : Bool := eflags &&& SF_MASK != eflags &&& OF_MASK
def checkCMOVLE : Bool := eflags &&& ZF_MASK == 1#w || eflags &&& SF_MASK != eflags &&& OF_MASK
def checkCMOVNBE : Bool := eflags &&& CF_MASK == 0#w && eflags &&& ZF_MASK == 0#w
def checkCMOVNZ : Bool := eflags &&& ZF_MASK == 0#w
def checkCMOVNO : Bool := eflags &&& OF_MASK == 0#w
def checkCMOVNP : Bool := eflags &&& PF_MASK == 0#w
def checkCMOVNS : Bool := eflags &&& SF_MASK == 0#w
def checkCMOVO : Bool := eflags &&& OF_MASK == 1#w
def checkCMOVP : Bool := eflags &&& PF_MASK == 1#w
def checkCMOVS : Bool := eflags &&& SF_MASK == 1#w
def checkCMOVZ : Bool := eflags &&& ZF_MASK == 1#w

end

def checkEqualRR (v1 v2 : ADDRINT w) : Bool := v1 == v2
def checkNotEqualRR (v1 v2 : ADDRINT w) : Bool := v1 != v2

def checkEqualMR (deref : ADDRINT w → ADDRINT w) (start _size v2 : ADDRINT w) : Bool :=
  deref start == v2

/-- As in the source, the comparison of `CheckEqual_m_r`. -/
def checkNotEqualMR (deref : ADDRINT w → ADDRINT w) (start _size v2 : ADDRINT w) : Bool :=
  deref start == v2

/-- The check `Instrument_CMOVcc` inserts for an opcode. -/
def checkCMOV : XED_ICLASS → Option (ADDRINT w → Bool)
  | .CMOVNB => some checkCMOVNB
  | .CMOVB => some checkCMOVB
  | .CMOVBE => some checkCMOVBE
  | .CMOVNLE => some checkCMOVNLE
  | .CMOVNL => some checkCMOVNL
  | .CMOVL => some checkCMOVL
  | .CMOVLE => some checkCMOVLE
  | .CMOVNBE => some checkCMOVNBE
  | .CMOVNZ => some checkCMOVNZ
  | .CMOVNO => some checkCMOVNO
  | .CMOVNP => some checkCMOVNP
  | .CMOVNS => some checkCMOVNS
  | .CMOVO => some checkCMOVO
  | .CMOVP => some checkCMOVP
  | .CMOVS => some checkCMOVS
  | .CMOVZ => some checkCMOVZ
  | _ => none

/-! ## Blocks -/

/-- `abort` with `text` and the disassembled instruction. -/
def unknown (text : String) : Insertion w Unit := abort (text ++ ins.disassemble ++ "\n")

def unknown0 : Insertion w Unit := unknown ins "Unknown operand(0) type: "
def unknown1 : Insertion w Unit := unknown ins "Unknown operand(1) type: "

/-- `if(!INS_IsMemoryRead(ins)) return;` -/
def needRead : Insertion w Unit := if !ins.isMemoryRead then leave else pure ()

/-- `if(!INS_IsMemoryWrite(ins)) return;` -/
def needWrite : Insertion w Unit := if !ins.isMemoryWrite then leave else pure ()

def loadReg (reg : REG) (set : Scratch) : Insertion w Unit :=
  insertCall (.taintForRegister reg set)

def setReg (dest : REG) (args : List Scratch) : Insertion w Unit :=
  insertCall (.setTaintForRegister dest args)

def clearReg (reg : REG) : Insertion w Unit := insertCall (.clearTaintForRegister reg)

/-- The marks of memory operand `n`, with its base and index register. -/
def loadMem (n : Nat) (set : Scratch) : Insertion w Unit := do
  needRead ins
  insertCall (.taintForMemory .MEMORYREAD (ins.operandMemoryBaseReg n)
    (ins.operandMemoryIndexReg n) set)

/-- Load operand `n`, a register or memory. -/
def loadRegMem (n : Nat) (set : Scratch) (otherwise : Insertion w Unit) : Insertion w Unit :=
  if ins.operandIsReg n then loadReg (ins.operandReg n) set
  else if ins.operandIsMemory n then loadMem ins n set
  else otherwise

/-- Load operand `n`, a register, memory or an immediate. -/
def loadRegMemImm (n : Nat) (set : Scratch) (otherwise : Insertion w Unit) : Insertion w Unit :=
  loadRegMem ins n set
    (if ins.operandIsImmediate n then insertCall (.clearTaintSet set) else otherwise)

/-- Load operand `n`, a register or an immediate. -/
def loadRegImm (n : Nat) (set : Scratch) (otherwise : Insertion w Unit) : Insertion w Unit :=
  if ins.operandIsReg n then loadReg (ins.operandReg n) set
  else if ins.operandIsImmediate n then insertCall (.clearTaintSet set)
  else otherwise

/-- Assign to operand `n`, a register or memory. -/
def setRegMem (n : Nat) (args : List Scratch) (otherwise : Insertion w Unit) : Insertion w Unit :=
  if ins.operandIsReg n then setReg (ins.operandReg n) args
  else if ins.operandIsMemory n then do
    needWrite ins
    insertCall (.setTaintForMemory args)
  else otherwise

/-- Assign `src` to operand 0; to memory together with its base and index register. -/
def setRegMemAddress : Insertion w Unit :=
  if ins.operandIsReg 0 then setReg (ins.operandReg 0) [.src]
  else if ins.operandIsMemory 0 then do
    loadReg (ins.operandMemoryBaseReg 0) .base
    loadReg (ins.operandMemoryIndexReg 0) .idx
    needWrite ins
    insertCall (.setTaintForMemory [.src, .base, .idx])
  else unknown0 ins

/-! ## Handlers -/

def unimplementedInstruction : Insertion w Unit := pure ()

def instrumentADC : Insertion w Unit := do
  loadRegMem ins 0 .dest (unknown0 ins)
  loadRegMemImm ins 1 .src (unknown1 ins)
  loadReg .EFLAGS .eflags
  setRegMem ins 0 [.dest, .src, .eflags] (unknown0 ins)
  setReg .EFLAGS [.dest, .src, .eflags]

def instrumentADD : Insertion w Unit := do
  loadRegMem ins 0 .dest (unknown0 ins)
  loadRegMemImm ins 1 .src (unknown1 ins)
  setRegMem ins 0 [.dest, .src] (unknown0 ins)
  setReg .EFLAGS [.dest, .src]

def instrumentAND : Insertion w Unit := instrumentADD ins

/-- A handler with an empty body: `BSWAP`, `CALL_NEAR`, `FLDCW`, `Jcc`, `NOP`, ... -/
def emptyHandler : Insertion w Unit := pure ()

def instrumentCDQ : Insertion w Unit :=
  if ins.operandWidth 0 = 32 then do
    loadReg .EAX .eax
    setReg .EDX [.eax]
  else unknown ins "Unhandled operand size: "

def instrumentCLD : Insertion w Unit := clearReg .EFLAGS

def instrumentCMOVcc : Insertion w Unit := do
  loadRegMem ins 1 .src (unknown0 ins)
  match checkCMOV ins.opcode with
  | some check =>
    insertCall (.ifThen (.regValue check .EFLAGS)
      (.setTaintForRegister (ins.operandReg 0) [.src]))
  | none => unknown ins "Unhandled cmov type: "

def instrumentCMP : Insertion w Unit := do
  loadRegMem ins 0 .dest (unknown0 ins)
  loadRegMemImm ins 1 .src (unknown1 ins)
  setReg .EFLAGS [.dest, .src]

def instrumentCMPSB : Insertion w Unit := do
  needRead ins
  insertCall (.taintForMemory .MEMORYREAD .EDI .INVALID .dest)
  needRead ins
  insertCall (.taintForMemory .MEMORYREAD2 .ESI .INVALID .src)
  setReg .EFLAGS [.dest, .src]

/-- `text`, the operand width and the disassembled instruction, then `abort`. -/
def unhandledWidth : Insertion w Unit :=
  unknown ins ("Unhanded operand width: " ++ toString (ins.operandWidth 0) ++ " for ")

def instrumentCMPXCHG : Insertion w Unit := do
  (if ins.operandWidth 0 = 32 then do
    loadRegMem ins 0 .dest (unknown0 ins)
    loadReg (ins.operandReg 1) .src
    loadReg (ins.operandReg 2) .eax
  else unhandledWidth ins)
  if ins.operandIsReg 0 then do
    insertCall (.ifThen (.regValues checkEqualRR (ins.operandReg 0) (ins.operandReg 2))
      (.setTaintForRegister (ins.operandReg 0) [.src]))
    insertCall (.ifThen (.regValues checkNotEqualRR (ins.operandReg 0) (ins.operandReg 2))
      (.setTaintForRegister (ins.operandReg 2) [.src]))
  else if ins.operandIsMemory 0 then do
    insertCall (.ifThen (.memoryRead checkEqualMR (ins.operandReg 2)) (.setTaintForMemory [.src]))
    insertCall (.ifThen (.memoryRead checkNotEqualMR (ins.operandReg 2))
      (.setTaintForRegister (ins.operandReg 2) [.src]))
  else pure ()

def instrumentCWDE : Insertion w Unit := do
  loadReg .AX .dest
  setReg .EAX [.dest]

def instrumentDEC : Insertion w Unit := do
  loadRegMem ins 0 .dest (unknown0 ins)
  setReg .EFLAGS [.dest]

def instrumentDIV : Insertion w Unit :=
  if ins.operandWidth 0 = 32 then do
    loadRegMem ins 0 .src (unknown0 ins)
    loadReg .EAX .eax
    loadReg .EDX .edx
    setReg .EAX [.eax, .edx, .src]
    setReg .EDX [.eax, .edx, .src]
    clearReg .EFLAGS
  else unknown ins "Unhandled operand size: "

def instrumentFNSTCW : Insertion w Unit := insertCall .clearTaintForMemory

def instrumentCPUID : Insertion w Unit := do
  clearReg .EAX
  clearReg .EBX
  clearReg .ECX
  clearReg .EDX

def instrumentBSF : Insertion w Unit := clearReg (ins.operandReg 0)

def instrumentBSR : Insertion w Unit := clearReg (ins.operandReg 0)

def instrumentIDIV : Insertion w Unit :=
  if ins.operandWidth 0 = 32 then do
    loadRegMem ins 0 .src (unknown0 ins)
    loadReg .EDX .edx
    loadReg .EAX .eax
    setReg .EAX [.eax, .edx, .src]
    setReg .EDX [.eax, .edx, .src]
    clearReg .EFLAGS
  else unhandledWidth ins

def instrumentMUL : Insertion w Unit :=
  if ins.operandWidth 0 = 32 then do
    loadRegMem ins 0 .src (unknown0 ins)
    loadReg .EAX .eax
    setReg .EAX [.eax, .src]
    setReg .EDX [.eax, .src]
    setReg .EFLAGS [.eax, .src]
  else unhandledWidth ins

/-- Operand 1 of `Instrument_IMUL`; for a register the source loads operand 0. -/
def loadIMUL (otherwise : Insertion w Unit) : Insertion w Unit :=
  if ins.operandIsReg 1 then loadReg (ins.operandReg 0) .src
  else if ins.operandIsMemory 1 then loadMem ins 1 .src
  else otherwise

def instrumentIMUL : Insertion w Unit :=
  if ins.explicitOperandCount = 1 then instrumentMUL ins
  else if ins.explicitOperandCount = 2 then do
    loadReg (ins.operandReg 0) .dest
    loadIMUL ins (if ins.operandIsImmediate 1 then insertCall (.clearTaintSet .src)
                  else unknown ins "Unknown operand type: ")
    setReg (ins.operandReg 0) [.dest, .src]
    setReg .EFLAGS [.dest, .src]
  else if ins.explicitOperandCount = 3 then do
    loadReg (ins.operandReg 0) .dest
    loadIMUL ins (unknown ins "Unknown operand type: ")
    setReg (ins.operandReg 0) [.dest, .src]
    setReg .EFLAGS [.dest, .src]
  else abort ("\tStrange IMUL " ++ ins.disassemble ++ " " ++ toString ins.explicitOperandCount ++
    "\n")

def instrumentINC : Insertion w Unit := instrumentDEC ins

def instrumentLEA : Insertion w Unit := do
  loadReg (ins.operandMemoryBaseReg 1) .base
  loadReg (ins.operandMemoryIndexReg 1) .idx
  setReg (ins.operandReg 0) [.base, .idx]

def instrumentMOV : Insertion w Unit := do
  loadRegMemImm ins 1 .src (unknown1 ins)
  setRegMemAddress ins

def instrumentMOVS : Insertion w Unit := do
  insertCall (.taintForMemory .MEMORYREAD .ESI .INVALID .dest)
  insertCall (.taintForMemory .MEMORYREAD .EDI .INVALID .src)
  if ins.hasRealRep then do
    loadReg .ECX .cnt
    insertCall (.setTaintForMemory [.src, .dest, .cnt])
  else insertCall (.setTaintForMemory [.src, .dest])

def instrumentMOVSB : Insertion w Unit := instrumentMOVS ins
def instrumentMOVSD : Insertion w Unit := instrumentMOVS ins
def instrumentMOVSW : Insertion w Unit := instrumentMOVS ins

/-- The body of `Instrument_MOV`, copied in the source. -/
def instrumentMOVSD_XMM : Insertion w Unit := do
  loadRegMemImm ins 1 .src (unknown1 ins)
  setRegMemAddress ins

def instrumentMOVSX : Insertion w Unit := instrumentMOV ins
def instrumentMOVZX : Insertion w Unit := instrumentMOV ins

def instrumentNEG : Insertion w Unit := do
  loadRegMem ins 0 .dest (unknown0 ins)
  setReg .EFLAGS [.dest]

def instrumentOR : Insertion w Unit := instrumentAND ins

def instrumentPOP : Insertion w Unit := do
  needRead ins
  insertCall (.taintForMemory .MEMORYREAD .INVALID .INVALID .src)
  setRegMemAddress ins

/-- The source loads `EFLAGS` into `src` where its comment assigns to it. -/
def instrumentPOPFD : Insertion w Unit := do
  needRead ins
  insertCall (.taintForMemory .MEMORYREAD .INVALID .INVALID .src)
  loadReg .EFLAGS .src

def instrumentPUSH : Insertion w Unit := do
  loadRegMemImm ins 0 .src (unknown0 ins)
  needWrite ins
  insertCall (.setTaintForMemory [.src])

def instrumentPUSHFD : Insertion w Unit := do
  loadReg .EFLAGS .src
  insertCall (.setTaintForMemory [.src])

def instrumentRDTSC : Insertion w Unit := do
  clearReg .EAX
  clearReg .EDX

def instrumentSAR : Insertion w Unit := do
  loadRegMem ins 0 .dest (unknown0 ins)
  loadRegImm ins 1 .cnt (unknown0 ins)
  setRegMem ins 0 [.dest, .cnt] (unknown0 ins)
  setReg .EFLAGS [.dest, .cnt]

def instrumentSBB : Insertion w Unit := instrumentADC ins

def instrumentSCASB : Insertion w Unit := do
  needRead ins
  insertCall (.taintForMemory .MEMORYREAD .EDI .INVALID .src)
  loadReg .AL .eax
  setReg .EFLAGS [.src, .eax]
  if ins.repPrefix || ins.repnePrefix then setReg .ECX [.src, .eax] else pure ()

def instrumentSETcc : Insertion w Unit := do
  loadReg .EFLAGS .src
  if ins.operandIsReg 0 then setReg (ins.operandReg 0) [.src]
  else if ins.operandIsMemory 0 then do
    needWrite ins
    loadReg (ins.operandMemoryBaseReg 0) .base
    loadReg (ins.operandMemoryIndexReg 0) .idx
    insertCall (.setTaintForMemory [.base, .idx, .src])
  else unknown0 ins

def instrumentSHL : Insertion w Unit := instrumentSAR ins

/-- Operand 2, when it is a register, loads operand 0 as in the source. -/
def instrumentSHLD : Insertion w Unit := do
  loadRegMem ins 0 .dest (unknown0 ins)
  loadReg (ins.operandReg 1) .cnt
  (if ins.operandIsReg 2 then loadReg (ins.operandReg 0) .src
  else if ins.operandIsImmediate 2 then insertCall (.clearTaintSet .src)
  else unknown0 ins)
  setRegMem ins 0 [.dest, .src, .cnt] (unknown0 ins)
  setReg .EFLAGS [.dest, .src, .cnt]

def instrumentSHR : Insertion w Unit := instrumentSAR ins
def instrumentSHRD : Insertion w Unit := instrumentSHLD ins

def instrumentSTD : Insertion w Unit := clearReg .EFLAGS

def instrumentSTMXCSR : Insertion w Unit := insertCall .clearTaintForMemory

/-- `Instrument_STOSB` and `Instrument_STOSD`, which load `AL` and `AX`. -/
def storeString (reg : REG) : Insertion w Unit := do
  loadReg reg .eax
  loadReg .EDI .src
  needWrite ins
  insertCall (.setTaintForMemory [.eax, .src])

def instrumentSTOSB : Insertion w Unit := storeString ins .AL
def instrumentSTOSD : Insertion w Unit := storeString ins .AX

def instrumentSUB : Insertion w Unit := instrumentADD ins

def instrumentTEST : Insertion w Unit := do
  loadRegMem ins 0 .dest (unknown0 ins)
  loadRegImm ins 1 .src (unknown1 ins)
  setReg .EFLAGS [.dest, .src]

def instrumentXADD : Insertion w Unit := do
  loadRegMem ins 0 .dest (unknown0 ins)
  (if ins.operandIsReg 1 then loadReg (ins.operandReg 1) .src else unknown1 ins)
  setRegMem ins 0 [.dest, .src] (unknown0 ins)
  setReg (ins.operandReg 1) [.dest]
  setReg .EFLAGS [.dest, .src]

def instrumentXCHG : Insertion w Unit := do
  loadRegMem ins 0 .dest (unknown0 ins)
  loadRegMem ins 1 .src (unknown0 ins)
  setRegMem ins 0 [.src] (unknown0 ins)
  setRegMem ins 1 [.dest] (unknown1 ins)

/-- The operands are the same register. -/
def sameRegister : Bool :=
  ins.operandIsReg 0 && ins.operandIsReg 1 && ins.operandReg 0 == ins.operandReg 1

def instrumentXOR : Insertion w Unit := do
  loadRegMem ins 0 .dest (unknown0 ins)
  loadRegMemImm ins 1 .src (unknown1 ins)
  (if sameRegister ins then clearReg (ins.operandReg 0)
  else setRegMem ins 0 [.dest, .src] (unknown0 ins))
  setReg .EFLAGS [.dest, .src]

def instrumentFNSTSW : Insertion w Unit :=
  if ins.operandIsReg 0 then clearReg (ins.operandReg 0) else pure ()

def instrumentPXOR : Insertion w Unit := do
  (if ins.operandIsReg 0 then loadReg (ins.operandReg 0) .dest else unknown0 ins)
  loadRegMem ins 1 .src (unknown0 ins)
  if ins.operandIsReg 0 then setReg (ins.operandReg 0) [.dest, .src] else unknown0 ins

/-- The body shared by the handlers that follow: `dest <- dest, src` without `EFLAGS`. -/
def combineOperands : Insertion w Unit := do
  loadRegMem ins 0 .dest (unknown0 ins)
  loadRegMemImm ins 1 .src (unknown1 ins)
  setRegMem ins 0 [.dest, .src] (unknown0 ins)

def instrumentPCMPEQB : Insertion w Unit := combineOperands ins
def instrumentPALIGNR : Insertion w Unit := combineOperands ins
def instrumentPSHUFD : Insertion w Unit := combineOperands ins
def instrumentXORPS : Insertion w Unit := combineOperands ins

def instrumentPMOVMSKB : Insertion w Unit := do
  loadRegMemImm ins 1 .src (unknown1 ins)
  setRegMem ins 0 [.src] (unknown0 ins)

def instrumentMOVHPD : Insertion w Unit := instrumentMOV ins
def instrumentMOVLPD : Insertion w Unit := instrumentMOV ins
def instrumentPSUBB : Insertion w Unit := instrumentADD ins
def instrumentMOVDQA : Insertion w Unit := instrumentMOV ins
def instrumentMOVDQU : Insertion w Unit := instrumentMOV ins
def instrumentMOVAPS : Insertion w Unit := instrumentMOV ins
def instrumentMOVD : Insertion w Unit := instrumentMOV ins
def instrumentMOVQ : Insertion w Unit := instrumentMOV ins

def instrumentCMPSW : Insertion w Unit :=
  if ins.explicitOperandCount = 2 then instrumentCMP ins
  else if ins.explicitOperandCount = 1 then do
    loadRegMem ins 0 .dest (unknown0 ins)
    setReg .EFLAGS [.dest]
  else pure ()

/-! ## The dispatch table -/

/-- `instrument_functions`. -/
def instrumentFunctions : XED_ICLASS → INS → Insertion w Unit
  | .ADD => instrumentADD
  | .PUSH => instrumentPUSH
  | .POP => instrumentPOP
  | .OR => instrumentOR
  | .ADC => instrumentADC
  | .SBB => instrumentSBB
  | .AND => instrumentAND
  | .SUB => instrumentSUB
  | .XOR => instrumentXOR
  | .CMP => instrumentCMP
  | .INC => instrumentINC
  | .DEC => instrumentDEC
  | .IMUL => instrumentIMUL
  | .TEST => instrumentTEST
  | .XCHG => instrumentXCHG
  | .MOV => instrumentMOV
  | .LEA => instrumentLEA
  | .CWDE => fun _ => instrumentCWDE
  | .CDQ => instrumentCDQ
  | .CMPSW => instrumentCMPSW
  | .PUSHFD => fun _ => instrumentPUSHFD
  | .POPFD => instrumentPOPFD
  | .MOVSB => instrumentMOVSB
  | .MOVSW => instrumentMOVSW
  | .CMPSB => instrumentCMPSB
  | .STOSB => instrumentSTOSB
  | .STOSD => instrumentSTOSD
  | .SCASB => instrumentSCASB
  | .CLD => fun _ => instrumentCLD
  | .STD => fun _ => instrumentSTD
  | .RDTSC => fun _ => instrumentRDTSC
  | .CMOVNLE | .CMOVB | .CMOVNB | .CMOVZ | .CMOVNZ | .CMOVBE | .CMOVNBE | .CMOVS | .CMOVNS
  | .CMOVL | .CMOVNL | .CMOVLE => instrumentCMOVcc
  | .SETB | .SETNB | .SETZ | .SETNZ | .SETBE | .SETNBE | .SETS | .SETL | .SETNL | .SETLE
  | .SETNLE => instrumentSETcc
  | .CPUID => fun _ => instrumentCPUID
  | .SHLD => instrumentSHLD
  | .CMPXCHG => instrumentCMPXCHG
  | .MOVZX => instrumentMOVZX
  | .XADD => instrumentXADD
  | .MOVAPS => instrumentMOVAPS
  | .MOVD => instrumentMOVD
  | .MOVDQA => instrumentMOVDQA
  | .MOVDQU => instrumentMOVDQU
  | .MOVHPD => instrumentMOVHPD
  | .MOVLPD => instrumentMOVLPD
  | .MOVQ => instrumentMOVQ
  | .MOVSD => instrumentMOVSD
  | .MOVSD_XMM => instrumentMOVSD_XMM
  | .MUL => instrumentMUL
  | .SHRD => instrumentSHRD
  | .BSF => instrumentBSF
  | .BSR => instrumentBSR
  | .MOVSX => instrumentMOVSX
  | .PALIGNR => instrumentPALIGNR
  | .PCMPEQB => instrumentPCMPEQB
  | .PMOVMSKB => instrumentPMOVMSKB
  | .SHL => instrumentSHL
  | .SHR => instrumentSHR
  | .SAR => instrumentSAR
  | .NEG => instrumentNEG
  | .DIV => instrumentDIV
  | .IDIV => instrumentIDIV
  | .PSHUFD => instrumentPSHUFD
  | .STMXCSR => fun _ => instrumentSTMXCSR
  | .PSUBB => instrumentPSUBB
  | .FNSTCW => fun _ => instrumentFNSTCW
  | .PXOR => instrumentPXOR
  | .FNSTSW => instrumentFNSTSW
  | .XORPS => instrumentXORPS
  | .JO | .JNO | .JB | .JNB | .JZ | .JNZ | .JBE | .JNBE | .JS | .JNS | .JP | .JNP | .JL | .JNL
  | .JLE | .JNLE | .JRCXZ | .PAUSE | .SAHF | .LAHF | .RET_NEAR | .LEAVE | .INT | .CALL_NEAR
  | .JMP | .HLT | .BT | .NOP | .NOP2 | .NOP3 | .NOP4 | .NOP5 | .NOP6 | .NOP7 | .NOP8 | .NOP9
  | .BSWAP | .ROL | .ROR | .NOT | .PREFETCHT0 | .LDMXCSR | .FDIV | .FLD | .FST | .FSTP | .FLDCW
  | .FXCH | .FLDZ | .FILD | .FISTP | .FUCOM | .FADDP | .FDIVRP | .FDIVP | .FIDIVR | .FIADD
  | .FIST | .FCOMI | .FCOMIP | .FUCOMI | .FUCOMIP => fun _ => emptyHandler
  | .CMOVNO | .CMOVNP | .CMOVO | .CMOVP | .other => fun _ => unimplementedInstruction

/-- `Dataflow`. -/
def dataflow : Insertion w Unit := instrumentFunctions ins.opcode ins

end Dytan
