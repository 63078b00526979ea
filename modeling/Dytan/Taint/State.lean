import Dytan.Bitset

/-!
# The taint maps and their operations (`dytan.cpp`)

`TaintState`: the maps `regTaintMap`, `memTaintMap` and `controlTaintMap`, the scratch sets the
inserted calls share (`dest`, `src`, ...) and `NUMBER_OF_TAINT_MARKS`. The operations are the
analysis functions of `dytan.cpp`, in `Option` because of the assertions in `bitset.cpp`. The
logging and profiling output of the source is left out.

`ADDRINT w` is Pin's address type for a word size `w`; the loops over `start .. start + size` run
over `addrRange start (start + size)`, with the wrapping addition of the source.
-/

namespace Dytan

/-- An address or a machine word of `w` bits. -/
abbrev ADDRINT (w : Nat) := BitVec w

/-- Registers as Pin numbers them; `other` for those no function names. -/
inductive REG
  | INVALID
  | EAX | EBX | ECX | EDX | ESI | EDI | EBP | ESP
  | AX | BX | CX | DX
  | AH | AL | BH | BL | CH | CL | DH | DL
  | EFLAGS
  | other (n : Nat)
deriving DecidableEq, Repr

/-- `REG_valid`. -/
def REG.valid (reg : REG) : Bool := reg != .INVALID

/-- The global sets that carry taint between the calls inserted for an instruction. -/
inductive Scratch
  | dest | src | eax | edx | base | idx | eflags | cnt
deriving DecidableEq, Repr

structure TaintState (w : Nat) where
  regTaintMap : REG → Option Bitset
  memTaintMap : ADDRINT w → Option Bitset
  controlTaintMap : Std.ExtTreeMap (ADDRINT w) Bitset
  scratch : Scratch → Bitset
  numberOfTaintMarks : Nat

/-- The addresses the loop `for (addr = start; addr < stop; addr++)` visits. -/
def addrRange {w : Nat} (start stop : ADDRINT w) : List (ADDRINT w) :=
  (List.range (stop.toNat - start.toNat)).map fun i => start + BitVec.ofNat w i

/-- The registers contained in `reg`, in the order the source writes them. -/
def containedRegs : REG → List REG
  | .EAX => [.AX, .AH, .AL]
  | .EBX => [.BX, .BH, .BL]
  | .ECX => [.CX, .CH, .CL]
  | .EDX => [.DX, .DH, .DL]
  | .AX => [.AH, .AL]
  | .BX => [.BH, .BL]
  | .CX => [.CH, .CL]
  | .DX => [.DH, .DL]
  | _ => []

/-- The entry of `key` becomes `tmp`: overwritten when present, else a copy is inserted. -/
def putEntry {α : Type} [DecidableEq α] (tmp : Bitset) (map : α → Option Bitset) (key : α) :
    Option (α → Option Bitset) :=
  match map key with
  | some set => do
    let set ← set.setBits tmp
    return Function.update map key (some set)
  | none => some (Function.update map key (some tmp.copy))

/-- The entry of `key` becomes `tmp` when there is one. -/
def refreshEntry {α : Type} [DecidableEq α] (tmp : Bitset) (map : α → Option Bitset) (key : α) :
    Option (α → Option Bitset) :=
  match map key with
  | some set => do
    let set ← set.setBits tmp
    return Function.update map key (some set)
  | none => some map

/-- `bitset_union` of each of `sets` into `acc`, in order. -/
def unionAll (acc : Bitset) (sets : List Bitset) : Option Bitset := sets.foldlM Bitset.union acc

namespace TaintState

variable {w : Nat}

/-- The state `main` sets up. -/
def initial (numberOfTaintMarks : Nat) : TaintState w where
  regTaintMap _ := none
  memTaintMap _ := none
  controlTaintMap := ∅
  scratch _ := .init numberOfTaintMarks
  numberOfTaintMarks := numberOfTaintMarks

def setScratch (st : TaintState w) (set : Scratch) (s : Bitset) : TaintState w :=
  { st with scratch := Function.update st.scratch set s }

/-- `ClearTaintSet`. -/
def clearTaintSet (st : TaintState w) (set : Scratch) : TaintState w :=
  st.setScratch set (st.scratch set).reset

/-- `TaintForRegister`. -/
def taintForRegister (st : TaintState w) (reg : REG) (set : Scratch) : Option (TaintState w) :=
  match st.regTaintMap reg with
  | some s => do
    let s ← (st.scratch set).setBits s
    return st.setScratch set s
  | none => some (st.setScratch set (st.scratch set).reset)

/-- The part of `TaintForMemory` under `IMPLICIT`, for the base or the index register. -/
def unionRegister (st : TaintState w) (reg : REG) (set : Bitset) : Option Bitset :=
  if reg.valid then
    match st.regTaintMap reg with
    | some s => set.union s
    | none => some set
  else some set

/-- `TaintForMemory`. -/
def taintForMemory (st : TaintState w) (start size : ADDRINT w) (baseReg indexReg : REG)
    (set : Scratch) : Option (TaintState w) := do
  let s ← unionAll (st.scratch set).reset
    ((addrRange start (start + size)).filterMap st.memTaintMap)
  let s ← st.unionRegister baseReg s
  let s ← st.unionRegister indexReg s
  return st.setScratch set s

/-- The union of the sets in `controlTaintMap`. -/
def controlTaint (st : TaintState w) : Option Bitset :=
  unionAll (.init st.numberOfTaintMarks) (st.controlTaintMap.toList.map (·.2))

/-- The set `SetTaintForRegister` and `SetTaintForMemory` assign. -/
def assignedTaint (st : TaintState w) (args : List Bitset) : Option Bitset := do
  let tmp ← unionAll (.init st.numberOfTaintMarks) args
  let controlTaint ← st.controlTaint
  tmp.union controlTaint

/-- `SetTaintForRegister`. -/
def setTaintForRegister (st : TaintState w) (dest : REG) (args : List Bitset) :
    Option (TaintState w) :=
  if dest = .ESP ∨ dest = .EBP then some st
  else do
    let tmp ← st.assignedTaint args
    let map ← (containedRegs dest ++ [dest]).foldlM (putEntry tmp) st.regTaintMap
    return { st with regTaintMap := map }

/-- `ClearTaintForRegister`. -/
def clearTaintForRegister (st : TaintState w) (reg : REG) : Option (TaintState w) := do
  let controlTaint ← st.controlTaint
  let map ← (containedRegs reg ++ [reg]).foldlM (refreshEntry controlTaint) st.regTaintMap
  return { st with regTaintMap := map }

/-- `SetTaintForMemory`. -/
def setTaintForMemory (st : TaintState w) (start size : ADDRINT w) (args : List Bitset) :
    Option (TaintState w) := do
  let tmp ← st.assignedTaint args
  let map ← (addrRange start (start + size)).foldlM (putEntry tmp) st.memTaintMap
  return { st with memTaintMap := map }

/-- `ClearTaintForMemory`. -/
def clearTaintForMemory (st : TaintState w) (start size : ADDRINT w) : Option (TaintState w) := do
  let controlTaint ← st.controlTaint
  let map ← (addrRange start (start + size)).foldlM (refreshEntry controlTaint) st.memTaintMap
  return { st with memTaintMap := map }

/-- `PushControl`. -/
def pushControl (st : TaintState w) (addr : ADDRINT w) : Option (TaintState w) :=
  match st.regTaintMap .EFLAGS with
  | none => some st
  | some eflags =>
    if eflags.isEmpty then some st
    else do
      let set := (st.controlTaintMap[addr]?).getD (.init st.numberOfTaintMarks)
      let set ← set.union eflags
      return { st with controlTaintMap := st.controlTaintMap.insert addr set }

/-- `PopControl`: the loop returns at the first address that is not in the map. -/
def popControl (st : TaintState w) : List (ADDRINT w) → TaintState w
  | [] => st
  | addr :: addrs =>
    if st.controlTaintMap.contains addr then
      popControl { st with controlTaintMap := st.controlTaintMap.erase addr } addrs
    else st

end TaintState

/-! ## Entries of `controlTaintMap` -/

section
variable {w : Nat} {β : Type}

theorem getElem?_insert_eq (map : Std.ExtTreeMap (ADDRINT w) β) (addr a : ADDRINT w)
    (b : β) : (map.insert addr b)[a]? = if a = addr then some b else map[a]? := by
  rw [Std.ExtTreeMap.getElem?_insert]
  exact if_congr (Std.compare_eq_iff_eq.trans eq_comm) rfl rfl

theorem getElem?_erase_eq (map : Std.ExtTreeMap (ADDRINT w) β) (addr a : ADDRINT w) :
    (map.erase addr)[a]? = if a = addr then none else map[a]? := by
  rw [Std.ExtTreeMap.getElem?_erase]
  exact if_congr (Std.compare_eq_iff_eq.trans eq_comm) rfl rfl

end

end Dytan
