import Dytan.Taint.State

/-!
# System calls (`syscall_monitor.H`, `syscall_functions.cpp`)

`SyscallMonitor`: the callbacks registered for each system call, those of a `PathMonitor`
(`monitor_path.cpp`) and the `Handle_` functions `main` registers. Only the calls on file
descriptors are here. A `SyscallEvent` is a call as `endSyscall` hands it to the callbacks.

The callbacks read what the arguments of a call point to, also after a call that failed because of
such a pointer. `Readable` says which pointers they can read through.
-/

namespace Dytan

/-- `syscall_arguments`, as far as the callbacks read it. -/
structure SyscallArguments (w : Nat) where
  arg0 : ADDRINT w
  arg1 : ADDRINT w
  ret : ADDRINT w
deriving DecidableEq, Repr

/-- The pointers a callback can read through; `NULL` is not one. -/
structure Readable where
  mapped : BitVec 32 → Bool
  null : mapped 0 = false

namespace Readable

/-- Every pointer but `NULL`. -/
def nonNull : Readable := ⟨(· ≠ 0), rfl⟩

variable {α : Type} (readable : Readable)

/-- The value at a pointer; none where reading it is the end of the tool. -/
def read (pointer : BitVec 32) (value : α) : Option α :=
  if readable.mapped pointer then some value else none

variable {readable} {pointer : BitVec 32}

theorem read_mapped (h : readable.mapped pointer = true) (value : α) :
    readable.read pointer value = some value := if_pos h

theorem read_unmapped (h : ¬ readable.mapped pointer = true) (value : α) :
    readable.read pointer value = none := if_neg h

theorem read_isSome {value : α} :
    (readable.read pointer value).isSome ↔ readable.mapped pointer = true := by
  by_cases h : readable.mapped pointer = true
  · exact iff_of_true (by rw [read_mapped h]; rfl) h
  · exact iff_of_false (by rw [read_unmapped h]; exact nofun) h

end Readable

/-- The conversion to `int`. -/
def toInt {w : Nat} (a : ADDRINT w) : Int := (a.setWidth 32).toInt

/-- The system calls on file descriptors. -/
inductive SYS
  | SYS_open | SYS_close | SYS_dup | SYS_dup2 | SYS_read
deriving DecidableEq, Repr

/-- A finished call. `cstring` is the string at `arg0`, if it can be read. -/
structure SyscallEvent (w : Nat) where
  num : SYS
  args : SyscallArguments w
  cstring : Option String
deriving DecidableEq, Repr

inductive SyscallMonitorCallback
  | openCallback | closeCallback | readCallback
  | Handle_OPEN | Handle_CLOSE | Handle_DUP | Handle_DUP2 | Handle_READ
  | UnimplementedSystemCall
deriving DecidableEq, Repr

structure SyscallMonitor where
  observers : SYS → List SyscallMonitorCallback
  defaultObserver : Option SyscallMonitorCallback

namespace SyscallMonitor

def empty : SyscallMonitor := ⟨fun _ => [], none⟩

def addObserver (monitor : SyscallMonitor) (num : SYS) (callback : SyscallMonitorCallback) :
    SyscallMonitor :=
  { monitor with
    observers := Function.update monitor.observers num (monitor.observers num ++ [callback]) }

def setDefaultObserver (monitor : SyscallMonitor) (callback : SyscallMonitorCallback) :
    SyscallMonitor :=
  { monitor with defaultObserver := some callback }

/-- `PathMonitor::activate`. -/
def activate (monitor : SyscallMonitor) : SyscallMonitor :=
  ((monitor.addObserver .SYS_open .openCallback).addObserver .SYS_close .closeCallback).addObserver
    .SYS_read .readCallback

/-- The registrations of `main`, after those of a path source. -/
def main : SyscallMonitor :=
  (((((empty.activate.setDefaultObserver .UnimplementedSystemCall).addObserver
    .SYS_close .Handle_CLOSE).addObserver
    .SYS_dup .Handle_DUP).addObserver
    .SYS_open .Handle_OPEN).addObserver
    .SYS_read .Handle_READ).addObserver
    .SYS_dup2 .Handle_DUP2

/-- The callbacks `endSyscall` calls. -/
def callbacks (monitor : SyscallMonitor) (num : SYS) : List SyscallMonitorCallback :=
  match monitor.observers num with
  | [] => monitor.defaultObserver.toList
  | callbacks => callbacks

theorem main_callbacks (num : SYS) : main.callbacks num = match num with
    | .SYS_open => [.openCallback, .Handle_OPEN]
    | .SYS_close => [.closeCallback, .Handle_CLOSE]
    | .SYS_dup => [.Handle_DUP]
    | .SYS_dup2 => [.Handle_DUP2]
    | .SYS_read => [.readCallback, .Handle_READ] := by
  cases num <;> rfl

end SyscallMonitor

end Dytan
