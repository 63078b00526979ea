import Dytan.Monitor.Dispatch
import Dytan.Monitor.Path
import Dytan.Taint.Range

/-!
# The handlers of `main` (`syscall_functions.cpp`, `dytan.cpp`)

`Handler`: the functions `main` registers for system calls, and `mainRegistrations` its `addObserver`
calls with the call numbers of ia32. Most handlers do nothing; `handle_OPEN` and `handle_DUP` keep
`openFiles`, the former through a pointer it does not test, `handle_SOCKETCALL` aborts on the calls it
does not list, and the others remove the entries of a range from `memTaintMap`.

`Handler.cleared` lists the addresses a handler visits: it removes the entries there and leaves the
others alone (`Handler.run_spec`).
-/

namespace Dytan

/-! ## Numbers -/

namespace Dispatch

def SYS_read : BitVec 32 := 3
def SYS_write : BitVec 32 := 4
def SYS_open : BitVec 32 := 5
def SYS_close : BitVec 32 := 6
def SYS_waitpid : BitVec 32 := 7
def SYS_link : BitVec 32 := 9
def SYS_unlink : BitVec 32 := 10
def SYS_time : BitVec 32 := 13
def SYS_chmod : BitVec 32 := 15
def SYS_lseek : BitVec 32 := 19
def SYS_getpid : BitVec 32 := 20
def SYS_alarm : BitVec 32 := 27
def SYS_utime : BitVec 32 := 30
def SYS_access : BitVec 32 := 33
def SYS_rename : BitVec 32 := 38
def SYS_dup : BitVec 32 := 41
def SYS_brk : BitVec 32 := 45
def SYS_ioctl : BitVec 32 := 54
def SYS_dup2 : BitVec 32 := 63
def SYS_gettimeofday : BitVec 32 := 78
def SYS_readlink : BitVec 32 := 85
def SYS_mmap : BitVec 32 := 90
def SYS_munmap : BitVec 32 := 91
def SYS_ftruncate : BitVec 32 := 93
def SYS_socketcall : BitVec 32 := 102
def SYS_fsync : BitVec 32 := 118
def SYS_clone : BitVec 32 := 120
def SYS_uname : BitVec 32 := 122
def SYS_mprotect : BitVec 32 := 125
def SYS__llseek : BitVec 32 := 140
def SYS_getdents : BitVec 32 := 141
def SYS_flock : BitVec 32 := 143
def SYS_writev : BitVec 32 := 146
def SYS_poll : BitVec 32 := 168
def SYS_rt_sigaction : BitVec 32 := 174
def SYS_rt_sigprocmask : BitVec 32 := 175
def SYS_mmap2 : BitVec 32 := 192
def SYS_stat64 : BitVec 32 := 195
def SYS_lstat64 : BitVec 32 := 196
def SYS_fstat64 : BitVec 32 := 197
def SYS_getuid32 : BitVec 32 := 199
def SYS_getgid32 : BitVec 32 := 200
def SYS_geteuid32 : BitVec 32 := 201
def SYS_getegid32 : BitVec 32 := 202
def SYS_chown32 : BitVec 32 := 212
def SYS_getdents64 : BitVec 32 := 220
def SYS_fcntl64 : BitVec 32 := 221
def SYS_gettid : BitVec 32 := 224
def SYS_set_thread_area : BitVec 32 := 243
def SYS_set_tid_address : BitVec 32 := 258
def SYS_tgkill : BitVec 32 := 270

/-- The arguments the callbacks on file descriptors read. -/
def SyscallArguments.onFiles (args : SyscallArguments) : Dytan.SyscallArguments 32 :=
  ⟨args.arg0, args.arg1, args.ret⟩

section
variable (args : SyscallArguments)

@[simp] theorem SyscallArguments.onFiles_arg0 : args.onFiles.arg0 = args.arg0 := rfl
@[simp] theorem SyscallArguments.onFiles_arg1 : args.onFiles.arg1 = args.arg1 := rfl
@[simp] theorem SyscallArguments.onFiles_ret : args.onFiles.ret = args.ret := rfl

end

end Dispatch

open Dispatch (SYS_read SYS_write SYS_open SYS_close SYS_waitpid SYS_link SYS_unlink SYS_time
  SYS_chmod SYS_lseek SYS_getpid SYS_alarm SYS_utime SYS_access SYS_rename SYS_dup SYS_brk SYS_ioctl
  SYS_dup2 SYS_gettimeofday SYS_readlink SYS_mmap SYS_munmap SYS_ftruncate SYS_socketcall SYS_fsync
  SYS_clone SYS_uname SYS_mprotect SYS__llseek SYS_getdents SYS_flock SYS_writev SYS_poll
  SYS_rt_sigaction SYS_rt_sigprocmask SYS_mmap2 SYS_stat64 SYS_lstat64 SYS_fstat64 SYS_getuid32
  SYS_getgid32 SYS_geteuid32 SYS_getegid32 SYS_chown32 SYS_getdents64 SYS_fcntl64 SYS_gettid
  SYS_set_thread_area SYS_set_tid_address SYS_tgkill)

/-! ## Clearing a range -/

abbrev MemTaintMap := ADDRINT 32 → Option Bitset

/-- The loop of the handlers that clear taint. -/
def removeTaint (memTaintMap : MemTaintMap) (start stop : ADDRINT 32) : MemTaintMap :=
  (addrRange start stop).foldl (fun map addr => Function.update map addr none) memTaintMap

/-- The entries at `addrs` are removed and the others kept. -/
def without (memTaintMap : MemTaintMap) (addrs : List (ADDRINT 32)) : MemTaintMap :=
  fun a => if a ∈ addrs then none else memTaintMap a

section
variable (map : MemTaintMap)

@[simp] theorem without_nil : without map [] = map := by
  funext a
  simp [without]

theorem without_append (addrs addrs' : List (ADDRINT 32)) :
    without map (addrs ++ addrs') = without (without map addrs) addrs' := by
  funext a
  simp only [without, List.mem_append]
  by_cases h : a ∈ addrs' <;> simp [h]

theorem removeTaint_eq (start stop : ADDRINT 32) :
    removeTaint map start stop = without map (addrRange start stop) := by
  unfold removeTaint
  generalize addrRange start stop = addrs
  induction addrs generalizing map with
  | nil => rw [List.foldl_nil, without_nil]
  | cons addr addrs ih =>
    rw [List.foldl_cons, ih, show addr :: addrs = [addr] ++ addrs from rfl, without_append]
    congr 1
    funext a
    simp [without, Function.update_apply]

/-- Nothing changes exactly when there is nothing to remove. -/
theorem without_eq_iff (addrs : List (ADDRINT 32)) :
    without map addrs = map ↔ ∀ a ∈ addrs, map a = none := by
  constructor
  · intro h a ha
    rw [← h]
    exact if_pos ha
  · intro h
    funext a
    by_cases ha : a ∈ addrs
    · rw [h a ha]
      exact if_pos ha
    · exact if_neg ha

end

/-! ## The sizes on ia32 -/

def sizeofStat64 : ADDRINT 32 := 96
def sizeofTimeval : ADDRINT 32 := 8
def sizeofTimezone : ADDRINT 32 := 8
/-- The structure of the C library, not the kernel's. -/
def sizeofSigaction : ADDRINT 32 := 140
/-- The set of the C library, not the kernel's. -/
def sizeofSigset : ADDRINT 32 := 128
def sizeofTime : ADDRINT 32 := 4
def sizeofUtsname : ADDRINT 32 := 390

/-! ## The handlers -/

section
variable (memTaintMap : MemTaintMap) (args : Dispatch.SyscallArguments)

def handle_FSTAT64 : MemTaintMap := removeTaint memTaintMap args.arg1 (args.arg1 + sizeofStat64)

def handle_LSTAT64 : MemTaintMap := removeTaint memTaintMap args.arg1 (args.arg1 + sizeofStat64)

def handle_STAT64 : MemTaintMap := removeTaint memTaintMap args.arg1 (args.arg1 + sizeofStat64)

def handle_GETDENTS64 : MemTaintMap := removeTaint memTaintMap args.arg1 (args.arg1 + args.arg2)

def handle_GETTIMEOFDAY : MemTaintMap :=
  let memTaintMap := removeTaint memTaintMap args.arg0 (args.arg0 + sizeofTimeval)
  removeTaint memTaintMap args.arg1 (args.arg1 + sizeofTimezone)

def handle_MMAP : MemTaintMap := removeTaint memTaintMap args.ret (args.ret + args.arg1)

def handle_MMAP2 : MemTaintMap := removeTaint memTaintMap args.ret (args.ret + args.arg1)

def handle_READLINK : MemTaintMap := removeTaint memTaintMap args.arg1 (args.arg1 + args.ret)

def handle_RT_SIGACTION : MemTaintMap :=
  if args.arg2 ≠ 0 then removeTaint memTaintMap args.arg2 (args.arg2 + sizeofSigaction)
  else memTaintMap

def handle_RT_SIGPROCMASK : MemTaintMap :=
  if args.arg2 ≠ 0 then removeTaint memTaintMap args.arg2 (args.arg2 + sizeofSigset)
  else memTaintMap

def handle_TIME : MemTaintMap :=
  if args.arg0 ≠ 0 then removeTaint memTaintMap args.arg0 (args.arg0 + sizeofTime)
  else memTaintMap

def handle_UNAME : MemTaintMap := removeTaint memTaintMap args.arg0 (args.arg0 + sizeofUtsname)

/-- `Handle_SOCKETCALL` returns; the other calls (8 is `SYS_SOCKETPAIR`) make it abort. -/
def handle_SOCKETCALL : Bool :=
  let call := toInt args.arg0
  decide (1 ≤ call ∧ call ≤ 17 ∧ call ≠ 8)

end

inductive Handler
  | UnimplementedSystemCall
  | Handle_ACCESS | Handle_ALARM | Handle_BRK | Handle_CHMOD | Handle_CLOSE | Handle_DUP
  | Handle_FCNTL64 | Handle_FLOCK | Handle_FSTAT64 | Handle_FSYNC | Handle_FTRUNCATE
  | Handle_GETDENTS64 | Handle_GETPID | Handle_GETTIMEOFDAY | Handle_GETUID32 | Handle_IOCTL
  | Handle_LINK | Handle_LLSEEK | Handle_LSEEK | Handle_LSTAT64 | Handle_MMAP | Handle_MMAP2
  | Handle_MPROTECT | Handle_MUNMAP | Handle_OPEN | Handle_READ | Handle_READLINK | Handle_RENAME
  | Handle_RT_SIGACTION | Handle_RT_SIGPROCMASK | Handle_SET_THREAD_AREA | Handle_STAT64
  | Handle_SOCKETCALL | Handle_TIME | Handle_UNAME | Handle_UNLINK | Handle_UTIME | Handle_WRITE
  | Handle_WRITEV | Handle_POLL | Handle_GETTID | Handle_TGKILL | Handle_GETGID32
  | Handle_GETEUID32 | Handle_GETEGID32 | Handle_GETDENTS | Handle_CLONE | Handle_DUP2
  | Handle_WAITPID | Handle_SET_TID_ADDRESS | Handle_CHOWN32
deriving DecidableEq, Repr

/-- The globals the handlers change. -/
structure HandlerState where
  memTaintMap : MemTaintMap
  openFiles : Int → Option String

namespace Handler

/-- A handler on a finished call; `cstring` is the string at `arg0`, if it can be read. -/
def run (s : HandlerState) (args : Dispatch.SyscallArguments) (cstring : Option String) :
    Handler → Option HandlerState
  | Handle_FSTAT64 => some { s with memTaintMap := handle_FSTAT64 s.memTaintMap args }
  | Handle_LSTAT64 => some { s with memTaintMap := handle_LSTAT64 s.memTaintMap args }
  | Handle_STAT64 => some { s with memTaintMap := handle_STAT64 s.memTaintMap args }
  | Handle_GETDENTS64 => some { s with memTaintMap := handle_GETDENTS64 s.memTaintMap args }
  | Handle_GETTIMEOFDAY => some { s with memTaintMap := handle_GETTIMEOFDAY s.memTaintMap args }
  | Handle_MMAP => some { s with memTaintMap := handle_MMAP s.memTaintMap args }
  | Handle_MMAP2 => some { s with memTaintMap := handle_MMAP2 s.memTaintMap args }
  | Handle_READLINK => some { s with memTaintMap := handle_READLINK s.memTaintMap args }
  | Handle_RT_SIGACTION => some { s with memTaintMap := handle_RT_SIGACTION s.memTaintMap args }
  | Handle_RT_SIGPROCMASK =>
    some { s with memTaintMap := handle_RT_SIGPROCMASK s.memTaintMap args }
  | Handle_TIME => some { s with memTaintMap := handle_TIME s.memTaintMap args }
  | Handle_UNAME => some { s with memTaintMap := handle_UNAME s.memTaintMap args }
  | Handle_OPEN => do
    let openFiles ← handle_OPEN s.openFiles args.onFiles cstring
    return { s with openFiles := openFiles }
  | Handle_DUP => some { s with openFiles := handle_DUP s.openFiles args.onFiles }
  | Handle_SOCKETCALL => if handle_SOCKETCALL args then some s else none
  | UnimplementedSystemCall | Handle_ACCESS | Handle_ALARM | Handle_BRK | Handle_CHMOD
  | Handle_CLOSE | Handle_FCNTL64 | Handle_FLOCK | Handle_FSYNC | Handle_FTRUNCATE
  | Handle_GETPID | Handle_GETUID32 | Handle_IOCTL | Handle_LINK | Handle_LLSEEK | Handle_LSEEK
  | Handle_MPROTECT | Handle_MUNMAP | Handle_READ | Handle_RENAME | Handle_SET_THREAD_AREA
  | Handle_UNLINK | Handle_UTIME | Handle_WRITE | Handle_WRITEV | Handle_POLL | Handle_GETTID
  | Handle_TGKILL | Handle_GETGID32 | Handle_GETEUID32 | Handle_GETEGID32 | Handle_GETDENTS
  | Handle_CLONE | Handle_DUP2 | Handle_WAITPID | Handle_SET_TID_ADDRESS | Handle_CHOWN32 => some s

/-- The addresses a handler visits. -/
def cleared (args : Dispatch.SyscallArguments) : Handler → List (ADDRINT 32)
  | Handle_FSTAT64 | Handle_LSTAT64 | Handle_STAT64 =>
    addrRange args.arg1 (args.arg1 + sizeofStat64)
  | Handle_GETDENTS64 => addrRange args.arg1 (args.arg1 + args.arg2)
  | Handle_GETTIMEOFDAY => addrRange args.arg0 (args.arg0 + sizeofTimeval) ++
      addrRange args.arg1 (args.arg1 + sizeofTimezone)
  | Handle_MMAP | Handle_MMAP2 => addrRange args.ret (args.ret + args.arg1)
  | Handle_READLINK => addrRange args.arg1 (args.arg1 + args.ret)
  | Handle_RT_SIGACTION =>
    if args.arg2 ≠ 0 then addrRange args.arg2 (args.arg2 + sizeofSigaction) else []
  | Handle_RT_SIGPROCMASK =>
    if args.arg2 ≠ 0 then addrRange args.arg2 (args.arg2 + sizeofSigset) else []
  | Handle_TIME => if args.arg0 ≠ 0 then addrRange args.arg0 (args.arg0 + sizeofTime) else []
  | Handle_UNAME => addrRange args.arg0 (args.arg0 + sizeofUtsname)
  | _ => []

/-- A handler returns unless it is `Handle_SOCKETCALL` on a call it does not list, or `Handle_OPEN`
without a string. -/
structure Returns (args : Dispatch.SyscallArguments) (cstring : Option String) (handler : Handler) :
    Prop where
  listed : handler = Handle_SOCKETCALL → handle_SOCKETCALL args = true
  named : handler = Handle_OPEN → cstring.isSome

theorem run_spec (s : HandlerState) {args : Dispatch.SyscallArguments} {cstring : Option String}
    {handler : Handler} (h : handler.Returns args cstring) :
    ∃ openFiles, handler.run s args cstring =
      some ⟨without s.memTaintMap (handler.cleared args), openFiles⟩ := by
  -- a handler that clears nothing
  have hnil : ∀ openFiles, (⟨s.memTaintMap, openFiles⟩ : HandlerState) =
      ⟨without s.memTaintMap [], openFiles⟩ := fun openFiles => by rw [without_nil]
  cases handler with
  | Handle_FSTAT64 => exact ⟨_, by rw [run, handle_FSTAT64, removeTaint_eq]; rfl⟩
  | Handle_LSTAT64 => exact ⟨_, by rw [run, handle_LSTAT64, removeTaint_eq]; rfl⟩
  | Handle_STAT64 => exact ⟨_, by rw [run, handle_STAT64, removeTaint_eq]; rfl⟩
  | Handle_GETDENTS64 => exact ⟨_, by rw [run, handle_GETDENTS64, removeTaint_eq]; rfl⟩
  | Handle_GETTIMEOFDAY =>
    refine ⟨s.openFiles, ?_⟩
    simp only [run, handle_GETTIMEOFDAY, removeTaint_eq, cleared, without_append]
  | Handle_MMAP => exact ⟨_, by rw [run, handle_MMAP, removeTaint_eq]; rfl⟩
  | Handle_MMAP2 => exact ⟨_, by rw [run, handle_MMAP2, removeTaint_eq]; rfl⟩
  | Handle_READLINK => exact ⟨_, by rw [run, handle_READLINK, removeTaint_eq]; rfl⟩
  | Handle_RT_SIGACTION =>
    refine ⟨s.openFiles, ?_⟩
    simp only [run, handle_RT_SIGACTION, removeTaint_eq, cleared]
    split <;> simp only [without_nil]
  | Handle_RT_SIGPROCMASK =>
    refine ⟨s.openFiles, ?_⟩
    simp only [run, handle_RT_SIGPROCMASK, removeTaint_eq, cleared]
    split <;> simp only [without_nil]
  | Handle_TIME =>
    refine ⟨s.openFiles, ?_⟩
    simp only [run, handle_TIME, removeTaint_eq, cleared]
    split <;> simp only [without_nil]
  | Handle_UNAME => exact ⟨_, by rw [run, handle_UNAME, removeTaint_eq]; rfl⟩
  | Handle_OPEN =>
    obtain ⟨pathname, rfl⟩ := Option.isSome_iff_exists.1 (h.named rfl)
    exact ⟨_, congrArg some (hnil _)⟩
  | Handle_SOCKETCALL => exact ⟨_, by rw [run, if_pos (h.listed rfl)]; exact congrArg some (hnil _)⟩
  | _ => exact ⟨_, congrArg some (hnil _)⟩

theorem run_eq_none (s : HandlerState) {args : Dispatch.SyscallArguments} {cstring : Option String}
    {handler : Handler} (h : ¬ handler.Returns args cstring) : handler.run s args cstring = none := by
  by_contra hrun
  refine h ⟨?_, ?_⟩
  · rintro rfl
    by_contra hlisted
    exact hrun (if_neg hlisted)
  · rintro rfl
    cases cstring with
    | none => exact absurd rfl hrun
    | some pathname => rfl

end Handler

/-! ## The table of `main` -/

open Handler in
/-- The `addObserver` calls of `main`. -/
def mainRegistrations : List (BitVec 32 × Handler) :=
  [(SYS_access, Handle_ACCESS), (SYS_alarm, Handle_ALARM), (SYS_brk, Handle_BRK),
    (SYS_chmod, Handle_CHMOD), (SYS_close, Handle_CLOSE), (SYS_dup, Handle_DUP),
    (SYS_fcntl64, Handle_FSTAT64), (SYS_flock, Handle_FLOCK), (SYS_fstat64, Handle_FSTAT64),
    (SYS_fsync, Handle_FSYNC), (SYS_ftruncate, Handle_FTRUNCATE),
    (SYS_getdents64, Handle_GETDENTS64), (SYS_getpid, Handle_GETPID),
    (SYS_gettimeofday, Handle_GETTIMEOFDAY), (SYS_getuid32, Handle_GETUID32),
    (SYS_ioctl, Handle_IOCTL), (SYS_link, Handle_LINK), (SYS__llseek, Handle_LLSEEK),
    (SYS_lseek, Handle_LSTAT64), (SYS_lstat64, Handle_LSTAT64), (SYS_mmap, Handle_MMAP),
    (SYS_mmap2, Handle_MMAP2), (SYS_mprotect, Handle_MPROTECT), (SYS_munmap, Handle_MUNMAP),
    (SYS_open, Handle_OPEN), (SYS_read, Handle_READ), (SYS_readlink, Handle_READLINK),
    (SYS_rename, Handle_RENAME), (SYS_rt_sigaction, Handle_RT_SIGACTION),
    (SYS_rt_sigprocmask, Handle_RT_SIGPROCMASK), (SYS_set_thread_area, Handle_SET_THREAD_AREA),
    (SYS_stat64, Handle_STAT64), (SYS_socketcall, Handle_SOCKETCALL), (SYS_time, Handle_TIME),
    (SYS_uname, Handle_UNAME), (SYS_unlink, Handle_UNLINK), (SYS_utime, Handle_UTIME),
    (SYS_write, Handle_WRITE), (SYS_writev, Handle_WRITEV), (SYS_poll, Handle_POLL),
    (SYS_gettid, Handle_GETTID), (SYS_tgkill, Handle_TGKILL), (SYS_getgid32, Handle_GETGID32),
    (SYS_geteuid32, Handle_GETEUID32), (SYS_getegid32, Handle_GETEGID32),
    (SYS_getdents, Handle_GETDENTS), (SYS_clone, Handle_CLONE), (SYS_dup2, Handle_DUP2),
    (SYS_waitpid, Handle_WAITPID), (SYS_set_tid_address, Handle_SET_TID_ADDRESS),
    (SYS_chown32, Handle_CHOWN32)]

end Dytan
