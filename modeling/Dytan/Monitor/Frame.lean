import Dytan.Monitor.System

/-!
# What a successful call writes and what its handler clears

`ClearingCall`: the calls `main` registers a clearing handler for. `ClearingCall.written` is what the
kernel writes when such a call succeeds and `Framed` says that the callbacks remove the taint of
exactly these bytes. `framed_iff`: they do if and only if `ClearingCall.Holds`, which compares the
range the handler visits with the one the kernel writes and asks that they differ only in bytes
without taint.

They differ where `main` registers the handler of another call (`lseek`, `fcntl64`), where the handler
uses the size of the C library's structure and not the kernel's (`rt_sigaction`, `rt_sigprocmask`), the
size of the buffer and not of the result (`getdents64`), an argument that is not the length of the
mapping (`mmap`, `mmap2`), or does not test for `NULL` (`gettimeofday`), and for a range that reaches
the last byte of memory, which the loops do not visit.
-/

namespace Dytan

open Dispatch (SYS_read SYS_open SYS_close SYS_socketcall SYS_stat64 SYS_lstat64 SYS_fstat64
  SYS_fcntl64 SYS_lseek SYS_getdents64 SYS_gettimeofday SYS_readlink SYS_rt_sigaction
  SYS_rt_sigprocmask SYS_time SYS_uname SYS_mmap SYS_mmap2)

/-! ## Ranges -/

/-- The bytes the loop over `start .. start + size` visits. -/
def visited (start size : ADDRINT 32) : Set (ADDRINT 32) :=
  if RangeWraps start size then ∅ else bytesAt start size

theorem addrRange_visited (start size : ADDRINT 32) :
    {a | a ∈ addrRange start (start + size)} = visited start size := by
  unfold visited
  split
  · rename_i h
    rw [addrRange_wraps h]
    ext a
    simp
  · rename_i h
    exact addrRange_bytes h

/-- No byte of the set has an entry. -/
def NoTaint (map : MemTaintMap) (bytes : Set (ADDRINT 32)) : Prop := ∀ a ∈ bytes, map a = none

/-- The sets differ only in bytes without an entry. -/
def SameTaint (map : MemTaintMap) (cleared written : Set (ADDRINT 32)) : Prop :=
  NoTaint map (cleared \ written) ∧ NoTaint map (written \ cleared)

section
variable {map : MemTaintMap} {bytes : Set (ADDRINT 32)} {start size : ADDRINT 32}

theorem sameTaint_self : SameTaint map bytes bytes := by
  refine ⟨fun a ha => ?_, fun a ha => ?_⟩ <;> exact absurd ha.1 ha.2

theorem sameTaint_empty_right : SameTaint map bytes ∅ ↔ NoTaint map bytes := by
  simp [SameTaint, NoTaint]

theorem sameTaint_empty_left : SameTaint map ∅ bytes ↔ NoTaint map bytes := by
  simp [SameTaint, NoTaint]

/-- A loop over the bytes that are written misses them when the range wraps. -/
theorem sameTaint_visited :
    SameTaint map (visited start size) (bytesAt start size) ↔
      (RangeWraps start size → NoTaint map (bytesAt start size)) := by
  by_cases h : RangeWraps start size
  · rw [visited, if_pos h, sameTaint_empty_left]
    exact ⟨fun hn _ => hn, fun hn => hn h⟩
  · rw [visited, if_neg h]
    exact iff_of_true sameTaint_self fun hw => absurd hw h

theorem sameTaint_nothing :
    SameTaint map (visited start size) ∅ ↔
      (¬ RangeWraps start size → NoTaint map (bytesAt start size)) := by
  rw [sameTaint_empty_right]
  by_cases h : RangeWraps start size
  · rw [visited, if_pos h]
    exact iff_of_true (fun a ha => absurd ha (Set.notMem_empty a)) fun hn => absurd h hn
  · rw [visited, if_neg h]
    exact ⟨fun hn _ => hn, fun hn => hn h⟩

/-- Removing `addrs` removes exactly the entries in `bytes`. -/
theorem without_exact_iff {addrs : List (ADDRINT 32)} :
    (NoTaint (without map addrs) bytes ∧ ∀ a ∉ bytes, without map addrs a = map a) ↔
      SameTaint map {a | a ∈ addrs} bytes := by
  constructor
  · rintro ⟨hin, hout⟩
    refine ⟨fun a ha => ?_, fun a ha => ?_⟩
    · rw [← hout a ha.2]
      exact if_pos ha.1
    · rw [← hin a ha.1]
      exact (if_neg ha.2).symm
  · rintro ⟨hcleared, hwritten⟩
    refine ⟨fun a ha => ?_, fun a ha => ?_⟩
    · by_cases hm : a ∈ addrs
      · exact if_pos hm
      · exact (if_neg hm).trans (hwritten a ⟨ha, hm⟩)
    · by_cases hm : a ∈ addrs
      · exact (if_pos hm).trans (hcleared a ⟨hm, ha⟩).symm
      · exact if_neg hm

end

/-! ## The calls -/

inductive ClearingCall
  | stat64 | fstat64 | lstat64 | lseek | fcntl64 | getdents64 | gettimeofday | readlink
  | rt_sigaction | rt_sigprocmask | time | uname | mmap | mmap2
deriving DecidableEq, Repr

/-- What the arguments do not tell of a successful call: how many bytes a command of `fcntl64` writes
at `arg2`, none when it takes an integer, and the length of a new mapping. -/
structure KernelLengths where
  fcntl : ADDRINT 32
  mapping : ADDRINT 32

namespace ClearingCall

def num : ClearingCall → BitVec 32
  | stat64 => SYS_stat64
  | fstat64 => SYS_fstat64
  | lstat64 => SYS_lstat64
  | lseek => SYS_lseek
  | fcntl64 => SYS_fcntl64
  | getdents64 => SYS_getdents64
  | gettimeofday => SYS_gettimeofday
  | readlink => SYS_readlink
  | rt_sigaction => SYS_rt_sigaction
  | rt_sigprocmask => SYS_rt_sigprocmask
  | time => SYS_time
  | uname => SYS_uname
  | mmap => SYS_mmap
  | mmap2 => SYS_mmap2

/-- The kernel's `struct sigaction`: the handler, the flags, the restorer and 64 signals. -/
def kernelSigaction : ADDRINT 32 := 20

/-- The bytes at a pointer that may be `NULL`. -/
def atPointer (p size : ADDRINT 32) : Set (ADDRINT 32) := if p ≠ 0 then bytesAt p size else ∅

section
variable (lengths : KernelLengths) (args : Dispatch.SyscallArguments) (map : MemTaintMap)

/-- What the kernel writes; `arg3` of `rt_sigprocmask` is the size of the set. -/
def written : ClearingCall → Set (ADDRINT 32)
  | stat64 | fstat64 | lstat64 => bytesAt args.arg1 sizeofStat64
  | lseek => ∅
  | fcntl64 => bytesAt args.arg2 lengths.fcntl
  | getdents64 | readlink => bytesAt args.arg1 args.ret
  | gettimeofday => atPointer args.arg0 sizeofTimeval ∪ atPointer args.arg1 sizeofTimezone
  | rt_sigaction => atPointer args.arg2 kernelSigaction
  | rt_sigprocmask => atPointer args.arg2 args.arg3
  | time => atPointer args.arg0 sizeofTime
  | uname => bytesAt args.arg0 sizeofUtsname
  | mmap | mmap2 => bytesAt args.ret lengths.mapping

/-- When the handler clears what the kernel writes (module doc). -/
def Holds : ClearingCall → Prop
  | stat64 | fstat64 | lstat64 =>
    RangeWraps args.arg1 sizeofStat64 → NoTaint map (bytesAt args.arg1 sizeofStat64)
  | lseek => ¬ RangeWraps args.arg1 sizeofStat64 → NoTaint map (bytesAt args.arg1 sizeofStat64)
  | fcntl64 => SameTaint map (visited args.arg1 sizeofStat64) (bytesAt args.arg2 lengths.fcntl)
  | getdents64 => SameTaint map (visited args.arg1 args.arg2) (bytesAt args.arg1 args.ret)
  | gettimeofday =>
    SameTaint map (visited args.arg0 sizeofTimeval ∪ visited args.arg1 sizeofTimezone)
      (atPointer args.arg0 sizeofTimeval ∪ atPointer args.arg1 sizeofTimezone)
  | readlink => RangeWraps args.arg1 args.ret → NoTaint map (bytesAt args.arg1 args.ret)
  | rt_sigaction => args.arg2 ≠ 0 →
    SameTaint map (visited args.arg2 sizeofSigaction) (bytesAt args.arg2 kernelSigaction)
  | rt_sigprocmask => args.arg2 ≠ 0 →
    SameTaint map (visited args.arg2 sizeofSigset) (bytesAt args.arg2 args.arg3)
  | time => args.arg0 ≠ 0 → RangeWraps args.arg0 sizeofTime →
    NoTaint map (bytesAt args.arg0 sizeofTime)
  | uname => RangeWraps args.arg0 sizeofUtsname → NoTaint map (bytesAt args.arg0 sizeofUtsname)
  | mmap | mmap2 =>
    SameTaint map (visited args.ret args.arg1) (bytesAt args.ret lengths.mapping)

end

/-- The handler `main` registers. -/
def registeredHandler : ClearingCall → Handler
  | stat64 => .Handle_STAT64
  | fstat64 | fcntl64 => .Handle_FSTAT64
  | lstat64 | lseek => .Handle_LSTAT64
  | getdents64 => .Handle_GETDENTS64
  | gettimeofday => .Handle_GETTIMEOFDAY
  | readlink => .Handle_READLINK
  | rt_sigaction => .Handle_RT_SIGACTION
  | rt_sigprocmask => .Handle_RT_SIGPROCMASK
  | time => .Handle_TIME
  | uname => .Handle_UNAME
  | mmap => .Handle_MMAP
  | mmap2 => .Handle_MMAP2

/-- Only that handler runs. -/
theorem observers_eq (sources : List TaintSource) (c : ClearingCall) :
    observers sources c.num = [.handler c.registeredHandler] := by
  have hmain : handlers c.num = [c.registeredHandler] := by
    cases c <;> decide
  have hsources : c.num ≠ SYS_open ∧ c.num ≠ SYS_close ∧ c.num ≠ SYS_read ∧
      c.num ≠ SYS_socketcall := by
    cases c <;> decide
  rw [observers_handlers hsources, hmain]
  rfl

theorem sameTaint_atPointer {map : MemTaintMap} {p size size' : ADDRINT 32} :
    SameTaint map {a | a ∈ if p ≠ 0 then addrRange p (p + size) else []} (atPointer p size') ↔
      (p ≠ 0 → SameTaint map (visited p size) (bytesAt p size')) := by
  unfold atPointer
  by_cases hp : p = 0
  · have hempty : {a | a ∈ if p ≠ 0 then addrRange p (p + size) else []} = (∅ : Set (ADDRINT 32)) := by
      ext a
      simp [hp]
    rw [hempty, if_neg (not_not.2 hp)]
    exact iff_of_true sameTaint_self fun hn => absurd hp hn
  · rw [if_pos hp, if_pos hp, addrRange_visited]
    exact ⟨fun h _ => h, fun h => h hp⟩

/-- The handler visits what `Holds` compares with what the kernel writes. -/
theorem sameTaint_cleared_iff (c : ClearingCall) (lengths : KernelLengths)
    (args : Dispatch.SyscallArguments) (map : MemTaintMap) :
    SameTaint map {a | a ∈ c.registeredHandler.cleared args} (c.written lengths args) ↔
      c.Holds lengths args map := by
  cases c with
  | stat64 | fstat64 | lstat64 | readlink | uname =>
    simp only [registeredHandler, Handler.cleared, addrRange_visited]
    exact sameTaint_visited
  | lseek =>
    simp only [registeredHandler, Handler.cleared, addrRange_visited]
    exact sameTaint_nothing
  | fcntl64 | getdents64 | mmap | mmap2 =>
    simp only [registeredHandler, Handler.cleared, addrRange_visited]
    exact Iff.rfl
  | gettimeofday =>
    have hcleared : {a | a ∈ (registeredHandler gettimeofday).cleared args} =
        visited args.arg0 sizeofTimeval ∪ visited args.arg1 sizeofTimezone := by
      rw [← addrRange_visited, ← addrRange_visited]
      ext a
      exact List.mem_append
    rw [hcleared]
    exact Iff.rfl
  | rt_sigaction => exact sameTaint_atPointer
  | rt_sigprocmask => exact sameTaint_atPointer
  | time =>
    refine sameTaint_atPointer.trans ?_
    rw [sameTaint_visited]
    exact Iff.rfl

end ClearingCall

/-! ## The frame -/

/-- The callbacks of a finished call remove the entries in `written` and change no other. -/
def System.Framed (find : Find NetworkCallback) (sources : List TaintSource) (s : System)
    (call : Finished) (written : Set (ADDRINT 32)) : Prop :=
  ∃ s', s.endSyscall find sources call = some s' ∧ NoTaint s'.tool.taint.memTaintMap written ∧
    ∀ a ∉ written, s'.tool.taint.memTaintMap a = s.tool.taint.memTaintMap a

theorem System.framed_handler {find : Find NetworkCallback} {sources : List TaintSource}
    {s : System} {call : Finished} {written : Set (ADDRINT 32)} {c : ClearingCall}
    (hnum : call.args.num = c.num) :
    s.Framed find sources call written ↔
      SameTaint s.tool.taint.memTaintMap {a | a ∈ c.registeredHandler.cleared call.args} written := by
  have hreturns : c.registeredHandler.Returns call.args call.pathname := by
    constructor <;> intro h <;> cases c <;> cases h
  obtain ⟨openFiles, hrun⟩ := @run_handler find s call _ hreturns
  have hend : s.endSyscall find sources call =
      some (s.remove (c.registeredHandler.cleared call.args) openFiles) := by
    rw [endSyscall, hnum, ClearingCall.observers_eq, runObservers, List.foldlM_cons, hrun]
    rfl
  rw [← without_exact_iff]
  constructor
  · rintro ⟨s', hs', hframe⟩
    obtain rfl := Option.some.inj (hend.symm.trans hs')
    exact hframe
  · intro hframe
    exact ⟨_, hend, hframe⟩

/-- The handler of a call clears exactly what the kernel wrote when `Holds` says so. -/
theorem System.framed_iff (find : Find NetworkCallback) (sources : List TaintSource) (s : System)
    (lengths : KernelLengths) (c : ClearingCall) {call : Finished}
    (hnum : call.args.num = c.num) :
    s.Framed find sources call (c.written lengths call.args) ↔
      c.Holds lengths call.args s.tool.taint.memTaintMap := by
  rw [framed_handler hnum]
  exact c.sameTaint_cleared_iff lengths call.args s.tool.taint.memTaintMap

/-- `lseek(3, 0x8000, SEEK_SET)`. -/
def System.lseeks : Finished :=
  ⟨⟨SYS_lseek, 3, 0x8000, 0, 0, 0, 0, 0x8000, 0⟩, "", fun _ => 0, fun _ => ⟨0, 0⟩, .nonNull⟩

theorem System.framed_iff_lseek : ∃ s,
    Lib.run (step (fun _ _ => none) [.path 0, .network 0])
      (noSources.system (fun _ => 0) (fun _ => 0)) [.setNewTaintForMemory 0x9000 4 3] = some s ∧
    (s.Framed (fun _ _ => none) [.path 0, .network 0] lseeks
        (ClearingCall.lseek.written ⟨0, 0⟩ lseeks.args) ↔
      ClearingCall.lseek.Holds ⟨0, 0⟩ lseeks.args s.tool.taint.memTaintMap) :=
  ⟨_, rfl, framed_iff _ _ _ ⟨0, 0⟩ .lseek rfl⟩

/-- The offset is taken for a buffer. -/
theorem System.lseek_clears : ∃ s,
    Lib.run (step (fun _ _ => none) [.path 0, .network 0])
      (noSources.system (fun _ => 0) (fun _ => 0)) [.setNewTaintForMemory 0x8000 4 3] = some s ∧
    ¬ s.Framed (fun _ _ => none) [.path 0, .network 0] lseeks
      (ClearingCall.lseek.written ⟨0, 0⟩ lseeks.args) := by
  obtain ⟨s, hs, hmem⟩ : ∃ s, Lib.run (step (fun _ _ => none) [.path 0, .network 0])
      (noSources.system (fun _ => 0) (fun _ => 0)) [.setNewTaintForMemory 0x8000 4 3] = some s ∧
      s.tool.taint.memTaintMap 0x8000 ≠ none := ⟨_, rfl, by decide⟩
  have hnum : lseeks.args.num = ClearingCall.lseek.num := rfl
  refine ⟨s, hs, fun h => hmem ?_⟩
  have hsame := (framed_handler hnum).1 h
  exact hsame.1 0x8000 ⟨mem_addrRange.2 ⟨by decide, by decide⟩, Set.notMem_empty _⟩

end Dytan
