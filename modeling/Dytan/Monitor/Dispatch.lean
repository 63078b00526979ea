import Mathlib.Data.List.Induction
import Mathlib.Tactic.Cases

/-!
# Dispatch of system calls (`syscall_monitor.H`)

`SyscallMonitor C`: the arguments of each thread's call (`pendingSyscalls`) and the callbacks
registered for each number, where `C` stands for a callback with its argument `v`. Pin runs
`SysBefore` when a thread enters a system call and `SysAfter` when it leaves one; each holds
`syscallLock`, so a run is a sequence of `ThreadEvent`s of any threads.

`endSyscall_delivers`: when every thread alternates the two, each `endSyscall` runs exactly the
callbacks registered for the number of the thread's latest `beginSyscall`, in the order of their
registration and with the arguments of that call, whatever the other threads do.
-/

namespace Dytan.Dispatch

/-- `syscall_arguments`. -/
structure SyscallArguments where
  num : BitVec 32
  arg0 : BitVec 32
  arg1 : BitVec 32
  arg2 : BitVec 32
  arg3 : BitVec 32
  arg4 : BitVec 32
  arg5 : BitVec 32
  ret : BitVec 32
  err : BitVec 32
deriving DecidableEq, Repr

/-- What a map holds for a key it has not seen. -/
def SyscallArguments.zero : SyscallArguments := ⟨0, 0, 0, 0, 0, 0, 0, 0, 0⟩

structure SyscallMonitor (C : Type) where
  pendingSyscalls : BitVec 32 → Option SyscallArguments
  observers : BitVec 32 → Option (List C)
  defaultObserver : Option C

/-- One callback run by `endSyscall`. -/
structure Invocation (C : Type) where
  callback : C
  num : BitVec 32
  args : SyscallArguments
deriving DecidableEq, Repr

/-- What a thread passes to `beginSyscall`. -/
structure Begin where
  num : BitVec 32
  arg0 : BitVec 32
  arg1 : BitVec 32
  arg2 : BitVec 32
  arg3 : BitVec 32
  arg4 : BitVec 32
  arg5 : BitVec 32
deriving DecidableEq, Repr

/-- The arguments of a call with its result. -/
def Begin.args (call : Begin) (ret err : BitVec 32) : SyscallArguments :=
  ⟨call.num, call.arg0, call.arg1, call.arg2, call.arg3, call.arg4, call.arg5, ret, err⟩

inductive ThreadEvent
  /-- `SysBefore` -/
  | before (tid : BitVec 32) (call : Begin)
  /-- `SysAfter` -/
  | after (tid ret err : BitVec 32)
deriving DecidableEq, Repr

def ThreadEvent.tid : ThreadEvent → BitVec 32
  | .before tid _ => tid
  | .after tid _ _ => tid

namespace SyscallMonitor

variable {C : Type}

/-- The constructor; it leaves `defaultObserver` as it finds it. -/
def new (defaultObserver : Option C) : SyscallMonitor C := ⟨fun _ => none, fun _ => none, defaultObserver⟩

def addObserver (monitor : SyscallMonitor C) (num : BitVec 32) (callback : C) : SyscallMonitor C :=
  { monitor with observers := Function.update monitor.observers num
                   (some ((monitor.observers num).getD [] ++ [callback])) }

def setDefaultObserver (monitor : SyscallMonitor C) (callback : C) : SyscallMonitor C :=
  { monitor with defaultObserver := some callback }

def beginSyscall (monitor : SyscallMonitor C) (tid : BitVec 32) (call : Begin) : SyscallMonitor C :=
  { monitor with pendingSyscalls := Function.update monitor.pendingSyscalls tid
                   (some (call.args 0 0)) }

/-- The reference `pendingSyscalls[tid]` makes an entry when there is none. -/
def endSyscall (monitor : SyscallMonitor C) (tid ret err : BitVec 32) :
    SyscallMonitor C × List (Invocation C) :=
  let pending := (monitor.pendingSyscalls tid).getD .zero
  let args := { pending with ret := ret, err := err }
  ({ monitor with pendingSyscalls := Function.update monitor.pendingSyscalls tid (some pending) },
    match monitor.observers args.num with
    | some callbacks => callbacks.map (⟨·, args.num, args⟩)
    | none => monitor.defaultObserver.toList.map (⟨·, args.num, args⟩))

/-- The monitor after a list of `addObserver` calls. -/
def registerAll (monitor : SyscallMonitor C) (regs : List (BitVec 32 × C)) : SyscallMonitor C :=
  regs.foldl (fun monitor reg => monitor.addObserver reg.1 reg.2) monitor

def step (monitor : SyscallMonitor C) : ThreadEvent → SyscallMonitor C × List (Invocation C)
  | .before tid call => (monitor.beginSyscall tid call, [])
  | .after tid ret err => monitor.endSyscall tid ret err

def run (monitor : SyscallMonitor C) (events : List ThreadEvent) : SyscallMonitor C :=
  events.foldl (fun monitor event => (monitor.step event).1) monitor

end SyscallMonitor

/-! ## Threads -/

/-- The events of one thread. -/
def ofThread (tid : BitVec 32) (events : List ThreadEvent) : List ThreadEvent :=
  events.filter (·.tid = tid)

/-- `SysBefore` and `SysAfter` in turns; the flag says that a call is pending. -/
def Alternates : Bool → List ThreadEvent → Prop
  | _, [] => True
  | false, .before _ _ :: events => Alternates true events
  | true, .after _ _ _ :: events => Alternates false events
  | _, _ => False

/-- The latest call of a thread after one event more. -/
def latestStep (tid : BitVec 32) (call : Option Begin) : ThreadEvent → Option Begin
  | .before tid' call' => if tid' = tid then some call' else call
  | .after _ _ _ => call

/-- The call of the latest `SysBefore` of a thread. -/
def latest (tid : BitVec 32) (events : List ThreadEvent) : Option Begin :=
  events.foldl (latestStep tid) none

/-- The callbacks registered for a number, in order. -/
def registered {C : Type} (regs : List (BitVec 32 × C)) (num : BitVec 32) : List C :=
  (regs.filter (·.1 = num)).map (·.2)

/-- What the end of a call should run: the registered callbacks, or the default if there are
none. -/
def expected {C : Type} (regs : List (BitVec 32 × C)) (defaultObserver : Option C) (call : Begin)
    (ret err : BitVec 32) : List (Invocation C) :=
  (if registered regs call.num = [] then defaultObserver.toList else registered regs call.num).map
    (⟨·, call.num, call.args ret err⟩)

section
variable {C : Type} {monitor : SyscallMonitor C} {tid : BitVec 32} {events : List ThreadEvent}

/-- The entry of a number after the registrations. -/
theorem registerAll_observers (monitor : SyscallMonitor C) (regs : List (BitVec 32 × C))
    (num : BitVec 32) : (monitor.registerAll regs).observers num =
      if registered regs num = [] then monitor.observers num
      else some ((monitor.observers num).getD [] ++ registered regs num) := by
  induction regs generalizing monitor with
  | nil => rfl
  | cons reg regs ih =>
    have hcons : registered (reg :: regs) num =
        (if reg.1 = num then [reg.2] else []) ++ registered regs num := by
      by_cases h : reg.1 = num <;> simp [registered, h]
    rw [SyscallMonitor.registerAll, List.foldl_cons, ← SyscallMonitor.registerAll, ih, hcons]
    by_cases h : reg.1 = num
    · subst h
      by_cases hr : registered regs reg.1 = [] <;> simp [SyscallMonitor.addObserver, hr]
    · simp [SyscallMonitor.addObserver, h, Function.update_of_ne (Ne.symm h)]

theorem registerAll_default (monitor : SyscallMonitor C) (regs : List (BitVec 32 × C)) :
    (monitor.registerAll regs).defaultObserver = monitor.defaultObserver := by
  induction regs generalizing monitor with
  | nil => rfl
  | cons reg regs ih => exact ih (monitor.addObserver reg.1 reg.2)

/-- A step leaves the registrations alone. -/
theorem step_registrations (monitor : SyscallMonitor C) (event : ThreadEvent) :
    (monitor.step event).1.observers = monitor.observers ∧
    (monitor.step event).1.defaultObserver = monitor.defaultObserver := by
  cases event <;> exact ⟨rfl, rfl⟩

theorem run_registrations (monitor : SyscallMonitor C) (events : List ThreadEvent) :
    (monitor.run events).observers = monitor.observers ∧
    (monitor.run events).defaultObserver = monitor.defaultObserver := by
  induction events generalizing monitor with
  | nil => exact ⟨rfl, rfl⟩
  | cons event events ih =>
    obtain ⟨ho, hd⟩ := ih (monitor.step event).1
    obtain ⟨ho', hd'⟩ := step_registrations monitor event
    exact ⟨ho.trans ho', hd.trans hd'⟩

theorem latest_append (event : ThreadEvent) :
    latest tid (events ++ [event]) = latestStep tid (latest tid events) event := by
  rw [latest, List.foldl_append]
  rfl

/-- The events of other threads do not change the latest call. -/
theorem latest_ofThread (tid : BitVec 32) (events : List ThreadEvent) :
    latest tid (ofThread tid events) = latest tid events := by
  unfold latest
  generalize (none : Option Begin) = call
  induction events generalizing call with
  | nil => rfl
  | cons event events ih =>
    by_cases h : event.tid = tid
    · rw [ofThread, List.filter_cons_of_pos (by simpa using h), List.foldl_cons, List.foldl_cons]
      exact ih _
    · have hskip : latestStep tid call event = call := by
        cases event with
        | before tid' call' => exact if_neg h
        | after tid' ret err => rfl
      rw [ofThread, List.filter_cons_of_neg (by simpa using h), List.foldl_cons, hskip]
      exact ih _

/-- A thread that alternates has made a call before it ends one. -/
theorem latest_isSome {pre post : List ThreadEvent} {ret err : BitVec 32}
    (hown : ∀ event ∈ pre, event.tid = tid)
    (ha : Alternates false (pre ++ .after tid ret err :: post)) : (latest tid pre).isSome := by
  -- with a pending call there is a latest one
  suffices h : ∀ (pre : List ThreadEvent) (pending : Bool) (call : Option Begin),
      (∀ event ∈ pre, event.tid = tid) → (pending = true → call.isSome) →
      Alternates pending (pre ++ .after tid ret err :: post) →
      (pre.foldl (latestStep tid) call).isSome from
    h pre false none hown (fun h => (nomatch h)) ha
  intro pre
  induction pre with
  | nil =>
    intro pending call _ hp ha
    cases pending with
    | true => exact hp rfl
    | false => exact ha.elim
  | cons event pre ih =>
    intro pending call hown hp ha
    have hown' : ∀ event ∈ pre, event.tid = tid := fun e he => hown e (List.mem_cons_of_mem _ he)
    rw [List.foldl_cons]
    cases event with
    | before tid' call' =>
      have htid : tid' = tid := hown _ List.mem_cons_self
      cases pending with
      | true => exact ha.elim
      | false => exact ih true _ hown' (fun _ => by simp [latestStep, htid]) ha
    | after tid' ret' err' =>
      cases pending with
      | true => exact ih false _ hown' (fun h => (nomatch h)) ha
      | false => exact ha.elim

/-- The table holds the arguments of each thread's latest call. -/
theorem run_pending (monitor : SyscallMonitor C) (events : List ThreadEvent) {tid : BitVec 32}
    {call : Begin} (h : latest tid events = some call) :
    (monitor.run events).pendingSyscalls tid = some (call.args 0 0) := by
  induction events using List.reverseRecOn generalizing call with
  | nil => cases h
  | append_singleton events event ih =>
    rw [latest_append] at h
    rw [SyscallMonitor.run, List.foldl_append, ← SyscallMonitor.run]
    show ((monitor.run events).step event).1.pendingSyscalls tid = _
    cases event with
    | before tid' call' =>
      by_cases ht : tid' = tid
      · subst ht
        rw [latestStep, if_pos rfl, Option.some.injEq] at h
        rw [← h]
        exact Function.update_self ..
      · rw [latestStep, if_neg ht] at h
        rw [← ih h]
        exact Function.update_of_ne (Ne.symm ht) ..
    | after tid' ret err =>
      have hp := ih h
      by_cases ht : tid = tid'
      · subst ht
        show Function.update _ tid _ tid = _
        rw [Function.update_self, hp, Option.getD_some]
      · rw [← hp]
        exact Function.update_of_ne ht ..

/-- What the end of a call delivers, from the table alone. -/
theorem endSyscall_expected (regs : List (BitVec 32 × C)) (defaultObserver : Option C)
    (events : List ThreadEvent) {call : Begin} (h : latest tid events = some call)
    (ret err : BitVec 32) :
    (((SyscallMonitor.new defaultObserver).registerAll regs).run events |>.endSyscall tid ret err).2 =
      expected regs defaultObserver call ret err := by
  set monitor := (SyscallMonitor.new defaultObserver).registerAll regs with hm
  obtain ⟨ho, hd⟩ := run_registrations monitor events
  simp only [SyscallMonitor.endSyscall, run_pending monitor events h, Option.getD_some, ho, hd,
    Begin.args, expected]
  rw [hm, registerAll_observers, registerAll_default]
  by_cases hr : registered regs call.num = [] <;> simp [SyscallMonitor.new, hr]

end

/-- Every `endSyscall` of a run in which each thread alternates delivers what is registered for the
latest call of its thread, and the events of other threads make no difference. -/
theorem endSyscall_delivers {C : Type} (regs : List (BitVec 32 × C)) (defaultObserver : Option C)
    {events pre post : List ThreadEvent} {tid ret err : BitVec 32}
    (ha : ∀ tid, Alternates false (ofThread tid events))
    (hs : events = pre ++ .after tid ret err :: post) :
    ∃ call, latest tid pre = some call ∧
      (((SyscallMonitor.new defaultObserver).registerAll regs).run pre |>.endSyscall tid ret err).2 =
        expected regs defaultObserver call ret err ∧
      ∀ pre', ofThread tid pre' = ofThread tid pre →
        (((SyscallMonitor.new defaultObserver).registerAll regs).run pre'
          |>.endSyscall tid ret err).2 = expected regs defaultObserver call ret err := by
  have hsome : (latest tid (ofThread tid pre)).isSome := by
    have hown : ∀ event ∈ ofThread tid pre, event.tid = tid :=
      fun event he => by simpa using (List.mem_filter.1 he).2
    have ht := ha tid
    rw [hs, ofThread, List.filter_append, List.filter_cons_of_pos (by simp [ThreadEvent.tid])] at ht
    exact latest_isSome hown ht
  obtain ⟨call, hcall⟩ := Option.isSome_iff_exists.1 hsome
  rw [latest_ofThread] at hcall
  refine ⟨call, hcall, endSyscall_expected regs defaultObserver pre hcall ret err, ?_⟩
  intro pre' hpre'
  refine endSyscall_expected regs defaultObserver pre' ?_ ret err
  rw [← latest_ofThread, hpre', latest_ofThread, hcall]

/-- Two threads in `read` (3) and `close` (6) at the same time. -/
theorem endSyscall_delivers_two : ∃ call,
    latest 1 [.before 1 ⟨3, 5, 0x8000, 4, 0, 0, 0⟩, .before 2 ⟨6, 7, 0, 0, 0, 0, 0⟩] = some call ∧
    (((SyscallMonitor.new (some "default")).registerAll [(3, "path"), (3, "read")]).run
      [.before 1 ⟨3, 5, 0x8000, 4, 0, 0, 0⟩, .before 2 ⟨6, 7, 0, 0, 0, 0, 0⟩] |>.endSyscall 1 4 0).2 =
        expected [(3, "path"), (3, "read")] (some "default") call 4 0 ∧
    ∀ pre', ofThread 1 pre' = ofThread 1
        [.before 1 ⟨3, 5, 0x8000, 4, 0, 0, 0⟩, .before 2 ⟨6, 7, 0, 0, 0, 0, 0⟩] →
      (((SyscallMonitor.new (some "default")).registerAll [(3, "path"), (3, "read")]).run pre'
        |>.endSyscall 1 4 0).2 = expected [(3, "path"), (3, "read")] (some "default") call 4 0 := by
  refine endSyscall_delivers _ _ (fun tid => ?_)
    (rfl : _ = _ ++ ThreadEvent.after 1 4 0 :: [.after 2 0 0])
  by_cases h1 : 1#32 = tid
  · subst h1
    simp [ofThread, ThreadEvent.tid, Alternates]
  · by_cases h2 : 2#32 = tid
    · subst h2
      simp [ofThread, ThreadEvent.tid, Alternates]
    · simp [ofThread, ThreadEvent.tid, Alternates, h1, h2]

end Dytan.Dispatch
