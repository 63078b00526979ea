import Dytan.Monitor.System

/-!
# System calls of several threads (`SysBefore`, `SysAfter`)

`SystemEvent.finished` is a call with its arguments and its result. The tool sees it as two events
of its thread, with events of other threads in between, and `SyscallMonitor` keeps the arguments of
each thread from the one to the other. `Threaded` is the tool with that monitor.

`completed`: the calls of a run where they end, the k-th end of a thread with the arguments of its
k-th begin.

`Threaded.run_completed`: when every thread alternates the two, a run does to the tool what the
completed calls do, and it makes no difference where a call begins among the events of the other
threads.
-/

namespace Dytan

open Dispatch (Begin Alternates ofThread)

/-! ## The model -/

/-- The memory of the application, as far as callbacks read it at the end of a call: the string, the
words and the internet address at a pointer that can be read. -/
structure CallMemory where
  cstring : ADDRINT 32 → String
  words : ADDRINT 32 → Nat → BitVec 32
  addressAt : BitVec 32 → NetworkAddress
  readable : Readable

def CallMemory.finished (memory : CallMemory) (args : Dispatch.SyscallArguments) : Finished :=
  ⟨args, memory.cstring args.arg0, memory.words args.arg1, memory.addressAt, memory.readable⟩

/-- What reaches the tool from its threads. -/
inductive ThreadedEvent
  | sysBefore (tid : BitVec 32) (call : Begin)
  | sysAfter (tid ret err : BitVec 32) (memory : CallMemory)
  | ins (e : Executed 32)
  | op (op : Op 32)
  | setNewTaintForMemory (addr size : ADDRINT 32) (taintMark : Int)
  | clearTagsForByteRange (start : ADDRINT 32)

structure Threaded where
  system : System
  monitor : Dispatch.SyscallMonitor Observer

namespace Threaded

/-- The tool with the callbacks `main` and the sources register. -/
def new (sources : List TaintSource) (system : System) : Threaded :=
  ⟨system, (Dispatch.SyscallMonitor.new (some (.handler .UnimplementedSystemCall))).registerAll
    (registrations sources)⟩

section
variable (find : Find NetworkCallback)

/-- The callbacks of an `endSyscall`, in order. -/
def invoke (memory : CallMemory) (system : System)
    (invocations : List (Dispatch.Invocation Observer)) : Option System :=
  invocations.foldlM
    (fun system inv => inv.callback.run find (memory.finished inv.args) system) system

def step (t : Threaded) : ThreadedEvent → Option Threaded
  | .sysBefore tid call => some { t with monitor := t.monitor.beginSyscall tid call }
  | .sysAfter tid ret err memory => do
    let (monitor, invocations) := t.monitor.endSyscall tid ret err
    let system ← invoke find memory t.system invocations
    return ⟨system, monitor⟩
  | .ins e => do
    let taint ← executeINS t.system.tool.taint e
    return { t with system.tool.taint := taint }
  | .op op => do
    let tool ← t.system.tool.step op
    return { t with system.tool := tool }
  | .setNewTaintForMemory addr size taintMark => do
    let tool ← t.system.tool.setNewTaintForMemory addr size taintMark
    return { t with system.tool := tool }
  | .clearTagsForByteRange start =>
    some { t with system.tool := t.system.tool.clearTagsForByteRange start }

end

end Threaded

/-! ## Threads -/

namespace ThreadedEvent

/-- The event as the monitor sees it. -/
def thread? : ThreadedEvent → Option Dispatch.ThreadEvent
  | sysBefore tid call => some (.before tid call)
  | sysAfter tid ret err _ => some (.after tid ret err)
  | _ => none

/-- The call a thread begins. -/
def begin? (tid : BitVec 32) : ThreadedEvent → Option Begin
  | sysBefore tid' call => if tid' = tid then some call else none
  | _ => none

def isBegin : ThreadedEvent → Bool
  | sysBefore _ _ => true
  | _ => false

end ThreadedEvent

/-- The events of a thread, as the monitor sees them. -/
def threadEvents (events : List ThreadedEvent) (tid : BitVec 32) : List Dispatch.ThreadEvent :=
  ofThread tid (events.filterMap ThreadedEvent.thread?)

/-- Every thread begins and ends its calls in turns. -/
def ThreadsAlternate (events : List ThreadedEvent) : Prop :=
  ∀ tid, Alternates false (threadEvents events tid)

/-- The calls a thread begins, in order. -/
def begins (events : List ThreadedEvent) (tid : BitVec 32) : List Begin :=
  events.filterMap (ThreadedEvent.begin? tid)

/-- The calls of `events` where they end, when `calls` lists those of each thread. -/
def completed (calls : BitVec 32 → List Begin) : List ThreadedEvent → List SystemEvent
  | [] => []
  | .sysBefore _ _ :: events => completed calls events
  | .sysAfter tid ret err memory :: events =>
    match calls tid with
    | [] => completed calls events
    | call :: rest => .finished (memory.finished (call.args ret err)) ::
        completed (Function.update calls tid rest) events
  | .ins e :: events => .ins e :: completed calls events
  | .op op :: events => .op op :: completed calls events
  | .setNewTaintForMemory addr size taintMark :: events =>
    .setNewTaintForMemory addr size taintMark :: completed calls events
  | .clearTagsForByteRange start :: events => .clearTagsForByteRange start :: completed calls events

/-- Only the calls and the events other than the begins matter. -/
theorem completed_filter (calls : BitVec 32 → List Begin) (events : List ThreadedEvent) :
    completed calls (events.filter (!·.isBegin)) = completed calls events := by
  induction events generalizing calls with
  | nil => rfl
  | cons event events ih =>
    cases event with
    | sysBefore tid call => exact ih calls
    | sysAfter tid ret err memory =>
      rw [List.filter_cons_of_pos rfl, completed, completed]
      cases calls tid with
      | nil => exact ih calls
      | cons call rest => exact congrArg (_ :: ·) (ih _)
    | ins e => exact congrArg (_ :: ·) (ih calls)
    | op op => exact congrArg (_ :: ·) (ih calls)
    | setNewTaintForMemory addr size taintMark => exact congrArg (_ :: ·) (ih calls)
    | clearTagsForByteRange start => exact congrArg (_ :: ·) (ih calls)

/-! ## Calls in progress -/

namespace Threaded

variable {find : Find NetworkCallback} {sources : List TaintSource} {t : Threaded}
  {pending : BitVec 32 → Option Begin} {events : List ThreadedEvent}

/-- The monitor has the registrations, and the arguments of the calls in progress. -/
structure Keeps (sources : List TaintSource) (pending : BitVec 32 → Option Begin)
    (monitor : Dispatch.SyscallMonitor Observer) : Prop where
  registered : ∀ num, monitor.observers num = if Dispatch.registered (registrations sources) num = []
    then none else some (Dispatch.registered (registrations sources) num)
  unregistered : monitor.defaultObserver = some (.handler .UnimplementedSystemCall)
  arguments : ∀ tid call, pending tid = some call →
    monitor.pendingSyscalls tid = some (call.args 0 0)

theorem keeps_new (system : System) :
    Keeps sources (fun _ => none) (new sources system).monitor where
  registered num := by
    rw [new, Dispatch.registerAll_observers]
    rfl
  unregistered := Dispatch.registerAll_default ..
  arguments _ _ h := nomatch h

namespace Keeps

variable {monitor : Dispatch.SyscallMonitor Observer} {tid : BitVec 32} {call : Begin}

theorem beginSyscall (h : Keeps sources pending monitor) (tid : BitVec 32) (call : Begin) :
    Keeps sources (Function.update pending tid (some call)) (monitor.beginSyscall tid call) where
  registered := h.registered
  unregistered := h.unregistered
  arguments tid' call' h' := by
    by_cases ht : tid' = tid
    · subst ht
      rw [Function.update_self, Option.some.injEq] at h'
      rw [← h']
      exact Function.update_self ..
    · rw [Function.update_of_ne ht] at h'
      rw [← h.arguments tid' call' h']
      exact Function.update_of_ne ht ..

/-- The end of a call runs the observers of its number on its arguments. -/
theorem endSyscall_eq (h : Keeps sources pending monitor) (hp : pending tid = some call)
    (ret err : BitVec 32) : (monitor.endSyscall tid ret err).2 =
      (observers sources call.num).map (⟨·, call.num, call.args ret err⟩) := by
  simp only [Dispatch.SyscallMonitor.endSyscall, h.arguments tid call hp, Option.getD_some,
    Begin.args, h.registered, h.unregistered, observers]
  by_cases hr : Dispatch.registered (registrations sources) call.num = [] <;> simp [hr]

/-- The arguments stay in the table, but the call is over. -/
theorem endSyscall (h : Keeps sources pending monitor) (hp : pending tid = some call)
    (ret err : BitVec 32) :
    Keeps sources (Function.update pending tid none) (monitor.endSyscall tid ret err).1 where
  registered := h.registered
  unregistered := h.unregistered
  arguments tid' call' h' := by
    have ht : tid' ≠ tid := by
      rintro rfl
      simp at h'
    rw [Function.update_of_ne ht] at h'
    rw [← h.arguments tid' call' h']
    exact Function.update_of_ne ht ..

end Keeps

/-- The end of a call does what the completed call does. -/
theorem invoke_eq (memory : CallMemory) (system : System) (call : Begin) (ret err : BitVec 32) :
    invoke find memory system ((observers sources call.num).map (⟨·, call.num, call.args ret err⟩)) =
      system.endSyscall find sources (memory.finished (call.args ret err)) := by
  rw [invoke, List.foldlM_map]
  rfl

/-! ## Runs -/

theorem threadEvents_cons {event : ThreadedEvent} (thread : Dispatch.ThreadEvent)
    (h : event.thread? = some thread) (tid : BitVec 32) : threadEvents (event :: events) tid =
      if thread.tid = tid then thread :: threadEvents events tid else threadEvents events tid := by
  rw [threadEvents, List.filterMap_cons_some h, ofThread]
  split
  next ht => rw [List.filter_cons_of_pos (by simpa using ht)]; rfl
  next ht => rw [List.filter_cons_of_neg (by simpa using ht)]; rfl

/-- The other threads still alternate after an event of `tid`. -/
theorem alternates_update {event : ThreadedEvent} (thread : Dispatch.ThreadEvent)
    {next : Option Begin} (hthread : event.thread? = some thread)
    (ha : ∀ tid, Alternates (pending tid).isSome (threadEvents (event :: events) tid))
    (hnext : Alternates next.isSome (threadEvents events thread.tid)) (tid : BitVec 32) :
    Alternates (Function.update pending thread.tid next tid).isSome (threadEvents events tid) := by
  by_cases ht : tid = thread.tid
  · subst ht
    rw [Function.update_self]
    exact hnext
  · have hother := ha tid
    rw [threadEvents_cons thread hthread, if_neg (Ne.symm ht)] at hother
    rw [Function.update_of_ne ht]
    exact hother

/-- An alternating thread begins a call only when it has none in progress. -/
theorem alternates_sysBefore {tid : BitVec 32} {call : Begin}
    (ha : ∀ tid', Alternates (pending tid').isSome
      (threadEvents (.sysBefore tid call :: events) tid')) :
    pending tid = none ∧ ∀ tid', Alternates (Function.update pending tid (some call) tid').isSome
      (threadEvents events tid') := by
  have hself := ha tid
  rw [threadEvents_cons (.before tid call) rfl, if_pos (by rfl)] at hself
  cases hp : pending tid with
  | some call' => rw [hp] at hself; exact hself.elim
  | none =>
    rw [hp] at hself
    exact ⟨rfl, alternates_update (.before tid call) rfl ha hself⟩

/-- It ends a call only when it has one in progress. -/
theorem alternates_sysAfter {tid ret err : BitVec 32} {memory : CallMemory}
    (ha : ∀ tid', Alternates (pending tid').isSome
      (threadEvents (.sysAfter tid ret err memory :: events) tid')) :
    (∃ call, pending tid = some call) ∧
      ∀ tid', Alternates (Function.update pending tid none tid').isSome
        (threadEvents events tid') := by
  have hself := ha tid
  rw [threadEvents_cons (.after tid ret err) rfl, if_pos (by rfl)] at hself
  cases hp : pending tid with
  | none => rw [hp] at hself; exact hself.elim
  | some call =>
    rw [hp] at hself
    exact ⟨⟨call, rfl⟩, alternates_update (.after tid ret err) rfl ha hself⟩

/-- The calls of each thread: the one in progress and those still to begin. -/
def remaining (pending : BitVec 32 → Option Begin) (events : List ThreadedEvent)
    (tid : BitVec 32) : List Begin := (pending tid).toList ++ begins events tid

theorem remaining_sysBefore {tid : BitVec 32} {call : Begin} (hp : pending tid = none) :
    remaining pending (.sysBefore tid call :: events) =
      remaining (Function.update pending tid (some call)) events := by
  funext tid'
  by_cases ht : tid' = tid
  · subst ht
    simp [remaining, begins, ThreadedEvent.begin?, hp]
  · simp [remaining, begins, ThreadedEvent.begin?, Function.update_of_ne ht, Ne.symm ht]

/-- The other events begin no call. -/
theorem remaining_of_not_begin {event : ThreadedEvent} (h : event.isBegin = false) :
    remaining pending (event :: events) = remaining pending events := by
  funext tid
  rw [remaining, begins, List.filterMap_cons_none (by cases event <;> first | rfl | cases h)]
  rfl

theorem remaining_end {tid : BitVec 32} {call : Begin} (hp : pending tid = some call) :
    remaining pending events tid = call :: begins events tid := by
  rw [remaining, hp]
  rfl

theorem update_remaining (tid : BitVec 32) :
    Function.update (remaining pending events) tid (begins events tid) =
      remaining (Function.update pending tid none) events := by
  funext tid'
  by_cases ht : tid' = tid
  · subst ht
    simp [remaining]
  · simp [remaining, Function.update_of_ne ht]

/-- A run from a state with calls in progress. The induction is on the events; a begin puts its call
in progress, and the end of the thread takes it out and makes it. -/
theorem run_remaining (h : Keeps sources pending t.monitor)
    (ha : ∀ tid, Alternates (pending tid).isSome (threadEvents events tid)) :
    (Lib.run (step find) t events).map system =
      Lib.run (System.step find sources) t.system (completed (remaining pending events) events) := by
  induction events generalizing t pending with
  | nil => rfl
  | cons event events ih =>
    cases event with
    | sysBefore tid call =>
      obtain ⟨hp, ha⟩ := alternates_sysBefore ha
      rw [completed, remaining_sysBefore hp]
      exact ih (t := { t with monitor := t.monitor.beginSyscall tid call })
        (h.beginSyscall tid call) ha
    | sysAfter tid ret err memory =>
      obtain ⟨⟨call, hp⟩, ha⟩ := alternates_sysAfter ha
      have hend := h.endSyscall_eq hp ret err
      rw [remaining_of_not_begin rfl, completed, remaining_end hp]
      simp only [update_remaining]
      rw [Lib.run_cons, Lib.run_cons]
      simp only [step, System.step, hend, invoke_eq]
      cases t.system.endSyscall find sources (memory.finished (call.args ret err)) with
      | none => rfl
      | some system => exact ih (t := ⟨system, _⟩) (h.endSyscall hp ret err) ha
    | ins e =>
      rw [remaining_of_not_begin rfl, completed, Lib.run_cons, Lib.run_cons]
      simp only [step, System.step]
      cases executeINS t.system.tool.taint e with
      | none => rfl
      | some taint => exact ih (t := { t with system.tool.taint := taint }) h ha
    | op op =>
      rw [remaining_of_not_begin rfl, completed, Lib.run_cons, Lib.run_cons]
      simp only [step, System.step]
      cases t.system.tool.step op with
      | none => rfl
      | some tool => exact ih (t := { t with system.tool := tool }) h ha
    | setNewTaintForMemory addr size taintMark =>
      rw [remaining_of_not_begin rfl, completed, Lib.run_cons, Lib.run_cons]
      simp only [step, System.step]
      cases t.system.tool.setNewTaintForMemory addr size taintMark with
      | none => rfl
      | some tool => exact ih (t := { t with system.tool := tool }) h ha
    | clearTagsForByteRange start =>
      rw [remaining_of_not_begin rfl, completed, Lib.run_cons, Lib.run_cons]
      exact ih (t := { t with system.tool := t.system.tool.clearTagsForByteRange start }) h ha

/-- From the start, when every thread alternates. -/
theorem run_new (system : System) (ha : ThreadsAlternate events) :
    (Lib.run (step find) (new sources system) events).map Threaded.system =
      Lib.run (System.step find sources) system (completed (begins events) events) :=
  run_remaining (keeps_new system) ha

/-- A run does to the tool what its completed calls do. -/
theorem run_completed (find : Find NetworkCallback) (sources : List TaintSource) (system : System)
    {events : List ThreadedEvent} (ha : ThreadsAlternate events) :
    (Lib.run (step find) (new sources system) events).map Threaded.system =
      Lib.run (System.step find sources) system (completed (begins events) events) ∧
    ∀ events', ThreadsAlternate events' → begins events' = begins events →
      events'.filter (!·.isBegin) = events.filter (!·.isBegin) →
      (Lib.run (step find) (new sources system) events').map Threaded.system =
        (Lib.run (step find) (new sources system) events).map Threaded.system := by
  refine ⟨run_new system ha, fun events' ha' hbegins hrest => ?_⟩
  rw [run_new system ha, run_new system ha', ← completed_filter, hbegins, hrest, completed_filter]

/-- Thread 2 asks for the time while thread 1 is in `read` (fd 5, 4 bytes to 0x8000). -/
def readAndTime : List ThreadedEvent :=
  [.sysBefore 1 ⟨3, 5, 0x8000, 4, 0, 0, 0⟩, .sysBefore 2 ⟨78, 0x9000, 0, 0, 0, 0, 0⟩,
    .sysAfter 2 0 0 ⟨fun _ => "", fun _ _ => 0, fun _ => ⟨0, 0⟩, .nonNull⟩,
    .sysAfter 1 4 0 ⟨fun _ => "", fun _ _ => 0, fun _ => ⟨0, 0⟩, .nonNull⟩]

theorem run_completed_two :
    (Lib.run (step fun _ _ => none)
      (new [.path 0] (System.noSources.system (fun _ => 0) (fun _ => 0))) readAndTime).map
        Threaded.system =
      Lib.run (System.step (fun _ _ => none) [.path 0])
        (System.noSources.system (fun _ => 0) (fun _ => 0))
        [.finished ⟨⟨78, 0x9000, 0, 0, 0, 0, 0, 0, 0⟩, "", fun _ => 0, fun _ => ⟨0, 0⟩, .nonNull⟩,
          .finished ⟨⟨3, 5, 0x8000, 4, 0, 0, 0, 4, 0⟩, "", fun _ => 0, fun _ => ⟨0, 0⟩, .nonNull⟩] := by
  suffices ha : ThreadsAlternate readAndTime from (run_completed _ _ _ ha).1
  intro tid
  by_cases h1 : 1#32 = tid
  · subst h1
    exact trivial
  · by_cases h2 : 2#32 = tid
    · subst h2
      exact trivial
    · simp [threadEvents, readAndTime, ThreadedEvent.thread?, ofThread, Dispatch.ThreadEvent.tid,
        Alternates, h1, h2]

end Threaded

end Dytan
