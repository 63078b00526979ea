import Dytan.Instrument.Run
import Dytan.Monitor.Handlers
import Dytan.Monitor.Network
import Dytan.Tool.Draws
import Dytan.Tool.Tags

/-!
# The tool with its sources and handlers

`System`: the tool, the monitor of each path and network source and `openFiles`. At the end of a
system call `endSyscall` runs the callbacks registered for its number: those of the sources, in the
order in which the sources were created, and then the handler of `main`.

`SystemEvent` is anything that reaches the taint maps: an instruction, a call of the interface
(`Op`), `SetNewTaintForMemory` with a mark of the caller's, `ClearTagsForByteRange` and the end of a
system call. `find` stands for `addressObservers.find`, as in `Dytan/Monitor/Network.lean`.
-/

namespace Dytan

open Dispatch (SYS_read SYS_open SYS_close SYS_socketcall registered)

/-! ## Path sources -/

/-- The callbacks of `taint_source_path.cpp`. -/
inductive PathCallback
  | pathSourceReadCallbackPerByte | pathSourceReadCallbackPerRead | pathSourceReadDefault
deriving DecidableEq, Repr

def PathCallback.ofRange : TaintRange → PathCallback
  | .PerByte => pathSourceReadCallbackPerByte
  | .PerRead => pathSourceReadCallbackPerRead

/-- The granularity of a callback; the default does nothing. -/
def PathCallback.range? : PathCallback → Option TaintRange
  | pathSourceReadCallbackPerByte => some .PerByte
  | pathSourceReadCallbackPerRead => some .PerRead
  | pathSourceReadDefault => none

def NetworkCallback.range? : NetworkCallback → Option TaintRange
  | networkReadCallbackPerByte => some .PerByte
  | networkReadCallbackPerRead => some .PerRead
  | networkReadDefault => none

/-- `PathTaintSource` with what `set_framework_options` adds to it. -/
def PathSource.monitor (src : PathSource) : PathMonitor PathCallback :=
  let pm := src.paths.foldl (fun pm source => pm.observePath source.1 (.ofRange source.2))
    ((PathMonitor.new src.observeEverything).registerDefault .pathSourceReadDefault)
  match src.all with
  | some range => pm.registerCallbackForAll (.ofRange range)
  | none => pm

def Notice.callback {C : Type} : Notice C → C
  | .observer callback _ => callback
  | .all callback _ => callback
  | .default callback _ => callback

/-- What a callback of a path source does to the tool. -/
def Notice.op? (args : SyscallArguments 32) (notice : Notice PathCallback) : Option (Op 32) :=
  notice.callback.range?.map (.pathSourceRead · args)

/-- What a callback of a network source does to the tool. -/
def NetworkNotice.op? (notice : NetworkNotice NetworkCallback) : Option (Op 32) :=
  notice.callback.range?.map (.networkRead · notice.start notice.bytesRead)

theorem runNotices_eq (tool : Tool 32) (notices : List (NetworkNotice NetworkCallback)) :
    runNotices tool notices = tool.run (notices.filterMap NetworkNotice.op?) := by
  induction notices generalizing tool with
  | nil => rfl
  | cons notice notices ih =>
    obtain ⟨callback, start, bytesRead⟩ := notice
    have hcons : runNotices tool (⟨callback, start, bytesRead⟩ :: notices) =
        (callback.run tool start bytesRead).bind (runNotices · notices) := by
      rw [runNotices, List.foldlM_cons]
      rfl
    rw [hcons]
    cases callback with
    | networkReadDefault => exact ih tool
    | networkReadCallbackPerByte => exact congrArg _ (funext ih)
    | networkReadCallbackPerRead => exact congrArg _ (funext ih)

/-! ## Finished calls -/

/-- A finished call and the memory its callbacks read: the string at `arg0`, the words at `arg1` and
the internet address at a pointer, its port in host order, for the pointers that can be read. -/
structure Finished where
  args : Dispatch.SyscallArguments
  cstring : String
  sockArgs : Nat → BitVec 32
  addressAt : BitVec 32 → NetworkAddress
  readable : Readable

/-- The pathname of an `open`, if it can be read. -/
def Finished.pathname (call : Finished) : Option String :=
  call.readable.read call.args.arg0 call.cstring

/-- The number of a `socketcall`. -/
def Socketcall.ofInt : Int → Socketcall
  | 1 => .SYS_SOCKET
  | 2 => .SYS_BIND
  | 3 => .SYS_CONNECT
  | 4 => .SYS_LISTEN
  | 5 => .SYS_ACCEPT
  | 6 => .SYS_GETSOCKNAME
  | 7 => .SYS_GETPEERNAME
  | 8 => .SYS_SOCKETPAIR
  | 9 => .SYS_SEND
  | 10 => .SYS_RECV
  | 11 => .SYS_SENDTO
  | 12 => .SYS_RECVFROM
  | 13 => .SYS_SHUTDOWN
  | 14 => .SYS_SETSOCKOPT
  | 15 => .SYS_GETSOCKOPT
  | 16 => .SYS_SENDMSG
  | 17 => .SYS_RECVMSG
  | n => .other n

def Finished.socketcall (call : Finished) : SocketcallEvent :=
  ⟨.ofInt (toInt call.args.arg0), call.args.arg1, call.sockArgs, call.addressAt, call.args.ret,
    call.readable⟩

/-! ## Registrations -/

/-- A source, by its place among those of its kind. -/
inductive TaintSource
  | path (i : Nat)
  | network (i : Nat)
deriving DecidableEq, Repr

/-- A callback with the monitor it is registered with. -/
inductive Observer
  | openCallback (i : Nat)
  | closeCallback (i : Nat)
  | readCallback (i : Nat)
  | socketcallNetworkCallback (i : Nat)
  | readNetworkCallback (i : Nat)
  | closeNetworkCallback (i : Nat)
  | handler (function : Handler)
deriving DecidableEq, Repr

/-- `PathMonitor::activate` and `NetworkMonitor::activate`. -/
def TaintSource.activate : TaintSource → List (BitVec 32 × Observer)
  | path i =>
    [(SYS_open, .openCallback i), (SYS_close, .closeCallback i), (SYS_read, .readCallback i)]
  | network i =>
    [(SYS_socketcall, .socketcallNetworkCallback i), (SYS_read, .readNetworkCallback i),
      (SYS_close, .closeNetworkCallback i)]

/-- The `addObserver` calls of the sources and of `main`. -/
def registrations (sources : List TaintSource) : List (BitVec 32 × Observer) :=
  sources.flatMap TaintSource.activate ++ mainRegistrations.map fun reg => (reg.1, .handler reg.2)

/-- The callbacks `endSyscall` runs for a number. -/
def observers (sources : List TaintSource) (num : BitVec 32) : List Observer :=
  if registered (registrations sources) num = [] then [.handler .UnimplementedSystemCall]
  else registered (registrations sources) num

/-- They are what `SyscallMonitor` delivers for the latest call of a thread. -/
theorem observers_dispatched (sources : List TaintSource) (events : List Dispatch.ThreadEvent)
    {tid : BitVec 32} {call : Dispatch.Begin} (h : Dispatch.latest tid events = some call)
    (ret err : BitVec 32) :
    (((Dispatch.SyscallMonitor.new (some (.handler .UnimplementedSystemCall))).registerAll
      (registrations sources)).run events |>.endSyscall tid ret err).2 =
      (observers sources call.num).map (⟨·, call.num, call.args ret err⟩) := by
  rw [Dispatch.endSyscall_expected _ _ _ h, Dispatch.expected, observers]
  rfl

/-! ## The system -/

structure System where
  tool : Tool 32
  paths : Nat → PathMonitor PathCallback
  networks : Nat → NetworkMonitor NetworkCallback
  openFiles : Int → Option String

/-- What `main` sets up after `set_framework_options`. -/
def Framework.system (inet_addr : String → BitVec 32) (atoi : String → BitVec 32) (fw : Framework) :
    System where
  tool := .start fw
  paths i :=
    match fw.pathSources[i]? with
    | some src => src.monitor
    | none => .new false
  networks i :=
    match fw.networkSources[i]? with
    | some src => src.monitor inet_addr atoi
    | none => .new false
  openFiles _ := none

/-- No source is configured, and there is one mark. -/
def System.noSources : Framework := ⟨4096, some (.constant 5), [⟨false, none, []⟩], [⟨false, none, []⟩], 1⟩

/-- What reaches the taint maps (module doc). -/
inductive SystemEvent
  | ins (e : Executed 32)
  | op (op : Op 32)
  | setNewTaintForMemory (addr size : ADDRINT 32) (taintMark : Int)
  | clearTagsForByteRange (start : ADDRINT 32)
  | finished (call : Finished)

section
variable (find : Find NetworkCallback)

/-- One callback of a finished call. -/
def Observer.run (call : Finished) (s : System) : Observer → Option System
  | openCallback i => do
    let path ← Dytan.openCallback (s.paths i) call.args.onFiles call.pathname
    return { s with paths := Function.update s.paths i path }
  | closeCallback i =>
    some { s with paths := Function.update s.paths i
                    (Dytan.closeCallback (s.paths i) call.args.onFiles) }
  | readCallback i => do
    let notices := Dytan.readCallback (s.paths i) call.args.onFiles
    let tool ← s.tool.run (notices.filterMap (Notice.op? call.args.onFiles))
    return { s with tool := tool }
  | socketcallNetworkCallback i => do
    let (network, notices) ← (s.networks i).socketcallNetworkCallback find call.socketcall
    let tool ← runNotices s.tool notices
    return { s with tool := tool, networks := Function.update s.networks i network }
  | readNetworkCallback i => do
    let notices ← (s.networks i).readNetworkCallback find call.args.onFiles
    let tool ← runNotices s.tool notices
    return { s with tool := tool }
  | closeNetworkCallback i =>
    some { s with networks := Function.update s.networks i
                    ((s.networks i).closeNetworkCallback call.args.onFiles) }
  | handler function => do
    let r ← function.run ⟨s.tool.taint.memTaintMap, s.openFiles⟩ call.args call.pathname
    return { s with
      tool := { s.tool with taint := { s.tool.taint with memTaintMap := r.memTaintMap } }
      openFiles := r.openFiles }

/-- What a callback has the tool do. -/
def Observer.ops (call : Finished) (s : System) : Observer → List (Op 32)
  | readCallback i =>
    (Dytan.readCallback (s.paths i) call.args.onFiles).filterMap (Notice.op? call.args.onFiles)
  | socketcallNetworkCallback i =>
    match (s.networks i).socketcallNetworkCallback find call.socketcall with
    | some (_, notices) => notices.filterMap NetworkNotice.op?
    | none => []
  | readNetworkCallback i =>
    match (s.networks i).readNetworkCallback find call.args.onFiles with
    | some notices => notices.filterMap NetworkNotice.op?
    | none => []
  | _ => []

namespace System

/-- The callbacks of a finished call, in order. -/
def runObservers (call : Finished) (s : System) (observers : List Observer) : Option System :=
  observers.foldlM (Observer.run find call) s

variable (sources : List TaintSource)

def endSyscall (s : System) (call : Finished) : Option System :=
  s.runObservers find call (observers sources call.args.num)

def step (s : System) : SystemEvent → Option System
  | .ins e => do
    let taint ← executeINS s.tool.taint e
    return { s with tool := { s.tool with taint := taint } }
  | .op op => do
    let tool ← s.tool.step op
    return { s with tool := tool }
  | .setNewTaintForMemory addr size taintMark => do
    let tool ← s.tool.setNewTaintForMemory addr size taintMark
    return { s with tool := tool }
  | .clearTagsForByteRange start => some { s with tool := s.tool.clearTagsForByteRange start }
  | .finished call => s.endSyscall find sources call

variable {find sources}

theorem step_op {s : System} {op : Op 32} {tool : Tool 32} (h : s.tool.step op = some tool) :
    s.step find sources (.op op) = some { s with tool := tool } := by
  rw [step, h]
  rfl

end System

end

/-! ## What is registered -/

section
variable {sources : List TaintSource} {num : BitVec 32}

theorem mem_registered {C : Type} {regs : List (BitVec 32 × C)} {num : BitVec 32} {c : C} :
    c ∈ registered regs num ↔ (num, c) ∈ regs := by
  simp only [registered, List.mem_map, List.mem_filter, decide_eq_true_eq, Prod.exists]
  constructor
  · rintro ⟨n, c', ⟨hm, rfl⟩, rfl⟩
    exact hm
  · intro hm
    exact ⟨num, c, ⟨hm, rfl⟩, rfl⟩

/-- What runs for a number: callbacks of the sources and the handler of `main`. -/
theorem mem_observers {o : Observer} (h : o ∈ observers sources num) :
    (∃ src ∈ sources, (num, o) ∈ src.activate) ∨
      (∃ function, (num, function) ∈ mainRegistrations ∧ o = .handler function) ∨
      o = .handler .UnimplementedSystemCall := by
  unfold observers at h
  split at h
  · exact .inr (.inr (List.mem_singleton.1 h))
  · rw [mem_registered, registrations, List.mem_append, List.mem_flatMap, List.mem_map] at h
    obtain ⟨src, hsrc, h⟩ | ⟨⟨n, function⟩, hm, he⟩ := h
    · exact .inl ⟨src, hsrc, h⟩
    · obtain ⟨rfl, rfl⟩ := Prod.mk.inj he
      exact .inr (.inl ⟨function, hm, rfl⟩)

theorem observers_of_registered {o : Observer} (h : (num, o) ∈ registrations sources) :
    o ∈ observers sources num := by
  have hm := mem_registered.2 h
  rw [observers, if_neg (List.ne_nil_of_mem hm)]
  exact hm

theorem handler_mem_observers {function : Handler} (h : (num, function) ∈ mainRegistrations) :
    .handler function ∈ observers sources num :=
  observers_of_registered (List.mem_append_right _ (List.mem_map.2 ⟨(num, function), h, rfl⟩))

theorem registered_append {C : Type} (regs regs' : List (BitVec 32 × C)) (num : BitVec 32) :
    registered (regs ++ regs') num = registered regs num ++ registered regs' num := by
  rw [registered, List.filter_append, List.map_append]
  rfl

theorem registered_flatMap {C α : Type} (f : α → List (BitVec 32 × C)) (l : List α)
    (num : BitVec 32) : registered (l.flatMap f) num = l.flatMap fun a => registered (f a) num := by
  induction l with
  | nil => rfl
  | cons a l ih => rw [List.flatMap_cons, registered_append, ih, List.flatMap_cons]

theorem registered_map {C D : Type} (f : C → D) (regs : List (BitVec 32 × C)) (num : BitVec 32) :
    registered (regs.map fun reg => (reg.1, f reg.2)) num = (registered regs num).map f := by
  simp only [registered, List.filter_map, List.map_map]
  rfl

/-- The handlers `endSyscall` runs for a number. -/
def handlers (num : BitVec 32) : List Handler := registered mainRegistrations num

theorem registered_registrations : registered (registrations sources) num =
    (sources.flatMap fun src => registered src.activate num) ++
      (handlers num).map Observer.handler := by
  rw [registrations, registered_append, registered_flatMap, registered_map]
  rfl

/-- The sources observe four numbers. -/
theorem registered_activate (src : TaintSource)
    (h : num ≠ SYS_open ∧ num ≠ SYS_close ∧ num ≠ SYS_read ∧ num ≠ SYS_socketcall) :
    registered src.activate num = [] := by
  cases src <;> simp [registered, TaintSource.activate, h.1.symm, h.2.1.symm, h.2.2.1.symm,
    h.2.2.2.symm]

/-- For the other numbers only the handler of `main` runs. -/
theorem observers_handlers
    (h : num ≠ SYS_open ∧ num ≠ SYS_close ∧ num ≠ SYS_read ∧ num ≠ SYS_socketcall) :
    observers sources num = if handlers num = [] then [.handler .UnimplementedSystemCall]
      else (handlers num).map Observer.handler := by
  have hnil : (sources.flatMap fun src => registered src.activate num) = [] :=
    List.flatMap_eq_nil_iff.2 fun src _ => registered_activate src h
  rw [observers, registered_registrations, hnil, List.nil_append]
  simp only [List.map_eq_nil_iff]

end

/-! ## What the handlers do -/

namespace System

/-- The taint at `addrs` is gone. -/
def remove (s : System) (addrs : List (ADDRINT 32)) (openFiles : Int → Option String) : System :=
  { s with
    tool := { s.tool with taint := { s.tool.taint with
      memTaintMap := without s.tool.taint.memTaintMap addrs } }
    openFiles := openFiles }

theorem remove_nil (s : System) : s.remove [] s.openFiles = s := by
  rw [remove, without_nil]

theorem remove_remove (s : System) (addrs addrs' : List (ADDRINT 32))
    (openFiles openFiles' : Int → Option String) :
    (s.remove addrs openFiles).remove addrs' openFiles' = s.remove (addrs ++ addrs') openFiles' := by
  simp only [remove, without_append]

/-- A handler that returns removes what it visits. -/
theorem run_handler {find : Find NetworkCallback} (s : System) {call : Finished}
    {function : Handler} (h : function.Returns call.args call.pathname) :
    ∃ openFiles, (Observer.handler function).run find call s =
      some (s.remove (function.cleared call.args) openFiles) := by
  obtain ⟨openFiles, hrun⟩ := Handler.run_spec ⟨s.tool.taint.memTaintMap, s.openFiles⟩ h
  refine ⟨openFiles, ?_⟩
  simp only [Observer.run, hrun]
  rfl

end System

end Dytan
