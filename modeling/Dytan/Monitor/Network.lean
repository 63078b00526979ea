import Dytan.Lib.Run
import Dytan.Tool.Sources

/-!
# Reads from the network (`monitor_network.cpp`, `taint_source_network.cpp`)

`NetworkMonitor C`: the observers of each address and the addresses of the sockets it follows; `C`
are the callbacks. `addressObservers` is a `std::map` ordered by `NetworkAddress.cmp`. Two addresses
can each be less than the other by it, so it is no strict weak order and the standard does not say
what `find` returns; `find` is a parameter here, and what follows holds for any. `none` as the result
of a callback is `abort`, a reference through `end()` or a read through a pointer that cannot be read
(`SocketcallEvent.Readable`).

`Sockets` adds the kernel's side: the address each socket was last connected to. With
`observeEverything` off the guard of `connect` never lets a socket into `socketToAddress`, so no read
is ever reported; `delivers_iff`: a run is reported as configured if and only if it has no read from
a configured address.
-/

namespace Dytan

structure NetworkAddress where
  ip : BitVec 32
  /-- A `short`. -/
  port : BitVec 16
deriving DecidableEq, Repr

/-- `NetworkAddress_cmp`. -/
def NetworkAddress.cmp (a b : NetworkAddress) : Bool := a.ip < b.ip || a.port.slt b.port

/-- The pushes on the vectors of `addressObservers`, in order. -/
abbrev AddressObservers (C : Type) := List (NetworkAddress × C)

/-- `addressObservers.find`; `none` is `end()`. -/
abbrev Find (C : Type) := AddressObservers C → NetworkAddress → Option (List C)

structure NetworkMonitor (C : Type) where
  observeEverything : Bool
  defaultAddressObserver : Option C
  allObserver : Option C
  addressObservers : AddressObservers C
  socketToAddress : BitVec 32 → Option NetworkAddress

/-- A call of `notifyForRead` on one observer. -/
structure NetworkNotice (C : Type) where
  callback : C
  start : BitVec 32
  bytesRead : BitVec 32
deriving DecidableEq, Repr

/-- The calls of `linux/net.h`. -/
inductive Socketcall
  | SYS_SOCKET | SYS_BIND | SYS_CONNECT | SYS_LISTEN | SYS_ACCEPT | SYS_GETSOCKNAME
  | SYS_GETPEERNAME | SYS_SOCKETPAIR | SYS_SEND | SYS_RECV | SYS_SENDTO | SYS_RECVFROM
  | SYS_SHUTDOWN | SYS_SETSOCKOPT | SYS_GETSOCKOPT | SYS_SENDMSG | SYS_RECVMSG
  | other (n : Int)
deriving DecidableEq, Repr

/-- A finished `socketcall`: the words at `arg1` (`pointer`) and the internet address at a pointer,
its port in host order, for the pointers that can be read. -/
structure SocketcallEvent where
  call : Socketcall
  pointer : BitVec 32
  sockArgs : Nat → BitVec 32
  addressAt : BitVec 32 → NetworkAddress
  ret : BitVec 32
  readable : Dytan.Readable

namespace SocketcallEvent

/-- `sock_args[i]`. -/
def sockArg (event : SocketcallEvent) (i : Nat) : Option (BitVec 32) :=
  event.readable.read event.pointer (event.sockArgs i)

/-- The address behind a `struct sockaddr_in *`. -/
def address (event : SocketcallEvent) (addr : BitVec 32) : Option NetworkAddress :=
  event.readable.read addr (event.addressAt addr)

/-- What the callback reads can be read. -/
def Readable (event : SocketcallEvent) : Prop :=
  match event.call with
  | .SYS_CONNECT =>
    event.readable.mapped event.pointer = true ∧ event.readable.mapped (event.sockArgs 1) = true
  | .SYS_RECVFROM =>
    event.readable.mapped event.pointer = true ∧ event.readable.mapped (event.sockArgs 4) = true
  | .SYS_RECV => event.readable.mapped event.pointer = true
  | _ => True

end SocketcallEvent

namespace NetworkMonitor

variable {C : Type}

/-- The constructor. -/
def new (observeAll : Bool) : NetworkMonitor C := ⟨observeAll, none, none, [], fun _ => none⟩

def registerAddressDefault (nm : NetworkMonitor C) (callback : C) : NetworkMonitor C :=
  { nm with defaultAddressObserver := some callback }

def registerCallbackForAll (nm : NetworkMonitor C) (callback : C) : NetworkMonitor C :=
  { nm with allObserver := some callback }

section
variable (inet_addr : String → BitVec 32) (atoi : String → BitVec 32)

/-- The address a pair of the configuration stands for. -/
def addressOf (ip port : String) : NetworkAddress := ⟨inet_addr ip, (atoi port).setWidth 16⟩

def observeAddress (nm : NetworkMonitor C) (ip port : String) (callback : C) : NetworkMonitor C :=
  { nm with
    addressObservers := nm.addressObservers ++ [(addressOf inet_addr atoi ip port, callback)] }

end

section
variable (find : Find C) (nm : NetworkMonitor C)

def observed (address : NetworkAddress) : Option (List C) := find nm.addressObservers address

def notifyForRead (address : NetworkAddress) (start bytesRead : BitVec 32) :
    Option (List (NetworkNotice C)) := do
  let activeObservers ← nm.observed find address
  return activeObservers.map (⟨·, start, bytesRead⟩)

/-- The guarded insertion of `connect` and `recvfrom`. -/
def followSocket (sock : BitVec 32) (address : NetworkAddress) : NetworkMonitor C :=
  if (nm.observed find address).isSome && nm.observeEverything then
    { nm with socketToAddress := Function.update nm.socketToAddress sock (some address) }
  else nm

/-- The case `SYS_RECV`; the reference `socketToAddress[sock]` makes an entry when there is none. -/
def recv (event : SocketcallEvent) : Option (NetworkMonitor C × List (NetworkNotice C)) :=
  let sock := event.sockArgs 0
  if nm.socketToAddress sock = none ∧ nm.observeEverything = false then some (nm, [])
  else do
    let address := (nm.socketToAddress sock).getD ⟨0, 0⟩
    let nm := { nm with
      socketToAddress := Function.update nm.socketToAddress sock (some address) }
    let notices ← nm.notifyForRead find address (event.sockArgs 1) event.ret
    return (nm, notices)

/-- `socketcallNetworkCallback`. -/
def socketcallNetworkCallback (event : SocketcallEvent) :
    Option (NetworkMonitor C × List (NetworkNotice C)) :=
  match event.call with
  | .SYS_CONNECT => do
    let serv_addr ← event.sockArg 1
    let address ← event.address serv_addr
    return (nm.followSocket find (event.sockArgs 0) address, [])
  | .SYS_RECVFROM => do
    let serv_addr ← event.sockArg 4
    let address ← event.address serv_addr
    -- falls through to the next case
    (nm.followSocket find (event.sockArgs 0) address).recv find event
  | .SYS_RECV => do
    let _ ← event.sockArg 0
    nm.recv find event
  | .SYS_SOCKET | .SYS_BIND | .SYS_LISTEN | .SYS_ACCEPT | .SYS_GETSOCKNAME | .SYS_GETPEERNAME
  | .SYS_SEND | .SYS_SENDTO | .SYS_SHUTDOWN | .SYS_SETSOCKOPT | .SYS_GETSOCKOPT | .SYS_SENDMSG =>
    some (nm, [])
  | .SYS_SOCKETPAIR | .SYS_RECVMSG | .other _ => none

/-- `closeNetworkCallback`. -/
def closeNetworkCallback (args : SyscallArguments 32) : NetworkMonitor C :=
  if toInt args.ret = -1 then nm
  else { nm with socketToAddress := Function.update nm.socketToAddress args.arg0 none }

/-- `readNetworkCallback`. -/
def readNetworkCallback (args : SyscallArguments 32) : Option (List (NetworkNotice C)) :=
  if toInt args.ret = -1 then some []
  else
    match nm.socketToAddress args.arg0 with
    | none => some []
    | some address => nm.notifyForRead find address args.arg1 args.ret

/-- The `switch` of `socketcallNetworkCallback` on the words and the address that are there. -/
def switch (event : SocketcallEvent) : Option (NetworkMonitor C × List (NetworkNotice C)) :=
  match event.call with
  | .SYS_CONNECT =>
    some (nm.followSocket find (event.sockArgs 0) (event.addressAt (event.sockArgs 1)), [])
  | .SYS_RECVFROM =>
    (nm.followSocket find (event.sockArgs 0) (event.addressAt (event.sockArgs 4))).recv find event
  | .SYS_RECV => nm.recv find event
  | .SYS_SOCKETPAIR | .SYS_RECVMSG | .other _ => none
  | _ => some (nm, [])

theorem socketcallNetworkCallback_readable {event : SocketcallEvent} (h : event.Readable) :
    nm.socketcallNetworkCallback find event = nm.switch find event := by
  unfold SocketcallEvent.Readable at h
  unfold socketcallNetworkCallback SocketcallEvent.sockArg SocketcallEvent.address switch
  cases hcall : event.call with
  | SYS_CONNECT | SYS_RECVFROM =>
    simp only [hcall] at h ⊢
    simp only [Readable.read_mapped h.1, Readable.read_mapped h.2, Option.bind_eq_bind,
      Option.bind_some, Option.pure_def]
  | SYS_RECV =>
    simp only [hcall] at h ⊢
    rw [Readable.read_mapped h]
    rfl
  | _ => rfl

theorem socketcallNetworkCallback_unreadable {event : SocketcallEvent} (h : ¬ event.Readable) :
    nm.socketcallNetworkCallback find event = none := by
  unfold SocketcallEvent.Readable at h
  unfold socketcallNetworkCallback SocketcallEvent.sockArg SocketcallEvent.address
  cases hcall : event.call with
  | SYS_CONNECT | SYS_RECVFROM =>
    simp only [hcall, not_and] at h ⊢
    by_cases hp : event.readable.mapped event.pointer = true
    · rw [Readable.read_mapped hp]
      simp only [Option.bind_eq_bind, Option.bind_some, Readable.read_unmapped (h hp),
        Option.bind_none]
    · rw [Readable.read_unmapped hp]
      rfl
  | SYS_RECV =>
    simp only [hcall] at h ⊢
    rw [Readable.read_unmapped h]
    rfl
  | _ =>
    simp only [hcall] at h
    exact absurd trivial h

end

end NetworkMonitor

/-! ## The source -/

/-- The callbacks of `taint_source_network.cpp`. -/
inductive NetworkCallback
  | networkReadCallbackPerByte | networkReadCallbackPerRead | networkReadDefault
deriving DecidableEq, Repr

def NetworkCallback.ofRange : TaintRange → NetworkCallback
  | .PerByte => networkReadCallbackPerByte
  | .PerRead => networkReadCallbackPerRead

def NetworkCallback.run (tool : Tool 32) (start length : BitVec 32) :
    NetworkCallback → Option (Tool 32)
  | networkReadCallbackPerByte => tool.networkReadCallbackPerByte start length
  | networkReadCallbackPerRead => tool.networkReadCallbackPerRead start length
  | networkReadDefault => some tool

/-- The callbacks of a call, in order. -/
def runNotices (tool : Tool 32) (notices : List (NetworkNotice NetworkCallback)) :
    Option (Tool 32) :=
  notices.foldlM (fun tool notice => notice.callback.run tool notice.start notice.bytesRead) tool

section
variable (inet_addr : String → BitVec 32) (atoi : String → BitVec 32)

/-- `addNetworkSource`. -/
def NetworkMonitor.addNetworkSource (nm : NetworkMonitor NetworkCallback)
    (source : String × String × TaintRange) : NetworkMonitor NetworkCallback :=
  nm.observeAddress inet_addr atoi source.1 source.2.1 (.ofRange source.2.2)

/-- `NetworkTaintSource` with what `set_framework_options` adds to it. -/
def NetworkSource.monitor (src : NetworkSource) : NetworkMonitor NetworkCallback :=
  let nm := src.addresses.foldl (NetworkMonitor.addNetworkSource inet_addr atoi)
    ((NetworkMonitor.new src.observeEverything).registerAddressDefault .networkReadDefault)
  match src.all with
  | some range => nm.registerCallbackForAll (.ofRange range)
  | none => nm

/-- The callbacks configured for an address. -/
def NetworkSource.configured (src : NetworkSource) (address : NetworkAddress) :
    List NetworkCallback :=
  (src.addresses.filter fun source =>
    NetworkMonitor.addressOf inet_addr atoi source.1 source.2.1 = address).map
      fun source => .ofRange source.2.2

theorem NetworkSource.monitor_start (src : NetworkSource) :
    (src.monitor inet_addr atoi).observeEverything = src.observeEverything ∧
    ∀ sock, (src.monitor inet_addr atoi).socketToAddress sock = none := by
  have hadd : ∀ (sources : List (String × String × TaintRange))
      (nm : NetworkMonitor NetworkCallback),
      (sources.foldl (NetworkMonitor.addNetworkSource inet_addr atoi) nm).observeEverything =
        nm.observeEverything ∧
      (sources.foldl (NetworkMonitor.addNetworkSource inet_addr atoi) nm).socketToAddress =
        nm.socketToAddress := by
    intro sources
    induction sources with
    | nil => exact fun nm => ⟨rfl, rfl⟩
    | cons source sources ih => exact fun nm => ih _
  unfold monitor
  cases src.all with
  | none => exact ⟨(hadd _ _).1, fun sock => congrFun (hadd _ _).2 sock⟩
  | some range => exact ⟨(hadd _ _).1, fun sock => congrFun (hadd _ _).2 sock⟩

end

/-! ## Runs -/

/-- A successful call. -/
inductive NetworkEvent
  | connect (sock : BitVec 32) (address : NetworkAddress)
  | read (fd buf n : BitVec 32)
  | recv (sock buf n : BitVec 32)
  | close (fd : BitVec 32)
deriving DecidableEq, Repr

/-- The monitor and the tool, and the address each socket was last connected to and not closed
since. -/
structure Sockets where
  monitor : NetworkMonitor NetworkCallback
  tool : Tool 32
  connected : BitVec 32 → Option NetworkAddress

namespace Sockets

section
variable (find : Find NetworkCallback)

/-- What the callbacks of `NetworkMonitor` do at the end of a call. A call that succeeded had
pointers that can be read. -/
def callbacks (nm : NetworkMonitor NetworkCallback) :
    NetworkEvent → Option (NetworkMonitor NetworkCallback × List (NetworkNotice NetworkCallback))
  | .connect sock address =>
    nm.socketcallNetworkCallback find
      ⟨.SYS_CONNECT, 0x9000, fun i => if i = 0 then sock else 0xa000, fun _ => address, 0, .nonNull⟩
  | .read fd buf n => do
    let notices ← nm.readNetworkCallback find ⟨fd, buf, n⟩
    return (nm, notices)
  | .recv sock buf n =>
    nm.socketcallNetworkCallback find
      ⟨.SYS_RECV, 0x9000, fun i => if i = 0 then sock else if i = 1 then buf else 0,
        fun _ => ⟨0, 0⟩, n, .nonNull⟩
  | .close fd => some (nm.closeNetworkCallback ⟨fd, 0, 0⟩, [])

/-- The table of the kernel. -/
def kernel (connected : BitVec 32 → Option NetworkAddress) :
    NetworkEvent → BitVec 32 → Option NetworkAddress
  | .connect sock address => Function.update connected sock (some address)
  | .close fd => Function.update connected fd none
  | _ => connected

def step (s : Sockets) (event : NetworkEvent) : Option Sockets := do
  let (monitor, notices) ← callbacks find s.monitor event
  let tool ← runNotices s.tool notices
  return ⟨monitor, tool, kernel s.connected event⟩

end

section
variable (inet_addr : String → BitVec 32) (atoi : String → BitVec 32) (find : Find NetworkCallback)
  (src : NetworkSource)

/-- The tool before the first call. -/
structure Start (s : Sockets) : Prop where
  monitor : s.monitor = src.monitor inet_addr atoi
  connected : ∀ sock, s.connected sock = none

/-- What a read of `n` bytes should report: the buffer, to the callbacks configured for the address
of the socket. -/
def expected (s : Sockets) (fd buf n : BitVec 32) : List (NetworkNotice NetworkCallback) :=
  match s.connected fd with
  | some address => (src.configured inet_addr atoi address).map (⟨·, buf, n⟩)
  | none => []

/-- A read of `n > 0` bytes taints as configured: it runs the callbacks it should, which leave the
tool as it is afterwards. -/
def Delivers (s : Sockets) (event : NetworkEvent) : Prop :=
  ∀ fd buf n, event = .read fd buf n ∨ event = .recv fd buf n → 0 < toInt n →
    ∃ monitor, callbacks find s.monitor event =
      some (monitor, s.expected inet_addr atoi src fd buf n)

/-- Not a read of `n > 0` bytes from an address that is configured. -/
def Unconfigured (s : Sockets) (event : NetworkEvent) : Prop :=
  ∀ fd buf n, event = .read fd buf n ∨ event = .recv fd buf n → 0 < toInt n →
    ∀ address, s.connected fd = some address → src.configured inet_addr atoi address = []

end

/-- The monitor follows no socket. -/
structure Idle (s : Sockets) : Prop where
  observeEverything : s.monitor.observeEverything = false
  socketToAddress : ∀ sock, s.monitor.socketToAddress sock = none

section
variable {find : Find NetworkCallback} {s s' : Sockets} {event : NetworkEvent}

/-- No callback of an idle monitor reports anything, and it stays idle. -/
theorem Idle.callbacks (h : s.Idle) (event : NetworkEvent) :
    ∃ monitor, Sockets.callbacks find s.monitor event = some (monitor, []) ∧
      monitor.observeEverything = false ∧ ∀ sock, monitor.socketToAddress sock = none := by
  obtain ⟨hoff, hnone⟩ := h
  cases event with
  | connect sock address =>
    -- the guard asks for `observeEverything`
    refine ⟨s.monitor, ?_, hoff, hnone⟩
    show some (s.monitor.followSocket find sock address, []) = _
    simp [NetworkMonitor.followSocket, hoff]
  | read fd buf n =>
    refine ⟨s.monitor, ?_, hoff, hnone⟩
    simp [Sockets.callbacks, NetworkMonitor.readNetworkCallback, hnone]
  | recv sock buf n =>
    refine ⟨s.monitor, ?_, hoff, hnone⟩
    show s.monitor.recv find _ = _
    simp [NetworkMonitor.recv, hoff, hnone]
  | close fd =>
    have hret : toInt (0 : BitVec 32) ≠ -1 := by decide
    refine ⟨_, rfl, ?_, fun sock => ?_⟩
    · simp only [NetworkMonitor.closeNetworkCallback, if_neg hret, hoff]
    · simp only [NetworkMonitor.closeNetworkCallback, if_neg hret]
      by_cases he : sock = fd
      · rw [he, Function.update_self]
      · rw [Function.update_of_ne he, hnone]

theorem Idle.step (h : s.Idle) (hs : s.step find event = some s') :
    s'.Idle ∧ s'.tool = s.tool ∧ s'.connected = kernel s.connected event := by
  obtain ⟨monitor, hc, hoff, hnone⟩ := @Idle.callbacks find s h event
  simp only [Sockets.step, hc] at hs
  obtain rfl := Option.some.inj hs
  exact ⟨⟨hoff, hnone⟩, rfl, rfl⟩

section
variable {inet_addr : String → BitVec 32} {atoi : String → BitVec 32} {src : NetworkSource}

theorem Start.idle (hoff : src.observeEverything = false) (h : s.Start inet_addr atoi src) :
    s.Idle := by
  obtain ⟨hobserve, hnone⟩ := src.monitor_start inet_addr atoi
  exact ⟨by rw [h.monitor, hobserve, hoff], fun sock => by rw [h.monitor, hnone]⟩

/-- An idle monitor is right about the reads that should report nothing. -/
theorem Idle.delivers_unconfigured (h : s.Idle) (event : NetworkEvent) :
    s.Delivers inet_addr atoi find src event ↔ s.Unconfigured inet_addr atoi src event := by
  obtain ⟨monitor, hc, -, -⟩ := @Idle.callbacks find s h event
  constructor
  · intro hd fd buf n he hn address haddr
    obtain ⟨monitor', hd⟩ := hd fd buf n he hn
    have hnil : s.expected inet_addr atoi src fd buf n = [] :=
      (Prod.mk.inj (Option.some.inj (hd.symm.trans hc))).2
    simpa only [expected, haddr, List.map_eq_nil_iff] using hnil
  · intro hu fd buf n he hn
    have hnil : s.expected inet_addr atoi src fd buf n = [] := by
      unfold expected
      cases haddr : s.connected fd with
      | none => rfl
      | some address => simp only [hu fd buf n he hn address haddr, List.map_nil]
    exact ⟨monitor, hnil ▸ hc⟩

/-- With specific addresses, every read and recv of a run taints as configured if and only if none is
from a socket connected to a configured address. -/
theorem delivers_iff (hoff : src.observeEverything = false) (hs : s.Start inet_addr atoi src)
    {events : List NetworkEvent} (hr : Lib.run (Sockets.step find) s events = some s') :
    Lib.Along (Sockets.step find) (Delivers inet_addr atoi find src) s events ↔
      Lib.Along (Sockets.step find) (Unconfigured inet_addr atoi src) s events := by
  have hall : Lib.Along (Sockets.step find) (fun _ _ => True) s events :=
    fun _ _ _ _ _ _ => trivial
  refine Lib.along_iff_along (fun s event s' h _ _ hs => (h.step hs).1) ?_ (hs.idle hoff) hall hr
  intro s event s' h _ _
  exact h.delivers_unconfigured event

end

end

/-! ## A configured address -/

/-- `find` where no two keys are confused. -/
def findEqual : Find NetworkCallback := fun entries address =>
  match entries.filter fun entry => entry.1 = address with
  | [] => none
  | entries => some (entries.map Prod.snd)

/-- `inet_addr` and `atoi` on the two strings below. -/
def inetLocalhost (ip : String) : BitVec 32 := if ip = "127.0.0.1" then 0x0100007f else 0xffffffff
def atoiEighty (port : String) : BitVec 32 := if port = "80" then 80 else 0

def localhost : NetworkSource := ⟨false, none, [("127.0.0.1", "80", .PerByte)]⟩

def listening : Sockets :=
  ⟨localhost.monitor inetLocalhost atoiEighty, ⟨.initial 16, some (.sequential 0 0 16), fun _ => none⟩,
    fun _ => none⟩

theorem delivers_iff_other :
    Lib.Along (step findEqual) (Delivers inetLocalhost atoiEighty findEqual localhost) listening
        [.connect 3 ⟨0x08080808, 53⟩, .read 3 0x8000 4] ↔
      Lib.Along (step findEqual) (Unconfigured inetLocalhost atoiEighty localhost) listening
        [.connect 3 ⟨0x08080808, 53⟩, .read 3 0x8000 4] :=
  delivers_iff rfl ⟨rfl, fun _ => rfl⟩ rfl

/-- A read from the configured address reports nothing. -/
theorem read_configured_not_delivered :
    ¬ Lib.Along (step findEqual) (Delivers inetLocalhost atoiEighty findEqual localhost) listening
        [.connect 3 ⟨0x0100007f, 80⟩, .read 3 0x8000 4] := by
  intro h
  have hstart : listening.Start inetLocalhost atoiEighty localhost := ⟨rfl, fun _ => rfl⟩
  obtain ⟨s, hs⟩ : ∃ s, step findEqual listening (.connect 3 ⟨0x0100007f, 80⟩) = some s := ⟨_, rfl⟩
  obtain ⟨hidle, -, hconnected⟩ := (hstart.idle rfl).step hs
  have hread := h [.connect 3 ⟨0x0100007f, 80⟩] (.read 3 0x8000 4) [] rfl s
    (by rw [Lib.run_cons_of hs, Lib.run_nil])
  have hnil := (hidle.delivers_unconfigured _).1 hread 3 0x8000 4 (.inl rfl) (by decide) ⟨0x0100007f, 80⟩
    (by rw [hconnected]; rfl)
  exact absurd hnil (by decide)

end Sockets

end Dytan
