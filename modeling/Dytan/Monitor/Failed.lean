import Dytan.Monitor.System

/-!
# System calls that fail

A failed call returns `-1`. The callbacks of the path monitors test for it, those of the network
monitors do nothing in any state the tool reaches (`NetworkMonitor.Unfollowed`,
`System.Reached.step`), but the handlers of `main` remove the taint of the buffer the call did not
write. `failed_unchanged_iff`: a failed call leaves the tool as it was if and only if it
`FailsCleanly`, which lists for each number what must be without taint, and no callback of an `open`
or a `socketcall` gives up.

A call can fail because of a pointer the kernel cannot read. `Handle_OPEN` and the callback of
`connect`, `recvfrom` and `recv` read through it all the same, which is the end of the tool.

The handlers of `mmap` and `mmap2` take the `-1` for the address of the mapping and clear nothing,
because the end of the range wraps; the one of `readlink` takes it for the number of bytes, and clears
all of memory but the last byte when the buffer is `NULL`.
-/

namespace Dytan

open Dispatch (SYS_read SYS_open SYS_close SYS_socketcall SYS_stat64 SYS_lstat64 SYS_fstat64
  SYS_fcntl64 SYS_lseek SYS_getdents64 SYS_gettimeofday SYS_readlink SYS_rt_sigaction
  SYS_rt_sigprocmask SYS_time SYS_uname SYS_mmap SYS_mmap2 registered)

/-! ## The network monitors -/

namespace NetworkMonitor

variable {C : Type}

/-- The monitor follows no socket, and one that observes everything has no address. -/
structure Unfollowed (nm : NetworkMonitor C) : Prop where
  socketToAddress : ∀ sock, nm.socketToAddress sock = none
  addressObservers : nm.observeEverything = true → nm.addressObservers = []

/-- `socketcallNetworkCallback` neither aborts nor reads past `end()`. -/
def Lists (nm : NetworkMonitor C) : Socketcall → Prop
  | .SYS_SOCKETPAIR | .SYS_RECVMSG | .other _ => False
  | .SYS_RECV | .SYS_RECVFROM => nm.observeEverything = false
  | _ => True

/-- `socketcallNetworkCallback` returns: it has a case for the call, and can read what it reads. -/
structure Handles (nm : NetworkMonitor C) (event : SocketcallEvent) : Prop where
  lists : nm.Lists event.call
  readable : event.Readable

section
variable {find : Find C} {nm : NetworkMonitor C} (hfind : ∀ address, find [] address = none)
  (h : nm.Unfollowed)
include hfind h

theorem Unfollowed.followSocket (sock : BitVec 32) (address : NetworkAddress) :
    nm.followSocket find sock address = nm := by
  refine if_neg fun hc => ?_
  obtain ⟨hsome, hall⟩ := (Bool.and_eq_true _ _).mp hc
  rw [observed, h.addressObservers hall, hfind] at hsome
  cases hsome

theorem Unfollowed.recv (event : SocketcallEvent) :
    nm.recv find event = if nm.observeEverything = false then some (nm, []) else none := by
  unfold NetworkMonitor.recv
  cases hall : nm.observeEverything with
  | false => simp [h.socketToAddress]
  | true => simp [h.socketToAddress, notifyForRead, observed, h.addressObservers hall, hfind]

/-- A `socketcall` reports nothing to such a monitor. -/
theorem Unfollowed.socketcall (event : SocketcallEvent) :
    (nm.Handles event → nm.socketcallNetworkCallback find event = some (nm, [])) ∧
    (¬ nm.Handles event → nm.socketcallNetworkCallback find event = none) := by
  by_cases hreads : event.Readable
  · have hlists : nm.Handles event ↔ nm.Lists event.call := ⟨Handles.lists, fun h => ⟨h, hreads⟩⟩
    rw [hlists, socketcallNetworkCallback_readable find nm hreads]
    unfold Lists switch
    cases event.call with
    | SYS_RECV =>
      simp only [h.recv hfind]
      exact ⟨fun hoff => if_pos hoff, fun hon => if_neg hon⟩
    | SYS_RECVFROM =>
      simp only [h.followSocket hfind, h.recv hfind]
      exact ⟨fun hoff => if_pos hoff, fun hon => if_neg hon⟩
    | SYS_CONNECT =>
      refine ⟨fun _ => ?_, fun hn => absurd trivial hn⟩
      show some (nm.followSocket find _ _, []) = _
      rw [h.followSocket hfind]
    | SYS_SOCKETPAIR | SYS_RECVMSG | other => exact ⟨fun hf => hf.elim, fun _ => rfl⟩
    | _ => exact ⟨fun _ => rfl, fun hn => absurd trivial hn⟩
  · exact ⟨fun hh => absurd hh.readable hreads,
      fun _ => socketcallNetworkCallback_unreadable find nm hreads⟩

omit hfind in
theorem Unfollowed.read (args : SyscallArguments 32) :
    nm.readNetworkCallback find args = some [] := by
  unfold readNetworkCallback
  split
  · rfl
  · rw [h.socketToAddress]

omit hfind in
theorem Unfollowed.close (args : SyscallArguments 32) : nm.closeNetworkCallback args = nm := by
  unfold closeNetworkCallback
  split
  · rfl
  · rw [← h.socketToAddress args.arg0, Function.update_eq_self]

end

end NetworkMonitor

/-! ## Reachable states -/

section
variable {inet_addr : String → BitVec 32} {atoi : String → BitVec 32}

/-- A source for all addresses is not given any. -/
theorem addSource_addresses {src : SourceConfig} {fw fw' : Framework}
    (h : ∀ net ∈ fw.networkSources, net.observeEverything = true → net.addresses = [])
    (hs : addSource src fw = some fw') :
    ∀ net ∈ fw'.networkSources, net.observeEverything = true → net.addresses = [] := by
  unfold addSource at hs
  split_ifs at hs with h1 h2 h3
  · split at hs
    · cases hs
    · split at hs <;> cases hs <;> exact h
  · split at hs
    · cases hs
    · split at hs
      · cases hs
        intro net hnet hall
        rcases List.mem_append.1 hnet with hnet | hnet
        · exact h net hnet hall
        · rw [List.mem_singleton.1 hnet]
      · simp only [Option.bind_eq_bind, Option.bind_eq_some_iff] at hs
        obtain ⟨addresses, -, hs⟩ := hs
        cases hs
        intro net hnet hall
        rcases List.mem_append.1 hnet with hnet | hnet
        · exact h net hnet hall
        · rw [List.mem_singleton.1 hnet] at hall
          cases hall
  · cases hs
    exact h
  · cases hs
    exact h

theorem setNumMarkings_networkSources {numMarkings : String} {fw fw' : Framework}
    (h : setNumMarkings numMarkings fw = some fw') : fw'.networkSources = fw.networkSources := by
  unfold setNumMarkings at h
  split_ifs at h with h1
  · cases h
    rfl
  · simp only [Option.bind_eq_bind, Option.bind_eq_some_iff] at h
    obtain ⟨num, -, h⟩ := h
    split_ifs at h
    cases h
    rfl
  · cases h
    rfl

theorem setFrameworkOptions_addresses {conf : Config} {fw : Framework}
    (h : setFrameworkOptions conf = some fw) :
    ∀ net ∈ fw.networkSources, net.observeEverything = true → net.addresses = [] := by
  -- the loop over the configured sources
  have hloop : ∀ (sources : List SourceConfig) (fw₁ fw₂ : Framework),
      (∀ net ∈ fw₁.networkSources, net.observeEverything = true → net.addresses = []) →
      sources.foldlM (configureSource conf) fw₁ = some fw₂ →
      ∀ net ∈ fw₂.networkSources, net.observeEverything = true → net.addresses = [] := by
    intro sources
    induction sources with
    | nil =>
      intro fw₁ fw₂ h₁ hr
      cases hr
      exact h₁
    | cons src sources ih =>
      intro fw₁ fw₂ h₁ hr
      simp only [List.foldlM_cons, configureSource, Option.bind_eq_bind,
        Option.bind_eq_some_iff] at hr
      obtain ⟨fw₃, ⟨fw₄, hnum, hadd⟩, hr⟩ := hr
      refine ih fw₃ fw₂ (addSource_addresses ?_ hadd) hr
      rwa [setNumMarkings_networkSources hnum]
  obtain ⟨fw₀, h₀, h⟩ := Option.bind_eq_some_iff.1 h
  refine hloop conf.sources fw₀ fw ?_ h
  unfold basicSetUp at h₀
  split_ifs at h₀ with hl
  · rw [setNumMarkings_networkSources h₀]
    intro net hnet hall
    rw [List.mem_singleton.1 hnet] at hall
    cases hall
  · cases h₀
    intro net hnet
    cases hnet

/-- The invariant of the states the tool reaches. -/
def System.Reached (s : System) : Prop := ∀ i, (s.networks i).Unfollowed

theorem NetworkSource.monitor_unfollowed {src : NetworkSource}
    (h : src.observeEverything = true → src.addresses = []) :
    (src.monitor inet_addr atoi).Unfollowed := by
  obtain ⟨hall, hnone⟩ := src.monitor_start inet_addr atoi
  refine ⟨hnone, fun ht => ?_⟩
  have haddresses := h (hall ▸ ht)
  unfold NetworkSource.monitor
  rw [haddresses]
  cases src.all <;> rfl

theorem Framework.system_reached {conf : Config} {fw : Framework}
    (h : setFrameworkOptions conf = some fw) : (fw.system inet_addr atoi).Reached := by
  intro i
  simp only [Framework.system]
  cases hsrc : fw.networkSources[i]? with
  | none => exact ⟨fun sock => rfl, fun ht => absurd ht Bool.false_ne_true⟩
  | some src =>
    exact NetworkSource.monitor_unfollowed
      (setFrameworkOptions_addresses h src (List.mem_of_getElem? hsrc))

end

namespace System

section
variable {find : Find NetworkCallback} {sources : List TaintSource} {s s' : System}

/-- No callback changes a network monitor. -/
theorem Reached.networks_observer (hfind : ∀ address, find [] address = none) (h : s.Reached)
    {call : Finished} {o : Observer} (hr : o.run find call s = some s') :
    s'.networks = s.networks := by
  cases o with
  | openCallback i =>
    obtain ⟨path, -, hr⟩ := Option.bind_eq_some_iff.1 hr
    obtain rfl := Option.some.inj hr
    rfl
  | closeCallback i =>
    obtain rfl := Option.some.inj hr
    rfl
  | readCallback i =>
    obtain ⟨tool, -, hr⟩ := Option.bind_eq_some_iff.1 hr
    obtain rfl := Option.some.inj hr
    rfl
  | closeNetworkCallback i =>
    obtain rfl := Option.some.inj hr
    show Function.update s.networks i _ = _
    rw [(h i).close, Function.update_eq_self]
  | readNetworkCallback i =>
    obtain ⟨notices, -, hr⟩ := Option.bind_eq_some_iff.1 hr
    obtain ⟨tool, -, hr⟩ := Option.bind_eq_some_iff.1 hr
    obtain rfl := Option.some.inj hr
    rfl
  | socketcallNetworkCallback i =>
    obtain ⟨⟨network, notices⟩, hn, hr⟩ := Option.bind_eq_some_iff.1 hr
    obtain ⟨tool, -, hr⟩ := Option.bind_eq_some_iff.1 hr
    obtain rfl := Option.some.inj hr
    obtain ⟨hsome, hnone⟩ := (h i).socketcall hfind call.socketcall
    by_cases hh : (s.networks i).Handles call.socketcall
    · obtain ⟨rfl, -⟩ := Prod.mk.inj (Option.some.inj ((hsome hh).symm.trans hn))
      show Function.update s.networks i _ = _
      rw [Function.update_eq_self]
    · rw [hnone hh] at hn
      cases hn
  | handler function =>
    obtain ⟨r, -, hr⟩ := Option.bind_eq_some_iff.1 hr
    obtain rfl := Option.some.inj hr
    rfl

theorem Reached.networks_observers (hfind : ∀ address, find [] address = none) (h : s.Reached)
    {call : Finished} {os : List Observer} (hr : s.runObservers find call os = some s') :
    s'.networks = s.networks := by
  induction os generalizing s with
  | nil =>
    cases hr
    rfl
  | cons o os ih =>
    rw [runObservers, List.foldlM_cons] at hr
    obtain ⟨s₁, ho, hr⟩ := Option.bind_eq_some_iff.1 hr
    have hsame := h.networks_observer hfind ho
    have hreached : s₁.Reached := by
      intro i
      rw [hsame]
      exact h i
    rw [ih hreached hr, hsame]

theorem Reached.step (hfind : ∀ address, find [] address = none) (h : s.Reached)
    {event : SystemEvent} (hr : s.step find sources event = some s') : s'.Reached := by
  have hsame : s'.networks = s.networks := by
    cases event with
    | ins e | op e | setNewTaintForMemory addr size taintMark =>
      obtain ⟨r, -, hr⟩ := Option.bind_eq_some_iff.1 hr
      obtain rfl := Option.some.inj hr
      rfl
    | clearTagsForByteRange start =>
      obtain rfl := Option.some.inj hr
      rfl
    | finished call => exact h.networks_observers hfind hr
  intro i
  rw [hsame]
  exact h i

theorem Reached.run (hfind : ∀ address, find [] address = none) (h : s.Reached)
    {events : List SystemEvent} (hr : Lib.run (System.step find sources) s events = some s') :
    s'.Reached :=
  Lib.run_invariant (fun _ _ _ h hs => Reached.step hfind h hs) h hr

end

end System

/-! ## The callbacks of a failed call -/

/-- The addresses a callback removes from `memTaintMap` when the call fails. -/
def Observer.cleared (args : Dispatch.SyscallArguments) : Observer → List (ADDRINT 32)
  | handler function => function.cleared args
  | _ => []

/-- The callback returns when the call fails. -/
def Observer.Completes (s : System) (call : Finished) : Observer → Prop
  | handler function => function.Returns call.args call.pathname
  | socketcallNetworkCallback i => (s.networks i).Handles call.socketcall
  | _ => True

namespace System

section
variable {find : Find NetworkCallback} {s : System} {call : Finished}

/-- What a callback does when the call fails. -/
theorem Reached.failed_observer (hfind : ∀ address, find [] address = none) (h : s.Reached)
    (hret : toInt call.args.ret = -1) (o : Observer) :
    (o.Completes s call →
      ∃ openFiles, o.run find call s = some (s.remove (o.cleared call.args) openFiles)) ∧
    (¬ o.Completes s call → o.run find call s = none) := by
  have hsame : o.run find call s = some s → o.cleared call.args = [] →
      ∃ openFiles, o.run find call s = some (s.remove (o.cleared call.args) openFiles) := by
    intro hrun hnil
    exact ⟨s.openFiles, by rw [hrun, hnil, remove_nil]⟩
  cases o with
  | openCallback i =>
    refine ⟨fun _ => hsame ?_ rfl, fun hn => absurd trivial hn⟩
    have hopen : openCallback (s.paths i) call.args.onFiles call.pathname = some (s.paths i) :=
      if_pos hret
    simp only [Observer.run, hopen]
    show some { s with paths := Function.update s.paths i (s.paths i) } = _
    rw [Function.update_eq_self]
  | closeCallback i =>
    refine ⟨fun _ => hsame ?_ rfl, fun hn => absurd trivial hn⟩
    have hclose : closeCallback (s.paths i) call.args.onFiles = s.paths i := if_pos hret
    simp only [Observer.run, hclose, Function.update_eq_self]
  | readCallback i =>
    refine ⟨fun _ => hsame ?_ rfl, fun hn => absurd trivial hn⟩
    have hread : readCallback (s.paths i) call.args.onFiles = [] := if_pos hret
    simp only [Observer.run, hread]
    rfl
  | readNetworkCallback i =>
    refine ⟨fun _ => hsame ?_ rfl, fun hn => absurd trivial hn⟩
    simp only [Observer.run, (h i).read]
    rfl
  | closeNetworkCallback i =>
    refine ⟨fun _ => hsame ?_ rfl, fun hn => absurd trivial hn⟩
    simp only [Observer.run, (h i).close, Function.update_eq_self]
  | socketcallNetworkCallback i =>
    obtain ⟨hsome, hnone⟩ := (h i).socketcall hfind call.socketcall
    refine ⟨fun hc => hsame ?_ rfl, fun hn => ?_⟩
    · simp only [Observer.run, hsome hc]
      show some { s with networks := Function.update s.networks i (s.networks i) } = _
      rw [Function.update_eq_self]
    · simp only [Observer.run, hnone hn]
      rfl
  | handler function =>
    refine ⟨fun hc => ?_, fun hn => ?_⟩
    · exact run_handler s hc
    · simp only [Observer.run, Handler.run_eq_none _ hn]
      rfl

/-- What all callbacks of a number do when the call fails. -/
theorem Reached.failed_observers (hfind : ∀ address, find [] address = none) (h : s.Reached)
    (hret : toInt call.args.ret = -1) (os : List Observer) :
    ((∀ o ∈ os, o.Completes s call) → ∃ openFiles, s.runObservers find call os =
      some (s.remove (os.flatMap (Observer.cleared call.args)) openFiles)) ∧
    (¬ (∀ o ∈ os, o.Completes s call) → s.runObservers find call os = none) := by
  induction os generalizing s with
  | nil =>
    refine ⟨fun _ => ⟨s.openFiles, ?_⟩, fun hn => absurd (by simp) hn⟩
    rw [List.flatMap_nil, remove_nil]
    rfl
  | cons o os ih =>
    obtain ⟨hruns, haborts⟩ := h.failed_observer hfind hret o
    rw [List.forall_mem_cons, runObservers, List.foldlM_cons]
    by_cases ho : o.Completes s call
    · obtain ⟨openFiles, hrun⟩ := hruns ho
      have hreached : (s.remove (o.cleared call.args) openFiles).Reached := h
      obtain ⟨hrest, hnone⟩ := ih hreached
      rw [hrun]
      refine ⟨fun hall => ?_, fun hn => hnone fun hall => hn ⟨ho, hall⟩⟩
      obtain ⟨openFiles', hrun'⟩ := hrest hall.2
      refine ⟨openFiles', hrun'.trans ?_⟩
      rw [remove_remove, List.flatMap_cons]
    · rw [haborts ho]
      exact ⟨fun hall => absurd hall.1 ho, fun _ => rfl⟩

end

/-! ## When a failed call changes nothing -/

variable (find : Find NetworkCallback) (sources : List TaintSource) (s : System) (call : Finished)

/-- The callbacks return and leave the taint, the generator and the tables of the monitors as they
were. -/
def Unchanged : Prop :=
  ∃ s', s.endSyscall find sources call = some s' ∧
    s'.tool.taint.memTaintMap = s.tool.taint.memTaintMap ∧
    s'.tool.taint.regTaintMap = s.tool.taint.regTaintMap ∧
    s'.tool.taintGen = s.tool.taintGen ∧
    (∀ i, (s'.paths i).activeFileDescriptors = (s.paths i).activeFileDescriptors) ∧
    ∀ i, (s'.networks i).socketToAddress = (s.networks i).socketToAddress

/-- No address has an entry in `memTaintMap`. -/
def Untainted (addrs : List (ADDRINT 32)) : Prop := ∀ a ∈ addrs, s.tool.taint.memTaintMap a = none

/-- What must be without taint for each number, and what must be readable (module doc). -/
structure FailsCleanly : Prop where
  stat64 : call.args.num = SYS_stat64 ∨ call.args.num = SYS_lstat64 ∨
    call.args.num = SYS_fstat64 ∨ call.args.num = SYS_fcntl64 ∨ call.args.num = SYS_lseek →
    s.Untainted (addrRange call.args.arg1 (call.args.arg1 + sizeofStat64))
  getdents64 : call.args.num = SYS_getdents64 →
    s.Untainted (addrRange call.args.arg1 (call.args.arg1 + call.args.arg2))
  gettimeofday : call.args.num = SYS_gettimeofday →
    s.Untainted (addrRange call.args.arg0 (call.args.arg0 + sizeofTimeval)) ∧
    s.Untainted (addrRange call.args.arg1 (call.args.arg1 + sizeofTimezone))
  readlink : call.args.num = SYS_readlink → call.args.arg1 = 0 →
    ∀ a ≠ BitVec.allOnes 32, s.tool.taint.memTaintMap a = none
  rt_sigaction : call.args.num = SYS_rt_sigaction → call.args.arg2 ≠ 0 →
    s.Untainted (addrRange call.args.arg2 (call.args.arg2 + sizeofSigaction))
  rt_sigprocmask : call.args.num = SYS_rt_sigprocmask → call.args.arg2 ≠ 0 →
    s.Untainted (addrRange call.args.arg2 (call.args.arg2 + sizeofSigset))
  time : call.args.num = SYS_time → call.args.arg0 ≠ 0 →
    s.Untainted (addrRange call.args.arg0 (call.args.arg0 + sizeofTime))
  uname : call.args.num = SYS_uname →
    s.Untainted (addrRange call.args.arg0 (call.args.arg0 + sizeofUtsname))
  pathname : call.args.num = SYS_open → call.readable.mapped call.args.arg0 = true
  socketcall : call.args.num = SYS_socketcall → handle_SOCKETCALL call.args = true ∧
    ∀ i, .network i ∈ sources → (s.networks i).Handles call.socketcall

section
variable {find : Find NetworkCallback} {sources : List TaintSource} {s : System} {call : Finished}

/-- The ranges that `-1` makes empty, and the one it makes all of memory. -/
theorem failed_ranges (h : toInt call.args.ret = -1) (a : ADDRINT 32) :
    (∀ size, a ∉ addrRange call.args.ret (call.args.ret + size)) ∧
    (a ∈ addrRange call.args.arg1 (call.args.arg1 + call.args.ret) ↔
      call.args.arg1 = 0 ∧ a ≠ BitVec.allOnes 32) := by
  have hret : call.args.ret = 0xffffffff#32 := by
    rw [toInt, BitVec.setWidth_eq] at h
    exact BitVec.eq_of_toInt_eq (h.trans (by decide))
  rw [hret, show BitVec.allOnes 32 = 0xffffffff#32 from rfl]
  refine ⟨fun size hm => ?_, ?_⟩
  · rw [mem_addrRange] at hm
    have hlt := hm.2
    bv_omega
  · rw [mem_addrRange]
    bv_omega

/-- The numbers that `main` registers a handler for. -/
def numbers (function : Handler) : List (BitVec 32) :=
  (mainRegistrations.filter (·.2 = function)).map Prod.fst

theorem mem_numbers {function : Handler} {num : BitVec 32}
    (h : (num, function) ∈ mainRegistrations) : num ∈ numbers function :=
  List.mem_map.2 ⟨(num, function), List.mem_filter.2 ⟨h, decide_eq_true rfl⟩, rfl⟩

/-- A handler that is registered for one number only. -/
theorem number_eq {function : Handler} {num only : BitVec 32}
    (h : (num, function) ∈ mainRegistrations) (honly : numbers function = [only]) : num = only :=
  List.mem_singleton.1 (honly ▸ mem_numbers h)

/-- Of the handlers only `Handle_OPEN` and `Handle_SOCKETCALL` can give up, and of the callbacks of
the sources only those of the network monitors: `openCallback` returns before it reads. -/
theorem completes_iff (s : System) (call : Finished) :
    (∀ o ∈ observers sources call.args.num, o.Completes s call) ↔
      (call.args.num = SYS_open → call.readable.mapped call.args.arg0 = true) ∧
      (call.args.num = SYS_socketcall → handle_SOCKETCALL call.args = true ∧
        ∀ i, .network i ∈ sources → (s.networks i).Handles call.socketcall) := by
  constructor
  · intro h
    refine ⟨fun he => ?_, fun he => ?_⟩
    · rw [he] at h
      have hmain : Observer.handler .Handle_OPEN ∈ observers sources SYS_open :=
        handler_mem_observers (by decide)
      exact Readable.read_isSome.1 ((h _ hmain).named rfl)
    · rw [he] at h
      have hmain : Observer.handler .Handle_SOCKETCALL ∈ observers sources SYS_socketcall :=
        handler_mem_observers (by decide)
      refine ⟨(h _ hmain).listed rfl, fun i hi => ?_⟩
      have hsource : Observer.socketcallNetworkCallback i ∈ observers sources SYS_socketcall := by
        refine observers_of_registered (List.mem_append_left _ (List.mem_flatMap.2 ⟨_, hi, ?_⟩))
        exact List.mem_cons_self
      exact h _ hsource
  · rintro ⟨hopen, h⟩ o ho
    obtain ⟨src, hsrc, hm⟩ | ⟨function, hm, rfl⟩ | rfl := mem_observers ho
    · cases o with
      | socketcallNetworkCallback i =>
        cases src with
        | path j => simp [TaintSource.activate] at hm
        | network j =>
          obtain ⟨he, rfl⟩ : call.args.num = SYS_socketcall ∧ i = j := by
            simpa [TaintSource.activate] using hm
          exact (h he).2 i hsrc
      | handler function => cases src <;> simp [TaintSource.activate] at hm
      | _ => trivial
    · refine ⟨?_, ?_⟩
      · rintro rfl
        exact (h (number_eq hm (by decide))).1
      · rintro rfl
        exact Readable.read_isSome.2 (hopen (number_eq hm (by decide)))
    · refine ⟨?_, ?_⟩
      · rintro ⟨⟩
      · rintro ⟨⟩

/-- The callbacks of the sources clear nothing. -/
theorem mem_cleared {a : ADDRINT 32} :
    a ∈ (observers sources call.args.num).flatMap (Observer.cleared call.args) ↔
      ∃ function, (call.args.num, function) ∈ mainRegistrations ∧ a ∈ function.cleared call.args := by
  rw [List.mem_flatMap]
  constructor
  · rintro ⟨o, ho, ha⟩
    obtain ⟨src, -, hm⟩ | ⟨function, hm, rfl⟩ | rfl := mem_observers ho
    · cases o with
      | handler function => cases src <;> simp [TaintSource.activate] at hm
      | _ => cases ha
    · exact ⟨function, hm, ha⟩
    · cases ha
  · rintro ⟨function, hm, ha⟩
    exact ⟨_, handler_mem_observers hm, ha⟩

/-- What the handlers of a failed call would clear is without taint. -/
theorem FailsCleanly.untainted (h : s.FailsCleanly sources call) (hret : toInt call.args.ret = -1) :
    s.Untainted ((observers sources call.args.num).flatMap (Observer.cleared call.args)) := by
  intro a ha
  obtain ⟨function, hm, ha⟩ := mem_cleared.1 ha
  cases function with
  | Handle_FSTAT64 =>
    have hnum : call.args.num ∈ [SYS_fcntl64, SYS_fstat64] :=
      (by decide : numbers .Handle_FSTAT64 = [SYS_fcntl64, SYS_fstat64]) ▸ mem_numbers hm
    refine h.stat64 ?_ a ha
    simp only [List.mem_cons, List.not_mem_nil, or_false] at hnum
    tauto
  | Handle_LSTAT64 =>
    have hnum : call.args.num ∈ [SYS_lseek, SYS_lstat64] :=
      (by decide : numbers .Handle_LSTAT64 = [SYS_lseek, SYS_lstat64]) ▸ mem_numbers hm
    refine h.stat64 ?_ a ha
    simp only [List.mem_cons, List.not_mem_nil, or_false] at hnum
    tauto
  | Handle_STAT64 => exact h.stat64 (.inl (number_eq hm (by decide))) a ha
  | Handle_GETDENTS64 => exact h.getdents64 (number_eq hm (by decide)) a ha
  | Handle_GETTIMEOFDAY =>
    obtain ⟨htv, htz⟩ := h.gettimeofday (number_eq hm (by decide))
    rcases List.mem_append.1 ha with ha | ha
    · exact htv a ha
    · exact htz a ha
  | Handle_MMAP | Handle_MMAP2 => exact absurd ha ((failed_ranges hret a).1 _)
  | Handle_READLINK =>
    obtain ⟨hzero, hne⟩ := (failed_ranges hret a).2.1 ha
    exact h.readlink (number_eq hm (by decide)) hzero a hne
  | Handle_RT_SIGACTION =>
    obtain ⟨hnull, ha⟩ := List.mem_ite_nil_right.1 ha
    exact h.rt_sigaction (number_eq hm (by decide)) hnull a ha
  | Handle_RT_SIGPROCMASK =>
    obtain ⟨hnull, ha⟩ := List.mem_ite_nil_right.1 ha
    exact h.rt_sigprocmask (number_eq hm (by decide)) hnull a ha
  | Handle_TIME =>
    obtain ⟨hnull, ha⟩ := List.mem_ite_nil_right.1 ha
    exact h.time (number_eq hm (by decide)) hnull a ha
  | Handle_UNAME => exact h.uname (number_eq hm (by decide)) a ha
  | _ => cases ha

theorem failsCleanly_iff (hret : toInt call.args.ret = -1) :
    s.FailsCleanly sources call ↔
      (∀ o ∈ observers sources call.args.num, o.Completes s call) ∧
      s.Untainted ((observers sources call.args.num).flatMap (Observer.cleared call.args)) := by
  rw [completes_iff]
  refine ⟨fun h => ⟨⟨h.pathname, h.socketcall⟩, h.untainted hret⟩, ?_⟩
  rintro ⟨⟨hpathname, hsocketcall⟩, h⟩
  -- the handler of a number
  have hclear : ∀ (function : Handler) {a : ADDRINT 32},
      (call.args.num, function) ∈ mainRegistrations → a ∈ function.cleared call.args →
      s.tool.taint.memTaintMap a = none :=
    fun function _ hm ha => h _ (mem_cleared.2 ⟨function, hm, ha⟩)
  refine ⟨fun hnum a ha => ?_, fun hnum a ha => ?_, fun hnum => ⟨fun a ha => ?_, fun a ha => ?_⟩,
    fun hnum hzero a hne => ?_, fun hnum hnull a ha => ?_, fun hnum hnull a ha => ?_,
    fun hnum hnull a ha => ?_, fun hnum a ha => ?_, hpathname, hsocketcall⟩
  · obtain ⟨function, hm, hc⟩ : ∃ function, (call.args.num, function) ∈ mainRegistrations ∧
        function.cleared call.args =
          addrRange call.args.arg1 (call.args.arg1 + sizeofStat64) := by
      rcases hnum with hnum | hnum | hnum | hnum | hnum <;> rw [hnum]
      · exact ⟨.Handle_STAT64, by decide, rfl⟩
      · exact ⟨.Handle_LSTAT64, by decide, rfl⟩
      · exact ⟨.Handle_FSTAT64, by decide, rfl⟩
      · exact ⟨.Handle_FSTAT64, by decide, rfl⟩
      · exact ⟨.Handle_LSTAT64, by decide, rfl⟩
    exact hclear function hm (hc ▸ ha)
  · exact hclear .Handle_GETDENTS64 (hnum ▸ by decide) ha
  · exact hclear .Handle_GETTIMEOFDAY (hnum ▸ by decide) (List.mem_append_left _ ha)
  · exact hclear .Handle_GETTIMEOFDAY (hnum ▸ by decide)
      (List.mem_append_right _ ha)
  · exact hclear .Handle_READLINK (hnum ▸ by decide)
      ((failed_ranges hret a).2.2 ⟨hzero, hne⟩)
  · exact hclear .Handle_RT_SIGACTION (hnum ▸ by decide)
      (List.mem_ite_nil_right.2 ⟨hnull, ha⟩)
  · exact hclear .Handle_RT_SIGPROCMASK (hnum ▸ by decide)
      (List.mem_ite_nil_right.2 ⟨hnull, ha⟩)
  · exact hclear .Handle_TIME (hnum ▸ by decide)
      (List.mem_ite_nil_right.2 ⟨hnull, ha⟩)
  · exact hclear .Handle_UNAME (hnum ▸ by decide) ha

/-- A failed call changes nothing exactly when its callbacks complete and clear nothing. -/
theorem Reached.unchanged_iff (hfind : ∀ address, find [] address = none) (h : s.Reached)
    (hret : toInt call.args.ret = -1) :
    s.Unchanged find sources call ↔ s.FailsCleanly sources call := by
  obtain ⟨hruns, haborts⟩ := h.failed_observers hfind hret (observers sources call.args.num)
  rw [failsCleanly_iff hret]
  by_cases hc : ∀ o ∈ observers sources call.args.num, o.Completes s call
  · obtain ⟨openFiles, hrun⟩ := hruns hc
    rw [and_iff_right hc, Untainted, ← without_eq_iff]
    constructor
    · rintro ⟨s', hs', hmem, -⟩
      obtain rfl := Option.some.inj (hrun.symm.trans hs')
      exact hmem
    · intro hmem
      exact ⟨_, hrun, hmem, rfl, rfl, fun _ => rfl, fun _ => rfl⟩
  · refine iff_of_false ?_ fun hf => hc hf.1
    rintro ⟨s', hs', -⟩
    cases (haborts hc).symm.trans hs'

end

/-- After any run from an accepted configuration. -/
theorem failed_unchanged_iff (inet_addr : String → BitVec 32) (atoi : String → BitVec 32)
    {find : Find NetworkCallback} (hfind : ∀ address, find [] address = none)
    (sources : List TaintSource) {conf : Config} {fw : Framework}
    (hconf : setFrameworkOptions conf = some fw) {events : List SystemEvent} {s : System}
    (hr : Lib.run (step find sources) (fw.system inet_addr atoi) events = some s)
    {call : Finished} (hret : toInt call.args.ret = -1) :
    s.Unchanged find sources call ↔ s.FailsCleanly sources call :=
  ((Framework.system_reached hconf).run hfind hr).unchanged_iff hfind hret

/-- `stat64` with the buffer `0x8000`, of a file that does not exist. -/
def failedStat64 : Finished :=
  ⟨⟨SYS_stat64, 0x7000, 0x8000, 0, 0, 0, 0, 0xffffffff, 2⟩, "missing", fun _ => 0, fun _ => ⟨0, 0⟩,
    .nonNull⟩

theorem failed_unchanged_iff_stat64 : ∃ s,
    Lib.run (step (fun _ _ => none) [.path 0, .network 0])
      (noSources.system (fun _ => 0) (fun _ => 0)) [.setNewTaintForMemory 0x9000 4 3] = some s ∧
    (s.Unchanged (fun _ _ => none) [.path 0, .network 0] failedStat64 ↔
      s.FailsCleanly [.path 0, .network 0] failedStat64) := by
  obtain ⟨s, hs⟩ : ∃ s, Lib.run (step (fun _ _ => none) [.path 0, .network 0])
      (noSources.system (fun _ => 0) (fun _ => 0)) [.setNewTaintForMemory 0x9000 4 3] = some s :=
    ⟨_, rfl⟩
  exact ⟨s, hs, failed_unchanged_iff _ _ (fun _ => rfl) _
    (by decide : setFrameworkOptions ⟨[], "1"⟩ = some noSources) hs (by decide)⟩

/-- The taint of the four bytes is lost although the call wrote nothing. -/
theorem failed_stat64_clears : ∃ s,
    Lib.run (step (fun _ _ => none) [.path 0, .network 0])
      (noSources.system (fun _ => 0) (fun _ => 0)) [.setNewTaintForMemory 0x8000 4 3] = some s ∧
    ¬ s.Unchanged (fun _ _ => none) [.path 0, .network 0] failedStat64 := by
  obtain ⟨s, hs, hmem⟩ : ∃ s, Lib.run (step (fun _ _ => none) [.path 0, .network 0])
      (noSources.system (fun _ => 0) (fun _ => 0)) [.setNewTaintForMemory 0x8000 4 3] = some s ∧
      s.tool.taint.memTaintMap 0x8000 ≠ none := ⟨_, rfl, by decide⟩
  have hconf : setFrameworkOptions ⟨[], "1"⟩ = some noSources := by decide
  have hreached : s.Reached := (Framework.system_reached hconf).run (fun _ => rfl) hs
  refine ⟨s, hs, fun h => hmem ?_⟩
  have hclean := (hreached.unchanged_iff (fun _ => rfl) (by decide)).1 h
  exact hclean.stat64 (.inl rfl) 0x8000 (by decide)

end System

end Dytan
