import Dytan.Monitor.AddressOrder
import Dytan.Monitor.System
import Mathlib.Tactic.IntervalCases

/-!
# Faults of the socket callbacks (`monitor_network.cpp`)

The callbacks of a `NetworkMonitor` with the ways they go wrong told apart (`Fault`): `abort`, a null
`sockaddr`, and `notifyForRead` entered with an address that `addressObservers` does not hold, where
it reads through `end()`. Where the memory they read is mapped and they do not go wrong, they are the
callbacks of `Monitor.Network` (`Faults.callbacks_ok`).

`Registered`: the addresses in `socketToAddress` are in `addressObservers`. It holds in every state a
run reaches without a fault, since the insertion of `connect` and `recvfrom` tests for it. The one of
`operator[]` in `recv` does not: with `observeEverything` a socket that was never connected gets the
address 0.0.0.0, port 0. `socket_faults_iff`: a run has no fault exactly when its calls are
`Guarded`.
-/

namespace Dytan

open Dispatch (SYS_read SYS_close SYS_socketcall)

/-- What a callback does wrong. -/
inductive Fault
  | abort
  | nullSockaddr
  | notFound
deriving DecidableEq, Repr

namespace Faults

variable {C : Type}

/-- The address behind a `struct sockaddr *`. -/
def sockaddr (event : SocketcallEvent) (addr : BitVec 32) : Except Fault NetworkAddress :=
  if addr = 0 then .error .nullSockaddr else .ok (event.addressAt addr)

/-- The result of a callback that gives up only in `notifyForRead`. -/
def found {α : Type} : Option α → Except Fault α
  | some r => .ok r
  | none => .error .notFound

section
variable (find : Find C) (nm : NetworkMonitor C)

/-- `socketcallNetworkCallback`. -/
def socketcallNetworkCallback (event : SocketcallEvent) :
    Except Fault (NetworkMonitor C × List (NetworkNotice C)) :=
  match event.call with
  | .SYS_CONNECT => do
    let address ← sockaddr event (event.sockArgs 1)
    return (nm.followSocket find (event.sockArgs 0) address, [])
  | .SYS_RECVFROM => do
    let address ← sockaddr event (event.sockArgs 4)
    found ((nm.followSocket find (event.sockArgs 0) address).recv find event)
  | .SYS_RECV => found (nm.recv find event)
  | .SYS_SOCKET | .SYS_BIND | .SYS_LISTEN | .SYS_ACCEPT | .SYS_GETSOCKNAME | .SYS_GETPEERNAME
  | .SYS_SEND | .SYS_SENDTO | .SYS_SHUTDOWN | .SYS_SETSOCKOPT | .SYS_GETSOCKOPT | .SYS_SENDMSG =>
    .ok (nm, [])
  | .SYS_SOCKETPAIR | .SYS_RECVMSG | .other _ => .error .abort

/-- `readNetworkCallback`. -/
def readNetworkCallback (args : SyscallArguments 32) :
    Except Fault (NetworkMonitor C × List (NetworkNotice C)) := do
  let notices ← found (nm.readNetworkCallback find args)
  return (nm, notices)

/-- The callback of the monitor for a finished call. -/
def callbacks (call : Finished) : Except Fault (NetworkMonitor C × List (NetworkNotice C)) :=
  if call.args.num = SYS_socketcall then socketcallNetworkCallback find nm call.socketcall
  else if call.args.num = SYS_read then readNetworkCallback find nm call.args.onFiles
  else if call.args.num = SYS_close then .ok (nm.closeNetworkCallback call.args.onFiles, [])
  else .ok (nm, [])

/-- The monitor after a call; none after a fault. -/
def step (call : Finished) : Option (NetworkMonitor C) :=
  match callbacks find nm call with
  | .ok r => some r.1
  | .error _ => none

/-- The callback has no fault. -/
def Safe (call : Finished) : Prop := ∀ fault, callbacks find nm call ≠ .error fault

/-! ## The condition -/

/-- `recv` reports to an address that is registered, or not at all. -/
def Heard (sock : BitVec 32) : Prop :=
  nm.observeEverything = false ∨ (nm.socketToAddress sock).isSome ∨
    (nm.observed find ⟨0, 0⟩).isSome

/-- The call of a `socketcall` that the callback deals with in this state. -/
def GuardedSocketcall (event : SocketcallEvent) : Prop :=
  match event.call with
  | .SYS_CONNECT => event.sockArgs 1 ≠ 0
  | .SYS_RECVFROM => event.sockArgs 4 ≠ 0 ∧
    (Heard find nm (event.sockArgs 0) ∨
      (nm.observed find (event.addressAt (event.sockArgs 4))).isSome)
  | .SYS_RECV => Heard find nm (event.sockArgs 0)
  | .SYS_RECVMSG => False
  | _ => True

def Guarded (call : Finished) : Prop :=
  call.args.num = SYS_socketcall → GuardedSocketcall find nm call.socketcall

/-- The addresses of the sockets are registered. -/
def Registered : Prop :=
  ∀ sock address, nm.socketToAddress sock = some address → (nm.observed find address).isSome

end

section
variable {find : Find C} {nm nm' : NetworkMonitor C} {call : Finished}
  {notices : List (NetworkNotice C)}

/-! ## Without a fault -/

theorem found_eq {α : Type} {o : Option α} {r : α} : found o = .ok r ↔ o = some r := by
  cases o with
  | none => exact iff_of_false nofun nofun
  | some x => exact ⟨fun h => by cases h; rfl, fun h => by cases h; rfl⟩

theorem found_safe {α : Type} {o : Option α} : (∀ fault, found o ≠ .error fault) ↔ o.isSome := by
  cases o with
  | none => exact iff_of_false (fun h => h .notFound rfl) nofun
  | some x => exact iff_of_true nofun rfl

/-- Without a fault a `socketcall` is the `switch` on what is there. -/
theorem socketcall_ok {event : SocketcallEvent}
    (h : socketcallNetworkCallback find nm event = .ok (nm', notices)) :
    nm.switch find event = some (nm', notices) := by
  unfold socketcallNetworkCallback sockaddr at h
  unfold NetworkMonitor.switch
  cases hcall : event.call <;> simp only [hcall] at h ⊢
  case SYS_CONNECT =>
    split_ifs at h
    · cases h
    · cases h
      rfl
  case SYS_RECVFROM =>
    split_ifs at h
    · cases h
    · exact found_eq.1 h
  case SYS_RECV => exact found_eq.1 h
  all_goals cases h
  all_goals rfl

/-- Without a fault the callback is the one of the model, where it can read what it reads. -/
theorem callbacks_ok (h : callbacks find nm call = .ok (nm', notices)) :
    (call.args.num = SYS_socketcall → nm.switch find call.socketcall = some (nm', notices) ∧
      (call.socketcall.Readable →
        nm.socketcallNetworkCallback find call.socketcall = some (nm', notices))) ∧
    (call.args.num = SYS_read →
      nm.readNetworkCallback find call.args.onFiles = some notices ∧ nm' = nm) ∧
    (call.args.num = SYS_close → nm' = nm.closeNetworkCallback call.args.onFiles) := by
  refine ⟨fun hnum => ?_, fun hnum => ?_, fun hnum => ?_⟩
  · rw [callbacks, if_pos hnum] at h
    have hswitch := socketcall_ok h
    exact ⟨hswitch, fun hreads =>
      (NetworkMonitor.socketcallNetworkCallback_readable find nm hreads).trans hswitch⟩
  · have hne : call.args.num ≠ SYS_socketcall := by rw [hnum]; decide
    rw [callbacks, if_neg hne, if_pos hnum, readNetworkCallback] at h
    cases hread : nm.readNetworkCallback find call.args.onFiles with
    | none =>
      rw [hread] at h
      cases h
    | some r =>
      rw [hread] at h
      cases h
      exact ⟨rfl, rfl⟩
  · have hne : call.args.num ≠ SYS_socketcall := by rw [hnum]; decide
    have hne' : call.args.num ≠ SYS_read := by rw [hnum]; decide
    rw [callbacks, if_neg hne, if_neg hne', if_pos hnum] at h
    cases h
    rfl

/-! ## The invariant -/

theorem Registered.followSocket (h : Registered find nm) (sock : BitVec 32)
    (address : NetworkAddress) : Registered find (nm.followSocket find sock address) := by
  unfold NetworkMonitor.followSocket
  split_ifs with hc
  · obtain ⟨hsome, -⟩ := (Bool.and_eq_true _ _).mp hc
    intro sock' address' ha
    by_cases he : sock' = sock
    · rw [he] at ha
      simp only [Function.update_self, Option.some.injEq] at ha
      exact ha ▸ hsome
    · simp only [Function.update_of_ne he] at ha
      exact h sock' address' ha
  · exact h

theorem Registered.close (h : Registered find nm) (args : SyscallArguments 32) :
    Registered find (nm.closeNetworkCallback args) := by
  unfold NetworkMonitor.closeNetworkCallback
  split_ifs
  · exact h
  · intro sock address ha
    by_cases he : sock = args.arg0
    · simp [he] at ha
    · simp only [Function.update_of_ne he] at ha
      exact h sock address ha

/-- What `recv` notifies: nobody, or the observers of an address that it then has in its table. -/
theorem recv_eq (event : SocketcallEvent) :
    nm.recv find event =
      if nm.socketToAddress (event.sockArgs 0) = none ∧ nm.observeEverything = false then
        some (nm, [])
      else (nm.observed find ((nm.socketToAddress (event.sockArgs 0)).getD ⟨0, 0⟩)).map
        fun observers => ({ nm with
          socketToAddress := Function.update nm.socketToAddress (event.sockArgs 0)
            (some ((nm.socketToAddress (event.sockArgs 0)).getD ⟨0, 0⟩)) },
          observers.map (⟨·, event.sockArgs 1, event.ret⟩)) := by
  by_cases hc : nm.socketToAddress (event.sockArgs 0) = none ∧ nm.observeEverything = false
  · rw [if_pos hc]
    exact if_pos hc
  · rw [if_neg hc]
    refine (if_neg hc).trans ?_
    show ((nm.observed find _).bind _).bind _ = _
    cases nm.observed find ((nm.socketToAddress (event.sockArgs 0)).getD ⟨0, 0⟩) <;> rfl

theorem Registered.recv_isSome (h : Registered find nm) (event : SocketcallEvent) :
    (nm.recv find event).isSome ↔ Heard find nm (event.sockArgs 0) := by
  rw [recv_eq, Heard]
  cases hsock : nm.socketToAddress (event.sockArgs 0) with
  | some address => simp [h _ _ hsock]
  | none => cases nm.observeEverything <;> simp

theorem Registered.recv (h : Registered find nm) {event : SocketcallEvent}
    (hr : nm.recv find event = some (nm', notices)) : Registered find nm' := by
  rw [recv_eq] at hr
  split_ifs at hr
  · cases hr
    exact h
  · obtain ⟨observers, ho, hr⟩ := Option.map_eq_some_iff.1 hr
    cases hr
    intro sock address ha
    by_cases he : sock = event.sockArgs 0
    · rw [he] at ha
      simp only [Function.update_self, Option.some.injEq] at ha
      rw [← ha]
      exact Option.isSome_iff_exists.2 ⟨observers, ho⟩
    · simp only [Function.update_of_ne he] at ha
      exact h sock address ha

/-- A callback without a fault keeps the addresses registered. -/
theorem Registered.step (h : Registered find nm) (hs : step find nm call = some nm') :
    Registered find nm' := by
  unfold Faults.step at hs
  cases hc : callbacks find nm call with
  | error fault =>
    rw [hc] at hs
    cases hs
  | ok r =>
    rw [hc] at hs
    obtain rfl := Option.some.inj hs
    obtain ⟨hsocketcall, hread, hclose⟩ := callbacks_ok hc
    by_cases h1 : call.args.num = SYS_socketcall
    · have hsocketcall := (hsocketcall h1).1
      unfold NetworkMonitor.switch at hsocketcall
      cases hcall : call.socketcall.call <;> simp only [hcall, reduceCtorEq] at hsocketcall
      case SYS_CONNECT =>
        obtain ⟨hnm, -⟩ := Prod.mk.inj (Option.some.inj hsocketcall)
        exact hnm ▸ h.followSocket _ _
      case SYS_RECVFROM => exact (h.followSocket _ _).recv hsocketcall
      case SYS_RECV => exact h.recv hsocketcall
      all_goals
        obtain ⟨hnm, -⟩ := Prod.mk.inj (Option.some.inj hsocketcall)
        exact hnm ▸ h
    · by_cases h2 : call.args.num = SYS_read
      · exact (hread h2).2 ▸ h
      · by_cases h3 : call.args.num = SYS_close
        · exact hclose h3 ▸ h.close _
        · rw [callbacks, if_neg h1, if_neg h2, if_neg h3] at hc
          cases hc
          exact h

/-! ## Which calls have a fault -/

/-- `sockaddr` and what follows it. -/
theorem sockaddr_safe {α : Type} {event : SocketcallEvent} {addr : BitVec 32}
    {next : NetworkAddress → Except Fault α} :
    (∀ fault, (do let address ← sockaddr event addr; next address) ≠ .error fault) ↔
      addr ≠ 0 ∧ ∀ fault, next (event.addressAt addr) ≠ .error fault := by
  unfold sockaddr
  split_ifs with h0
  · exact iff_of_false (fun h => h .nullSockaddr rfl) fun h => h.1 h0
  · exact ⟨fun h => ⟨h0, h⟩, fun h => h.2⟩

/-- After the insertion of `recvfrom`, `recv` reports when it did before or the address is
registered. -/
theorem heard_followSocket (sock : BitVec 32) (address : NetworkAddress) :
    Heard find (nm.followSocket find sock address) sock ↔
      Heard find nm sock ∨ (nm.observed find address).isSome := by
  unfold NetworkMonitor.followSocket
  split_ifs with hc
  · obtain ⟨hsome, hall⟩ := (Bool.and_eq_true _ _).mp hc
    exact iff_of_true (.inr (.inl (by simp))) (.inr hsome)
  · refine ⟨.inl, fun h => h.elim id fun hsome => .inl ?_⟩
    rw [Bool.and_eq_true, not_and, Bool.not_eq_true] at hc
    exact hc hsome

/-- The calls `Handle_SOCKETCALL` returns on. -/
theorem ofInt_listed {n : Int} (h : 1 ≤ n ∧ n ≤ 17 ∧ n ≠ 8) :
    Socketcall.ofInt n ≠ .SYS_SOCKETPAIR ∧ ∀ m, Socketcall.ofInt n ≠ .other m := by
  obtain ⟨h1, h17, h8⟩ := h
  interval_cases n <;> first | exact absurd rfl h8 | exact ⟨nofun, nofun⟩

theorem Registered.socketcall_safe_iff (h : Registered find nm) {event : SocketcallEvent}
    (hpair : event.call ≠ .SYS_SOCKETPAIR) (hother : ∀ n, event.call ≠ .other n) :
    (∀ fault, socketcallNetworkCallback find nm event ≠ .error fault) ↔
      GuardedSocketcall find nm event := by
  unfold socketcallNetworkCallback GuardedSocketcall
  cases hcall : event.call with
  | SYS_CONNECT =>
    refine sockaddr_safe.trans (and_iff_left ?_)
    exact fun fault => nofun
  | SYS_RECVFROM =>
    refine sockaddr_safe.trans (and_congr_right fun _ => found_safe.trans ?_)
    rw [(h.followSocket _ _).recv_isSome, heard_followSocket]
  | SYS_RECV => exact found_safe.trans (h.recv_isSome event)
  | SYS_SOCKETPAIR => exact absurd hcall hpair
  | other n => exact absurd hcall (hother n)
  | SYS_RECVMSG => exact iff_of_false (fun hs => hs .abort rfl) id
  | _ => exact iff_of_true (fun fault => nofun) trivial

theorem Registered.read_isSome (h : Registered find nm) (args : SyscallArguments 32) :
    (nm.readNetworkCallback find args).isSome := by
  unfold NetworkMonitor.readNetworkCallback
  split_ifs
  · rfl
  · cases hsock : nm.socketToAddress args.arg0 with
    | none => rfl
    | some address =>
      obtain ⟨observers, ho⟩ := Option.isSome_iff_exists.1 (h _ _ hsock)
      show (nm.notifyForRead find address args.arg1 args.ret).isSome
      rw [NetworkMonitor.notifyForRead, ho]
      rfl

/-- In a state with registered addresses, a call that `Handle_SOCKETCALL` accepts has no fault exactly
when it is guarded. -/
theorem Registered.safe_iff (h : Registered find nm) {call : Finished}
    (haccept : call.args.num = SYS_socketcall → handle_SOCKETCALL call.args = true) :
    Safe find nm call ↔ Guarded find nm call := by
  unfold Safe Guarded callbacks
  by_cases h1 : call.args.num = SYS_socketcall
  · have hlisted := ofInt_listed (of_decide_eq_true (haccept h1))
    rw [forall_prop_of_true h1, ← h.socketcall_safe_iff hlisted.1 hlisted.2]
    simp only [h1, if_true]
  · refine iff_of_true (fun fault => ?_) fun hnum => absurd hnum h1
    rw [if_neg h1]
    split_ifs with h2 h3
    · obtain ⟨notices, hread⟩ := Option.isSome_iff_exists.1 (h.read_isSome call.args.onFiles)
      rw [readNetworkCallback, hread]
      exact nofun
    · exact nofun
    · exact nofun

/-! ## Runs -/

/-- From a monitor that follows no socket yet, whatever it observes: the calls of a run are without
fault exactly when each is guarded in the state it is made in. -/
theorem socket_faults_iff (hstart : ∀ sock, nm.socketToAddress sock = none) {calls : List Finished}
    (haccept : ∀ call ∈ calls,
      call.args.num = SYS_socketcall → handle_SOCKETCALL call.args = true) :
    Lib.Along (step find) (Safe find) nm calls ↔
      Lib.Along (step find) (Guarded find) nm calls := by
  refine Lib.along_congr (fun nm call nm' h _ hs => Registered.step h hs)
    (fun nm call h hcall => Registered.safe_iff h hcall) ?_ haccept
  intro sock address ha
  rw [hstart] at ha
  cases ha

end

/-! ## `recvfrom` -/

/-- A `recvfrom` on socket 3 into `0x8000`, with the pointer `addr` for the sender's address. -/
def recvfrom (addr : BitVec 32) : Finished where
  args := ⟨SYS_socketcall, 12, 0x9000, 0, 0, 0, 0, 4, 0⟩
  cstring := ""
  sockArgs i := if i = 0 then 3 else if i = 1 then 0x8000 else if i = 4 then addr else 0
  addressAt _ := ⟨0x0100007f, 80⟩
  readable := .nonNull

/-- It observes everything, and one address is registered. -/
def everything : NetworkMonitor NetworkCallback :=
  (NetworkMonitor.new true).observeAddress Sockets.inetLocalhost Sockets.atoiEighty "127.0.0.1" "80"
    .networkReadCallbackPerByte

theorem socket_faults_iff_recvfrom :
    Lib.Along (step NetworkMonitor.findAddress) (Safe NetworkMonitor.findAddress) everything
        [recvfrom 0xa000, recvfrom 0] ↔
      Lib.Along (step NetworkMonitor.findAddress) (Guarded NetworkMonitor.findAddress) everything
        [recvfrom 0xa000, recvfrom 0] :=
  socket_faults_iff (fun _ => rfl) (by simp [recvfrom, handle_SOCKETCALL, toInt])

/-- The caller of `recvfrom` does not ask for the sender's address. -/
theorem recvfrom_null_faults :
    ¬ ∀ (nm : NetworkMonitor NetworkCallback) (calls : List Finished),
      (∀ sock, nm.socketToAddress sock = none) →
      (∀ call ∈ calls, call.args.num = SYS_socketcall → handle_SOCKETCALL call.args = true) →
      Lib.Along (step NetworkMonitor.findAddress) (Safe NetworkMonitor.findAddress) nm calls := by
  intro h
  have hsafe := h everything [recvfrom 0] (fun _ => rfl) (by simp [recvfrom, handle_SOCKETCALL, toInt])
    [] (recvfrom 0) [] rfl everything rfl
  exact hsafe .nullSockaddr rfl

end Faults

end Dytan
