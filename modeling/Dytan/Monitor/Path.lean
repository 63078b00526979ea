import Dytan.Lib.Run
import Dytan.Monitor.Syscall

/-!
# Which file a read is from (`monitor_path.cpp`)

`PathMonitor C`: the observers of each path and the paths of the active file descriptors; `C` are
the callbacks. `endSyscall` runs the callbacks of a finished call and returns what `notifyForRead`
calls; `none` when a callback reads a pathname through a pointer it cannot read.

`Kernel` is the descriptor table that decides what a call does: for each open descriptor the name
used in the `open` call it descends from (`none` for a descriptor the program was started with).
`reads_notify_iff`: along a run, every read would notify exactly the observers of the file the
descriptor refers to, if and only if every `dup` and `dup2` gives the new descriptor a file with the
observers it had before (`DupAgrees`). The monitor does not observe `dup` and `dup2`, while
`Handle_DUP` copies the name in `openFiles`.
-/

namespace Dytan

/-! ## The monitor -/

structure PathMonitor (C : Type) where
  observeEverything : Bool
  defaultObserver : Option C
  allObserver : Option C
  observers : String → Option (List C)
  activeFileDescriptors : Int → Option String

/-- What `notifyForRead` calls: an observer of the path or of all paths, or the default. -/
inductive Notice (C : Type)
  | observer (callback : C) (pathname : String)
  | all (callback : C) (pathname : String)
  | default (callback : C) (pathname : String)
deriving DecidableEq, Repr

/-- The callback of an observer; the default is not one. -/
def Notice.registered? {C : Type} : Notice C → Option C
  | .observer callback _ => some callback
  | .all callback _ => some callback
  | .default _ _ => none

namespace PathMonitor

variable {C : Type}

/-- The constructor. -/
def new (observeAll : Bool) : PathMonitor C := ⟨observeAll, none, none, fun _ => none, fun _ => none⟩

def observePath (pm : PathMonitor C) (pathname : String) (callback : C) : PathMonitor C :=
  { pm with observers := Function.update pm.observers pathname
              (some ((pm.observers pathname).getD [] ++ [callback])) }

def registerCallbackForAll (pm : PathMonitor C) (callback : C) : PathMonitor C :=
  { pm with allObserver := some callback }

def registerDefault (pm : PathMonitor C) (callback : C) : PathMonitor C :=
  { pm with defaultObserver := some callback }

def addActiveFileDescriptor (pm : PathMonitor C) (fd : Int) (pathname : String) : PathMonitor C :=
  { pm with activeFileDescriptors := Function.update pm.activeFileDescriptors fd (some pathname) }

def removeActiveFileDescriptor (pm : PathMonitor C) (fd : Int) : PathMonitor C :=
  { pm with activeFileDescriptors := Function.update pm.activeFileDescriptors fd none }

def notifyForRead {w : Nat} (pm : PathMonitor C) (args : SyscallArguments w) : List (Notice C) :=
  match pm.activeFileDescriptors (toInt args.arg0) with
  | none => []
  | some pathname =>
    match pm.observers pathname with
    | none =>
      if pm.observeEverything then pm.allObserver.toList.map (.all · pathname)
      else pm.defaultObserver.toList.map (.default · pathname)
    | some activeObservers => activeObservers.map (.observer · pathname)

/-- The observers registered for a path: its own, else the one for all paths. -/
def observersOf (pm : PathMonitor C) (pathname : String) : List C :=
  match pm.observers pathname with
  | some callbacks => callbacks
  | none => if pm.observeEverything then pm.allObserver.toList else []

/-- The observers of what a descriptor refers to; without a name there are none. -/
def observersOf? (pm : PathMonitor C) (name : Option String) : List C :=
  match name with
  | some pathname => pm.observersOf pathname
  | none => []

/-- `notifyForRead` runs the observers of the path it has for the descriptor. -/
theorem notifyForRead_registered {w : Nat} (pm : PathMonitor C) (args : SyscallArguments w) :
    (pm.notifyForRead args).filterMap Notice.registered? =
      pm.observersOf? (pm.activeFileDescriptors (toInt args.arg0)) := by
  have hmap : ∀ (f : C → Notice C) (l : List C), (∀ c, (f c).registered? = some c) →
      (l.map f).filterMap Notice.registered? = l := by
    intro f l hf
    rw [List.filterMap_map, show Notice.registered? ∘ f = some from funext hf, List.filterMap_some]
  unfold notifyForRead observersOf?
  cases pm.activeFileDescriptors (toInt args.arg0) with
  | none => rfl
  | some pathname =>
    cases ho : pm.observers pathname with
    | some callbacks => simp only [observersOf, ho]; exact hmap _ _ fun _ => rfl
    | none =>
      cases he : pm.observeEverything with
      | true => simp only [observersOf, ho, he, if_true]; exact hmap _ _ fun _ => rfl
      | false =>
        cases pm.defaultObserver <;> simp [observersOf, ho, he, Notice.registered?]

end PathMonitor

/-! ## The callbacks -/

/-- The path monitor and `openFiles`. -/
structure Monitors (C : Type) where
  path : PathMonitor C
  openFiles : Int → Option String

section
variable {C : Type} {w : Nat}

/-- `openCallback`. The string is read after the test of the result. -/
def openCallback (pm : PathMonitor C) (args : SyscallArguments w) (cstring : Option String) :
    Option (PathMonitor C) :=
  if toInt args.ret = -1 then some pm
  else cstring.map (pm.addActiveFileDescriptor (toInt args.ret))

/-- `closeCallback`. -/
def closeCallback (pm : PathMonitor C) (args : SyscallArguments w) : PathMonitor C :=
  if toInt args.ret = -1 then pm else pm.removeActiveFileDescriptor (toInt args.arg0)

/-- `readCallback`. -/
def readCallback (pm : PathMonitor C) (args : SyscallArguments w) : List (Notice C) :=
  if toInt args.ret = -1 then [] else pm.notifyForRead args

/-- `Handle_OPEN`. The string is read whatever the result is. -/
def handle_OPEN (openFiles : Int → Option String) (args : SyscallArguments w)
    (cstring : Option String) : Option (Int → Option String) :=
  cstring.map fun pathname => Function.update openFiles (toInt args.ret) (some pathname)

/-- `Handle_DUP`; reading an absent entry inserts the empty name. -/
def handle_DUP (openFiles : Int → Option String) (args : SyscallArguments w) :
    Int → Option String :=
  let fd1 := toInt args.arg0
  let fd2 := toInt args.ret
  let name := (openFiles fd1).getD ""
  Function.update (Function.update openFiles fd1 (some name)) fd2 (some name)

/-- One callback of a finished call. -/
def SyscallMonitorCallback.run (monitors : Monitors C) (event : SyscallEvent w) :
    SyscallMonitorCallback → Option (Monitors C × List (Notice C))
  | .openCallback => do
    let path ← Dytan.openCallback monitors.path event.args event.cstring
    return ({ monitors with path := path }, [])
  | .closeCallback =>
    some ({ monitors with path := Dytan.closeCallback monitors.path event.args }, [])
  | .readCallback => some (monitors, Dytan.readCallback monitors.path event.args)
  | .Handle_OPEN => do
    let openFiles ← handle_OPEN monitors.openFiles event.args event.cstring
    return ({ monitors with openFiles := openFiles }, [])
  | .Handle_DUP =>
    some ({ monitors with openFiles := handle_DUP monitors.openFiles event.args }, [])
  | .Handle_CLOSE => some (monitors, [])
  | .Handle_DUP2 => some (monitors, [])
  | .Handle_READ => some (monitors, [])
  | .UnimplementedSystemCall => some (monitors, [])

/-- The loop of `endSyscall`. -/
def runCallbacks (event : SyscallEvent w) (monitors : Monitors C) :
    List SyscallMonitorCallback → Option (Monitors C × List (Notice C))
  | [] => some (monitors, [])
  | callback :: callbacks => do
    let (monitors, notices) ← callback.run monitors event
    let (monitors, notices') ← runCallbacks event monitors callbacks
    return (monitors, notices ++ notices')

/-- `endSyscall`, with the registrations of `main`. -/
def endSyscall (monitors : Monitors C) (event : SyscallEvent w) :
    Option (Monitors C × List (Notice C)) :=
  runCallbacks event monitors (SyscallMonitor.main.callbacks event.num)

/-- The callbacks of `open` need the string. -/
theorem endSyscall_open {monitors monitors' : Monitors C} {event : SyscallEvent w}
    {notices : List (Notice C)} (hnum : event.num = .SYS_open)
    (h : endSyscall monitors event = some (monitors', notices)) :
    ∃ pathname, event.cstring = some pathname ∧ monitors'.path =
      if toInt event.args.ret = -1 then monitors.path
      else monitors.path.addActiveFileDescriptor (toInt event.args.ret) pathname := by
  rw [endSyscall, hnum, SyscallMonitor.main_callbacks] at h
  obtain ⟨⟨opened, notices₁⟩, ho, h⟩ := Option.bind_eq_some_iff.1 h
  obtain ⟨path, hpath, ho⟩ := Option.bind_eq_some_iff.1 ho
  obtain ⟨⟨rest, notices₂⟩, hh, h⟩ := Option.bind_eq_some_iff.1 h
  obtain ⟨⟨handled, notices₃⟩, hh, hrest⟩ := Option.bind_eq_some_iff.1 hh
  obtain ⟨openFiles, hopen, hh⟩ := Option.bind_eq_some_iff.1 hh
  obtain ⟨pathname, hs, -⟩ := Option.map_eq_some_iff.1 hopen
  cases ho
  cases hh
  cases hrest
  cases h
  refine ⟨pathname, hs, ?_⟩
  rw [openCallback, hs] at hpath
  split_ifs at hpath ⊢ <;> exact (Option.some.inj hpath).symm

/-- What a finished call other than `open` does to the path monitor. -/
theorem endSyscall_path {monitors monitors' : Monitors C} {event : SyscallEvent w}
    {notices : List (Notice C)} (hnum : event.num ≠ .SYS_open)
    (h : endSyscall monitors event = some (monitors', notices)) :
    monitors'.path = match event.num with
      | .SYS_close => closeCallback monitors.path event.args
      | _ => monitors.path := by
  rw [endSyscall, SyscallMonitor.main_callbacks] at h
  cases he : event.num with
  | SYS_open => exact absurd he hnum
  | _ =>
    rw [he] at h
    obtain ⟨rfl, -⟩ := Prod.mk.inj (Option.some.inj h)
    rfl

/-- A finished `read` returns what `readCallback` notifies. -/
theorem endSyscall_read {monitors : Monitors C} {event : SyscallEvent w}
    (hnum : event.num = .SYS_read) :
    endSyscall monitors event = some (monitors, readCallback monitors.path event.args) := by
  rw [endSyscall, hnum, SyscallMonitor.main_callbacks]
  simp [runCallbacks, SyscallMonitorCallback.run]

end

/-! ## The kernel -/

/-- The descriptor table: the names of the open descriptors. -/
abbrev Kernel := Int → Option (Option String)

namespace Kernel

/-- The name of the file a descriptor refers to, if it has one. -/
def name (kernel : Kernel) (fd : Int) : Option String := (kernel fd).join

/-- The table after a finished call; `none` when the kernel does not finish a call so. `-1` is a
failed call; an `open` that succeeds has read its pathname. -/
def complete {w : Nat} (kernel : Kernel) (event : SyscallEvent w) : Option Kernel :=
  let arg0 := toInt event.args.arg0
  let ret := toInt event.args.ret
  if ret = -1 then some kernel
  else if ret < 0 then none
  else match event.num with
    | .SYS_open =>
      if kernel ret = none then
        event.cstring.map fun pathname => Function.update kernel ret (some (some pathname))
      else none
    | .SYS_close =>
      if (kernel arg0).isSome then some (Function.update kernel arg0 none) else none
    | .SYS_dup =>
      if (kernel arg0).isSome ∧ kernel ret = none then
        some (Function.update kernel ret (kernel arg0))
      else none
    | .SYS_dup2 =>
      if (kernel arg0).isSome ∧ ret = toInt event.args.arg1 then
        some (Function.update kernel ret (kernel arg0))
      else none
    | .SYS_read => if (kernel arg0).isSome then some kernel else none

theorem complete_read {w : Nat} {kernel : Kernel} {event : SyscallEvent w}
    (hnum : event.num = .SYS_read) (hret : 0 < toInt event.args.ret) :
    kernel.complete event ≠ none ↔ kernel (toInt event.args.arg0) ≠ none := by
  have hne : toInt event.args.ret ≠ -1 := by omega
  have hlt : ¬ toInt event.args.ret < 0 := by omega
  simp [complete, hne, hlt, hnum, Option.isSome_iff_ne_none]

/-- What a finished call does to the table. -/
theorem complete_cases {w : Nat} {kernel kernel' : Kernel} {event : SyscallEvent w}
    (h : kernel.complete event = some kernel') :
    toInt event.args.ret = -1 ∧ kernel' = kernel ∨
    toInt event.args.ret ≠ -1 ∧
      ((∃ pathname, event.num = .SYS_open ∧ event.cstring = some pathname ∧
          kernel (toInt event.args.ret) = none ∧
          kernel' = Function.update kernel (toInt event.args.ret) (some (some pathname))) ∨
        event.num = .SYS_close ∧ kernel' = Function.update kernel (toInt event.args.arg0) none ∨
        (event.num = .SYS_dup ∨ event.num = .SYS_dup2) ∧ kernel (toInt event.args.arg0) ≠ none ∧
          kernel' = Function.update kernel (toInt event.args.ret) (kernel (toInt event.args.arg0)) ∨
        event.num = .SYS_read ∧ kernel' = kernel) := by
  by_cases hfail : toInt event.args.ret = -1
  · rw [complete, if_pos hfail] at h
    exact .inl ⟨hfail, (Option.some.inj h).symm⟩
  · rw [complete, if_neg hfail, Option.ite_none_left_eq_some] at h
    obtain ⟨-, h⟩ := h
    refine .inr ⟨hfail, ?_⟩
    cases hnum : event.num with
    | SYS_open =>
      simp only [hnum, Option.ite_none_right_eq_some, Option.map_eq_some_iff] at h
      obtain ⟨hfree, pathname, hs, rfl⟩ := h
      exact .inl ⟨pathname, rfl, hs, hfree, rfl⟩
    | SYS_close =>
      simp only [hnum, Option.ite_none_right_eq_some, Option.some.injEq] at h
      exact .inr (.inl ⟨rfl, h.2.symm⟩)
    | SYS_dup =>
      simp only [hnum, Option.ite_none_right_eq_some, Option.some.injEq] at h
      exact .inr (.inr (.inl ⟨.inl rfl, Option.isSome_iff_ne_none.1 h.1.1, h.2.symm⟩))
    | SYS_dup2 =>
      simp only [hnum, Option.ite_none_right_eq_some, Option.some.injEq] at h
      exact .inr (.inr (.inl ⟨.inr rfl, Option.isSome_iff_ne_none.1 h.1.1, h.2.symm⟩))
    | SYS_read =>
      simp only [hnum, Option.ite_none_right_eq_some, Option.some.injEq] at h
      exact .inr (.inr (.inr ⟨rfl, h.2.symm⟩))

end Kernel

/-! ## Runs -/

/-- The descriptor table and what the tool keeps of it. -/
structure Traced (C : Type) where
  kernel : Kernel
  monitors : Monitors C

namespace Traced

variable {C : Type} {s s' : Traced C} {event : SyscallEvent 32}

/-- The kernel finishes a call and the tool is told. -/
def step (s : Traced C) (event : SyscallEvent 32) : Option (Traced C) := do
  let kernel ← s.kernel.complete event
  let (monitors, _) ← endSyscall s.monitors event
  return ⟨kernel, monitors⟩

/-- No descriptor has a name yet. -/
structure Start (s : Traced C) : Prop where
  unnamed : ∀ fd, s.kernel.name fd = none
  inactive : ∀ fd, s.monitors.path.activeFileDescriptors fd = none

/-- The observers of the file a descriptor refers to. -/
def observers (s : Traced C) (fd : Int) : List C := s.monitors.path.observersOf? (s.kernel.name fd)

/-- The observers of the path the monitor has for a descriptor. -/
def notified (s : Traced C) (fd : Int) : List C :=
  s.monitors.path.observersOf? (s.monitors.path.activeFileDescriptors fd)

/-- Every read the kernel can finish here with a positive result runs exactly the observers
registered for the path its descriptor refers to. -/
def ReadsNotify (s : Traced C) : Prop :=
  ∀ event : SyscallEvent 32, event.num = .SYS_read → 0 < toInt event.args.ret →
    s.kernel.complete event ≠ none →
    (endSyscall s.monitors event).map (·.2.filterMap Notice.registered?) =
      some (s.observers (toInt event.args.arg0))

/-- A descriptor that becomes a duplicate had the same observers before. -/
def DupAgrees (s : Traced C) (event : SyscallEvent 32) : Prop :=
  event.num = .SYS_dup ∨ event.num = .SYS_dup2 → toInt event.args.ret ≠ -1 →
    s.observers (toInt event.args.arg0) = s.observers (toInt event.args.ret)

/-- The monitor has no path for a closed descriptor. -/
def Closed (s : Traced C) : Prop :=
  ∀ fd, s.kernel fd = none → s.monitors.path.activeFileDescriptors fd = none

/-- The monitor has the right observers for every open descriptor a call can name. -/
def Tracks (s : Traced C) : Prop :=
  ∀ a : ADDRINT 32, s.kernel (toInt a) ≠ none → s.notified (toInt a) = s.observers (toInt a)

theorem notices_read (hnum : event.num = .SYS_read) (hret : 0 < toInt event.args.ret) :
    (endSyscall s.monitors event).map (·.2.filterMap Notice.registered?) =
      some (s.notified (toInt event.args.arg0)) := by
  have hne : toInt event.args.ret ≠ -1 := by omega
  rw [endSyscall_read hnum, readCallback, if_neg hne]
  exact congrArg some (PathMonitor.notifyForRead_registered _ _)

theorem readsNotify_iff_tracks : s.ReadsNotify ↔ s.Tracks := by
  constructor
  · intro h a ha
    obtain ⟨event, hnum, harg, hret⟩ : ∃ event : SyscallEvent 32, event.num = .SYS_read ∧
        event.args.arg0 = a ∧ 0 < toInt event.args.ret :=
      ⟨⟨.SYS_read, ⟨a, 0, 1#32⟩, none⟩, rfl, rfl, show 0 < toInt 1#32 by decide⟩
    have hr := h event hnum hret ((Kernel.complete_read hnum hret).2 (harg ▸ ha))
    rwa [notices_read hnum hret, harg, Option.some.injEq] at hr
  · intro h event hnum hret hc
    rw [notices_read hnum hret]
    exact congrArg some (h _ ((Kernel.complete_read hnum hret).1 hc))

/-- A step is the kernel's and the callbacks'. -/
theorem step_eq (h : s.step event = some s') :
    s.kernel.complete event = some s'.kernel ∧
      ∃ notices, endSyscall s.monitors event = some (s'.monitors, notices) := by
  obtain ⟨kernel, hk, h⟩ := Option.bind_eq_some_iff.1 h
  obtain ⟨⟨monitors, notices⟩, hc, h⟩ := Option.bind_eq_some_iff.1 h
  obtain rfl := Option.some.inj h
  exact ⟨hk, notices, hc⟩

/-- The observers of a path never change. -/
theorem step_observersOf? (h : s.step event = some s') :
    s'.monitors.path.observersOf? = s.monitors.path.observersOf? := by
  have hclose : (closeCallback s.monitors.path event.args).observersOf? =
      s.monitors.path.observersOf? := by
    unfold closeCallback
    split <;> rfl
  obtain ⟨-, notices, hc⟩ := step_eq h
  by_cases hnum : event.num = .SYS_open
  · obtain ⟨pathname, -, hp⟩ := endSyscall_open hnum hc
    rw [hp]
    split <;> rfl
  · rw [endSyscall_path hnum hc]
    cases event.num with
    | SYS_close => exact hclose
    | _ => rfl

/-- What a step does to the table and to the monitor's copy of it. -/
theorem step_cases (h : s.step event = some s') :
    let active := s.monitors.path.activeFileDescriptors
    let active' := s'.monitors.path.activeFileDescriptors
    s'.kernel = s.kernel ∧ active' = active ∧
        (event.num = .SYS_dup ∨ event.num = .SYS_dup2 → toInt event.args.ret = -1) ∨
    (∃ pathname, s.kernel (toInt event.args.ret) = none ∧ event.num = .SYS_open ∧
        s'.kernel = Function.update s.kernel (toInt event.args.ret) (some (some pathname)) ∧
        active' = Function.update active (toInt event.args.ret) (some pathname)) ∨
    event.num = .SYS_close ∧
        s'.kernel = Function.update s.kernel (toInt event.args.arg0) none ∧
        active' = Function.update active (toInt event.args.arg0) none ∨
    (event.num = .SYS_dup ∨ event.num = .SYS_dup2) ∧ toInt event.args.ret ≠ -1 ∧
        s.kernel (toInt event.args.arg0) ≠ none ∧
        s'.kernel = Function.update s.kernel (toInt event.args.ret)
          (s.kernel (toInt event.args.arg0)) ∧
        active' = active := by
  intro active active'
  obtain ⟨hk, notices, hc⟩ := step_eq h
  have hp := fun hnum => endSyscall_path hnum hc
  obtain ⟨hfail, hk⟩ | ⟨hne, ⟨pathname, hnum, hs, hfree, hk⟩ | ⟨hnum, hk⟩ | ⟨hnum, hopen, hk⟩ |
    ⟨hnum, hk⟩⟩ := Kernel.complete_cases hk
  · refine .inl ⟨hk, ?_, fun _ => hfail⟩
    by_cases hnum : event.num = .SYS_open
    · obtain ⟨pathname, -, hp⟩ := endSyscall_open hnum hc
      simp [active', hp, hfail, active]
    · cases he : event.num with
      | SYS_open => exact absurd he hnum
      | _ => simp [active', hp hnum, he, closeCallback, hfail, active]
  · obtain ⟨pathname', hs', hp⟩ := endSyscall_open hnum hc
    obtain rfl := Option.some.inj (hs.symm.trans hs')
    refine .inr (.inl ⟨pathname, hfree, hnum, hk, ?_⟩)
    simp [active', hp, hne, PathMonitor.addActiveFileDescriptor, active]
  · refine .inr (.inr (.inl ⟨hnum, hk, ?_⟩))
    simp [active', hp, hnum, closeCallback, hne, PathMonitor.removeActiveFileDescriptor, active]
  · refine .inr (.inr (.inr ⟨hnum, hne, hopen, hk, ?_⟩))
    obtain hnum | hnum := hnum <;> simp [active', hp, hnum, active]
  · refine .inl ⟨hk, ?_, fun hd => ?_⟩
    · simp [active', hp, hnum, active]
    · rw [hnum] at hd
      rcases hd with hd | hd <;> cases hd

theorem step_closed (hc : s.Closed) (h : s.step event = some s') : s'.Closed := by
  intro fd hfd
  obtain ⟨hk, ha, -⟩ | ⟨pathname, -, -, hk, ha⟩ | ⟨-, hk, ha⟩ | ⟨-, -, hopen, hk, ha⟩ := step_cases h
  · rw [ha]
    exact hc fd (hk ▸ hfd)
  · rw [hk] at hfd
    by_cases he : fd = toInt event.args.ret
    · subst he
      simp at hfd
    · rw [ha, Function.update_of_ne he]
      exact hc fd (by rwa [Function.update_of_ne he] at hfd)
  · rw [hk] at hfd
    by_cases he : fd = toInt event.args.arg0
    · rw [ha, he, Function.update_self]
    · rw [ha, Function.update_of_ne he]
      exact hc fd (by rwa [Function.update_of_ne he] at hfd)
  · rw [hk] at hfd
    by_cases he : fd = toInt event.args.ret
    · subst he
      rw [Function.update_self] at hfd
      exact absurd hfd hopen
    · rw [ha]
      exact hc fd (by rwa [Function.update_of_ne he] at hfd)

/-- The monitor has the right observers for every descriptor, open or closed. -/
theorem Tracks.all (ht : s.Tracks) (hc : s.Closed) (a : ADDRINT 32) :
    s.notified (toInt a) = s.observers (toInt a) := by
  by_cases ha : s.kernel (toInt a) = none
  · simp [notified, observers, hc _ ha, Kernel.name, ha]
  · exact ht a ha

/-- The observers after a step, by what the table and the monitor have. -/
theorem step_observers (h : s.step event = some s') (fd : Int) :
    s'.observers fd = s.monitors.path.observersOf? (s'.kernel.name fd) ∧
    s'.notified fd =
      s.monitors.path.observersOf? (s'.monitors.path.activeFileDescriptors fd) := by
  unfold observers notified
  rw [step_observersOf? h]
  exact ⟨rfl, rfl⟩

/-- The steps after which the monitor is still right are those that meet `DupAgrees`. -/
theorem step_tracks_iff (hc : s.Closed) (ht : s.Tracks) (h : s.step event = some s') :
    s'.Tracks ↔ s.DupAgrees event := by
  have hobs := fun fd => (step_observers h fd).1
  have hnot := fun fd => (step_observers h fd).2
  -- A descriptor the step leaves alone.
  have hsame : ∀ a : ADDRINT 32, s'.kernel (toInt a) = s.kernel (toInt a) →
      s'.monitors.path.activeFileDescriptors (toInt a) =
        s.monitors.path.activeFileDescriptors (toInt a) →
      s'.notified (toInt a) = s'.observers (toInt a) := by
    intro a hk ha
    rw [hobs, hnot, ha, Kernel.name, hk]
    exact ht.all hc a
  obtain ⟨hk, ha, hdup⟩ | ⟨pathname, -, hnum, hk, ha⟩ | ⟨hnum, hk, ha⟩ |
    ⟨hnum, hne, hopen, hk, ha⟩ := step_cases h
  · refine iff_of_true (fun a _ => hsame a (congrFun hk _) (congrFun ha _)) fun hd hne => ?_
    exact absurd (hdup hd) hne
  · refine iff_of_true (fun a _ => ?_) fun hd => ?_
    · by_cases he : toInt a = toInt event.args.ret
      · rw [hobs, hnot, Kernel.name, hk, ha, he, Function.update_self, Function.update_self]
        rfl
      · exact hsame a (by rw [hk, Function.update_of_ne he]) (by rw [ha, Function.update_of_ne he])
    · rw [hnum] at hd
      rcases hd with hd | hd <;> cases hd
  · refine iff_of_true (fun a hopen => ?_) fun hd => ?_
    · by_cases he : toInt a = toInt event.args.arg0
      · rw [hk, he, Function.update_self] at hopen
        exact absurd rfl hopen
      · exact hsame a (by rw [hk, Function.update_of_ne he]) (by rw [ha, Function.update_of_ne he])
    · rw [hnum] at hd
      rcases hd with hd | hd <;> cases hd
  · -- The new descriptor keeps its entry in the monitor, but refers to the file of the old one.
    have hnew : s'.notified (toInt event.args.ret) = s.observers (toInt event.args.ret) := by
      rw [hnot, ha]
      exact ht.all hc _
    have hold : s'.observers (toInt event.args.ret) = s.observers (toInt event.args.arg0) := by
      rw [hobs, Kernel.name, hk, Function.update_self]
      rfl
    constructor
    · intro ht' _ _
      rw [← hold, ← hnew]
      exact (ht' _ (by rwa [hk, Function.update_self])).symm
    · intro hd a _
      by_cases he : toInt a = toInt event.args.ret
      · rw [he, hnew, hold]
        exact (hd hnum hne).symm
      · exact hsame a (by rw [hk, Function.update_of_ne he]) (by rw [ha])

/-- Along a run, a read would at every moment notify exactly the observers of the file its
descriptor refers to, if and only if every successful `dup` and `dup2` makes a descriptor refer to a
file with the observers of what it referred to before. -/
theorem reads_notify_iff (hs : s.Start) {events : List (SyscallEvent 32)}
    (hr : Lib.run step s events = some s') :
    Lib.Throughout step ReadsNotify s events ↔ Lib.Along step DupAgrees s events := by
  have hclosed : s.Closed := fun fd _ => hs.inactive fd
  have htracks : s.ReadsNotify := by
    refine readsNotify_iff_tracks.2 fun a _ => ?_
    simp [notified, observers, hs.unnamed, hs.inactive]
  refine Lib.throughout_iff_along (fun _ _ _ hc h => step_closed hc h) ?_ hclosed htracks hr
  intro s event s' hc ht h
  rw [readsNotify_iff_tracks] at ht ⊢
  exact step_tracks_iff hc ht h

/-- A tool that observes `/etc/passwd`, before the first call. -/
def observing : Traced String :=
  ⟨fun _ => none, ⟨(PathMonitor.new false).observePath "/etc/passwd" "PerByte", fun _ => none⟩⟩

def opens : SyscallEvent 32 := ⟨.SYS_open, ⟨0x8000, 0, 3⟩, some "/etc/passwd"⟩
def dups : SyscallEvent 32 := ⟨.SYS_dup, ⟨3, 0, 4⟩, none⟩
def reads : SyscallEvent 32 := ⟨.SYS_read, ⟨4, 0x9000, 10⟩, none⟩

theorem reads_notify_iff_open :
    Lib.Throughout step ReadsNotify observing [opens] ↔ Lib.Along step DupAgrees observing [opens] :=
  reads_notify_iff ⟨fun _ => rfl, fun _ => rfl⟩ rfl

/-- `open` gives 3, `dup(3)` gives 4; the read from 4 is from the observed file and notifies no
one. -/
theorem read_of_dup_not_notified : ∃ s, Lib.run step observing [opens, dups] = some s ∧
    s.kernel.complete reads ≠ none ∧ s.observers 4 = ["PerByte"] ∧
    (endSyscall s.monitors reads).map Prod.snd = some [] :=
  ⟨_, rfl, by decide, by decide, by decide⟩

end Traced

end Dytan
