import Dytan.Monitor.Coarse

/-!
# `PerRead` and `PerByte` configurations

A configuration with `PerRead` for every granularity sets up the same system with other callbacks
(`Framework.coarse`): the monitors are the same up to the callbacks they hold (`PathMonitor.map`,
`NetworkMonitor.map`) and run for the same calls, so a run of the coarse system does the coarse
operations of the other's run.

`System.coarse_run`: what the coarse system ends with is the image of what the other ends with, as
long as that one does not draw a mark twice. A register, a byte or a branch is tainted in the one if
and only if it is tainted in the other.
-/

namespace Dytan

open TaintState

variable {n : Nat}

/-! ## Monitors with other callbacks -/

section
variable {C D : Type} (c : C → D)

def PathMonitor.map (pm : PathMonitor C) : PathMonitor D where
  observeEverything := pm.observeEverything
  defaultObserver := pm.defaultObserver.map c
  allObserver := pm.allObserver.map c
  observers pathname := (pm.observers pathname).map (List.map c)
  activeFileDescriptors := pm.activeFileDescriptors

def Notice.map : Notice C → Notice D
  | .observer callback pathname => .observer (c callback) pathname
  | .all callback pathname => .all (c callback) pathname
  | .default callback pathname => .default (c callback) pathname

theorem openCallback_map (pm : PathMonitor C) (args : SyscallArguments 32)
    (cstring : Option String) :
    openCallback (pm.map c) args cstring = (openCallback pm args cstring).map (PathMonitor.map c) := by
  unfold openCallback
  split
  · rfl
  · cases cstring <;> rfl

theorem closeCallback_map (pm : PathMonitor C) (args : SyscallArguments 32) :
    closeCallback (pm.map c) args = (closeCallback pm args).map c := by
  unfold closeCallback
  split <;> rfl

/-- The same observers are notified. -/
theorem readCallback_map (pm : PathMonitor C) (args : SyscallArguments 32) :
    readCallback (pm.map c) args = (readCallback pm args).map (Notice.map c) := by
  unfold readCallback PathMonitor.notifyForRead
  split
  · rfl
  simp only [PathMonitor.map]
  cases pm.activeFileDescriptors (toInt args.arg0) with
  | none => rfl
  | some pathname =>
    simp only
    cases pm.observers pathname with
    | some callbacks => simp [Notice.map]
    | none =>
      by_cases he : pm.observeEverything = true
      · cases pm.allObserver <;> simp [he, Notice.map]
      · cases pm.defaultObserver <;> simp [he, Notice.map]

def NetworkMonitor.map (nm : NetworkMonitor C) : NetworkMonitor D where
  observeEverything := nm.observeEverything
  defaultAddressObserver := nm.defaultAddressObserver.map c
  allObserver := nm.allObserver.map c
  addressObservers := nm.addressObservers.map fun entry => (entry.1, c entry.2)
  socketToAddress := nm.socketToAddress

def NetworkNotice.map (notice : NetworkNotice C) : NetworkNotice D :=
  ⟨c notice.callback, notice.start, notice.bytesRead⟩

end

/-- `find` compares addresses and hands back what is stored with them. -/
def FindNatural {C : Type} (find : Find C) (c : C → C) : Prop :=
  ∀ observers address, find (observers.map fun entry => (entry.1, c entry.2)) address =
    (find observers address).map (List.map c)

namespace NetworkMonitor

variable {C : Type} {c : C → C} {find : Find C} (hfind : FindNatural find c)
include hfind

theorem observed_map (nm : NetworkMonitor C) (address : NetworkAddress) :
    (nm.map c).observed find address = (nm.observed find address).map (List.map c) :=
  hfind nm.addressObservers address

theorem notifyForRead_map (nm : NetworkMonitor C) (address : NetworkAddress)
    (start bytesRead : BitVec 32) :
    (nm.map c).notifyForRead find address start bytesRead =
      (nm.notifyForRead find address start bytesRead).map (List.map (NetworkNotice.map c)) := by
  rw [notifyForRead, notifyForRead, observed_map hfind]
  cases nm.observed find address with
  | none => rfl
  | some callbacks => simp [NetworkNotice.map, Function.comp_def]

theorem followSocket_map (nm : NetworkMonitor C) (sock : BitVec 32) (address : NetworkAddress) :
    (nm.map c).followSocket find sock address = (nm.followSocket find sock address).map c := by
  have hsome : ((nm.map c).observed find address).isSome = (nm.observed find address).isSome := by
    rw [observed_map hfind, Option.isSome_map]
  unfold followSocket
  rw [hsome, show (nm.map c).observeEverything = nm.observeEverything from rfl]
  split <;> rfl

/-- A socket call finds the same observers. -/
theorem recv_map (nm : NetworkMonitor C) (event : SocketcallEvent) :
    (nm.map c).recv find event =
      (nm.recv find event).map fun r => (r.1.map c, r.2.map (NetworkNotice.map c)) := by
  unfold recv
  simp only [show (nm.map c).socketToAddress = nm.socketToAddress from rfl,
    show (nm.map c).observeEverything = nm.observeEverything from rfl]
  split
  · rfl
  · have hn := notifyForRead_map hfind { nm with
      socketToAddress := Function.update nm.socketToAddress (event.sockArgs 0)
        (some ((nm.socketToAddress (event.sockArgs 0)).getD ⟨0, 0⟩)) }
      ((nm.socketToAddress (event.sockArgs 0)).getD ⟨0, 0⟩) (event.sockArgs 1) event.ret
    simp only [NetworkMonitor.map] at hn ⊢
    simp only [hn]
    cases notifyForRead find _ _ _ _ <;> rfl

theorem socketcallNetworkCallback_map (nm : NetworkMonitor C) (event : SocketcallEvent) :
    (nm.map c).socketcallNetworkCallback find event =
      (nm.socketcallNetworkCallback find event).map
        fun r => (r.1.map c, r.2.map (NetworkNotice.map c)) := by
  by_cases hreads : event.Readable
  · rw [socketcallNetworkCallback_readable find _ hreads,
      socketcallNetworkCallback_readable find _ hreads]
    unfold switch
    cases event.call with
    | SYS_CONNECT => simp [followSocket_map hfind]
    | SYS_RECVFROM => simp only [followSocket_map hfind, recv_map hfind]
    | SYS_RECV => exact recv_map hfind nm event
    | _ => rfl
  · rw [socketcallNetworkCallback_unreadable find _ hreads,
      socketcallNetworkCallback_unreadable find _ hreads]
    rfl

theorem readNetworkCallback_map (nm : NetworkMonitor C) (args : SyscallArguments 32) :
    (nm.map c).readNetworkCallback find args =
      (nm.readNetworkCallback find args).map (List.map (NetworkNotice.map c)) := by
  unfold readNetworkCallback
  split
  · rfl
  · rw [show (nm.map c).socketToAddress = nm.socketToAddress from rfl]
    cases nm.socketToAddress args.arg0 with
    | none => rfl
    | some address => exact notifyForRead_map hfind nm address args.arg1 args.ret

omit hfind in
theorem closeNetworkCallback_map (nm : NetworkMonitor C) (args : SyscallArguments 32) :
    (nm.map c).closeNetworkCallback args = (nm.closeNetworkCallback args).map c := by
  unfold closeNetworkCallback
  split <;> rfl

end NetworkMonitor

/-! ## The coarse callbacks -/

def PathCallback.coarse : PathCallback → PathCallback
  | pathSourceReadCallbackPerByte => pathSourceReadCallbackPerRead
  | callback => callback

def NetworkCallback.coarse : NetworkCallback → NetworkCallback
  | networkReadCallbackPerByte => networkReadCallbackPerRead
  | callback => callback

theorem Notice.op?_coarse (args : SyscallArguments 32) (notice : Notice PathCallback) :
    (notice.map PathCallback.coarse).op? args = (notice.op? args).map Op.coarse := by
  cases notice with
  | observer callback _ | all callback _ | default callback _ => cases callback <;> rfl

theorem NetworkNotice.op?_coarse (notice : NetworkNotice NetworkCallback) :
    (notice.map NetworkCallback.coarse).op? = notice.op?.map Op.coarse := by
  obtain ⟨callback, start, bytesRead⟩ := notice
  cases callback <;> rfl

theorem filterMap_coarse {α β γ : Type} {f : α → Option γ} {f' : β → Option γ} {m : α → β}
    {g : γ → γ} (h : ∀ a, f' (m a) = (f a).map g) (l : List α) :
    (l.map m).filterMap f' = (l.filterMap f).map g := by
  rw [List.filterMap_map, List.map_filterMap]
  exact congrArg (l.filterMap ·) (funext h)

/-- The operations that read callbacks have the tool do, in the coarse system. -/
theorem ops_coarse (args : SyscallArguments 32) (notices : List (Notice PathCallback)) :
    (notices.map (Notice.map PathCallback.coarse)).filterMap (Notice.op? args) =
      (notices.filterMap (Notice.op? args)).map Op.coarse :=
  filterMap_coarse (Notice.op?_coarse args) notices

theorem networkOps_coarse (notices : List (NetworkNotice NetworkCallback)) :
    (notices.map (NetworkNotice.map NetworkCallback.coarse)).filterMap NetworkNotice.op? =
      (notices.filterMap NetworkNotice.op?).map Op.coarse :=
  filterMap_coarse NetworkNotice.op?_coarse notices

/-! ## The systems -/

/-- What the two systems keep: their tools as in `Coarsens`, the same monitors up to the
callbacks. -/
structure System.Coarsens (n : Nat) (before : List Origin) (f : ℕ → ℕ) (s s' : System) : Prop where
  tool : Dytan.Coarsens n before f s.tool s'.tool
  paths : ∀ i, s'.paths i = (s.paths i).map PathCallback.coarse
  networks : ∀ i, s'.networks i = (s.networks i).map NetworkCallback.coarse
  openFiles : s'.openFiles = s.openFiles

namespace System.Coarsens

variable {before : List Origin} {f : ℕ → ℕ} {s s' s₁ : System} {find : Find NetworkCallback}
  {sources : List TaintSource}

theorem weaken {w : Nat} {tool tool' : Tool w} (h : Dytan.Coarsens n before f tool tool')
    (origins : List Origin) : Dytan.Coarsens n (before ++ origins) f tool tool' := by
  refine ⟨h.ok, h.ok', ?_, h.renamed, h.branches, h.tags, fun m hm => h.fixed m fun hb =>
    hm (List.mem_append_left _ hb)⟩
  rw [known_append]
  exact h.within.mono Set.subset_union_left

/-- Entries of `memTaintMap` are removed at the same addresses. -/
theorem shrink {w : Nat} {tool tool' : Tool w} (h : Dytan.Coarsens n before f tool tool')
    (P : ADDRINT w → Prop) [DecidablePred P] :
    Dytan.Coarsens n before f
      { tool with taint := { tool.taint with
          memTaintMap := fun a => if P a then none else tool.taint.memTaintMap a } }
      { tool' with taint := { tool'.taint with
          memTaintMap := fun a => if P a then none else tool'.taint.memTaintMap a } } := by
  have hsub : ∀ {tl : Tool w} a s, (if P a then none else tl.taint.memTaintMap a) = some s →
      tl.taint.memTaintMap a = some s := fun a s hs => (Option.ite_none_left_eq_some.1 hs).2
  refine ⟨⟨h.ok.width.setMem fun a s hs => h.ok.width.mem a s (hsub a s hs), h.ok.gen, h.ok.tags⟩,
    ⟨h.ok'.width.setMem fun a s hs => h.ok'.width.mem a s (hsub a s hs), h.ok'.gen, h.ok'.tags⟩,
    h.within.shrink hsub, ⟨h.renamed.reg, fun a => ?_, h.renamed.control, h.renamed.scratch⟩,
    h.branches, h.tags, h.fixed⟩
  by_cases hP : P a
  · simp [hP]
  · simpa [hP] using h.renamed.mem a

/-- What a handler does to `openFiles` does not depend on the taint. -/
theorem run_openFiles (function : Handler) (args : Dispatch.SyscallArguments)
    (cstring : Option String) (map map' : MemTaintMap) (openFiles : Int → Option String) :
    (function.run ⟨map, openFiles⟩ args cstring).map HandlerState.openFiles =
      (function.run ⟨map', openFiles⟩ args cstring).map HandlerState.openFiles := by
  cases function with
  | Handle_SOCKETCALL =>
    simp only [Handler.run]
    split <;> rfl
  | Handle_OPEN => cases cstring <;> rfl
  | _ => rfl

/-- A handler removes the same entries in both systems. -/
theorem handler (h : Coarsens n before f s s') {call : Finished} {function : Handler}
    (hr : Observer.run find call s (.handler function) = some s₁) :
    ∃ s₁', Observer.run find call s' (.handler function) = some s₁' ∧
      Coarsens n before f s₁ s₁' := by
  obtain ⟨r, hrun, hr⟩ := Option.bind_eq_some_iff.1 hr
  obtain rfl := Option.some.inj hr
  have hret : function.Returns call.args call.pathname := by
    by_contra hn
    rw [Handler.run_eq_none _ hn] at hrun
    cases hrun
  obtain ⟨openFiles, he⟩ := Handler.run_spec ⟨s.tool.taint.memTaintMap, s.openFiles⟩ hret
  obtain rfl := Option.some.inj (he.symm.trans hrun)
  obtain ⟨openFiles', he'⟩ := Handler.run_spec ⟨s'.tool.taint.memTaintMap, s'.openFiles⟩ hret
  have hopen := run_openFiles function call.args call.pathname s.tool.taint.memTaintMap
    s'.tool.taint.memTaintMap s.openFiles
  rw [he, ← h.openFiles, he', Option.map_some, Option.map_some, Option.some.injEq] at hopen
  refine ⟨s'.remove (function.cleared call.args) openFiles', by rw [Observer.run, he']; rfl, ?_,
    h.paths, h.networks, hopen.symm⟩
  exact shrink h.tool (· ∈ function.cleared call.args)

/-- One callback of a finished call. -/
theorem observer (hfind : FindNatural find NetworkCallback.coarse) (h : Coarsens n before f s s')
    {call : Finished} {o : Observer} (hr : o.run find call s = some s₁)
    (hfresh : Fresh (before ++ o.origins find call s)) :
    ∃ s₁', o.run find call s' = some s₁' ∧
      ∃ f', Coarsens n (before ++ o.origins find call s) f' s₁ s₁' := by
  cases o with
  | openCallback i =>
    obtain ⟨path, hopen, hr⟩ := Option.bind_eq_some_iff.1 hr
    obtain rfl := Option.some.inj hr
    refine ⟨{ s' with paths := Function.update s'.paths i (path.map PathCallback.coarse) }, ?_, f,
      weaken h.tool _, fun j => ?_, h.networks, h.openFiles⟩
    · simp only [Observer.run, h.paths, openCallback_map, hopen]
      rfl
    · by_cases hj : j = i
      · simp only [hj, Function.update_self]
      · simp only [Function.update_of_ne hj, h.paths]
  | closeCallback i =>
    obtain rfl := Option.some.inj hr
    refine ⟨_, rfl, f, weaken h.tool _, fun j => ?_, h.networks, h.openFiles⟩
    by_cases hj : j = i
    · simp only [hj, Function.update_self, h.paths, closeCallback_map]
    · simp only [Function.update_of_ne hj, h.paths]
  | closeNetworkCallback i =>
    obtain rfl := Option.some.inj hr
    refine ⟨_, rfl, f, weaken h.tool _, h.paths, fun j => ?_, h.openFiles⟩
    by_cases hj : j = i
    · simp only [hj, Function.update_self, h.networks, NetworkMonitor.closeNetworkCallback_map]
    · simp only [Function.update_of_ne hj, h.networks]
  | readCallback i =>
    obtain ⟨tool, hrun, hr⟩ := Option.bind_eq_some_iff.1 hr
    obtain rfl := Option.some.inj hr
    obtain ⟨f', tool', hrun', h'⟩ := h.tool.run hrun hfresh
    refine ⟨{ s' with tool := tool' }, ?_, f', h', h.paths, h.networks, h.openFiles⟩
    simp only [Observer.run, h.paths, readCallback_map, ops_coarse, hrun']
    rfl
  | socketcallNetworkCallback i =>
    obtain ⟨⟨network, notices⟩, hn, hr⟩ := Option.bind_eq_some_iff.1 hr
    obtain ⟨tool, hrun, hr⟩ := Option.bind_eq_some_iff.1 hr
    obtain rfl := Option.some.inj hr
    rw [runNotices_eq] at hrun
    simp only [Observer.origins, Observer.ops, hn] at hfresh ⊢
    obtain ⟨f', tool', hrun', h'⟩ := h.tool.run hrun hfresh
    refine ⟨{ s' with
      tool := tool'
      networks := Function.update s'.networks i (network.map NetworkCallback.coarse) }, ?_, f', h',
      h.paths, fun j => ?_, h.openFiles⟩
    · simp only [Observer.run, h.networks, NetworkMonitor.socketcallNetworkCallback_map hfind, hn,
        runNotices_eq, Option.map_some, Option.bind_eq_bind, Option.bind_some, networkOps_coarse,
        hrun']
      rfl
    · by_cases hj : j = i
      · simp only [hj, Function.update_self]
      · simp only [Function.update_of_ne hj, h.networks]
  | readNetworkCallback i =>
    obtain ⟨notices, hn, hr⟩ := Option.bind_eq_some_iff.1 hr
    obtain ⟨tool, hrun, hr⟩ := Option.bind_eq_some_iff.1 hr
    obtain rfl := Option.some.inj hr
    rw [runNotices_eq] at hrun
    simp only [Observer.origins, Observer.ops, hn] at hfresh ⊢
    obtain ⟨f', tool', hrun', h'⟩ := h.tool.run hrun hfresh
    refine ⟨{ s' with tool := tool' }, ?_, f', h', h.paths, h.networks, h.openFiles⟩
    simp only [Observer.run, h.networks, NetworkMonitor.readNetworkCallback_map hfind, hn,
      runNotices_eq, Option.map_some, Option.bind_eq_bind, Option.bind_some, networkOps_coarse,
      hrun']
    rfl
  | handler function =>
    obtain ⟨s₁', hr', h'⟩ := h.handler hr
    exact ⟨s₁', hr', f, weaken h'.tool _, h'.paths, h'.networks, h'.openFiles⟩

end System.Coarsens

/-- An event with `PerRead` for `PerByte`. The events of a configuration are the same, but for the
reads that are named with their granularity. -/
def SystemEvent.coarse : SystemEvent → SystemEvent
  | .op operation => .op operation.coarse
  | event => event

namespace System.Coarsens

variable {before : List Origin} {f : ℕ → ℕ} {s s' s₁ : System} {find : Find NetworkCallback}
  {sources : List TaintSource}

/-- An instruction moves marks in both tools alike. -/
theorem ins {w : Nat} {tool tool' : Tool w} (h : Dytan.Coarsens n before f tool tool')
    {e : Executed w} {taint : TaintState w} (hr : executeINS tool.taint e = some taint) :
    ∃ taint', executeINS tool'.taint e = some taint' ∧
      Dytan.Coarsens n before f { tool with taint := taint } { tool' with taint := taint' } := by
  obtain ⟨hok, ht⟩ := executeINS_taint h.ok.width hr
  have ha : (dataflow e.ins : Insertion w Unit).Accepted := by
    intro message hm
    rw [executeINS, hm] at hr
    cases hr
  obtain ⟨taint', hr', hok', ht'⟩ := executeINS_gives h.ok'.width ha
  refine ⟨taint', hr', ⟨hok, h.ok.gen, h.ok.tags⟩, ⟨hok', h.ok'.gen, h.ok'.tags⟩,
    ⟨hok, ht ▸ h.within.marks.calls e.ctx _, h.within.tags⟩, ?_, ?_, h.tags, h.fixed⟩
  · rw [ht, ht']
    exact (h.renamed.calls e.ctx ((dataflow_loads e.ins).calls.mono (Set.empty_subset _)))
  · rw [ht, ht']
    exact h.branches.calls e.ctx _

/-- A mark of the caller's has the same number in both. -/
theorem passed {w : Nat} {tool tool' tool₁ : Tool w} (h : Dytan.Coarsens n before f tool tool')
    {addr size : ADDRINT w} {taintMark : Int} (hne : taintMark ≠ -1)
    (hr : tool.setNewTaintForMemory addr size taintMark = some tool₁)
    (hfresh : Fresh (before ++ [.passed (BitVec.ofInt 32 taintMark).toNat])) :
    ∃ tool₁', tool'.setNewTaintForMemory addr size taintMark = some tool₁' ∧
      Dytan.Coarsens n (before ++ [.passed (BitVec.ofInt 32 taintMark).toNat]) f tool₁ tool₁' := by
  simp only [Tool.setNewTaintForMemory, if_neg hne] at hr ⊢
  rw [h.ok'.width.marks]
  rw [h.ok.width.marks] at hr
  split at hr
  · cases hr
  rename_i hlt
  rw [if_neg hlt]
  simp only [Option.bind_eq_bind, Option.bind_some] at hr ⊢
  generalize (BitVec.ofInt 32 taintMark).toNat = mark at hr hfresh ⊢
  have hmark : mark < n := by
    obtain ⟨s, hs, -⟩ := Option.bind_eq_some_iff.1 hr
    rw [Tool.markSet, h.ok.width.marks] at hs
    by_contra hge
    rw [Bitset.setBit, if_neg (show ¬ mark < (Bitset.init n).nbits from hge)] at hs
    cases hs
  obtain ⟨next, hput, hgave, hgen, htags⟩ :=
    Tool.putMark_gave h.ok hmark (addrRange addr (addr + size))
  obtain rfl := Option.some.inj (hr.symm.trans hput)
  obtain ⟨next', hput', hgave', hgen', htags'⟩ :=
    Tool.putMark_gave h.ok' hmark (addrRange addr (addr + size))
  have hfixed : f mark = mark := h.fixed mark fun hd =>
    hfresh.2 mark (List.mem_append_left _ hd) (List.mem_append_right _ (List.mem_singleton_self _))
  have hkeep := weaken h [.passed mark]
  obtain ⟨kept, hk, hok⟩ := Tool.putMark_keeps h.ok hmark (addrRange addr (addr + size))
  obtain rfl := Option.some.inj (hput.symm.trans hk)
  obtain ⟨kept', hk', hok'⟩ := Tool.putMark_keeps h.ok' hmark (addrRange addr (addr + size))
  obtain rfl := Option.some.inj (hput'.symm.trans hk')
  refine ⟨next', hput', hok, hok', hkeep.within.putMark (.inr ?_) hput, ?_, ?_, ?_, hkeep.fixed⟩
  · exact List.mem_append_right _ (List.mem_singleton_self _)
  · exact Coarsens.renamed_gave h.renamed h.within.marks (fun _ _ => rfl) hgave hgave'
      fun _ _ => hfixed.symm
  · exact Coarsens.sameBranches_gave h.branches hgave hgave'
  · intro name
    rw [htags, htags', h.tags name]

/-- The loop that clears tags stops at the same address. -/
theorem clearTags {w : Nat} {tool tool' : Tool w} (h : Dytan.Coarsens n before f tool tool')
    (start : ADDRINT w) :
    Dytan.Coarsens n before f (tool.clearTagsForByteRange start)
      (tool'.clearTagsForByteRange start) := by
  have hsome : ∀ a, (tool'.taint.memTaintMap a).isSome = (tool.taint.memTaintMap a).isSome := by
    intro a
    simpa using h.renamed.mem.isSome a
  have hchunk : ∀ a, Chunk tool'.taint.memTaintMap start a ↔ Chunk tool.taint.memTaintMap start a :=
    fun a => forall₂_congr fun j _ => by rw [hsome]
  have hs := shrink h (Chunk tool.taint.memTaintMap start)
  simp only [Tool.clearTagsForByteRange, clearLoop_eq (Nat.le_refl _), hchunk]
  exact hs

/-- One event. -/
theorem event (hfind : FindNatural find NetworkCallback.coarse) (h : Coarsens n before f s s')
    {event : SystemEvent} (hr : s.step find sources event = some s₁)
    (hfresh : Fresh (before ++ event.origins find sources s)) :
    ∃ s₁', s'.step find sources event.coarse = some s₁' ∧
      ∃ f', Coarsens n (before ++ event.origins find sources s) f' s₁ s₁' := by
  cases event with
  | ins e =>
    obtain ⟨taint, he, hr⟩ := Option.bind_eq_some_iff.1 hr
    obtain rfl := Option.some.inj hr
    obtain ⟨taint', he', h'⟩ := ins h.tool he
    exact ⟨{ s' with tool := { s'.tool with taint := taint' } },
      by simp only [SystemEvent.coarse, System.step, he']; rfl, f, weaken h' _, h.paths, h.networks,
      h.openFiles⟩
  | op operation =>
    obtain ⟨tool, hs, hr⟩ := Option.bind_eq_some_iff.1 hr
    obtain rfl := Option.some.inj hr
    obtain ⟨f', tool₁, tool', hs₁, hs', h'⟩ := h.tool.step hfresh
    obtain rfl := Option.some.inj (hs.symm.trans hs₁)
    exact ⟨_, System.step_op hs', f', h', h.paths, h.networks, h.openFiles⟩
  | setNewTaintForMemory addr size taintMark =>
    obtain ⟨tool, hs, hr⟩ := Option.bind_eq_some_iff.1 hr
    obtain rfl := Option.some.inj hr
    by_cases hne : taintMark = -1
    · subst hne
      have hdraws : Fresh (before ++ (Op.setNewTaintForMemory addr size).draws s.tool) := hfresh
      obtain ⟨f', tool₁, tool', hs₁, hs', h'⟩ := h.tool.step hdraws
      obtain rfl := Option.some.inj (hs.symm.trans hs₁)
      have hset : s'.tool.setNewTaintForMemory addr size = some tool' := hs'
      exact ⟨{ s' with tool := tool' }, by simp only [SystemEvent.coarse, System.step, hset]; rfl,
        f', h', h.paths, h.networks, h.openFiles⟩
    · simp only [SystemEvent.origins, if_neg hne] at hfresh ⊢
      obtain ⟨tool', hs', h'⟩ := passed h.tool hne hs hfresh
      exact ⟨{ s' with tool := tool' }, by simp only [SystemEvent.coarse, System.step, hs']; rfl, f,
        h', h.paths, h.networks, h.openFiles⟩
  | clearTagsForByteRange start =>
    obtain rfl := Option.some.inj hr
    exact ⟨_, rfl, f, weaken (clearTags h.tool start) _, h.paths, h.networks, h.openFiles⟩
  | finished call =>
    have hstep : ∀ before s s' o s₁, (∃ f, Coarsens n before f s s') →
        Observer.run find call s o = some s₁ → Fresh (before ++ o.origins find call s) →
        ∃ s₁', Observer.run find call s' (id o) = some s₁' ∧
          ∃ f, Coarsens n (before ++ o.origins find call s) f s₁ s₁' := by
      rintro before s s' o s₁ ⟨f, h⟩ hs hf
      exact h.observer hfind hs hf
    obtain ⟨s₁', hr', h'⟩ :=
      Lib.emitted_simulation (fun _ _ => Fresh.left) hstep ⟨f, h⟩ hr hfresh
    rw [List.map_id] at hr'
    exact ⟨s₁', hr', h'⟩

/-- A run. -/
theorem run (hfind : FindNatural find NetworkCallback.coarse) (h : Coarsens n before f s s')
    {events : List SystemEvent} (hr : Lib.run (System.step find sources) s events = some s₁)
    (hfresh : Fresh (before ++ s.origins find sources events)) :
    ∃ s₁', Lib.run (System.step find sources) s' (events.map SystemEvent.coarse) = some s₁' ∧
      ∃ f', Coarsens n (before ++ s.origins find sources events) f' s₁ s₁' := by
  have hstep : ∀ before s s' e s₁, (∃ f, Coarsens n before f s s') →
      System.step find sources s e = some s₁ → Fresh (before ++ e.origins find sources s) →
      ∃ s₁', System.step find sources s' e.coarse = some s₁' ∧
        ∃ f, Coarsens n (before ++ e.origins find sources s) f s₁ s₁' := by
    rintro before s s' e s₁ ⟨f, h⟩ hs hf
    exact h.event hfind hs hf
  exact Lib.emitted_simulation (fun _ _ => Fresh.left) hstep ⟨f, h⟩ hr hfresh

end System.Coarsens

/-! ## The coarse configuration -/

/-- The configuration with `PerRead` for every granularity. -/
def Config.coarse (conf : Config) : Config :=
  { conf with sources := conf.sources.map fun src => { src with granularity := "PerRead" } }

def PathSource.coarse (src : PathSource) : PathSource :=
  { src with
    all := src.all.map fun _ => .PerRead
    paths := src.paths.map fun source => (source.1, .PerRead) }

def NetworkSource.coarse (src : NetworkSource) : NetworkSource :=
  { src with
    all := src.all.map fun _ => .PerRead
    addresses := src.addresses.map fun source => (source.1, source.2.1, .PerRead) }

def Framework.coarse (fw : Framework) : Framework :=
  { fw with
    pathSources := fw.pathSources.map PathSource.coarse
    networkSources := fw.networkSources.map NetworkSource.coarse }

section
variable {conf : Config} {fw : Framework}

theorem networkDetails_coarse (range : TaintRange) (details : List String) :
    networkDetails .PerRead details = (networkDetails range details).map
      (List.map fun source => (source.1, source.2.1, .PerRead)) := by
  induction details using networkDetails.induct with
  | case1 => rfl
  | case2 detail => rfl
  | case3 ip port details ih =>
    simp only [networkDetails, ih]
    cases networkDetails range details <;> rfl

theorem setNumMarkings_coarse (numMarkings : String) (fw : Framework) :
    setNumMarkings numMarkings fw.coarse = (setNumMarkings numMarkings fw).map Framework.coarse := by
  unfold setNumMarkings
  split_ifs
  · rfl
  · cases convertTo numMarkings with
    | none => rfl
    | some num =>
      simp only [Option.bind_eq_bind, Option.bind_some,
        show fw.coarse.numberOfTaintMarks = fw.numberOfTaintMarks from rfl]
      split <;> rfl
  · rfl

theorem addSource_coarse (src : SourceConfig) (fw : Framework) :
    addSource { src with granularity := "PerRead" } fw.coarse =
      (addSource src fw).map Framework.coarse := by
  have hgran : granularity { src with granularity := "PerRead" } = .PerRead := rfl
  unfold addSource
  simp only [hgran]
  split_ifs with h1 h2 h3
  · cases src.details with
    | nil => rfl
    | cons detail details =>
      simp only
      split
      · simp [Framework.coarse, PathSource.coarse]
      · simp [Framework.coarse, PathSource.coarse, Function.comp_def]
  · cases src.details with
    | nil => rfl
    | cons detail details =>
      simp only
      split
      · simp [Framework.coarse, NetworkSource.coarse]
      · rw [networkDetails_coarse (granularity src)]
        cases networkDetails (granularity src) (detail :: details) with
        | none => rfl
        | some addresses => simp [Framework.coarse, NetworkSource.coarse]
  · rfl
  · rfl

theorem configureSources_coarse (sources : List SourceConfig) (fw : Framework) :
    (sources.map fun src => { src with granularity := "PerRead" }).foldlM
        (configureSource conf.coarse) fw.coarse =
      (sources.foldlM (configureSource conf) fw).map Framework.coarse := by
  induction sources generalizing fw with
  | nil => rfl
  | cons src sources ih =>
    have hstep : configureSource conf.coarse fw.coarse { src with granularity := "PerRead" } =
        (configureSource conf fw src).map Framework.coarse := by
      simp only [configureSource, show conf.coarse.numMarkings = conf.numMarkings from rfl,
        setNumMarkings_coarse]
      cases setNumMarkings conf.numMarkings fw with
      | none => rfl
      | some fw => exact addSource_coarse src fw
    rw [List.map_cons, List.foldlM_cons, List.foldlM_cons, hstep]
    cases configureSource conf fw src with
    | none => rfl
    | some fw => exact ih fw

/-- The coarse configuration is accepted when the other one is, and sets up its coarse framework. -/
theorem setFrameworkOptions_coarse (conf : Config) :
    setFrameworkOptions conf.coarse = (setFrameworkOptions conf).map Framework.coarse := by
  have hbasic : basicSetUp conf.coarse = (basicSetUp conf).map Framework.coarse := by
    unfold basicSetUp
    rw [show conf.coarse.sources.length = conf.sources.length from List.length_map ..]
    split
    · exact setNumMarkings_coarse conf.numMarkings { Framework.start with
        pathSources := [⟨false, none, []⟩]
        networkSources := [⟨false, none, []⟩]
        funcSources := 1 }
    · rfl
  simp only [setFrameworkOptions, hbasic]
  cases basicSetUp conf with
  | none => rfl
  | some fw => exact configureSources_coarse conf.sources fw

theorem PathSource.monitor_coarse (src : PathSource) :
    src.coarse.monitor = src.monitor.map PathCallback.coarse := by
  have hobserve : ∀ (sources : List (String × TaintRange)) (pm : PathMonitor PathCallback),
      (sources.map fun source => (source.1, TaintRange.PerRead)).foldl
          (fun pm source => pm.observePath source.1 (.ofRange source.2))
          (pm.map PathCallback.coarse) =
        (sources.foldl (fun pm source => pm.observePath source.1 (.ofRange source.2)) pm).map
          PathCallback.coarse := by
    intro sources
    induction sources with
    | nil => exact fun _ => rfl
    | cons source sources ih =>
      intro pm
      rw [List.map_cons, List.foldl_cons, List.foldl_cons, ← ih]
      congr 1
      have hrange : (PathCallback.ofRange source.2).coarse = .ofRange .PerRead := by
        cases source.2 <;> rfl
      simp only [PathMonitor.observePath, PathMonitor.map, PathMonitor.mk.injEq, true_and, and_true]
      funext pathname
      by_cases hp : pathname = source.1
      · cases pm.observers source.1 <;> simp [hp, hrange]
      · simp [hp]
  have hbase := hobserve src.paths
    ((PathMonitor.new src.observeEverything).registerDefault .pathSourceReadDefault)
  unfold PathSource.monitor
  cases hall : src.all with
  | none =>
    simp only [PathSource.coarse, hall, Option.map_none]
    exact hbase
  | some range =>
    simp only [PathSource.coarse, hall, Option.map_some]
    refine (congrArg (·.registerCallbackForAll (.ofRange .PerRead)) hbase).trans ?_
    cases range <;> rfl

theorem NetworkSource.monitor_coarse (inet_addr atoi : String → BitVec 32) (src : NetworkSource) :
    src.coarse.monitor inet_addr atoi =
      (src.monitor inet_addr atoi).map NetworkCallback.coarse := by
  have hobserve : ∀ (sources : List (String × String × TaintRange))
      (nm : NetworkMonitor NetworkCallback),
      (sources.map fun source => (source.1, source.2.1, TaintRange.PerRead)).foldl
          (NetworkMonitor.addNetworkSource inet_addr atoi) (nm.map NetworkCallback.coarse) =
        (sources.foldl (NetworkMonitor.addNetworkSource inet_addr atoi) nm).map
          NetworkCallback.coarse := by
    intro sources
    induction sources with
    | nil => exact fun _ => rfl
    | cons source sources ih =>
      intro nm
      rw [List.map_cons, List.foldl_cons, List.foldl_cons, ← ih]
      congr 1
      obtain ⟨ip, port, range⟩ := source
      cases range <;>
        simp [NetworkMonitor.addNetworkSource, NetworkMonitor.observeAddress, NetworkMonitor.map,
          NetworkCallback.ofRange, NetworkCallback.coarse]
  have hbase := hobserve src.addresses
    ((NetworkMonitor.new src.observeEverything).registerAddressDefault .networkReadDefault)
  unfold NetworkSource.monitor
  cases hall : src.all with
  | none =>
    simp only [NetworkSource.coarse, hall, Option.map_none]
    exact hbase
  | some range =>
    simp only [NetworkSource.coarse, hall, Option.map_some]
    refine (congrArg (·.registerCallbackForAll (.ofRange .PerRead)) hbase).trans ?_
    cases range <;> rfl

/-- The two systems at the start, without taint. -/
theorem Framework.system_coarse (inet_addr atoi : String → BitVec 32) (h : fw.MarksOk) :
    System.Coarsens fw.numberOfTaintMarks [] id (fw.system inet_addr atoi)
      (fw.coarse.system inet_addr atoi) := by
  have hstart := Tool.start_marks (w := 32) h
  have hnone : ∀ {α : Type}, EntriesImage (id : ℕ → ℕ).graph (fun _ : α => none) (fun _ => none) :=
    fun _ => rfl
  have hinit : (Bitset.init fw.numberOfTaintMarks).marks =
      (id : ℕ → ℕ).graph.image (Bitset.init fw.numberOfTaintMarks).marks := by
    rw [Bitset.marks_init, SetRel.image_empty_right]
  refine ⟨⟨hstart, hstart, ⟨hstart.width, ⟨nofun, nofun, fun a S hS => ?_, fun s => ?_⟩, nofun⟩,
    ⟨hnone, hnone, fun a => ?_, fun s _ => hinit⟩, fun a => rfl, fun name => rfl, fun m _ => rfl⟩,
    fun i => ?_, fun i => ?_, rfl⟩
  · simp [Framework.system, Tool.start, TaintState.initial] at hS
  · simp [Framework.system, Tool.start, TaintState.initial]
  · simp [Framework.system, Tool.start, TaintState.initial]
  · simp only [Framework.system, Framework.coarse, List.getElem?_map]
    cases fw.pathSources[i]? with
    | none => rfl
    | some src => exact src.monitor_coarse
  · simp only [Framework.system, Framework.coarse, List.getElem?_map]
    cases fw.networkSources[i]? with
    | none => rfl
    | some src => exact src.monitor_coarse inet_addr atoi

end

/-! ## The runs -/

/-- The entries of `st'` are those of `st` with the marks under `f`. -/
structure TaintState.Merged {w : Nat} (f : ℕ → ℕ) (st st' : TaintState w) : Prop where
  reg : ∀ r, (st'.regTaintMap r).map Bitset.marks =
    (st.regTaintMap r).map fun s => f '' s.marks
  mem : ∀ a, (st'.memTaintMap a).map Bitset.marks =
    (st.memTaintMap a).map fun s => f '' s.marks
  control : ∀ a : ADDRINT w, (st'.controlTaintMap[a]?).map Bitset.marks =
    (st.controlTaintMap[a]?).map fun s => f '' s.marks

theorem Coarsens.merged {w : Nat} {before : List Origin} {f : ℕ → ℕ} {tool tool' : Tool w}
    (h : Coarsens n before f tool tool') : tool.taint.Merged f tool'.taint := by
  have himage : ∀ o : Option Bitset, (o.map Bitset.marks).map f.graph.image =
      o.map fun s => f '' s.marks := by
    intro o
    cases o with
    | none => rfl
    | some s => rw [Option.map_some, Option.map_some, Option.map_some, Set.image_eq]
  refine ⟨fun r => (h.renamed.reg r).trans (himage _), fun a => (h.renamed.mem a).trans (himage _),
    fun a => ?_⟩
  have hgetD := h.renamed.control a
  have hsome := h.branches a
  simp only [taint_control] at hgetD hsome
  rw [← himage]
  generalize (tool'.taint.controlTaintMap[a]?).map Bitset.marks = o' at hgetD hsome ⊢
  generalize (tool.taint.controlTaintMap[a]?).map Bitset.marks = o at hgetD hsome ⊢
  cases o <;> cases o' <;> simp_all

/-- With `PerRead` for every granularity a configuration is accepted, a run goes on where it went on
before, and the same places are tainted: their marks are those of the other run, with the marks of
the bytes of a read merged. The other run must not draw a mark twice. -/
theorem System.coarse_run {find : Find NetworkCallback}
    (hfind : FindNatural find NetworkCallback.coarse) (inet_addr atoi : String → BitVec 32)
    (sources : List TaintSource) {conf : Config} (hne : conf.numMarkings ≠ "") {fw : Framework}
    (hfw : setFrameworkOptions conf = some fw) {events : List SystemEvent} {s : System}
    (hr : Lib.run (System.step find sources) (fw.system inet_addr atoi) events = some s)
    (hfresh : Fresh ((fw.system inet_addr atoi).origins find sources events)) :
    ∃ fw' s' f, setFrameworkOptions conf.coarse = some fw' ∧
      Lib.run (System.step find sources) (fw'.system inet_addr atoi)
        (events.map SystemEvent.coarse) = some s' ∧
      s.tool.taint.Merged f s'.tool.taint ∧
      (∀ name, s'.tool.tagMap name = (s.tool.tagMap name).map f) ∧ s'.openFiles = s.openFiles := by
  have hstart := Framework.system_coarse inet_addr atoi (setFrameworkOptions_marks hne hfw)
  obtain ⟨s', hr', f, h⟩ := hstart.run hfind hr (by rwa [List.nil_append])
  refine ⟨fw.coarse, s', f, ?_, hr', h.tool.merged, h.tool.tags, h.openFiles⟩
  rw [setFrameworkOptions_coarse, hfw, Option.map_some]

/-- A configuration that marks the bytes of every file, and what it sets up. -/
def perByteConfig : Config := ⟨[⟨"path", "PerByte", ["*"]⟩], "16"⟩

def perByteFramework : Framework :=
  ⟨16, some (.sequential 0 0 16), [⟨true, some .PerByte, []⟩], [], 0⟩

/-- Two bytes of a file, and a tag. -/
def readAndTag : List SystemEvent :=
  [.op (.pathSourceRead .PerByte ⟨3, 0x8000, 2⟩), .op (.assignTagToByteRange 0x9000 2 1)]

theorem readAndTag_fresh :
    Fresh ((perByteFramework.system (fun _ => 0) fun _ => 0).origins (fun _ _ => none) [.path 0]
      readAndTag) := by
  have horigins : (perByteFramework.system (fun _ => 0) fun _ => 0).origins (fun _ _ => none)
      [.path 0] readAndTag = [.drawn 0, .drawn 1, .drawn 2] := rfl
  rw [horigins]
  exact ⟨by decide, fun m _ hp => by simp at hp⟩

theorem System.coarse_run_read : ∃ s,
    Lib.run (System.step (fun _ _ => none) [.path 0])
      (perByteFramework.system (fun _ => 0) fun _ => 0) readAndTag = some s ∧
    ∃ fw' s' f, setFrameworkOptions perByteConfig.coarse = some fw' ∧
      Lib.run (System.step (fun _ _ => none) [.path 0]) (fw'.system (fun _ => 0) fun _ => 0)
        (readAndTag.map SystemEvent.coarse) = some s' ∧
      s.tool.taint.Merged f s'.tool.taint ∧
      (∀ name, s'.tool.tagMap name = (s.tool.tagMap name).map f) ∧ s'.openFiles = s.openFiles :=
  ⟨_, rfl, System.coarse_run (fun _ _ => rfl) _ _ _ (by decide : perByteConfig.numMarkings ≠ "")
    (by decide) rfl readAndTag_fresh⟩

end Dytan
