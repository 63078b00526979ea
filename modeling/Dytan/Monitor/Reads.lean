import Dytan.Monitor.System

/-!
# What a read leaves in its buffer

`System.policy`: the granularities of the sources configured for a descriptor by the tables of their
monitors. `policyMarks g n ranges i`: the marks these give to byte `i` of a read of `n` bytes when `g`
hands them out; a later source replaces the marks of an earlier one, and without a source there are
none.

`System.Overwrites`: after the callbacks of a read each byte of the buffer has the marks `policyMarks`
says, and the other bytes are as before. `overwrites_iff`: this holds if and only if no network monitor
follows the descriptor to an address it does not observe, and the bytes had these marks before when
nothing puts them there, that is when no source is configured (the callbacks then leave the old
taint) or the buffer reaches the last byte of memory.
-/

namespace Dytan

open Dispatch (SYS_read SYS_open SYS_close SYS_socketcall registered)

/-! ## The policy -/

/-- What runs for a path: its observers, or the one for all paths, or the default. -/
def PathMonitor.callbacksOf {C : Type} (pm : PathMonitor C) (pathname : String) : List C :=
  match pm.observers pathname with
  | some callbacks => callbacks
  | none => if pm.observeEverything then pm.allObserver.toList else pm.defaultObserver.toList

theorem PathMonitor.notifyForRead_callbacks {C : Type} {w : Nat} (pm : PathMonitor C)
    (args : SyscallArguments w) : (pm.notifyForRead args).map Notice.callback =
      match pm.activeFileDescriptors (toInt args.arg0) with
      | some pathname => pm.callbacksOf pathname
      | none => [] := by
  have hmap : ∀ (f : C → Notice C) (l : List C), (∀ c, (f c).callback = c) →
      (l.map f).map Notice.callback = l := by
    intro f l hf
    rw [List.map_map, show Notice.callback ∘ f = id from funext hf, List.map_id]
  unfold notifyForRead
  cases pm.activeFileDescriptors (toInt args.arg0) with
  | none => rfl
  | some pathname =>
    simp only [callbacksOf]
    cases pm.observers pathname with
    | some callbacks => exact hmap _ _ fun _ => rfl
    | none =>
      cases pm.observeEverything with
      | true => exact hmap _ _ fun _ => rfl
      | false => exact hmap _ _ fun _ => rfl

section
variable (find : Find NetworkCallback) (sources : List TaintSource) (s : System) (fd : BitVec 32)

/-- The granularities a source is configured with for a descriptor. -/
def TaintSource.policy : TaintSource → List TaintRange
  | path i =>
    match (s.paths i).activeFileDescriptors (toInt fd) with
    | some pathname => ((s.paths i).callbacksOf pathname).filterMap PathCallback.range?
    | none => []
  | network i =>
    match (s.networks i).socketToAddress fd with
    | some address =>
      (((s.networks i).observed find address).getD []).filterMap NetworkCallback.range?
    | none => []

/-- The granularities of all sources, in the order in which they were created. -/
def System.policy : List TaintRange := sources.flatMap (TaintSource.policy find s fd)

/-- A network monitor that follows the descriptor observes its address. -/
def TaintSource.Finds : TaintSource → Prop
  | path _ => True
  | network i => ∀ address, (s.networks i).socketToAddress fd = some address →
    ((s.networks i).observed find address).isSome = true

end

/-- The mark of byte `i`. -/
def TaintRange.given (g : TaintGenerator) : TaintRange → Nat → Nat
  | PerByte => g.mark
  | PerRead => fun _ => g.mark 0

/-- The marks a read of `n` bytes draws. -/
def TaintRange.asks (n : Nat) : TaintRange → Nat
  | PerByte => n
  | PerRead => 1

/-- The marks the policy gives to byte `i` of a read of `n` bytes. -/
def policyMarks (g : TaintGenerator) (n : Nat) : List TaintRange → Nat → Set ℕ
  | [], _ => ∅
  | [range], i => {range.given g i}
  | range :: next :: ranges, i => policyMarks (g.after (range.asks n)) n (next :: ranges) i

/-! ## The tool -/

/-- The operation of a callback of this granularity on a read of `len` bytes at `buf`. -/
structure ReadOp (buf len : ADDRINT 32) (range : TaintRange) (op : Op 32) : Prop where
  gives : op.gives = true
  visits : op.visits = addrRange buf (buf + len)
  given : ∀ tool g, op.given tool g = range.given g
  asks : ∀ tool, op.asks tool = range.asks (addrRange buf (buf + len)).length

theorem reads_path {args : SyscallArguments 32} (h : 0 < toInt args.ret) (range : TaintRange) :
    ReadOp args.arg1 args.ret range (.pathSourceRead range args) := by
  have hret : ¬ toInt args.ret ≤ 0 := by omega
  have hlen : BitVec.ofInt 32 (toInt args.ret) = args.ret := by
    rw [toInt, BitVec.setWidth_eq, BitVec.ofInt_toInt]
  cases range with
  | PerByte =>
    refine ⟨rfl, ?_, fun _ _ => rfl, fun _ => ?_⟩
    · rw [Op.visits, if_neg hret, hlen]
    · rw [Op.asks, Op.visits, if_neg hret, hlen]
      rfl
  | PerRead =>
    refine ⟨rfl, ?_, fun _ _ => rfl, fun _ => ?_⟩
    · rw [Op.visits, if_neg hret, hlen]
    · rw [Op.asks, if_neg hret]
      rfl

theorem reads_network (buf len : ADDRINT 32) (range : TaintRange) :
    ReadOp buf len range (.networkRead range buf len) := by
  cases range <;> exact ⟨rfl, rfl, fun _ _ => rfl, fun _ => rfl⟩

namespace Tool

/-- What the callbacks of a read do one after the other: the last one decides. -/
theorem run_reads {n : Nat} {tool : Tool 32} (h : tool.MarksOk n) {g : TaintGenerator}
    (hg : tool.taintGen = some g) {buf len : ADDRINT 32} {ranges : List TaintRange}
    {ops : List (Op 32)} (hops : List.Forall₂ (ReadOp buf len) ranges ops) :
    ∃ tool', tool.run ops = some tool' ∧
      (∀ a, (ranges = [] ∨ a ∉ addrRange buf (buf + len)) →
        tool'.taint.memTaintMap a = tool.taint.memTaintMap a) ∧
      (ranges ≠ [] → ∀ i (hi : i < (addrRange buf (buf + len)).length),
        tool'.taint.taint.memMarks (addrRange buf (buf + len))[i] =
          policyMarks g (addrRange buf (buf + len)).length ranges i) := by
  induction hops generalizing tool g with
  | nil => exact ⟨tool, rfl, fun _ _ => rfl, fun hn => absurd rfl hn⟩
  | @cons range op ranges ops hop hops ih =>
    obtain ⟨tool₁, hstep, hgave, hgen, -⟩ := step_gave h hg hop.gives
    obtain ⟨next, hkeeps, hok⟩ := step_keeps h op
    obtain rfl : next = tool₁ := Option.some.inj (hkeeps.symm.trans hstep)
    rw [hop.visits, hop.given] at hgave
    rw [hop.asks] at hgen
    obtain ⟨tool', hrun, hout, hin⟩ := ih hok hgen
    refine ⟨tool', by rw [run, List.foldlM_cons, hstep]; exact hrun, fun a ha => ?_,
      fun _ i hi => ?_⟩
    · have ha' : a ∉ addrRange buf (buf + len) := ha.resolve_left (List.cons_ne_nil _ _)
      rw [hout a (.inr ha'), hgave.outside a ha']
    · cases ranges with
      | nil =>
        obtain ⟨set, hset, hmarks⟩ := hgave.inside i hi
        rw [policyMarks, ← hmarks]
        simp only [Taint.memMarks, TaintState.taint_mem, hout _ (.inl rfl), hset, Option.map_some,
          Option.getD_some]
      | cons next ranges => exact hin (List.cons_ne_nil _ _) i hi

end Tool

/-! ## The callbacks of a read -/

/-- The callback of a source for `read`. -/
def TaintSource.reader : TaintSource → Observer
  | path i => .readCallback i
  | network i => .readNetworkCallback i

theorem observers_read (sources : List TaintSource) :
    observers sources SYS_read = sources.map TaintSource.reader ++ [.handler .Handle_READ] := by
  have hreader : ∀ src : TaintSource, registered src.activate SYS_read = [src.reader] := by
    intro src
    cases src <;> rfl
  have hmain : handlers SYS_read = [.Handle_READ] := by decide
  have hall : registered (registrations sources) SYS_read =
      sources.map TaintSource.reader ++ [.handler .Handle_READ] := by
    rw [registered_registrations, hmain]
    simp only [hreader, List.map_singleton]
    rw [← List.flatMap_pure_eq_map]
    rfl
  rw [observers, if_neg (by rw [hall]; simp), hall]

section
variable {find : Find NetworkCallback} {s : System} {call : Finished}

/-- The callbacks when the read has a result. -/
theorem readCallback_read {C : Type} (pm : PathMonitor C) (hret : 0 < toInt call.args.ret) :
    readCallback pm call.args.onFiles = pm.notifyForRead call.args.onFiles :=
  if_neg (by rw [Dispatch.SyscallArguments.onFiles_ret]; omega)

theorem readNetworkCallback_read (nm : NetworkMonitor NetworkCallback)
    (hret : 0 < toInt call.args.ret) : nm.readNetworkCallback find call.args.onFiles =
      match nm.socketToAddress call.args.arg0 with
      | none => some []
      | some address => nm.notifyForRead find address call.args.arg1 call.args.ret :=
  if_neg (by rw [Dispatch.SyscallArguments.onFiles_ret]; omega)

/-- The operations of a source are those of its policy. -/
theorem reader_reads (hret : 0 < toInt call.args.ret) (src : TaintSource) :
    List.Forall₂ (ReadOp call.args.arg1 call.args.ret) (src.policy find s call.args.arg0)
      (src.reader.ops find call s) := by
  have hmap : ∀ (op : TaintRange → Op 32),
      (∀ range, ReadOp call.args.arg1 call.args.ret range (op range)) →
      ∀ ranges : List TaintRange,
        List.Forall₂ (ReadOp call.args.arg1 call.args.ret) ranges (ranges.map op) := by
    intro op hop ranges
    rw [List.forall₂_map_right_iff]
    exact List.forall₂_same.2 fun range _ => hop range
  cases src with
  | path i =>
    have hops : (TaintSource.path i).reader.ops find call s =
        ((TaintSource.path i).policy find s call.args.arg0).map
          (.pathSourceRead · call.args.onFiles) := by
      have hnotices := (s.paths i).notifyForRead_callbacks call.args.onFiles
      simp only [TaintSource.reader, Observer.ops, readCallback_read _ hret, TaintSource.policy]
      have hcallbacks : ∀ notices : List (Notice PathCallback),
          notices.filterMap (Notice.op? call.args.onFiles) =
            ((notices.map Notice.callback).filterMap PathCallback.range?).map
              (.pathSourceRead · call.args.onFiles) := by
        intro notices
        rw [List.filterMap_map, List.map_filterMap]
        rfl
      rw [hcallbacks, hnotices, Dispatch.SyscallArguments.onFiles_arg0]
      cases (s.paths i).activeFileDescriptors (toInt call.args.arg0) <;> rfl
    rw [hops]
    exact hmap _ (fun range => @reads_path call.args.onFiles hret range) _
  | network i =>
    have hops : (TaintSource.network i).reader.ops find call s =
        ((TaintSource.network i).policy find s call.args.arg0).map
          (.networkRead · call.args.arg1 call.args.ret) := by
      simp only [TaintSource.reader, Observer.ops, readNetworkCallback_read _ hret,
        TaintSource.policy]
      cases (s.networks i).socketToAddress call.args.arg0 with
      | none => rfl
      | some address =>
        simp only [NetworkMonitor.notifyForRead]
        cases (s.networks i).observed find address with
        | none => rfl
        | some callbacks =>
          show (callbacks.map _).filterMap NetworkNotice.op? = _
          rw [List.filterMap_map, Option.getD_some, List.map_filterMap]
          rfl
    rw [hops]
    exact hmap _ (fun range => reads_network _ _ range) _

theorem reader_run (hret : 0 < toInt call.args.ret) (src : TaintSource) :
    (src.Finds find s call.args.arg0 → src.reader.run find call s =
      (s.tool.run (src.reader.ops find call s)).map fun tool => { s with tool := tool }) ∧
    (¬ src.Finds find s call.args.arg0 → src.reader.run find call s = none) := by
  cases src with
  | path i =>
    refine ⟨fun _ => ?_, fun hn => absurd trivial hn⟩
    simp only [TaintSource.reader, Observer.run, Observer.ops]
    rw [Option.map_eq_bind]
    rfl
  | network i =>
    simp only [TaintSource.reader, Observer.run, Observer.ops, TaintSource.Finds,
      readNetworkCallback_read _ hret, runNotices_eq]
    cases (s.networks i).socketToAddress call.args.arg0 with
    | none =>
      refine ⟨fun _ => rfl, fun hn => absurd (fun address h => ?_) hn⟩
      cases h
    | some address =>
      simp only [NetworkMonitor.notifyForRead, Option.some.injEq, forall_eq']
      cases (s.networks i).observed find address with
      | none =>
        refine ⟨fun h => ?_, fun _ => rfl⟩
        cases h
      | some callbacks =>
        refine ⟨fun _ => ?_, fun hn => absurd rfl hn⟩
        rw [Option.map_eq_bind]
        rfl

/-- The callbacks of all sources. -/
theorem readers_run (hret : 0 < toInt call.args.ret) (sources : List TaintSource) :
    ((∀ src ∈ sources, src.Finds find s call.args.arg0) →
      s.runObservers find call (sources.map TaintSource.reader) =
        (s.tool.run (sources.flatMap fun src => src.reader.ops find call s)).map
          fun tool => { s with tool := tool }) ∧
    (¬ (∀ src ∈ sources, src.Finds find s call.args.arg0) →
      s.runObservers find call (sources.map TaintSource.reader) = none) := by
  induction sources generalizing s with
  | nil => exact ⟨fun _ => rfl, fun hn => absurd (by simp) hn⟩
  | cons src sources ih =>
    obtain ⟨hfinds, hloses⟩ := @reader_run find s call hret src
    have happend : s.tool.run ((src :: sources).flatMap fun src => src.reader.ops find call s) =
        (s.tool.run (src.reader.ops find call s)).bind
          (Tool.run · (sources.flatMap fun src => src.reader.ops find call s)) := by
      rw [List.flatMap_cons]
      exact Lib.run_append
    rw [happend, List.forall_mem_cons, List.map_cons, System.runObservers, List.foldlM_cons]
    by_cases hf : src.Finds find s call.args.arg0
    · rw [hfinds hf]
      cases s.tool.run (src.reader.ops find call s) with
      | none => exact ⟨fun _ => rfl, fun _ => rfl⟩
      | some tool =>
        -- the tables are those of `s`
        obtain ⟨hall, hnone⟩ := @ih { s with tool := tool }
        refine ⟨fun h => ?_, fun hn => hnone fun h => hn ⟨hf, h⟩⟩
        exact hall h.2
    · rw [hloses hf]
      exact ⟨fun h => absurd h.1 hf, fun _ => rfl⟩

end

namespace System

variable (find : Find NetworkCallback) (sources : List TaintSource) (s : System) (call : Finished)
  (g : TaintGenerator)

/-- The marks byte `i` of a read should have. -/
def expected (i : Nat) : Set ℕ :=
  policyMarks g call.args.ret.toNat (s.policy find sources call.args.arg0) i

/-- After the callbacks of a read its buffer has the marks it should, and the other bytes are as
before. -/
def Overwrites : Prop :=
  ∃ s', s.endSyscall find sources call = some s' ∧
    (∀ i < call.args.ret.toNat,
      s'.tool.taint.taint.memMarks (call.args.arg1 + BitVec.ofNat 32 i) =
        s.expected find sources call g i) ∧
    ∀ a ∉ bytesAt call.args.arg1 call.args.ret,
      s'.tool.taint.memTaintMap a = s.tool.taint.memTaintMap a

/-- When a read does that (module doc). -/
structure ReadsCleanly : Prop where
  finds : ∀ src ∈ sources, src.Finds find s call.args.arg0
  before : s.policy find sources call.args.arg0 = [] ∨
      RangeWraps call.args.arg1 call.args.ret →
    ∀ i < call.args.ret.toNat,
      s.tool.taint.taint.memMarks (call.args.arg1 + BitVec.ofNat 32 i) =
        s.expected find sources call g i

section
variable {find : Find NetworkCallback} {sources : List TaintSource} {s : System} {call : Finished}
  {g : TaintGenerator} {n : Nat}

/-- What the callbacks of a read do to the memory. -/
theorem read_run (h : s.tool.MarksOk n) (hg : s.tool.taintGen = some g)
    (hnum : call.args.num = SYS_read) (hret : 0 < toInt call.args.ret) :
    ((∀ src ∈ sources, src.Finds find s call.args.arg0) →
      ∃ s', s.endSyscall find sources call = some s' ∧
        (∀ a, (s.policy find sources call.args.arg0 = [] ∨
            a ∉ addrRange call.args.arg1 (call.args.arg1 + call.args.ret)) →
          s'.tool.taint.memTaintMap a = s.tool.taint.memTaintMap a) ∧
        (s.policy find sources call.args.arg0 ≠ [] → ¬ RangeWraps call.args.arg1 call.args.ret →
          ∀ i < call.args.ret.toNat,
            s'.tool.taint.taint.memMarks (call.args.arg1 + BitVec.ofNat 32 i) =
              s.expected find sources call g i)) ∧
    (¬ (∀ src ∈ sources, src.Finds find s call.args.arg0) →
      s.endSyscall find sources call = none) := by
  obtain ⟨hfinds, hloses⟩ := @readers_run find s call hret sources
  have hend : s.endSyscall find sources call =
      (s.runObservers find call (sources.map TaintSource.reader)).bind
        (runObservers find call · [.handler .Handle_READ]) := by
    rw [endSyscall, hnum, observers_read]
    exact Lib.run_append
  rw [hend]
  refine ⟨fun hall => ?_, fun hn => by rw [hloses hn]; rfl⟩
  have hops : List.Forall₂ (ReadOp call.args.arg1 call.args.ret)
      (s.policy find sources call.args.arg0)
      (sources.flatMap fun src => src.reader.ops find call s) := by
    unfold policy
    clear hend hfinds hloses hall
    induction sources with
    | nil => exact .nil
    | cons src sources ih =>
      rw [List.flatMap_cons, List.flatMap_cons]
      exact List.rel_append (reader_reads hret src) ih
  obtain ⟨tool, hrun, hout, hin⟩ := Tool.run_reads h hg hops
  rw [hfinds hall, hrun]
  refine ⟨{ s with tool := tool }, rfl, hout, fun hne hw i hi => ?_⟩
  have hlen := addrRange_length hw
  have hmarks := hin hne i (hlen ▸ hi)
  rwa [addrRange_getElem, hlen] at hmarks

end

/-- The callbacks of a read overwrite the taint of its buffer when `ReadsCleanly` says so. -/
theorem overwrites_iff {n : Nat} (h : s.tool.MarksOk n) (hg : s.tool.taintGen = some g)
    (hnum : call.args.num = SYS_read) (hret : 0 < toInt call.args.ret) :
    s.Overwrites find sources call g ↔ s.ReadsCleanly find sources call g := by
  obtain ⟨hruns, hfails⟩ := @read_run find sources s call g n h hg hnum hret
  by_cases hall : ∀ src ∈ sources, src.Finds find s call.args.arg0
  · obtain ⟨s', hs', hout, hin⟩ := hruns hall
    -- nothing puts marks there
    have hkept : s.policy find sources call.args.arg0 = [] ∨
        RangeWraps call.args.arg1 call.args.ret →
        s'.tool.taint.memTaintMap = s.tool.taint.memTaintMap := by
      intro hk
      funext a
      refine hout a (hk.imp_right fun hw => ?_)
      rw [addrRange_wraps hw]
      exact List.not_mem_nil
    have houtside : ∀ a ∉ bytesAt call.args.arg1 call.args.ret,
        s'.tool.taint.memTaintMap a = s.tool.taint.memTaintMap a :=
      fun a ha => hout a (.inr (notMem_addrRange ha))
    constructor
    · rintro ⟨t, ht, hbytes, -⟩
      obtain rfl := Option.some.inj (hs'.symm.trans ht)
      refine ⟨hall, fun hk i hi => ?_⟩
      rw [← hbytes i hi, Taint.memMarks, Taint.memMarks, TaintState.taint_mem,
        TaintState.taint_mem, hkept hk]
    · intro hclean
      refine ⟨s', hs', fun i hi => ?_, houtside⟩
      by_cases hk : s.policy find sources call.args.arg0 = [] ∨
          RangeWraps call.args.arg1 call.args.ret
      · rw [← hclean.before hk i hi, Taint.memMarks, Taint.memMarks, TaintState.taint_mem,
          TaintState.taint_mem, hkept hk]
      · rw [not_or] at hk
        exact hin hk.1 hk.2 i hi
  · refine iff_of_false ?_ fun hclean => hall hclean.finds
    rintro ⟨s', hs', -⟩
    cases (hfails hall).symm.trans hs'

/-- `/etc/passwd` is a source, and there is one mark. -/
def passwdSource : Framework :=
  ⟨4096, some (.constant 5), [⟨false, none, [("/etc/passwd", .PerByte)]⟩], [], 0⟩

/-- `open` of `/etc/passwd` returns 5. -/
def opensPasswd : Finished :=
  ⟨⟨SYS_open, 0x7000, 0, 0, 0, 0, 0, 5, 0⟩, "/etc/passwd", fun _ => 0, fun _ => ⟨0, 0⟩, .nonNull⟩

/-- `read(5, 0x8000, 4)`. -/
def readsFour : Finished :=
  ⟨⟨SYS_read, 5, 0x8000, 4, 0, 0, 0, 4, 0⟩, "", fun _ => 0, fun _ => ⟨0, 0⟩, .nonNull⟩

theorem passwdSource_marks : (Tool.start passwdSource : Tool 32).MarksOk 4096 := by
  have hfw : passwdSource.MarksOk := ⟨_, rfl, show 5 < 4096 by omega⟩
  exact Tool.start_marks hfw

theorem overwrites_iff_passwd : ∃ s,
    Lib.run (step (fun _ _ => none) [.path 0]) (passwdSource.system (fun _ => 0) (fun _ => 0))
      [.finished opensPasswd] = some s ∧
    (s.Overwrites (fun _ _ => none) [.path 0] readsFour (.constant 5) ↔
      s.ReadsCleanly (fun _ _ => none) [.path 0] readsFour (.constant 5)) :=
  ⟨_, rfl, overwrites_iff _ _ _ _ _ passwdSource_marks rfl rfl (by decide)⟩

/-- Without an `open` the descriptor is not a source, and the buffer keeps the mark it had. -/
theorem read_keeps_old_taint : ∃ s,
    Lib.run (step (fun _ _ => none) [.path 0]) (passwdSource.system (fun _ => 0) (fun _ => 0))
      [.op (.setNewTaintForMemory 0x8000 4)] = some s ∧
    ¬ s.Overwrites (fun _ _ => none) [.path 0] readsFour (.constant 5) := by
  obtain ⟨tool, hstep, hok⟩ := Tool.step_keeps passwdSource_marks (.setNewTaintForMemory 0x8000 4)
  obtain ⟨set, hset, hbit⟩ : ∃ set, tool.taint.memTaintMap 0x8000 = some set ∧
      set.bit 5 = true := by
    obtain rfl := Option.some.inj hstep
    exact ⟨_, rfl, by decide⟩
  set s : System := { passwdSource.system (fun _ => 0) (fun _ => 0) with tool := tool } with hs
  have hrun : step (fun _ _ => none) [.path 0] (passwdSource.system (fun _ => 0) (fun _ => 0))
      (.op (.setNewTaintForMemory 0x8000 4)) = some s := step_op hstep
  have hgen : s.tool.taintGen = some (.constant 5) := by
    obtain rfl := Option.some.inj hstep
    rfl
  have hpolicy : s.policy (fun _ _ => none) [.path 0] readsFour.args.arg0 = [] := rfl
  refine ⟨s, by rw [Lib.run_cons_of hrun, Lib.run_nil], fun h => ?_⟩
  obtain ⟨t, ht, hbytes, -⟩ := h
  obtain ⟨hruns, -⟩ := @read_run (fun _ _ => none) [.path 0] s readsFour _ 4096 hok hgen rfl
    (by decide)
  obtain ⟨s', hs', hout, -⟩ := hruns (by simp [TaintSource.Finds])
  obtain rfl := Option.some.inj (hs'.symm.trans ht)
  have hempty := hbytes 0 (by decide)
  rw [expected, hpolicy, policyMarks] at hempty
  have hmem : s'.tool.taint.memTaintMap 0x8000 = some set := (hout _ (.inl hpolicy)).trans hset
  have hmark : 5 ∈ s'.tool.taint.taint.memMarks 0x8000 := by
    rw [Taint.memMarks, TaintState.taint_mem, hmem]
    exact hbit
  exact Set.notMem_empty 5 (hempty ▸ hmark)

end System

end Dytan
