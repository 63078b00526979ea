import Dytan.Monitor.System

/-!
# No mark out of thin air

`origins` lists what a run brings in: the marks `nextTaintMark` returns (`Origin.drawn`) and those
passed to `SetNewTaintForMemory` (`Origin.passed`). `System.marks_originate`: in a run from empty
maps every mark of a register, of a byte, of an active branch or of a scratch set is one of them.

`Taint.Within K`: every mark of a state is in `K`. The operations of `Taint` only move marks, so they
keep it for any `K` (`Within.calls`); the operations of `Tool` keep it when `K` has the marks they
draw (`Tool.Within.step`).
-/

namespace Dytan

variable {w n : Nat}

/-- Where a mark comes from: the generator, or a caller. -/
inductive Origin
  | drawn (mark : ℕ)
  | passed (mark : ℕ)
deriving DecidableEq, Repr

/-- The marks brought in. -/
def known (origins : List Origin) : Set ℕ := {m | .drawn m ∈ origins ∨ .passed m ∈ origins}

theorem known_append (origins origins' : List Origin) :
    known (origins ++ origins') = known origins ∪ known origins' := by
  ext m
  simp only [known, Set.mem_ofPred_eq, List.mem_append, Set.mem_union]
  tauto

/-! ## The taint maps -/

/-- The sets of the map are in `K`. -/
def EntriesWithin {α : Type} (K : Set ℕ) (map : α → Option (Set ℕ)) : Prop :=
  ∀ a S, map a = some S → S ⊆ K

namespace EntriesWithin

variable {α : Type} {K K' S : Set ℕ} {map : α → Option (Set ℕ)}

theorem mono (h : EntriesWithin K map) (hK : K ⊆ K') : EntriesWithin K' map :=
  fun a S hS => (h a S hS).trans hK

theorem getD (h : EntriesWithin K map) (a : α) : (map a).getD ∅ ⊆ K := by
  cases hm : map a with
  | none => exact Set.empty_subset K
  | some S => exact h a S hm

/-- Some entries become `S`. -/
theorem put (h : EntriesWithin K map) (hS : S ⊆ K) (p : α → Prop) [DecidablePred p] :
    EntriesWithin K fun a => if p a then some S else map a := by
  intro a S' hS'
  by_cases hp : p a
  · simp only [if_pos hp, Option.some.injEq] at hS'
    exact hS' ▸ hS
  · simp only [if_neg hp] at hS'
    exact h a S' hS'

theorem update [DecidableEq α] (h : EntriesWithin K map) (hS : S ⊆ K) (a : α) :
    EntriesWithin K (Function.update map a (some S)) := by
  have hupdate : Function.update map a (some S) = fun b => if b = a then some S else map b :=
    funext fun b => Function.update_apply ..
  rw [hupdate]
  exact h.put hS _

/-- Fewer entries. -/
theorem subset {map' : α → Option (Set ℕ)} (h : EntriesWithin K map)
    (hsub : ∀ a S, map' a = some S → map a = some S) : EntriesWithin K map' :=
  fun a S hS => h a S (hsub a S hS)

end EntriesWithin

noncomputable section

/-- Every mark of the state is in `K`. -/
structure Taint.Within (K : Set ℕ) (t : Taint w) : Prop where
  reg : EntriesWithin K t.reg
  mem : EntriesWithin K t.mem
  control : EntriesWithin K t.control
  scratch : ∀ s, t.scratch s ⊆ K

namespace Taint.Within

open Classical

variable {K K' S : Set ℕ} {t : Taint w}

theorem mono (h : t.Within K) (hK : K ⊆ K') : t.Within K' :=
  ⟨h.reg.mono hK, h.mem.mono hK, h.control.mono hK, fun s => (h.scratch s).trans hK⟩

theorem active (h : t.Within K) : t.active ⊆ K := by
  rintro m ⟨addr, S, hS, hm⟩
  exact h.control addr S hS hm

theorem regMarks (h : t.Within K) (r : REG) : t.regMarks r ⊆ K := h.reg.getD r

theorem readMarks (h : t.Within K) (addrs : List (ADDRINT w)) (b i : REG) :
    t.readMarks addrs b i ⊆ K := by
  have haddress : ∀ r, t.addressMarks r ⊆ K := by
    intro r
    unfold addressMarks
    split
    · exact h.regMarks r
    · exact Set.empty_subset K
  have hbytes : t.bytesMarks addrs ⊆ K := by
    rintro m ⟨a, -, hm⟩
    exact h.mem.getD a hm
  exact Set.union_subset (Set.union_subset hbytes (haddress b)) (haddress i)

theorem scratchMarks (h : t.Within K) (args : List Scratch) : t.scratchMarks args ⊆ K := by
  rintro m ⟨s, -, hm⟩
  exact h.scratch s hm

theorem load (h : t.Within K) (set : Scratch) (hS : S ⊆ K) : (t.load set S).Within K := by
  refine ⟨h.reg, h.mem, h.control, fun s => ?_⟩
  by_cases hs : s = set
  · rw [hs, load_scratch_same]
    exact hS
  · rw [load_scratch_other _ _ hs]
    exact h.scratch s

theorem setReg (h : t.Within K) (dest : REG) (hS : S ⊆ K) : (t.setReg dest S).Within K := by
  unfold Taint.setReg
  split
  · exact h
  · exact ⟨h.reg.put (Set.union_subset hS h.active) _, h.mem, h.control, h.scratch⟩

theorem setMem (h : t.Within K) (addrs : List (ADDRINT w)) (hS : S ⊆ K) :
    (t.setMem addrs S).Within K :=
  ⟨h.reg, h.mem.put (Set.union_subset hS h.active) _, h.control, h.scratch⟩

theorem clearReg (h : t.Within K) (dest : REG) : (t.clearReg dest).Within K :=
  ⟨h.reg.put h.active _, h.mem, h.control, h.scratch⟩

theorem clearMem (h : t.Within K) (addrs : List (ADDRINT w)) : (t.clearMem addrs).Within K :=
  ⟨h.reg, h.mem.put h.active _, h.control, h.scratch⟩

theorem pushControl (h : t.Within K) (addr : ADDRINT w) : (t.pushControl addr).Within K := by
  unfold Taint.pushControl
  split
  · exact h
  · exact ⟨h.reg, h.mem,
      h.control.update (Set.union_subset (h.control.getD addr) (h.regMarks .EFLAGS)) addr,
      h.scratch⟩

theorem popControl (h : t.Within K) (addrs : List (ADDRINT w)) :
    (t.popControl addrs).Within K := by
  induction addrs generalizing t with
  | nil => exact h
  | cons addr addrs ih =>
    unfold Taint.popControl
    split
    · refine ih ⟨h.reg, h.mem, h.control.subset fun a S hS => ?_, h.scratch⟩
      by_cases ha : a = addr
      · simp [ha] at hS
      · simpa [Function.update_of_ne ha] using hS
    · exact h

/-- A call moves marks. -/
theorem step (h : t.Within K) (ctx : Context w) (c : Call w) : (c.step ctx t).Within K := by
  induction c with
  | clearTaintSet set => exact h.load set (Set.empty_subset K)
  | taintForRegister reg set => exact h.load set (h.regMarks reg)
  | taintForMemory ea baseReg indexReg set => exact h.load set (h.readMarks _ baseReg indexReg)
  | setTaintForRegister dest args => exact h.setReg dest (h.scratchMarks args)
  | setTaintForMemory args => exact h.setMem _ (h.scratchMarks args)
  | clearTaintForRegister reg => exact h.clearReg reg
  | clearTaintForMemory => exact h.clearMem _
  | ifThen check call ih =>
    unfold Call.step
    split
    · exact ih
    · exact h

theorem calls (h : t.Within K) (ctx : Context w) (cs : List (Call w)) :
    (stepCalls ctx t cs).Within K := by
  induction cs generalizing t with
  | nil => exact h
  | cons c cs ih => exact ih (h.step ctx c)

end Taint.Within

end

/-! ## The tool -/

/-- The marks an operation draws. -/
def Op.draws (tool : Tool w) (op : Op w) : List Origin :=
  match tool.taintGen with
  | some g => (List.range (op.asks tool)).map fun k => .drawn (g.mark k)
  | none => []

namespace Tool

/-- Every mark of the tool is in `K`. -/
structure Within (n : Nat) (K : Set ℕ) (tool : Tool w) : Prop where
  width : tool.taint.WidthOk n
  marks : tool.taint.taint.Within K
  tags : ∀ name mark, tool.tagMap name = some mark → mark ∈ K

variable {tool tool' : Tool w} {K K' : Set ℕ}

theorem Within.mono (h : tool.Within n K) (hK : K ⊆ K') : tool.Within n K' :=
  ⟨h.width, h.marks.mono hK, fun name mark hm => hK (h.tags name mark hm)⟩

/-- Fewer entries in `memTaintMap`. -/
theorem Within.shrink (h : tool.Within n K) {map : ADDRINT w → Option Bitset}
    (hsub : ∀ a s, map a = some s → tool.taint.memTaintMap a = some s) :
    ({ tool with taint := { tool.taint with memTaintMap := map } } : Tool w).Within n K := by
  refine ⟨h.width.setMem fun a s hs => h.width.mem a s (hsub a s hs), ?_, h.tags⟩
  refine ⟨h.marks.reg, h.marks.mem.subset fun a S hS => ?_, h.marks.control, h.marks.scratch⟩
  obtain ⟨s, hs, rfl⟩ := Option.map_eq_some_iff.1 hS
  exact Option.map_eq_some_iff.2 ⟨s, hsub a s hs, rfl⟩

/-- A set of marks from `K` at `addrs`. -/
theorem Within.putMemories (h : tool.Within n K) {s : Bitset} (hs : s.Ok n) (hK : s.marks ⊆ K)
    (addrs : List (ADDRINT w)) : (addrs.foldl (putMemory · s) tool).Within n K := by
  rw [putMemories_eq, hs.copy_eq]
  refine ⟨h.width.setMem fun a s' hs' => ?_, ?_, h.tags⟩
  · by_cases ha : a ∈ addrs
    · rw [if_pos ha, Option.some.injEq] at hs'
      exact hs' ▸ hs
    · rw [if_neg ha] at hs'
      exact h.width.mem a s' hs'
  · refine ⟨h.marks.reg, ?_, h.marks.control, h.marks.scratch⟩
    intro a S hS
    simp only [TaintState.taint_mem] at hS
    by_cases ha : a ∈ addrs
    · rw [if_pos ha, Option.map_some, Option.some.injEq] at hS
      exact hS ▸ hK
    · rw [if_neg ha] at hS
      exact h.marks.mem a S hS

/-- The assertion of `bitset_set_bit`. -/
theorem setBit_init {mark : Nat} {s : Bitset} (h : (Bitset.init n).setBit mark = some s) :
    s.Ok n ∧ s.marks = {mark} := by
  have hlt : mark < n := by
    by_contra hge
    rw [Bitset.setBit, if_neg (show ¬ mark < (Bitset.init n).nbits from hge)] at h
    cases h
  obtain ⟨s', hs', hok, hmarks⟩ := (Bitset.init_ok n).setBit_spec hlt
  obtain rfl : s' = s := Option.some.inj (hs'.symm.trans h)
  exact ⟨hok, by rw [hmarks, Bitset.marks_init, insert_empty_eq]⟩

/-- A set with one mark of `K` at `addrs`. -/
theorem Within.putMark (h : tool.Within n K) {mark : Nat} (hm : mark ∈ K)
    {addrs : List (ADDRINT w)}
    (hr : (do let s ← tool.markSet mark; return addrs.foldl (putMemory · s) tool) = some tool') :
    tool'.Within n K := by
  obtain ⟨s, hs, hr⟩ := Option.bind_eq_some_iff.1 hr
  rw [markSet, h.width.marks] at hs
  obtain ⟨hok, hmarks⟩ := setBit_init hs
  obtain rfl := Option.some.inj hr
  exact h.putMemories hok (by rw [hmarks]; exact Set.singleton_subset_iff.2 hm) addrs

theorem Within.withTaint (h : tool.Within n K) {r : Option (TaintState w)} {t : Taint w}
    (hg : TaintState.Gives n r t) (ht : t.Within K) (hr : tool.withTaint r = some tool') :
    tool'.Within n K := by
  obtain ⟨st, rfl, hok, rfl⟩ := hg
  obtain rfl := Option.some.inj hr
  exact ⟨hok, ht, h.tags⟩

theorem Within.nextTaintMark (h : tool.Within n K) {mark : Nat}
    (hr : tool.nextTaintMark = some (mark, tool')) :
    tool'.Within n K ∧ ∃ g, tool.taintGen = some g ∧ mark = g.mark 0 ∧
      tool'.taintGen = some (g.after 1) := by
  obtain ⟨g, hg, rfl, rfl⟩ := nextTaintMark_cases hr
  exact ⟨⟨h.width, h.marks, h.tags⟩, g, hg, rfl, rfl⟩

theorem Within.taintPerRead (h : tool.Within n K) {start stop : ADDRINT w}
    (hr : tool.taintPerRead start stop = some tool')
    (hK : ∀ g, tool.taintGen = some g → g.mark 0 ∈ K) : tool'.Within n K := by
  obtain ⟨⟨mark, next⟩, hn, hr⟩ := Option.bind_eq_some_iff.1 hr
  obtain ⟨hnext, g, hg, rfl, -⟩ := h.nextTaintMark hn
  exact hnext.putMark (hK g hg) hr

/-- The marks of the loop are the next ones of the generator. -/
theorem Within.taintPerByte (h : tool.Within n K) {start stop : ADDRINT w}
    (hr : tool.taintPerByte start stop = some tool')
    (hK : ∀ g, tool.taintGen = some g → ∀ k < (addrRange start stop).length, g.mark k ∈ K) :
    tool'.Within n K := by
  unfold Tool.taintPerByte at hr
  rw [h.width.marks] at hr
  generalize addrRange start stop = addrs at hr hK
  induction addrs generalizing tool with
  | nil =>
    cases hr
    exact h
  | cons addr addrs ih =>
    simp only [List.foldlM_cons, Option.bind_eq_bind, Option.bind_assoc] at hr
    obtain ⟨⟨mark, next⟩, hn, hr⟩ := Option.bind_eq_some_iff.1 hr
    obtain ⟨s, hs, hr⟩ := Option.bind_eq_some_iff.1 hr
    obtain ⟨hnext, g, hg, rfl, hgen⟩ := h.nextTaintMark hn
    obtain ⟨hok, hmarks⟩ := setBit_init hs
    simp only [hok.reset_eq, Option.pure_def, Option.bind_some] at hr
    have hmark : s.marks ⊆ K := by
      rw [hmarks]
      exact Set.singleton_subset_iff.2 (hK g hg 0 (Nat.succ_pos _))
    refine ih (hnext.putMemories hok hmark [addr]) (by simpa using hr) fun g' hg' k hk => ?_
    obtain rfl : g.after 1 = g' := Option.some.inj (hgen.symm.trans hg')
    exact hK g hg (k + 1) (Nat.succ_lt_succ hk)

theorem Within.assignTag (h : tool.Within n K) {start size : ADDRINT w} {id : Nat}
    (hr : tool.assignTag start size id = some tool')
    (hK : ∀ g, tool.taintGen = some g → tool.tagMap (toString id) = none → g.mark 0 ∈ K) :
    tool'.Within n K := by
  obtain ⟨⟨mark, next⟩, ht, hput⟩ := Option.bind_eq_some_iff.1 hr
  obtain ⟨hm, rfl⟩ | ⟨hnew, next', hn, rfl⟩ := tagMark_cases ht
  · exact h.putMark (h.tags _ _ hm) hput
  · obtain ⟨hnext, g, hg, rfl, -⟩ := h.nextTaintMark hn
    have hmark : g.mark 0 ∈ K := hK g hg hnew
    have hnamed : ({ next' with
        tagMap := Function.update next'.tagMap (toString id) (some (g.mark 0)) } :
        Tool w).Within n K := by
      refine ⟨hnext.width, hnext.marks, fun name mark hname => ?_⟩
      by_cases he : name = toString id
      · simp only [he, Function.update_self, Option.some.injEq] at hname
        exact hname ▸ hmark
      · simp only [Function.update_of_ne he] at hname
        exact hnext.tags name mark hname
    exact hnamed.putMark hmark hput

/-- An operation brings in the marks it draws. -/
theorem Within.step (h : tool.Within n K) {op : Op w} (hr : tool.step op = some tool')
    (hK : known (op.draws tool) ⊆ K) : tool'.Within n K := by
  have hw := h.width
  have hargs : ∀ args : List Scratch, ∀ s ∈ args.map tool.taint.scratch, s.Ok n := args_ok hw
  have hscratch : ∀ args : List Scratch,
      {m | ∃ s ∈ args.map tool.taint.scratch, m ∈ s.marks} ⊆ K := by
    intro args
    rw [args_marks]
    exact h.marks.scratchMarks args
  have hdrawn : ∀ g, tool.taintGen = some g → ∀ k < op.asks tool, g.mark k ∈ K := by
    intro g hg k hk
    refine hK (.inl ?_)
    rw [Op.draws, hg]
    exact List.mem_map.2 ⟨k, List.mem_range.2 hk, rfl⟩
  cases op with
  | clearTaintSet set =>
    exact h.withTaint (TaintState.clearTaintSet_gives hw set)
      (h.marks.load set (Set.empty_subset K)) hr
  | taintForRegister reg set =>
    exact h.withTaint (TaintState.taintForRegister_gives hw reg set)
      (h.marks.load set (h.marks.regMarks reg)) hr
  | taintForMemory start size baseReg indexReg set =>
    exact h.withTaint (TaintState.taintForMemory_gives hw start size baseReg indexReg set)
      (h.marks.load set (h.marks.readMarks _ baseReg indexReg)) hr
  | setTaintForRegister dest args =>
    exact h.withTaint (TaintState.setTaintForRegister_gives hw dest (hargs args))
      (h.marks.setReg dest (hscratch args)) hr
  | clearTaintForRegister reg =>
    exact h.withTaint (TaintState.clearTaintForRegister_gives hw reg) (h.marks.clearReg reg) hr
  | setTaintForMemory start size args =>
    exact h.withTaint (TaintState.setTaintForMemory_gives hw start size (hargs args))
      (h.marks.setMem _ (hscratch args)) hr
  | clearTaintForMemory start size =>
    exact h.withTaint (TaintState.clearTaintForMemory_gives hw start size) (h.marks.clearMem _) hr
  | pushControl addr =>
    exact h.withTaint (TaintState.pushControl_gives hw addr) (h.marks.pushControl addr) hr
  | popControl addrs =>
    exact h.withTaint (TaintState.popControl_gives hw addrs) (h.marks.popControl addrs) hr
  | setNewTaintForMemory addr size =>
    exact h.taintPerRead hr fun g hg => hdrawn g hg 0 Nat.one_pos
  | setNewTaintStart =>
    obtain ⟨g, -, hr⟩ := Option.bind_eq_some_iff.1 hr
    obtain rfl := Option.some.inj hr
    exact ⟨h.width, h.marks, h.tags⟩
  | assignTagToByteRange start size id | assignPointerTagToByteRange start size id
  | assignMemoryTagToByteRange start size id =>
    refine h.assignTag hr fun g hg hnew => hdrawn g hg 0 ?_
    simp only [Op.asks, hnew, Option.isSome_none, Bool.false_eq_true, if_false, Nat.one_pos]
  | pathSourceRead range args =>
    by_cases hret : toInt args.ret ≤ 0
    · have hnone : tool' = tool := by
        cases range <;> simpa [Tool.step, pathSourceReadCallbackPerByte,
          pathSourceReadCallbackPerRead, hret] using hr.symm
      rwa [hnone]
    · cases range with
      | PerByte =>
        simp only [Tool.step, pathSourceReadCallbackPerByte, if_neg hret] at hr
        obtain ⟨-, -, hr⟩ := Option.bind_eq_some_iff.1 hr
        refine h.taintPerByte hr fun g hg k hk => hdrawn g hg k ?_
        simpa only [Op.asks, Op.visits, if_neg hret] using hk
      | PerRead =>
        simp only [Tool.step, pathSourceReadCallbackPerRead, if_neg hret] at hr
        refine h.taintPerRead hr fun g hg => hdrawn g hg 0 ?_
        simp only [Op.asks, if_neg hret, Nat.one_pos]
  | networkRead range start length =>
    cases range with
    | PerByte =>
      obtain ⟨-, -, hr⟩ := Option.bind_eq_some_iff.1 hr
      exact h.taintPerByte hr hdrawn
    | PerRead => exact h.taintPerRead hr fun g hg => hdrawn g hg 0 Nat.one_pos

end Tool

/-! ## The system -/

section
variable (find : Find NetworkCallback) (sources : List TaintSource)

def Observer.origins (call : Finished) (s : System) (o : Observer) : List Origin :=
  Lib.emitted Tool.step Op.draws s.tool (o.ops find call s)

def SystemEvent.origins (s : System) : SystemEvent → List Origin
  | .op operation => operation.draws s.tool
  | .setNewTaintForMemory addr size taintMark =>
    if taintMark = -1 then (Op.setNewTaintForMemory addr size).draws s.tool
    else [.passed (BitVec.ofInt 32 taintMark).toNat]
  | .finished call => Lib.emitted (Observer.run find call) (Observer.origins find call) s
      (observers sources call.args.num)
  | _ => []

/-- What a run brings in. -/
def System.origins (s : System) (events : List SystemEvent) : List Origin :=
  Lib.emitted (System.step find sources) (SystemEvent.origins find sources) s events

end

/-- A set of the maps or a scratch set has the mark. -/
def System.Carries (s : System) (mark : ℕ) : Prop :=
  (∃ r set, s.tool.taint.regTaintMap r = some set ∧ mark ∈ set.marks) ∨
  (∃ a set, s.tool.taint.memTaintMap a = some set ∧ mark ∈ set.marks) ∨
  (∃ (a : ADDRINT 32) (set : Bitset),
    s.tool.taint.controlTaintMap[a]? = some set ∧ mark ∈ set.marks) ∨
  ∃ name, mark ∈ (s.tool.taint.scratch name).marks

section
variable {find : Find NetworkCallback} {sources : List TaintSource} {s s' : System}

theorem Tool.Within.carries {K : Set ℕ} (h : s.tool.Within n K) {mark : ℕ}
    (hm : s.Carries mark) : mark ∈ K := by
  obtain ⟨r, set, hs, hm⟩ | ⟨a, set, hs, hm⟩ | ⟨a, set, hs, hm⟩ | ⟨name, hm⟩ := hm
  · exact h.marks.reg r _ (Option.map_eq_some_iff.2 ⟨set, hs, rfl⟩) hm
  · exact h.marks.mem a _ (Option.map_eq_some_iff.2 ⟨set, hs, rfl⟩) hm
  · exact h.marks.control a _ (Option.map_eq_some_iff.2 ⟨set, hs, rfl⟩) hm
  · exact h.marks.scratch name hm

/-- Operations one after the other. -/
theorem Tool.Within.run {tool tool' : Tool w} {before : List Origin} {ops : List (Op w)}
    (h : tool.Within n (known before)) (hr : tool.run ops = some tool') :
    tool'.Within n (known (before ++ Lib.emitted Tool.step Op.draws tool ops)) := by
  refine Lib.emitted_invariant (I := fun before tool => Tool.Within n (known before) tool) ?_ h hr
  intro before tool op tool' h hs
  rw [known_append]
  exact (h.mono Set.subset_union_left).step hs Set.subset_union_right

theorem System.Within.observer {call : Finished} {before : List Origin} (o : Observer)
    (h : s.tool.Within n (known before)) (hr : o.run find call s = some s') :
    s'.tool.Within n (known (before ++ o.origins find call s)) := by
  have hmono : s.tool.Within n (known (before ++ o.origins find call s)) := by
    rw [known_append]
    exact h.mono Set.subset_union_left
  cases o with
  | openCallback i =>
    obtain ⟨path, -, hr⟩ := Option.bind_eq_some_iff.1 hr
    obtain rfl := Option.some.inj hr
    exact hmono
  | closeCallback i | closeNetworkCallback i =>
    obtain rfl := Option.some.inj hr
    exact hmono
  | readCallback i =>
    obtain ⟨tool, hrun, hr⟩ := Option.bind_eq_some_iff.1 hr
    obtain rfl := Option.some.inj hr
    exact h.run hrun
  | socketcallNetworkCallback i =>
    obtain ⟨⟨network, notices⟩, hn, hr⟩ := Option.bind_eq_some_iff.1 hr
    obtain ⟨tool, hrun, hr⟩ := Option.bind_eq_some_iff.1 hr
    obtain rfl := Option.some.inj hr
    rw [runNotices_eq] at hrun
    simp only [Observer.origins, Observer.ops, hn]
    exact h.run hrun
  | readNetworkCallback i =>
    obtain ⟨notices, hn, hr⟩ := Option.bind_eq_some_iff.1 hr
    obtain ⟨tool, hrun, hr⟩ := Option.bind_eq_some_iff.1 hr
    obtain rfl := Option.some.inj hr
    rw [runNotices_eq] at hrun
    simp only [Observer.origins, Observer.ops, hn]
    exact h.run hrun
  | handler function =>
    obtain ⟨r, hrun, hr⟩ := Option.bind_eq_some_iff.1 hr
    obtain rfl := Option.some.inj hr
    by_cases hret : function.Returns call.args call.pathname
    · obtain ⟨openFiles, he⟩ := Handler.run_spec ⟨s.tool.taint.memTaintMap, s.openFiles⟩ hret
      obtain rfl := Option.some.inj (he.symm.trans hrun)
      refine hmono.shrink fun a set hs => ?_
      obtain ⟨-, hs⟩ := Option.ite_none_left_eq_some.1 hs
      exact hs
    · rw [Handler.run_eq_none _ hret] at hrun
      cases hrun

/-- Every event brings in its origins and nothing else. -/
theorem System.Within.event {before : List Origin} {event : SystemEvent}
    (h : s.tool.Within n (known before)) (hr : s.step find sources event = some s') :
    s'.tool.Within n (known (before ++ event.origins find sources s)) := by
  have hmono : s.tool.Within n (known (before ++ event.origins find sources s)) := by
    rw [known_append]
    exact h.mono Set.subset_union_left
  cases event with
  | ins e =>
    obtain ⟨taint, he, hr⟩ := Option.bind_eq_some_iff.1 hr
    obtain rfl := Option.some.inj hr
    unfold executeINS at he
    split at he
    · cases he
    · obtain ⟨st, hst, hok, ht⟩ := runCalls_gives e.ctx (dataflow e.ins).calls h.width
      obtain rfl := Option.some.inj (hst.symm.trans he)
      exact ⟨hok, ht ▸ hmono.marks.calls e.ctx _, hmono.tags⟩
  | op op =>
    obtain ⟨tool, hs, hr⟩ := Option.bind_eq_some_iff.1 hr
    obtain rfl := Option.some.inj hr
    refine hmono.step hs ?_
    rw [known_append]
    exact Set.subset_union_right
  | setNewTaintForMemory addr size taintMark =>
    obtain ⟨tool, hs, hr⟩ := Option.bind_eq_some_iff.1 hr
    obtain rfl := Option.some.inj hr
    by_cases hm : taintMark = -1
    · subst hm
      have hop : s.tool.step (.setNewTaintForMemory addr size) = some tool := hs
      refine hmono.step hop ?_
      rw [known_append]
      exact Set.subset_union_right
    · simp only [Tool.setNewTaintForMemory, if_neg hm] at hs
      split at hs
      · cases hs
      · refine hmono.putMark (.inr ?_) hs
        simp [SystemEvent.origins, hm]
  | clearTagsForByteRange start =>
    obtain rfl := Option.some.inj hr
    refine hmono.shrink fun a set hs => ?_
    rw [clearLoop_eq (Nat.le_refl _)] at hs
    obtain ⟨-, hs⟩ := Option.ite_none_left_eq_some.1 hs
    exact hs
  | finished call =>
    refine Lib.emitted_invariant (I := fun before s => s.tool.Within n (known before)) ?_ h hr
    intro before s o s' h hs
    exact System.Within.observer o h hs

end

/-- In a run from empty maps every mark was drawn from the generator or passed to
`SetNewTaintForMemory` before. -/
theorem System.marks_originate (find : Find NetworkCallback) (sources : List TaintSource)
    {s₀ s : System} {gen : Option TaintGenerator}
    (h : s₀.tool = ⟨.initial n, gen, fun _ => none⟩) {events : List SystemEvent}
    (hr : Lib.run (System.step find sources) s₀ events = some s) {mark : ℕ}
    (hm : s.Carries mark) :
    .drawn mark ∈ s₀.origins find sources events ∨
      .passed mark ∈ s₀.origins find sources events := by
  have h₀ : s₀.tool.Within n (known []) := by
    rw [h]
    refine ⟨TaintState.initial_ok n, ⟨?_, ?_, ?_, ?_⟩, fun name mark hn => (nomatch hn)⟩
    · exact fun r S hS => (nomatch hS)
    · exact fun a S hS => (nomatch hS)
    · intro a S hS
      simp [TaintState.initial] at hS
    · intro name
      simp [TaintState.initial]
  have hwithin := Lib.emitted_invariant (I := fun before s => s.tool.Within n (known before))
    (fun before s event s' h hs => System.Within.event h hs) h₀ hr
  exact hwithin.carries hm

/-- Mark 3 passed for four bytes, and a tag. -/
def untainted : System :=
  ⟨⟨.initial 16, some (.sequential 0 0 16), fun _ => none⟩, fun _ => .new false, fun _ => .new false,
    fun _ => none⟩

theorem System.marks_originate_passed : ∃ s,
    Lib.run (System.step (fun _ _ => none) [.path 0]) untainted
      [.setNewTaintForMemory 0x8000 4 3, .op (.assignTagToByteRange 0x9000 2 1)] = some s ∧
    ∀ mark, s.Carries mark →
      .drawn mark ∈ untainted.origins (fun _ _ => none) [.path 0]
        [.setNewTaintForMemory 0x8000 4 3, .op (.assignTagToByteRange 0x9000 2 1)] ∨
      .passed mark ∈ untainted.origins (fun _ _ => none) [.path 0]
        [.setNewTaintForMemory 0x8000 4 3, .op (.assignTagToByteRange 0x9000 2 1)] :=
  ⟨_, rfl, fun _ hm => System.marks_originate _ _ rfl rfl hm⟩

end Dytan
