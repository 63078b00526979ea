import Dytan.Taint.Marks
import Dytan.Monitor.Syscall
import Dytan.Tool.Config

/-!
# Where marks come from (`dytan.cpp`, `replace_functions.cpp`, `taint_source_*.cpp`)

`Tool w`: the taint state with the generator and the map of tags. Its operations are the analysis
functions of `dytan.cpp` and the functions that give new marks to memory: `SetNewTaintForMemory`,
the `AssignTag` functions and the read callbacks of the path and network sources. `none` is a failed
assertion or `abort()`.

`Tool.MarksOk n`: every set has width `n`, the generator is there and hands out marks below `n`, and
so are the marks of the tags. An accepted configuration sets it up and every operation keeps it, so
no assertion fails in any run (`run_accepted`).
-/

namespace Dytan

structure Tool (w : Nat) where
  taint : TaintState w
  taintGen : Option TaintGenerator
  tagMap : String → Option Nat

namespace Tool

variable {w : Nat}

/-- What `main` sets up after `set_framework_options`. -/
def start (fw : Framework) : Tool w where
  taint := .initial fw.numberOfTaintMarks
  taintGen := fw.taintGen
  tagMap _ := none

/-- `assert(taintGen)` and the next mark. -/
def nextTaintMark (tool : Tool w) : Option (Nat × Tool w) := do
  let gen ← tool.taintGen
  return (gen.nextTaintMark.1, { tool with taintGen := some gen.nextTaintMark.2 })

/-- A new set of `NUMBER_OF_TAINT_MARKS` with the bit `mark`. -/
def markSet (tool : Tool w) (mark : Nat) : Option Bitset :=
  (Bitset.init tool.taint.numberOfTaintMarks).setBit mark

/-- `memTaintMap[addr] = bitset_copy(s)`. -/
def putMemory (tool : Tool w) (s : Bitset) (addr : ADDRINT w) : Tool w :=
  { tool with taint := { tool.taint with
      memTaintMap := Function.update tool.taint.memTaintMap addr (some s.copy) } }

/-- `SetNewTaintForMemory`. A mark below -1 is converted to `size_t`. -/
def setNewTaintForMemory (tool : Tool w) (addr size : ADDRINT w) (taintMark : Int := -1) :
    Option (Tool w) := do
  let (mark, tool) ←
    if taintMark = -1 then tool.nextTaintMark
    else if taintMark ≥ tool.taint.numberOfTaintMarks then none
    else some ((BitVec.ofInt 32 taintMark).toNat, tool)
  let tmp ← tool.markSet mark
  return (addrRange addr (addr + size)).foldl (putMemory · tmp) tool

/-- `SetNewTaintStart`. -/
def setNewTaintStart (tool : Tool w) : Option (Tool w) := do
  let gen ← tool.taintGen
  return { tool with taintGen := some gen.setNewTaintStart }

/-- `tagMap[name]`, which gets the next mark when there is none. -/
def tagMark (tool : Tool w) (name : String) : Option (Nat × Tool w) := do
  let _ ← tool.taintGen
  match tool.tagMap name with
  | some mark => return (mark, tool)
  | none =>
    let (mark, tool) ← tool.nextTaintMark
    return (mark, { tool with tagMap := Function.update tool.tagMap name (some mark) })

/-- The body the three `AssignTag` functions share; they differ in what they print. -/
def assignTag (tool : Tool w) (start size : ADDRINT w) (id : Nat) : Option (Tool w) := do
  let (mark, tool) ← tool.tagMark (toString id)
  let s ← tool.markSet mark
  return (addrRange start (start + size)).foldl (putMemory · s) tool

/-- `AssignTagToByteRange`. -/
def assignTagToByteRange (tool : Tool w) (start size : ADDRINT w) (id : Nat) : Option (Tool w) :=
  tool.assignTag start size id

/-- `AssignPointerTagToByteRange`. -/
def assignPointerTagToByteRange (tool : Tool w) (start size : ADDRINT w) (id : Nat) :
    Option (Tool w) :=
  tool.assignTag start size id

/-- `AssignMemoryTagToByteRange`. -/
def assignMemoryTagToByteRange (tool : Tool w) (start size : ADDRINT w) (id : Nat) :
    Option (Tool w) :=
  tool.assignTag start size id

/-- A mark for each byte from `start` to `stop`; `s` is reset after each. -/
def taintPerByte (tool : Tool w) (start stop : ADDRINT w) : Option (Tool w) := do
  let (_, tool) ← (addrRange start stop).foldlM
    (fun (s, tool) addr => do
      let (tag, tool) ← nextTaintMark tool
      let s ← s.setBit tag
      return (s.reset, tool.putMemory s addr))
    (Bitset.init tool.taint.numberOfTaintMarks, tool)
  return tool

/-- One mark for the bytes from `start` to `stop`. -/
def taintPerRead (tool : Tool w) (start stop : ADDRINT w) : Option (Tool w) := do
  let (tag, tool) ← tool.nextTaintMark
  let s ← tool.markSet tag
  return (addrRange start stop).foldl (putMemory · s) tool

/-- `pathSourceReadCallbackPerByte`. -/
def pathSourceReadCallbackPerByte (tool : Tool w) (args : SyscallArguments w) : Option (Tool w) :=
  if toInt args.ret ≤ 0 then some tool
  else do
    let _ ← tool.taintGen
    tool.taintPerByte args.arg1 (args.arg1 + BitVec.ofInt w (toInt args.ret))

/-- `pathSourceReadCallbackPerRead`. -/
def pathSourceReadCallbackPerRead (tool : Tool w) (args : SyscallArguments w) : Option (Tool w) :=
  if toInt args.ret ≤ 0 then some tool
  else tool.taintPerRead args.arg1 (args.arg1 + BitVec.ofInt w (toInt args.ret))

/-- `networkReadCallbackPerByte`. -/
def networkReadCallbackPerByte (tool : Tool w) (start length : ADDRINT w) : Option (Tool w) := do
  let _ ← tool.taintGen
  tool.taintPerByte start (start + length)

/-- `networkReadCallbackPerRead`. -/
def networkReadCallbackPerRead (tool : Tool w) (start length : ADDRINT w) : Option (Tool w) :=
  tool.taintPerRead start (start + length)

end Tool

/-! ## Runs -/

/-- The calls that reach the taint state: of the inserted instructions, of the application's
interface and of the sources. -/
inductive Op (w : Nat)
  | clearTaintSet (set : Scratch)
  | taintForRegister (reg : REG) (set : Scratch)
  | taintForMemory (start size : ADDRINT w) (baseReg indexReg : REG) (set : Scratch)
  | setTaintForRegister (dest : REG) (args : List Scratch)
  | clearTaintForRegister (reg : REG)
  | setTaintForMemory (start size : ADDRINT w) (args : List Scratch)
  | clearTaintForMemory (start size : ADDRINT w)
  | pushControl (addr : ADDRINT w)
  | popControl (addrs : List (ADDRINT w))
  | setNewTaintForMemory (addr size : ADDRINT w)
  | setNewTaintStart
  | assignTagToByteRange (start size : ADDRINT w) (id : Nat)
  | assignPointerTagToByteRange (start size : ADDRINT w) (id : Nat)
  | assignMemoryTagToByteRange (start size : ADDRINT w) (id : Nat)
  | pathSourceRead (range : TaintRange) (args : SyscallArguments w)
  | networkRead (range : TaintRange) (start length : ADDRINT w)

namespace Tool

variable {w : Nat}

/-- The result of an operation on the taint state alone. -/
def withTaint (tool : Tool w) (r : Option (TaintState w)) : Option (Tool w) :=
  r.map fun taint => { tool with taint := taint }

def step (tool : Tool w) : Op w → Option (Tool w)
  | .clearTaintSet set => tool.withTaint (some (tool.taint.clearTaintSet set))
  | .taintForRegister reg set => tool.withTaint (tool.taint.taintForRegister reg set)
  | .taintForMemory start size baseReg indexReg set =>
    tool.withTaint (tool.taint.taintForMemory start size baseReg indexReg set)
  | .setTaintForRegister dest args =>
    tool.withTaint (tool.taint.setTaintForRegister dest (args.map tool.taint.scratch))
  | .clearTaintForRegister reg => tool.withTaint (tool.taint.clearTaintForRegister reg)
  | .setTaintForMemory start size args =>
    tool.withTaint (tool.taint.setTaintForMemory start size (args.map tool.taint.scratch))
  | .clearTaintForMemory start size => tool.withTaint (tool.taint.clearTaintForMemory start size)
  | .pushControl addr => tool.withTaint (tool.taint.pushControl addr)
  | .popControl addrs => tool.withTaint (some (tool.taint.popControl addrs))
  | .setNewTaintForMemory addr size => tool.setNewTaintForMemory addr size
  | .setNewTaintStart => tool.setNewTaintStart
  | .assignTagToByteRange start size id => tool.assignTagToByteRange start size id
  | .assignPointerTagToByteRange start size id => tool.assignPointerTagToByteRange start size id
  | .assignMemoryTagToByteRange start size id => tool.assignMemoryTagToByteRange start size id
  | .pathSourceRead .PerByte args => tool.pathSourceReadCallbackPerByte args
  | .pathSourceRead .PerRead args => tool.pathSourceReadCallbackPerRead args
  | .networkRead .PerByte start length => tool.networkReadCallbackPerByte start length
  | .networkRead .PerRead start length => tool.networkReadCallbackPerRead start length

def run (tool : Tool w) (ops : List (Op w)) : Option (Tool w) := ops.foldlM step tool

/-- `putMemory` at each of `addrs`. -/
theorem putMemories_eq (tool : Tool w) (s : Bitset) (addrs : List (ADDRINT w)) :
    addrs.foldl (putMemory · s) tool = { tool with taint := { tool.taint with
      memTaintMap := fun a => if a ∈ addrs then some s.copy else tool.taint.memTaintMap a } } := by
  induction addrs generalizing tool with
  | nil => simp
  | cons addr addrs ih =>
    rw [List.foldl_cons, ih]
    simp only [putMemory, List.mem_cons, Function.update_apply]
    congr 2
    funext a
    by_cases ha : a ∈ addrs <;> simp [ha]

/-! ## What the operations do -/

section
variable {tool tool' : Tool w} {mark : Nat}

theorem nextTaintMark_cases (h : tool.nextTaintMark = some (mark, tool')) :
    ∃ g, tool.taintGen = some g ∧ mark = g.nextTaintMark.1 ∧
      tool' = { tool with taintGen := some g.nextTaintMark.2 } := by
  obtain ⟨g, hg, hr⟩ := Option.bind_eq_some_iff.1 h
  obtain ⟨rfl, rfl⟩ := Prod.mk.inj (Option.some.inj hr)
  exact ⟨g, hg, rfl, rfl⟩

/-- A name keeps its mark; a new one gets the next. -/
theorem tagMark_cases {name : String} (h : tool.tagMark name = some (mark, tool')) :
    tool.tagMap name = some mark ∧ tool' = tool ∨
    tool.tagMap name = none ∧ ∃ next, tool.nextTaintMark = some (mark, next) ∧
      tool' = { next with tagMap := Function.update next.tagMap name (some mark) } := by
  obtain ⟨g, -, hr⟩ := Option.bind_eq_some_iff.1 h
  cases ht : tool.tagMap name with
  | some m =>
    simp only [ht, Option.pure_def, Option.some.injEq, Prod.mk.injEq] at hr
    exact .inl ⟨congrArg some hr.1, hr.2.symm⟩
  | none =>
    simp only [ht] at hr
    obtain ⟨⟨m, next⟩, hn, hr⟩ := Option.bind_eq_some_iff.1 hr
    obtain ⟨rfl, rfl⟩ := Prod.mk.inj (Option.some.inj hr)
    exact .inr ⟨rfl, next, hn, rfl⟩

theorem tagMark_taint {name : String} (h : tool.tagMark name = some (mark, tool')) :
    tool'.taint = tool.taint := by
  obtain ⟨-, rfl⟩ | ⟨-, next, hn, rfl⟩ := tagMark_cases h
  · rfl
  · obtain ⟨g, -, -, rfl⟩ := nextTaintMark_cases hn
    rfl

/-- A tag puts the set of its mark at the addresses of the loop. -/
theorem assignTag_cases {start size : ADDRINT w} {id : Nat}
    (h : tool.assignTag start size id = some tool') :
    ∃ mark next s, tool.tagMark (toString id) = some (mark, next) ∧ tool.markSet mark = some s ∧
      tool' = { next with taint := { tool.taint with
        memTaintMap := fun a => if a ∈ addrRange start (start + size) then some s.copy
                                else tool.taint.memTaintMap a } } := by
  obtain ⟨⟨mark, next⟩, ht, h⟩ := Option.bind_eq_some_iff.1 h
  obtain ⟨s, hs, h⟩ := Option.bind_eq_some_iff.1 h
  have htaint := tagMark_taint ht
  refine ⟨mark, next, s, ht, ?_, ?_⟩
  · rwa [markSet, htaint] at hs
  · rw [← htaint, ← Option.some.inj h]
    exact putMemories_eq next s _

end

/-! ## The invariant -/

/-- The invariant of the tool (module doc). -/
structure MarksOk (n : Nat) (tool : Tool w) : Prop where
  width : tool.taint.WidthOk n
  gen : ∃ g, tool.taintGen = some g ∧ g.Below n
  tags : ∀ name mark, tool.tagMap name = some mark → mark < n

/-- The operation's assertions hold and it keeps the invariant. -/
def Keeps (n : Nat) (r : Option (Tool w)) : Prop := ∃ tool, r = some tool ∧ tool.MarksOk n

theorem start_marks {fw : Framework} (h : fw.MarksOk) :
    (start fw : Tool w).MarksOk fw.numberOfTaintMarks :=
  ⟨TaintState.initial_ok _, h, nofun⟩

section
variable {n : Nat} {tool : Tool w} (h : tool.MarksOk n)
include h

theorem withTaint_keeps {r : Option (TaintState w)} {t : Taint w} (hr : TaintState.Gives n r t) :
    Keeps n (tool.withTaint r) := by
  obtain ⟨st, rfl, hok, -⟩ := hr
  exact ⟨{ tool with taint := st }, rfl, hok, h.gen, h.tags⟩

theorem nextTaintMark_spec :
    ∃ mark tool', tool.nextTaintMark = some (mark, tool') ∧ mark < n ∧ tool'.MarksOk n := by
  obtain ⟨g, hg, hb⟩ := h.gen
  exact ⟨_, { tool with taintGen := some g.nextTaintMark.2 }, by simp only [nextTaintMark, hg]; rfl,
    hb.next_lt, h.width, ⟨_, rfl, hb.next⟩, h.tags⟩

theorem markSet_spec {mark : Nat} (hm : mark < n) : ∃ s, tool.markSet mark = some s ∧ s.Ok n := by
  obtain ⟨s, hs, hok, -⟩ := h.width.init_ok.setBit_spec hm
  exact ⟨s, hs, hok⟩

theorem putMemory_marks {s : Bitset} (hs : s.Ok n) (addr : ADDRINT w) :
    (tool.putMemory s addr).MarksOk n := by
  refine ⟨h.width.setMem fun a s' ha => ?_, h.gen, h.tags⟩
  by_cases he : a = addr
  · subst he
    rw [Function.update_self, hs.copy_eq] at ha
    cases ha
    exact hs
  · rw [Function.update_of_ne he] at ha
    exact h.width.mem a s' ha

theorem putMemories_marks {s : Bitset} (hs : s.Ok n) (addrs : List (ADDRINT w)) :
    (addrs.foldl (putMemory · s) tool).MarksOk n := by
  induction addrs generalizing tool with
  | nil => exact h
  | cons addr addrs ih => exact ih (putMemory_marks h hs addr)

/-- A set with one mark below `n`, put at `addrs`. -/
theorem putMark_keeps {mark : Nat} (hm : mark < n) (addrs : List (ADDRINT w)) :
    Keeps n (do let s ← tool.markSet mark; return addrs.foldl (putMemory · s) tool) := by
  obtain ⟨s, hs, hok⟩ := markSet_spec h hm
  exact ⟨_, by rw [hs]; rfl, putMemories_marks h hok addrs⟩

theorem setNewTaintForMemory_keeps (addr size : ADDRINT w) :
    Keeps n (tool.setNewTaintForMemory addr size) := by
  obtain ⟨mark, tool', hn, hm, h'⟩ := nextTaintMark_spec h
  simp only [setNewTaintForMemory, if_true, hn]
  exact putMark_keeps h' hm _

theorem setNewTaintStart_keeps : Keeps n tool.setNewTaintStart := by
  obtain ⟨g, hg, hb⟩ := h.gen
  exact ⟨{ tool with taintGen := some g.setNewTaintStart }, by rw [setNewTaintStart, hg]; rfl,
    h.width, ⟨_, rfl, hb.setNewTaintStart⟩, h.tags⟩

theorem tagMark_spec (name : String) :
    ∃ mark tool', tool.tagMark name = some (mark, tool') ∧ mark < n ∧ tool'.MarksOk n := by
  obtain ⟨g, hg, -⟩ := h.gen
  cases ht : tool.tagMap name with
  | some mark => exact ⟨mark, tool, by simp [tagMark, hg, ht], h.tags name mark ht, h⟩
  | none =>
    obtain ⟨mark, tool', hn, hm, h'⟩ := nextTaintMark_spec h
    refine ⟨mark, { tool' with tagMap := Function.update tool'.tagMap name (some mark) },
      by simp only [tagMark, hg, ht, hn]; rfl, hm, h'.width, h'.gen, ?_⟩
    intro name' mark' he
    by_cases hname : name' = name
    · subst hname
      simp only [Function.update_self, Option.some.injEq] at he
      exact he ▸ hm
    · simp only [Function.update_of_ne hname] at he
      exact h'.tags name' mark' he

theorem assignTag_keeps (start size : ADDRINT w) (id : Nat) :
    Keeps n (tool.assignTag start size id) := by
  obtain ⟨mark, tool', ht, hm, h'⟩ := tagMark_spec h (toString id)
  simp only [assignTag, ht]
  exact putMark_keeps h' hm _

theorem taintPerRead_keeps (start stop : ADDRINT w) : Keeps n (tool.taintPerRead start stop) := by
  obtain ⟨mark, tool', hn, hm, h'⟩ := nextTaintMark_spec h
  simp only [taintPerRead, hn]
  exact putMark_keeps h' hm _

/-- The set of the loop is empty again after each byte. -/
theorem taintPerByte_keeps (start stop : ADDRINT w) : Keeps n (tool.taintPerByte start stop) := by
  unfold taintPerByte
  rw [h.width.marks]
  generalize addrRange start stop = addrs
  induction addrs generalizing tool with
  | nil => exact ⟨tool, rfl, h⟩
  | cons addr addrs ih =>
    obtain ⟨tag, tool', hn, htag, h'⟩ := nextTaintMark_spec h
    obtain ⟨s, hs, hok, -⟩ := (Bitset.init_ok n).setBit_spec htag
    simp only [List.foldlM_cons, hn, hs, hok.reset_eq, Option.bind_eq_bind, Option.bind_some,
      Option.pure_def]
    exact ih (putMemory_marks h' hok addr)

/-- Every operation passes its assertions and keeps the invariant. -/
theorem step_keeps (op : Op w) : Keeps n (tool.step op) := by
  obtain ⟨g, hg, -⟩ := h.gen
  have hw := h.width
  have hargs : ∀ args : List Scratch, ∀ s ∈ args.map tool.taint.scratch, s.Ok n := by
    intro args s hs
    obtain ⟨set, -, rfl⟩ := List.mem_map.1 hs
    exact hw.scratch set
  cases op with
  | clearTaintSet set => exact withTaint_keeps h (TaintState.clearTaintSet_gives hw set)
  | taintForRegister reg set =>
    exact withTaint_keeps h (TaintState.taintForRegister_gives hw reg set)
  | taintForMemory start size baseReg indexReg set =>
    exact withTaint_keeps h (TaintState.taintForMemory_gives hw start size baseReg indexReg set)
  | setTaintForRegister dest args =>
    exact withTaint_keeps h (TaintState.setTaintForRegister_gives hw dest (hargs args))
  | clearTaintForRegister reg =>
    exact withTaint_keeps h (TaintState.clearTaintForRegister_gives hw reg)
  | setTaintForMemory start size args =>
    exact withTaint_keeps h (TaintState.setTaintForMemory_gives hw start size (hargs args))
  | clearTaintForMemory start size =>
    exact withTaint_keeps h (TaintState.clearTaintForMemory_gives hw start size)
  | pushControl addr => exact withTaint_keeps h (TaintState.pushControl_gives hw addr)
  | popControl addrs => exact withTaint_keeps h (TaintState.popControl_gives hw addrs)
  | setNewTaintForMemory addr size => exact setNewTaintForMemory_keeps h addr size
  | setNewTaintStart => exact setNewTaintStart_keeps h
  | assignTagToByteRange start size id => exact assignTag_keeps h start size id
  | assignPointerTagToByteRange start size id => exact assignTag_keeps h start size id
  | assignMemoryTagToByteRange start size id => exact assignTag_keeps h start size id
  | pathSourceRead range args =>
    cases range <;>
      simp only [step, pathSourceReadCallbackPerByte, pathSourceReadCallbackPerRead] <;> split
    · exact ⟨tool, rfl, h⟩
    · rw [hg]
      exact taintPerByte_keeps h _ _
    · exact ⟨tool, rfl, h⟩
    · exact taintPerRead_keeps h _ _
  | networkRead range start length =>
    cases range with
    | PerByte =>
      simp only [step, networkReadCallbackPerByte, hg]
      exact taintPerByte_keeps h _ _
    | PerRead => exact taintPerRead_keeps h _ _

theorem run_keeps (ops : List (Op w)) : Keeps n (tool.run ops) := by
  induction ops generalizing tool with
  | nil => exact ⟨tool, rfl, h⟩
  | cons op ops ih =>
    obtain ⟨tool', hs, h'⟩ := step_keeps h op
    rw [run, List.foldlM_cons, hs]
    exact ih h'

end

/-- After an accepted configuration with a number of marks, every sequence of operations passes all
assertions and ends in a state whose sets have `NUMBER_OF_TAINT_MARKS` bits and whose generator and
tags have marks below it. -/
theorem run_accepted {conf : Config} (hne : conf.numMarkings ≠ "") {fw : Framework}
    (h : setFrameworkOptions conf = some fw) (ops : List (Op w)) :
    ∃ tool, (start fw).run ops = some tool ∧ tool.MarksOk fw.numberOfTaintMarks :=
  run_keeps (start_marks (setFrameworkOptions_marks hne h)) ops

/-- One mark for everything, and a read from a file. -/
theorem run_accepted_read : ∃ tool : Tool 32,
    (start ⟨4096, some (.constant 5), [⟨true, some .PerByte, []⟩], [], 0⟩).run
      [.pathSourceRead .PerByte ⟨3, 0x8000, 2⟩] = some tool ∧ tool.MarksOk 4096 :=
  @run_accepted 32 ⟨[⟨"path", "PerByte", ["*"]⟩], "1"⟩ (by decide) _ (by decide) _

end Tool

end Dytan
