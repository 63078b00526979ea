import Dytan.Machine.Step
import Dytan.Tool.Coverage
import Dytan.Tool.MarkGenerator
import Mathlib.Data.Set.BooleanAlgebra
import Mathlib.Order.CompletePartialOrder
import Mathlib.Tactic.NormNum

/-!
# The arguments of `main` (`taint_func_args.cpp`)

`mainWrapperFunc` runs before `main`, with the addresses of its two arguments: a mark for `argc` and
one for each element of `argv`. It takes the length of the string `argv[i]`, but the address
`&argv[i]` of the pointer to it.

`mainWrapperFunc_marks` says what each address has afterwards: the mark of the last range that it is
in, `&argv[i] .. &argv[i] + strlen(argv[i]) - 1` for an argument. `arguments_tainted_iff`: the
arguments are tainted as they should be exactly when all of them are empty strings, and `argc` is not
in the last bytes of memory.
-/

namespace Dytan

/-- `strlen`, on a string that ends within `fuel` bytes. -/
def strlenWithin (mem : ADDRINT 32 → BitVec 8) : Nat → ADDRINT 32 → Option Nat
  | 0, _ => none
  | fuel + 1, p => if mem p = 0 then some 0 else (strlenWithin mem fuel (p + 1)).map (· + 1)

/-- `strlen`. Memory has 2^32 bytes. -/
def strlen (mem : ADDRINT 32 → BitVec 8) (p : ADDRINT 32) : Option Nat := strlenWithin mem (2 ^ 32) p

/-- `&argv[i]`. -/
def elementAt (argv : ADDRINT 32) (i : Nat) : ADDRINT 32 := argv + BitVec.ofNat 32 (4 * i)

/-- `argv[i]`. -/
def argument (s : MachineState) (argv : ADDRINT 32) (i : Nat) : ADDRINT 32 :=
  s.load (elementAt argv i)

/-- One turn of the loop of `main_wrapper_func`. -/
def taintArgument (s : MachineState) (argv : ADDRINT 32) (tool : Tool 32) (i : Nat) :
    Option (Tool 32) := do
  let length ← strlen s.mem (argument s argv i)
  tool.setNewTaintForMemory (elementAt argv i) (BitVec.ofNat 32 length)

/-- The turns of the loop, with `argc` an `int`. -/
def argumentCount (s : MachineState) (argcAddr : ADDRINT 32) : Nat := (toInt (s.load argcAddr)).toNat

/-- `main_wrapper_func`, in the state `s` of the application. -/
def mainWrapperFunc (tool : Tool 32) (s : MachineState) (argcAddr argvAddr : ADDRINT 32) :
    Option (Tool 32) := do
  let argv := s.load argvAddr
  let tool ← tool.setNewTaintForMemory argcAddr 4
  let tool ← (List.range (argumentCount s argcAddr)).foldlM (taintArgument s argv) tool
  tool.setNewTaintStart

/-! ## What each address has afterwards -/

/-- The addresses the loop visits for argument `i`. -/
def visitedFor (s : MachineState) (argv : ADDRINT 32) (i : Nat) : List (ADDRINT 32) :=
  match strlen s.mem (argument s argv i) with
  | some length => addrRange (elementAt argv i) (elementAt argv i + BitVec.ofNat 32 length)
  | none => []

section
variable {n : Nat} {tool : Tool 32} {g : TaintGenerator} {s : MachineState}
  {argcAddr argvAddr argv : ADDRINT 32}

/-- The mark of the last range the address is in, or what it had. -/
theorem taintArguments_marks (h : tool.MarksOk n) (hg : tool.taintGen = some g) (count : Nat)
    (hterm : ∀ i < count, (strlen s.mem (argument s argv i)).isSome) :
    ∃ tool', (List.range count).foldlM (taintArgument s argv) tool = some tool' ∧
      tool'.MarksOk n ∧ tool'.taintGen = some (g.after count) ∧
      ∀ a, (∃ i < count, a ∈ visitedFor s argv i ∧ tool'.taint.taint.mem a = some {g.mark i}) ∨
        (∀ i < count, a ∉ visitedFor s argv i) ∧
          tool'.taint.memTaintMap a = tool.taint.memTaintMap a := by
  induction count with
  | zero => exact ⟨tool, rfl, h, hg, fun a => .inr ⟨nofun, rfl⟩⟩
  | succ count ih =>
    obtain ⟨tool₁, hrun, h₁, hg₁, hmem⟩ := ih fun i hi => hterm i (Nat.lt_succ_of_lt hi)
    obtain ⟨length, hlength⟩ := Option.isSome_iff_exists.1 (hterm count (Nat.lt_succ_self count))
    obtain ⟨tool', hset, hgave, hgen, -⟩ := Tool.setNewTaintForMemory_gave h₁ hg₁
      (elementAt argv count) (BitVec.ofNat 32 length)
    obtain ⟨tool₂, hset₂, h'⟩ := Tool.setNewTaintForMemory_keeps h₁
      (elementAt argv count) (BitVec.ofNat 32 length)
    obtain rfl := Option.some.inj (hset.symm.trans hset₂)
    have hturn : taintArgument s argv tool₁ count = some tool' := by
      rw [taintArgument, hlength]
      exact hset
    have hvisited : visitedFor s argv count =
        addrRange (elementAt argv count) (elementAt argv count + BitVec.ofNat 32 length) := by
      rw [visitedFor, hlength]
    refine ⟨tool', ?_, h', by rw [hgen, ← TaintGenerator.after_add], fun a => ?_⟩
    · rw [List.range_succ, List.foldlM_append, hrun]
      simpa using hturn
    · by_cases ha : a ∈ visitedFor s argv count
      · obtain ⟨-, -, set, hs, hmarks⟩ := hgave.mem (hvisited ▸ ha)
        refine .inl ⟨count, Nat.lt_succ_self count, ha, ?_⟩
        rw [TaintState.taint_mem, hs, Option.map_some, hmarks]
        rfl
      · have hsame := hgave.outside a (hvisited ▸ ha)
        obtain ⟨i, hi, hai, hm⟩ | ⟨hnone, hm⟩ := hmem a
        · refine .inl ⟨i, Nat.lt_succ_of_lt hi, hai, ?_⟩
          rw [← hm, TaintState.taint_mem, TaintState.taint_mem, hsame]
        · refine .inr ⟨fun i hi => ?_, hsame.trans hm⟩
          obtain hi | rfl := Nat.lt_succ_iff_lt_or_eq.1 hi
          · exact hnone i hi
          · exact ha

/-- After `main_wrapper_func`: the first mark is that of `argc`. -/
theorem mainWrapperFunc_marks (h : tool.MarksOk n) (hg : tool.taintGen = some g)
    (hterm : ∀ i < argumentCount s argcAddr,
      (strlen s.mem (argument s (s.load argvAddr) i)).isSome) :
    ∃ tool', mainWrapperFunc tool s argcAddr argvAddr = some tool' ∧ ∀ a,
      (∃ i < argumentCount s argcAddr, a ∈ visitedFor s (s.load argvAddr) i ∧
        tool'.taint.taint.mem a = some {g.mark (i + 1)}) ∨
      (∀ i < argumentCount s argcAddr, a ∉ visitedFor s (s.load argvAddr) i) ∧
        ((a ∈ addrRange argcAddr (argcAddr + 4) ∧ tool'.taint.taint.mem a = some {g.mark 0}) ∨
          (a ∉ addrRange argcAddr (argcAddr + 4) ∧
            tool'.taint.memTaintMap a = tool.taint.memTaintMap a)) := by
  obtain ⟨tool₁, hset, hgave, hgen, -⟩ := Tool.setNewTaintForMemory_gave h hg argcAddr 4
  obtain ⟨tool₂, hset₂, h₁⟩ := Tool.setNewTaintForMemory_keeps h argcAddr 4
  obtain rfl := Option.some.inj (hset.symm.trans hset₂)
  obtain ⟨tool₂, hrun, h₂, hgen₂, hmem⟩ := taintArguments_marks h₁ hgen _ hterm
  let last := (g.after 1).after (argumentCount s argcAddr)
  refine ⟨{ tool₂ with taintGen := some last.setNewTaintStart }, ?_, fun a => ?_⟩
  · simp only [mainWrapperFunc, hset, hrun, Option.bind_eq_bind, Option.bind_some]
    rw [Tool.setNewTaintStart, hgen₂]
    rfl
  · obtain ⟨i, hi, ha, hm⟩ | ⟨hnone, hm⟩ := hmem a
    · refine .inl ⟨i, hi, ha, ?_⟩
      rw [Nat.add_comm i 1, ← TaintGenerator.mark_after]
      exact hm
    · refine .inr ⟨hnone, ?_⟩
      by_cases ha : a ∈ addrRange argcAddr (argcAddr + 4)
      · obtain ⟨-, -, set, hs, hmarks⟩ := hgave.mem ha
        refine .inl ⟨ha, ?_⟩
        rw [TaintState.taint_mem, hm, hs, Option.map_some, hmarks]
      · exact .inr ⟨ha, hm.trans (hgave.outside a ha)⟩

end

/-! ## Tainted arguments -/

/-- The bytes of the string `argv[i]`, without the terminator. -/
def textAt (s : MachineState) (argv : ADDRINT 32) (i : Nat) : Set (ADDRINT 32) :=
  {a | ∃ length, strlen s.mem (argument s argv i) = some length ∧
    ∃ k < length, a = argument s argv i + BitVec.ofNat 32 k}

/-- The bytes of the string `argv[i]` with its terminator. -/
def stringAt (s : MachineState) (argv : ADDRINT 32) (i : Nat) : Set (ADDRINT 32) :=
  {a | ∃ length, strlen s.mem (argument s argv i) = some length ∧
    ∃ k ≤ length, a = argument s argv i + BitVec.ofNat 32 k}

/-- The bytes of the pointers `argv[0] .. argv[count - 1]`. -/
def arrayAt (argv : ADDRINT 32) (count : Nat) : Set (ADDRINT 32) :=
  {a | ∃ k < 4 * count, a = argv + BitVec.ofNat 32 k}

/-- Where the arguments are: all within memory, and apart from each other. -/
structure ArgumentLayout (s : MachineState) (argcAddr argvAddr : ADDRINT 32) : Prop where
  argc_within : argcAddr.toNat + 4 ≤ 2 ^ 32
  argv_within : (s.load argvAddr).toNat + 4 * argumentCount s argcAddr ≤ 2 ^ 32
  string_within : ∀ i < argumentCount s argcAddr, ∃ length,
    strlen s.mem (argument s (s.load argvAddr) i) = some length ∧
      (argument s (s.load argvAddr) i).toNat + length < 2 ^ 32
  argc_array : Disjoint (bytesAt argcAddr 4) (arrayAt (s.load argvAddr) (argumentCount s argcAddr))
  argc_string : ∀ i < argumentCount s argcAddr,
    Disjoint (bytesAt argcAddr 4) (stringAt s (s.load argvAddr) i)
  array_string : ∀ i < argumentCount s argcAddr,
    Disjoint (arrayAt (s.load argvAddr) (argumentCount s argcAddr)) (stringAt s (s.load argvAddr) i)
  strings : ∀ i < argumentCount s argcAddr, ∀ j < argumentCount s argcAddr, i ≠ j →
    Disjoint (stringAt s (s.load argvAddr) i) (stringAt s (s.load argvAddr) j)

/-- `argc` has the first mark, each byte of `argv[i]` the mark `i + 2`, these are different, and
nothing else changed. -/
structure ArgumentsTainted (s : MachineState) (argcAddr argvAddr : ADDRINT 32) (g : TaintGenerator)
    (tool tool' : Tool 32) : Prop where
  argc : ∀ a ∈ bytesAt argcAddr 4, tool'.taint.taint.mem a = some {g.mark 0}
  argv : ∀ i < argumentCount s argcAddr, ∀ a ∈ textAt s (s.load argvAddr) i,
    tool'.taint.taint.mem a = some {g.mark (i + 1)}
  distinct : ∀ i < argumentCount s argcAddr, ∀ j < argumentCount s argcAddr,
    g.mark (i + 1) = g.mark (j + 1) → i = j
  others : ∀ a ∉ bytesAt argcAddr 4,
    (∀ i < argumentCount s argcAddr, a ∉ textAt s (s.load argvAddr) i) →
    tool'.taint.memTaintMap a = tool.taint.memTaintMap a

/-- `main_wrapper_func` taints the arguments, in all states of the taint maps. -/
def TaintsArguments (s : MachineState) (argcAddr argvAddr : ADDRINT 32) (max : Nat) : Prop :=
  ∀ (n : Nat) (tool : Tool 32), tool.MarksOk n → tool.taintGen = some (.sequential 0 0 max) →
    ∃ tool', mainWrapperFunc tool s argcAddr argvAddr = some tool' ∧
      ArgumentsTainted s argcAddr argvAddr (.sequential 0 0 max) tool tool'

section
variable {s : MachineState} {argcAddr argvAddr : ADDRINT 32} {max : Nat}

theorem ArgumentLayout.terminated (h : ArgumentLayout s argcAddr argvAddr) :
    ∀ i < argumentCount s argcAddr, (strlen s.mem (argument s (s.load argvAddr) i)).isSome := by
  intro i hi
  obtain ⟨length, hlength, -⟩ := h.string_within i hi
  exact Option.isSome_iff_exists.2 ⟨length, hlength⟩

theorem marks_distinct (hmax : argumentCount s argcAddr < max) :
    ∀ i < argumentCount s argcAddr, ∀ j < argumentCount s argcAddr,
      (TaintGenerator.sequential 0 0 max).mark (i + 1) =
        (TaintGenerator.sequential 0 0 max).mark (j + 1) → i = j := by
  intro i hi j hj he
  rw [TaintGenerator.first_mark (by omega), TaintGenerator.first_mark (by omega)] at he
  omega

/-- Empty arguments: the loop uses up marks and gives them to nothing. -/
theorem taintsArguments_of_empty (h : ArgumentLayout s argcAddr argvAddr)
    (hmax : argumentCount s argcAddr < max) (hargc : argcAddr.toNat + 4 ≠ 2 ^ 32)
    (hempty : ∀ i < argumentCount s argcAddr,
      strlen s.mem (argument s (s.load argvAddr) i) = some 0) :
    TaintsArguments s argcAddr argvAddr max := by
  intro n tool hok hg
  obtain ⟨tool', hrun, hmem⟩ := mainWrapperFunc_marks hok hg h.terminated
  have hw : ¬ RangeWraps argcAddr 4 := fun hw =>
    hargc ((wraps_iff_end (by decide) h.argc_within).1 hw)
  have hvisited : ∀ a, ∀ i < argumentCount s argcAddr,
      a ∉ visitedFor s (s.load argvAddr) i := by
    intro a i hi
    rw [visitedFor, hempty i hi, mem_addrRange, BitVec.add_zero]
    exact fun ha => BitVec.not_lt.2 ha.1 ha.2
  have hmem : ∀ a, (a ∈ bytesAt argcAddr 4 ∧ tool'.taint.taint.mem a =
        some {(TaintGenerator.sequential 0 0 max).mark 0}) ∨
      (a ∉ bytesAt argcAddr 4 ∧ tool'.taint.memTaintMap a = tool.taint.memTaintMap a) := by
    intro a
    rw [← mem_addrRange_bytes hw]
    exact ((hmem a).resolve_left fun ⟨i, hi, ha, _⟩ => hvisited a i hi ha).2
  refine ⟨tool', hrun, fun a ha => ?_, fun i hi a ⟨length, hl, k, hk, _⟩ => ?_,
    marks_distinct hmax, fun a ha _ => ?_⟩
  · exact ((hmem a).resolve_right fun hr => hr.1 ha).2
  · obtain rfl := Option.some.inj ((hempty i hi).symm.trans hl)
    omega
  · exact ((hmem a).resolve_left fun hl => ha hl.1).2

/-- A tool with `max` marks and nothing tainted. -/
def cleanTool (max : Nat) : Tool 32 := ⟨.initial max, some (.sequential 0 0 max), fun _ => none⟩

theorem cleanTool_marks (hmax : 0 < max) : (cleanTool max).MarksOk max :=
  ⟨TaintState.initial_ok max, ⟨_, rfl, hmax, hmax, le_rfl⟩, nofun⟩

/-- When nothing was tainted before: what `main_wrapper_func` left, and what it should have. -/
theorem TaintsArguments.clean (ht : TaintsArguments s argcAddr argvAddr max)
    (h : ArgumentLayout s argcAddr argvAddr) (hmax : argumentCount s argcAddr < max) :
    ∃ tool', ArgumentsTainted s argcAddr argvAddr (.sequential 0 0 max) (cleanTool max) tool' ∧ ∀ a,
      (∃ i < argumentCount s argcAddr, a ∈ visitedFor s (s.load argvAddr) i ∧
        tool'.taint.taint.mem a = some {i + 1}) ∨
      (∀ i < argumentCount s argcAddr, a ∉ visitedFor s (s.load argvAddr) i) ∧
        ((a ∈ addrRange argcAddr (argcAddr + 4) ∧ tool'.taint.taint.mem a = some {0}) ∨
          tool'.taint.taint.mem a = none) := by
  have hclean := cleanTool_marks (Nat.zero_lt_of_lt hmax)
  obtain ⟨tool', hrun, htainted⟩ := ht max (cleanTool max) hclean rfl
  obtain ⟨tool₁, hrun₁, hmem⟩ :=
    mainWrapperFunc_marks (g := .sequential 0 0 max) hclean rfl h.terminated
  obtain rfl := Option.some.inj (hrun.symm.trans hrun₁)
  refine ⟨tool', htainted, fun a => ?_⟩
  obtain ⟨i, hi, ha, hm⟩ | ⟨hnone, ⟨ha, hm⟩ | ⟨-, hm⟩⟩ := hmem a
  · rw [TaintGenerator.first_mark (by omega)] at hm
    exact .inl ⟨i, hi, ha, hm⟩
  · rw [TaintGenerator.first_mark (by omega)] at hm
    exact .inr ⟨hnone, .inl ⟨ha, hm⟩⟩
  · refine .inr ⟨hnone, .inr ?_⟩
    rw [TaintState.taint_mem, hm]
    rfl

theorem argc_of_taintsArguments (ht : TaintsArguments s argcAddr argvAddr max)
    (h : ArgumentLayout s argcAddr argvAddr) (hmax : argumentCount s argcAddr < max) :
    argcAddr.toNat + 4 ≠ 2 ^ 32 := by
  intro hend
  have hw : RangeWraps argcAddr 4 := (wraps_iff_end (by decide) h.argc_within).2 hend
  obtain ⟨tool', htainted, hmem⟩ := ht.clean h hmax
  have hargc := htainted.argc argcAddr (start_mem_bytesAt (by decide))
  rw [TaintGenerator.first_mark (by omega)] at hargc
  obtain ⟨i, -, -, hm⟩ | ⟨-, ⟨ha, -⟩ | hm⟩ := hmem argcAddr
  · rw [hm, Option.some.injEq, Set.singleton_eq_singleton_iff] at hargc
    omega
  · rw [addrRange_wraps hw] at ha
    exact List.not_mem_nil ha
  · rw [hm] at hargc
    cases hargc

/-- An argument that is not empty: its pointer is tainted, or when the range of the loop wraps, its
first byte is not. -/
theorem empty_of_taintsArguments (ht : TaintsArguments s argcAddr argvAddr max)
    (h : ArgumentLayout s argcAddr argvAddr) (hmax : argumentCount s argcAddr < max) :
    ∀ i < argumentCount s argcAddr,
      strlen s.mem (argument s (s.load argvAddr) i) = some 0 := by
  intro i hi
  obtain ⟨length, hlength, hwithin⟩ := h.string_within i hi
  by_contra hne
  have hpos : 0 < length := Nat.pos_of_ne_zero fun h0 => hne (h0 ▸ hlength)
  obtain ⟨tool', htainted, hmem⟩ := ht.clean h hmax
  have hvisited : visitedFor s (s.load argvAddr) i = addrRange (elementAt (s.load argvAddr) i)
      (elementAt (s.load argvAddr) i + BitVec.ofNat 32 length) := by
    rw [visitedFor, hlength]
  have hlen : BitVec.ofNat 32 length ≠ 0 := by
    intro h0
    have := congrArg BitVec.toNat h0
    rw [BitVec.toNat_ofNat, Nat.mod_eq_of_lt (by omega)] at this
    exact hpos.ne' this
  by_cases hw : RangeWraps (elementAt (s.load argvAddr) i) (BitVec.ofNat 32 length)
  · -- nothing was visited for this argument, so its first byte does not have its mark
    rw [addrRange_wraps hw] at hvisited
    have hfirst := htainted.argv i hi (argument s (s.load argvAddr) i)
      ⟨length, hlength, 0, hpos, (BitVec.add_zero _).symm⟩
    rw [TaintGenerator.first_mark (by omega)] at hfirst
    obtain ⟨j, -, ha, hm⟩ | ⟨-, ⟨-, hm⟩ | hm⟩ := hmem (argument s (s.load argvAddr) i)
    · rw [hm, Option.some.injEq, Set.singleton_eq_singleton_iff] at hfirst
      obtain rfl : j = i := by omega
      rw [hvisited] at ha
      exact List.not_mem_nil ha
    · rw [hm, Option.some.injEq, Set.singleton_eq_singleton_iff] at hfirst
      omega
    · rw [hm] at hfirst
      cases hfirst
  · -- the pointer was visited, and is no byte of the arguments
    have hvis : elementAt (s.load argvAddr) i ∈ visitedFor s (s.load argvAddr) i := by
      rw [hvisited, mem_addrRange_bytes hw]
      exact start_mem_bytesAt hlen
    have harray : elementAt (s.load argvAddr) i ∈
        arrayAt (s.load argvAddr) (argumentCount s argcAddr) := ⟨4 * i, by omega, rfl⟩
    have hsame := htainted.others (elementAt (s.load argvAddr) i)
      (Set.disjoint_right.1 h.argc_array harray) fun j hj ⟨l, hl, k, hk, he⟩ =>
        Set.disjoint_left.1 (h.array_string j hj) harray ⟨l, hl, k, hk.le, he⟩
    obtain ⟨j, -, -, hm⟩ | ⟨hnone, -⟩ := hmem (elementAt (s.load argvAddr) i)
    · rw [TaintState.taint_mem, hsame] at hm
      cases hm
    · exact hnone i hi hvis

/-- The arguments are tainted exactly when they are all empty and `argc` is not in the last bytes. -/
theorem arguments_tainted_iff (h : ArgumentLayout s argcAddr argvAddr)
    (hmax : argumentCount s argcAddr < max) :
    TaintsArguments s argcAddr argvAddr max ↔
      argcAddr.toNat + 4 ≠ 2 ^ 32 ∧ ∀ i < argumentCount s argcAddr,
        strlen s.mem (argument s (s.load argvAddr) i) = some 0 := by
  constructor
  · intro ht
    exact ⟨argc_of_taintsArguments ht h hmax, empty_of_taintsArguments ht h hmax⟩
  · rintro ⟨hargc, hempty⟩
    exact taintsArguments_of_empty h hmax hargc hempty

end

/-! ## One argument -/

/-- `argc` at `0x100`, `argv` at `0x104`, its one pointer at `0x200`, and the string "a" at `0x300`. -/
def oneArgument : MachineState where
  reg _ := 0
  eflags := ⟨false, false, false, false, false, false⟩
  mem a := if a = 0x100 then 1 else if a = 0x105 then 2 else if a = 0x201 then 3
    else if a = 0x300 then 0x61 else 0

theorem oneArgument_count : argumentCount oneArgument 0x100 = 1 := by decide

theorem oneArgument_argv : oneArgument.load 0x104 = 0x200 := by decide

theorem oneArgument_strlen :
    strlen oneArgument.mem (argument oneArgument 0x200 0) = some 1 := by
  rw [strlen, show (2 : Nat) ^ 32 = 2 ^ 32 - 2 + 1 + 1 by norm_num]
  rfl

/-- Sets on the two sides of an address. -/
theorem disjoint_of_lt {A B : Set (ADDRINT 32)} (m : Nat) (hA : ∀ a ∈ A, a.toNat < m)
    (hB : ∀ a ∈ B, m ≤ a.toNat) : Disjoint A B :=
  Set.disjoint_left.2 fun a ha hb => Nat.not_le.2 (hA a ha) (hB a hb)

theorem toNat_byte {start : ADDRINT 32} {k m : Nat} (hm : start.toNat = m) (h : m + k < 2 ^ 32) :
    (start + BitVec.ofNat 32 k).toNat = m + k := by
  rw [BitVec.toNat_add, BitVec.toNat_ofNat]
  omega

theorem oneArgument_layout : ArgumentLayout oneArgument 0x100 0x104 := by
  have hargc : ∀ a ∈ bytesAt (0x100 : ADDRINT 32) 4, a.toNat < 0x200 := by
    rintro a ⟨k, hk, rfl⟩
    have hk : k < 4 := hk
    rw [@toNat_byte _ k 0x100 rfl (by omega)]
    omega
  have harray : ∀ a ∈ arrayAt 0x200 1, 0x200 ≤ a.toNat ∧ a.toNat < 0x300 := by
    rintro a ⟨k, hk, rfl⟩
    rw [@toNat_byte _ k 0x200 rfl (by omega)]
    omega
  have hstring : ∀ a ∈ stringAt oneArgument 0x200 0, 0x300 ≤ a.toNat := by
    rintro a ⟨length, hlength, k, hk, rfl⟩
    obtain rfl := Option.some.inj (oneArgument_strlen.symm.trans hlength)
    rw [@toNat_byte _ k 0x300 (by decide) (by omega)]
    omega
  have hzero : ∀ {i : Nat}, i < argumentCount oneArgument 0x100 → i = 0 := fun hi => by
    rw [oneArgument_count] at hi
    omega
  refine ⟨by decide, ?_, fun i hi => ?_, ?_, fun i hi => ?_, fun i hi => ?_,
    fun i hi j hj hne => absurd ((hzero hi).trans (hzero hj).symm) hne⟩
  · rw [oneArgument_argv, oneArgument_count]
    decide
  · rw [oneArgument_argv, hzero hi]
    exact ⟨1, oneArgument_strlen, by decide⟩
  · rw [oneArgument_argv, oneArgument_count]
    exact disjoint_of_lt 0x200 hargc fun a ha => (harray a ha).1
  · rw [oneArgument_argv, hzero hi]
    exact disjoint_of_lt 0x200 hargc fun a ha => Nat.le_trans (by decide) (hstring a ha)
  · rw [oneArgument_argv, oneArgument_count, hzero hi]
    exact disjoint_of_lt 0x300 (fun a ha => (harray a ha).2) hstring

theorem arguments_tainted_iff_one :
    TaintsArguments oneArgument 0x100 0x104 16 ↔
      (0x100 : ADDRINT 32).toNat + 4 ≠ 2 ^ 32 ∧ ∀ i < argumentCount oneArgument 0x100,
        strlen oneArgument.mem (argument oneArgument (oneArgument.load 0x104) i) = some 0 :=
  arguments_tainted_iff oneArgument_layout (by decide)

/-- The program is called "a": the first byte of `argv` is tainted and that of the name is not. -/
theorem one_argument_not_tainted :
    ¬ ∀ (s : MachineState) (argcAddr argvAddr : ADDRINT 32) (max : Nat),
      ArgumentLayout s argcAddr argvAddr → argumentCount s argcAddr < max →
        TaintsArguments s argcAddr argvAddr max := by
  intro h
  have ht := h oneArgument 0x100 0x104 16 oneArgument_layout (by decide)
  have hempty := empty_of_taintsArguments ht oneArgument_layout (by decide) 0 (by decide)
  rw [oneArgument_argv, oneArgument_strlen] at hempty
  cases hempty

end Dytan
