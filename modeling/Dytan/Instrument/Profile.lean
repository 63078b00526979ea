import Dytan.Instrument.Run
import Dytan.Lib.Accumulator
import Dytan.Lib.Run

/-!
# Profiling of the opcodes (`dytan.cpp`, with `profiling_markop` on)

The analysis functions write the marks they load to the global `prof_stream`; a `SetTaintFor*` or
`ClearTaintFor*` call that is passed `to_profile` adds the active control sets and the opcode, counts
what `prof_stream` holds in `profilingMap` and empties `prof_stream`. `SetTaintForRegister` does none
of this for `ESP` and `EBP`, where it returns at once.

`Call.runProfiled` and `executeProfiled` are `Call.run` and `executeINS` with `prof_stream` and
`profilingMap`, which do not change what happens to the taint (`executeProfiled_taint`).
`executeProfiled_does`: on `prof_stream` and `profilingMap` an instruction does what the acts of its
calls do to an accumulator. `keys_own_iff`: the keys that the instructions of a run count are keys of
their own exactly when no call counts after a load that no call of its instruction counted.

Strings are lists of characters here.
-/

namespace Dytan

open TaintState Lib.Accumulator

variable {w : Nat}

/-- `bitset_str`. -/
def Bitset.str (set : Bitset) : List Char :=
  (List.range set.nbits).map fun i => if set.testBit i = some true then '1' else '0'

theorem Bitset.str_ne_nil {set : Bitset} (h : 0 < set.nbits) : set.str ≠ [] := by
  rw [Bitset.str, Ne, List.map_eq_nil_iff, List.range_eq_nil]
  omega

theorem Bitset.Ok.str_length {set : Bitset} {n : Nat} (h : set.Ok n) : set.str.length = n := by
  rw [Bitset.str, List.length_map, List.length_range, h.nbits]

theorem Bitset.Ok.str_eq {set : Bitset} {n : Nat} (h : set.Ok n) :
    set.str = (List.range n).map fun i => if set.bit i then '1' else '0' := by
  rw [Bitset.str, h.nbits]
  refine List.map_congr_left fun i hi => ?_
  simp only [Bitset.testBit_eq (h.nbits ▸ List.mem_range.1 hi), Option.some.injEq]

/-- `word_size`; `main` sets `word`. -/
def wordSize : Nat := 4

namespace TaintState

/-- The string of an entry of a taint map. -/
def entryStr : Option Bitset → List Char
  | some set => set.str
  | none => []

/-- What `TaintForMemory` writes to `prof_stream`: of each word the first byte, then the base and the
index register. -/
def memoryStr (st : TaintState w) (start size : ADDRINT w) (baseReg indexReg : REG) : List Char :=
  ((addrRange start (start + size)).zipIdx.flatMap fun byte =>
      if byte.2 % wordSize = 0 then entryStr (st.memTaintMap byte.1) else []) ++
    (if baseReg.valid then entryStr (st.regTaintMap baseReg) else []) ++
    if indexReg.valid then entryStr (st.regTaintMap indexReg) else []

/-- What a profiled call writes to `prof_stream`: the sets in `controlTaintMap` and the opcode. -/
def keySuffix (st : TaintState w) (opcode : Nat) : List Char :=
  st.controlTaintMap.toList.flatMap (·.2.str) ++ Nat.toDigits 10 opcode

end TaintState

structure Profiled (w : Nat) where
  taint : TaintState w
  profStream : List Char
  /-- 0 for a key that is not in the map. -/
  profilingMap : List Char → Nat

/-- `if (profiling_markop && to_profile)` in the functions that assign. -/
def Profiled.countKey (p : Profiled w) (opcode : Nat) (toProfile : Bool) : Profiled w :=
  if toProfile then
    let key := p.profStream ++ p.taint.keySuffix opcode
    { p with
      profilingMap := Function.update p.profilingMap key (p.profilingMap key + 1)
      profStream := [] }
  else p

/-- One inserted call, with the opcode and `to_profile`. -/
def Call.runProfiled (ctx : Context w) (opcode : Nat) (toProfile : Bool) (p : Profiled w) :
    Call w → Option (Profiled w)
  | .clearTaintSet set => some { p with taint := p.taint.clearTaintSet set }
  | .taintForRegister reg set => do
    let taint ← p.taint.taintForRegister reg set
    return { p with taint, profStream := p.profStream ++ (taint.scratch set).str }
  | .taintForMemory ea baseReg indexReg set => do
    let taint ← p.taint.taintForMemory (ctx.readEA ea) ctx.memoryReadSize baseReg indexReg set
    let str := p.taint.memoryStr (ctx.readEA ea) ctx.memoryReadSize baseReg indexReg
    return { p with taint, profStream := p.profStream ++ str }
  | .setTaintForRegister dest args =>
    if dest = .ESP ∨ dest = .EBP then some p
    else do
      let taint ← p.taint.setTaintForRegister dest (args.map p.taint.scratch)
      return { p.countKey opcode toProfile with taint }
  | .setTaintForMemory args => do
    let taint ← p.taint.setTaintForMemory ctx.memoryWriteEA ctx.memoryWriteSize
      (args.map p.taint.scratch)
    return { p.countKey opcode toProfile with taint }
  | .clearTaintForRegister reg => do
    let taint ← p.taint.clearTaintForRegister reg
    return { p.countKey opcode toProfile with taint }
  | .clearTaintForMemory => do
    let taint ← p.taint.clearTaintForMemory ctx.memoryWriteEA ctx.memoryWriteSize
    return { p.countKey opcode toProfile with taint }
  | .ifThen check call =>
    if check.holds ctx then call.runProfiled ctx opcode toProfile p else some p

/-! ## The argument `to_profile` -/

/-- `to_profile` of the last calls of a handler that runs to its end, last call first; the calls
before them pass 1. -/
def lastToProfile (ins : INS) : List Bool :=
  match ins.opcode with
  | .ADC | .SBB | .ADD | .OR | .AND | .SUB | .PSUBB | .XOR | .XADD
  | .SAR | .SHL | .SHR | .SHLD | .SHRD | .RDTSC => [false]
  | .MUL => [false, false]
  | .IMUL => if ins.explicitOperandCount = 1 then [false, false] else [false]
  | .DIV | .IDIV => [true, false]
  | .CPUID => [false, false, false]
  | .SCASB => if ins.repPrefix || ins.repnePrefix then [false] else []
  | _ => []

/-- The calls with `last` for the last of them, last call first, and 1 for the others. -/
def passLast (last : List Bool) (calls : List (Call w)) : List (Call w × Bool) :=
  (calls.reverse.zip (last ++ List.replicate calls.length true)).reverse

/-- The calls inserted for an instruction, with the `to_profile` they pass. -/
def profiledCalls (ins : INS) : List (Call w × Bool) :=
  match (dataflow ins : Insertion w Unit).exit with
  | .ok _ => passLast (lastToProfile ins) (dataflow ins).calls
  | .error _ => passLast [] (dataflow ins).calls

/-! ## Runs -/

def runCallsProfiled (ctx : Context w) (opcode : Nat) (p : Profiled w)
    (calls : List (Call w × Bool)) : Option (Profiled w) :=
  calls.foldlM (fun p c => c.1.runProfiled ctx opcode c.2 p) p

/-- The calls inserted for one instruction; `number` gives `INS_Opcode`. -/
def executeProfiled (number : XED_ICLASS → Nat) (p : Profiled w) (e : Executed w) :
    Option (Profiled w) :=
  match (dataflow e.ins : Insertion w Unit).exit with
  | .error (.aborted _) => none
  | _ => runCallsProfiled e.ctx (number e.ins.opcode) p (profiledCalls e.ins)

/-- An instruction, or the rest of the tool, which changes the taint between two instructions
(`PushControl`, `PopControl`, the system call monitor) and does not write to `prof_stream`. -/
inductive ProfiledEvent (w : Nat)
  | ins (e : Executed w)
  | tool (taint : TaintState w)

def profiledStep (number : XED_ICLASS → Nat) (p : Profiled w) :
    ProfiledEvent w → Option (Profiled w)
  | .ins e => executeProfiled number p e
  | .tool taint => some { p with taint }

/-! ## What an instruction does to the accumulator -/

/-- What a call does to `prof_stream`, from the taint `st` to `st'`. A profiled call that returns at
once ends a turn. -/
def Call.acts (ctx : Context w) (opcode : Nat) (toProfile : Bool) (st st' : TaintState w) :
    Call w → List (Act Char)
  | .clearTaintSet _ => []
  | .taintForRegister _ set => [.put (st'.scratch set).str]
  | .taintForMemory ea baseReg indexReg _ =>
    [.put (st.memoryStr (ctx.readEA ea) ctx.memoryReadSize baseReg indexReg)]
  | .setTaintForRegister dest _ =>
    if toProfile then
      if dest = .ESP ∨ dest = .EBP then [.cut] else [.key (st.keySuffix opcode)]
    else []
  | .setTaintForMemory _ | .clearTaintForRegister _ | .clearTaintForMemory =>
    if toProfile then [.key (st.keySuffix opcode)] else []
  | .ifThen check call => if check.holds ctx then call.acts ctx opcode toProfile st st' else []

/-- The acts of a list of calls, a turn. -/
def actsFrom (ctx : Context w) (opcode : Nat) (st : TaintState w) :
    List (Call w × Bool) → List (Act Char)
  | [] => [.cut]
  | c :: calls =>
    match c.1.run ctx st with
    | some st' => c.1.acts ctx opcode c.2 st st' ++ actsFrom ctx opcode st' calls
    | none => []

/-- `p'` is `p` after the acts. -/
structure Profiled.Does (p p' : Profiled w) (acts : List (Act Char)) : Prop where
  profStream : p'.profStream = held p.profStream acts
  profilingMap : ∀ key,
    p'.profilingMap key = p.profilingMap key + (keys p.profStream acts).count key

namespace Profiled.Does

variable {p p₁ p₂ : Profiled w} {acts acts' : List (Act Char)}

theorem of_eq (hstream : p₁.profStream = p.profStream) (hmap : p₁.profilingMap = p.profilingMap) :
    p.Does p₁ [] :=
  ⟨hstream, fun key => by rw [hmap]; rfl⟩

theorem append (h : p.Does p₁ acts) (h' : p₁.Does p₂ acts') : p.Does p₂ (acts ++ acts') where
  profStream := by rw [h'.profStream, h.profStream, held_append]
  profilingMap key := by
    rw [h'.profilingMap, h.profilingMap, h.profStream, keys_append, List.count_append, Nat.add_assoc]

/-- The block `if (profiling_markop && to_profile)`. -/
theorem countKey (opcode : Nat) (toProfile : Bool) (taint : TaintState w) :
    p.Does { p.countKey opcode toProfile with taint }
      (if toProfile then [.key (p.taint.keySuffix opcode)] else []) := by
  cases toProfile with
  | false => exact of_eq rfl rfl
  | true =>
    refine ⟨rfl, fun key => ?_⟩
    simp only [Profiled.countKey, if_true, keys, List.count_singleton, Function.update_apply,
      beq_iff_eq, eq_comm (a := key)]
    split_ifs with h
    · rw [h]
    · rfl

end Profiled.Does

theorem Call.runProfiled_taint (ctx : Context w) (opcode : Nat) (toProfile : Bool) (p : Profiled w)
    (c : Call w) : (c.runProfiled ctx opcode toProfile p).map (·.taint) = c.run ctx p.taint := by
  induction c with
  | clearTaintSet set => rfl
  | taintForRegister reg set =>
    simp only [Call.runProfiled, Call.run]
    cases p.taint.taintForRegister reg set <;> rfl
  | taintForMemory ea baseReg indexReg set =>
    simp only [Call.runProfiled, Call.run]
    cases p.taint.taintForMemory _ _ baseReg indexReg set <;> rfl
  | setTaintForRegister dest args =>
    simp only [Call.runProfiled, Call.run]
    split
    · next h => rw [TaintState.setTaintForRegister, if_pos h]; rfl
    · cases p.taint.setTaintForRegister dest (args.map p.taint.scratch) <;> rfl
  | setTaintForMemory args =>
    simp only [Call.runProfiled, Call.run]
    cases p.taint.setTaintForMemory _ _ (args.map p.taint.scratch) <;> rfl
  | clearTaintForRegister reg =>
    simp only [Call.runProfiled, Call.run]
    cases p.taint.clearTaintForRegister reg <;> rfl
  | clearTaintForMemory =>
    simp only [Call.runProfiled, Call.run]
    cases p.taint.clearTaintForMemory _ _ <;> rfl
  | ifThen check call ih =>
    simp only [Call.runProfiled, Call.run]
    split
    · exact ih
    · rfl

theorem Call.runProfiled_does {ctx : Context w} {opcode : Nat} {toProfile : Bool}
    {p p' : Profiled w} {c : Call w} (h : c.runProfiled ctx opcode toProfile p = some p') :
    p.Does p' (c.acts ctx opcode toProfile p.taint p'.taint) := by
  induction c with
  | clearTaintSet set =>
    cases h
    exact .of_eq rfl rfl
  | taintForRegister reg set =>
    obtain ⟨taint, -, h⟩ := Option.bind_eq_some_iff.1 h
    cases h
    exact ⟨rfl, fun key => rfl⟩
  | taintForMemory ea baseReg indexReg set =>
    obtain ⟨taint, -, h⟩ := Option.bind_eq_some_iff.1 h
    cases h
    exact ⟨rfl, fun key => rfl⟩
  | setTaintForRegister dest args =>
    by_cases hd : dest = .ESP ∨ dest = .EBP
    · rw [Call.runProfiled, if_pos hd] at h
      cases h
      rw [Call.acts, if_pos hd]
      cases toProfile <;> exact ⟨rfl, fun key => rfl⟩
    · rw [Call.runProfiled, if_neg hd] at h
      obtain ⟨taint, -, h⟩ := Option.bind_eq_some_iff.1 h
      cases h
      rw [Call.acts, if_neg hd]
      exact .countKey opcode toProfile taint
  | setTaintForMemory args =>
    obtain ⟨taint, -, h⟩ := Option.bind_eq_some_iff.1 h
    cases h
    exact .countKey opcode toProfile taint
  | clearTaintForRegister reg =>
    obtain ⟨taint, -, h⟩ := Option.bind_eq_some_iff.1 h
    cases h
    exact .countKey opcode toProfile taint
  | clearTaintForMemory =>
    obtain ⟨taint, -, h⟩ := Option.bind_eq_some_iff.1 h
    cases h
    exact .countKey opcode toProfile taint
  | ifThen check call ih =>
    simp only [Call.runProfiled, Call.acts] at h ⊢
    split_ifs at h ⊢
    · exact ih h
    · cases h
      exact .of_eq rfl rfl

theorem passLast_calls (last : List Bool) (calls : List (Call w)) :
    (passLast last calls).map Prod.fst = calls := by
  rw [passLast, List.map_reverse, List.map_fst_zip (by simp), List.reverse_reverse]

/-- The calls of an instruction, without `to_profile`. -/
theorem profiledCalls_calls (ins : INS) :
    (profiledCalls ins : List (Call w × Bool)).map Prod.fst = (dataflow ins).calls := by
  unfold profiledCalls
  split <;> exact passLast_calls ..

section
variable {p p' : Profiled w}

theorem runCallsProfiled_taint (ctx : Context w) (opcode : Nat) (calls : List (Call w × Bool))
    (p : Profiled w) :
    (runCallsProfiled ctx opcode p calls).map (·.taint) =
      runCalls ctx p.taint (calls.map Prod.fst) := by
  induction calls generalizing p with
  | nil => rfl
  | cons c calls ih =>
    have hhead := c.1.runProfiled_taint ctx opcode c.2 p
    rw [runCallsProfiled, List.foldlM_cons, List.map_cons, runCalls, List.foldlM_cons, ← hhead]
    cases c.1.runProfiled ctx opcode c.2 p with
    | none => rfl
    | some p₁ => exact ih p₁

theorem runCallsProfiled_does {ctx : Context w} {opcode : Nat} {calls : List (Call w × Bool)}
    (h : runCallsProfiled ctx opcode p calls = some p') :
    p.Does p' (actsFrom ctx opcode p.taint calls) := by
  induction calls generalizing p with
  | nil =>
    cases h
    exact ⟨rfl, fun key => rfl⟩
  | cons c calls ih =>
    rw [runCallsProfiled, List.foldlM_cons] at h
    obtain ⟨p₁, hc, h⟩ := Option.bind_eq_some_iff.1 h
    have hrun : c.1.run ctx p.taint = some p₁.taint := by
      rw [← Call.runProfiled_taint, hc, Option.map_some]
    rw [actsFrom, hrun]
    exact (Call.runProfiled_does hc).append (ih h)

end

/-- The acts of an instruction. -/
def profiledActs (number : XED_ICLASS → Nat) (st : TaintState w) (e : Executed w) :
    List (Act Char) :=
  actsFrom e.ctx (number e.ins.opcode) st (profiledCalls e.ins)

section
variable {number : XED_ICLASS → Nat} {p p' : Profiled w} {e : Executed w}

/-- Profiling does not change what an instruction does to the taint. -/
theorem executeProfiled_taint (number : XED_ICLASS → Nat) (p : Profiled w) (e : Executed w) :
    (executeProfiled number p e).map (·.taint) = executeINS p.taint e := by
  have hcalls := runCallsProfiled_taint e.ctx (number e.ins.opcode) (profiledCalls e.ins) p
  rw [profiledCalls_calls] at hcalls
  unfold executeProfiled executeINS
  rcases (dataflow e.ins : Insertion w Unit).exit with (_ | message) | _
  · exact hcalls
  · rfl
  · exact hcalls

theorem executeProfiled_does (h : executeProfiled number p e = some p') :
    p.Does p' (profiledActs number p.taint e) := by
  unfold executeProfiled at h
  split at h
  · cases h
  · exact runCallsProfiled_does h

/-- No text of its turn is left after an instruction. -/
theorem turnText_actsFrom {ctx : Context w} {opcode : Nat} {st st' : TaintState w}
    {calls : List (Call w × Bool)} (h : runCalls ctx st (calls.map Prod.fst) = some st')
    (text : List Char) : turnText text (actsFrom ctx opcode st calls) = [] := by
  induction calls generalizing st text with
  | nil => rfl
  | cons c calls ih =>
    rw [List.map_cons, runCalls, List.foldlM_cons] at h
    obtain ⟨st₁, hc, h⟩ := Option.bind_eq_some_iff.1 h
    rw [actsFrom, hc, turnText_append]
    exact ih h _

/-! ## Keys of one instruction -/

/-- What the calls of a run do to `prof_stream`, event by event. -/
def eventActs (number : XED_ICLASS → Nat) (p : Profiled w) : ProfiledEvent w → List (Act Char)
  | .ins e => profiledActs number p.taint e
  | .tool _ => []

/-- The keys an instruction counts are those of its own turns: the mark strings that its calls loaded
since its previous profiled call, the active control sets and the opcode. -/
def KeysOwn (number : XED_ICLASS → Nat) (p : Profiled w) : ProfiledEvent w → Prop
  | .ins e => ∀ p', executeProfiled number p e = some p' → ∀ key, p'.profilingMap key =
      p.profilingMap key + (turnKeys [] (profiledActs number p.taint e)).count key
  | .tool _ => True

/-- `lost` is what earlier instructions left in `prof_stream`. -/
theorem keysOwn_ins (h : executeProfiled number p e = some p') : KeysOwn number p (.ins e) ↔
    keys p.profStream (profiledActs number p.taint e) =
      turnKeys [] (profiledActs number p.taint e) := by
  have hdoes := executeProfiled_does h
  have hperm := @keys_perm_iff _ p.profStream [] (profiledActs number p.taint e)
  rw [List.append_nil] at hperm
  rw [← hperm, List.perm_iff_count, KeysOwn]
  constructor
  · intro hown key
    have := (hdoes.profilingMap key).symm.trans (hown p' h key)
    exact Nat.add_left_cancel this
  · intro hcount p₁ h₁ key
    obtain rfl := Option.some.inj (h.symm.trans h₁)
    rw [hdoes.profilingMap, hcount]

variable {events : List (ProfiledEvent w)}

theorem along_keysOwn_iff (hr : Lib.run (profiledStep number) p events = some p') :
    Lib.Along (profiledStep number) (KeysOwn number) p events ↔
      keys p.profStream (Lib.emitted (profiledStep number) (eventActs number) p events) =
        turnKeys [] (Lib.emitted (profiledStep number) (eventActs number) p events) := by
  induction events generalizing p with
  | nil => exact iff_of_true Lib.Along.nil rfl
  | cons event events ih =>
    rw [Lib.run_cons] at hr
    obtain ⟨p₁, hs, hr⟩ := Option.bind_eq_some_iff.1 hr
    rw [Lib.Along.cons hs, Lib.emitted_cons_of hs, ih hr]
    cases event with
    | tool taint =>
      cases hs
      exact iff_of_eq (true_and _)
    | ins e =>
      have hrun : executeINS p.taint e = some p₁.taint := by
        rw [← executeProfiled_taint number, show executeProfiled number p e = some p₁ from hs,
          Option.map_some]
      have hturn : turnText [] (profiledActs number p.taint e) = [] := by
        have hcalls := executeINS_runCalls hrun
        rw [← profiledCalls_calls] at hcalls
        exact turnText_actsFrom hcalls []
      rw [keysOwn_ins hs, (executeProfiled_does hs).profStream, eventActs, keys_append,
        turnKeys_append, hturn]
      constructor
      · rintro ⟨hhead, htail⟩
        rw [hhead, htail]
      · intro h
        exact List.append_inj h (keys_length.trans turnKeys_length.symm)

/-- Every instruction of a run counts keys of its own exactly when no call of the run counts after a
turn (the calls of an instruction up to the end, or up to a profiled call that returns at once) that
has loaded mark strings and not counted them. -/
theorem keys_own_iff (hr : Lib.run (profiledStep number) p events = some p')
    (h : p.profStream = []) :
    Lib.Along (profiledStep number) (KeysOwn number) p events ↔
      Settled [] (Lib.emitted (profiledStep number) (eventActs number) p events) := by
  rw [along_keysOwn_iff hr, h]
  have := @keys_eq_turnKeys_iff _ [] []
    (Lib.emitted (profiledStep number) (eventActs number) p events)
  simpa using this

end

section

/-- `SUB ESP, 16`. -/
private def subESP : INS where
  opcode := .SUB
  operands := [{ kind := .reg .ESP }, { kind := .immediate }]

/-- `MOV EAX, EBX`. -/
private def movEAX : INS where
  opcode := .MOV
  operands := [{ kind := .reg .EAX }, { kind := .reg .EBX }]

private def registersOnly (ins : INS) : ProfiledEvent 32 :=
  .ins ⟨ins, ⟨0, 0, 0, 0, 0, fun _ => 0, fun _ => 0⟩⟩

private def profiledStart : Profiled 32 := ⟨.initial 4096, [], fun _ => 0⟩

theorem keys_own_iff_mov : ∃ p', Lib.run (profiledStep fun _ => 7) profiledStart
      [registersOnly movEAX] = some p' ∧
    (Lib.Along (profiledStep fun _ => 7) (KeysOwn fun _ => 7) profiledStart [registersOnly movEAX] ↔
      Settled [] (Lib.emitted (profiledStep fun _ => 7) (eventActs fun _ => 7) profiledStart
        [registersOnly movEAX])) :=
  ⟨_, rfl, keys_own_iff rfl rfl⟩

/-- The marks that `SUB ESP, 16` loads are part of the key of `MOV EAX, EBX`. -/
theorem stack_marks_in_next_key : ∃ p', Lib.run (profiledStep fun _ => 7) profiledStart
      [registersOnly subESP, registersOnly movEAX] = some p' ∧
    ¬ Lib.Along (profiledStep fun _ => 7) (KeysOwn fun _ => 7) profiledStart
      [registersOnly subESP, registersOnly movEAX] := by
  refine ⟨_, rfl, fun hown => ?_⟩
  -- nothing counts what `SUB` loads: its assignment is to `ESP`, that to `EFLAGS` is not profiled
  obtain ⟨loaded, loaded', key, hloaded, hacts⟩ : ∃ loaded loaded' key : List Char, loaded ≠ [] ∧
      Lib.emitted (profiledStep fun _ => 7) (eventActs fun _ => 7) profiledStart
        [registersOnly subESP, registersOnly movEAX] =
          [.put loaded, .cut, .cut, .put loaded', .key key, .cut] :=
    ⟨(Bitset.init 4096).reset.str, _, _, Bitset.str_ne_nil (by decide), rfl⟩
  have hkeys := (along_keysOwn_iff rfl).1 hown
  rw [hacts] at hkeys
  simp only [profiledStart, keys, turnKeys, List.nil_append, List.cons.injEq,
    List.append_left_eq_self, and_true, List.append_assoc] at hkeys
  exact hloaded hkeys

end

end Dytan
