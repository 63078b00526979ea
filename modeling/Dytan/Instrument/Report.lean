import Dytan.Instrument.ProfileKeys
import Dytan.Lib.OrderedMap
import Dytan.Tool.ConfigParser
import Mathlib.Algebra.BigOperators.Group.List.Defs
import Mathlib.Algebra.Group.Action.Defs
import Mathlib.Data.Char
import Mathlib.Data.List.Lex

/-!
# The report of the profiling (`PrintProfilingResult`)

With `markop` a profiled call counts its mark operation: the sets that were loaded before it, the
sets in `controlTaintMap` and its opcode. `markOperations` are the mark operations of a run, and the
keys that the run counts are theirs (`emitted_keys`). When the program ends, `PrintProfilingResult`
writes a line for each key to `prof.log`.

`report_read`: when no opcode has more digits than there are marks, `prof.log` says exactly which
mark operations the run did and how often each, and `readReport` reads it back. With `marks` it is
empty (`report_lost`): the second `open` of `main` fails, and nothing is written from then on.
-/

namespace Dytan

open TaintState Lib.Accumulator

variable {w n : Nat}

/-! ## Mark operations -/

structure MarkOperation where
  sets : List Bitset
  opcode : Nat
deriving DecidableEq, Repr

namespace MarkOperation

/-- The key that is counted for it. -/
def key (operation : MarkOperation) : List Char := markKey operation.sets operation.opcode

/-- The sets have `n` marks and the opcode is less than `last`. -/
structure Ok (n last : Nat) (operation : MarkOperation) : Prop where
  sets : ∀ set ∈ operation.sets, set.Ok n
  opcode : operation.opcode < last

end MarkOperation

/-- An act of a call on `prof_stream`, with the sets it writes. -/
inductive MarkAct
  | load (sets : List Bitset)
  | count (control : List Bitset) (opcode : Nat)
  | leave

namespace MarkAct

def act : MarkAct → Act Char
  | .load sets => .put (sets.flatMap Bitset.str)
  | .count control opcode => .key (markKey control opcode)
  | .leave => .cut

/-- The mark operations that are counted, when `loaded` is what `prof_stream` holds. -/
def operations : List Bitset → List MarkAct → List MarkOperation
  | _, [] => []
  | loaded, .load sets :: acts => operations (loaded ++ sets) acts
  | loaded, .count control opcode :: acts => ⟨loaded ++ control, opcode⟩ :: operations [] acts
  | loaded, .leave :: acts => operations loaded acts

theorem keys_operations (loaded : List Bitset) (acts : List MarkAct) :
    keys (loaded.flatMap Bitset.str) (acts.map act) =
      (operations loaded acts).map MarkOperation.key := by
  induction acts generalizing loaded with
  | nil => rfl
  | cons a acts ih =>
    cases a with
    | load sets =>
      rw [List.map_cons, act, keys, ← List.flatMap_append, ih, operations]
    | count control opcode =>
      have hrest : keys [] (acts.map act) = (operations [] acts).map MarkOperation.key := ih []
      rw [List.map_cons, act, keys, hrest, operations, List.map_cons, MarkOperation.key, markKey,
        markKey, List.flatMap_append, List.append_assoc]
    | leave => rw [List.map_cons, act, keys, ih, operations]

/-- The sets and the opcodes that are written. -/
def Ok (n last : Nat) : MarkAct → Prop
  | .load sets => ∀ set ∈ sets, set.Ok n
  | .count control opcode => (∀ set ∈ control, set.Ok n) ∧ opcode < last
  | .leave => True

theorem operations_ok {last : Nat} {loaded : List Bitset} {acts : List MarkAct}
    (hloaded : ∀ set ∈ loaded, set.Ok n) (hacts : ∀ a ∈ acts, a.Ok n last) :
    ∀ operation ∈ operations loaded acts, operation.Ok n last := by
  induction acts generalizing loaded with
  | nil => simp [operations]
  | cons a acts ih =>
    obtain ⟨ha, hrest⟩ := List.forall_mem_cons.1 hacts
    cases a with
    | load sets => exact ih (List.forall_mem_append.2 ⟨hloaded, ha⟩) hrest
    | count control opcode =>
      refine List.forall_mem_cons.2 ⟨⟨?_, ha.2⟩, ih (by simp) hrest⟩
      exact List.forall_mem_append.2 ⟨hloaded, ha.1⟩
    | leave => exact ih hloaded hrest

end MarkAct

/-! ## The mark operations of a run -/

namespace TaintState

/-- What `TaintForMemory` writes to `prof_stream`. -/
def memorySets (st : TaintState w) (start size : ADDRINT w) (baseReg indexReg : REG) :
    List Bitset :=
  ((addrRange start (start + size)).zipIdx.flatMap fun byte =>
      if byte.2 % wordSize = 0 then (st.memTaintMap byte.1).toList else []) ++
    (if baseReg.valid then (st.regTaintMap baseReg).toList else []) ++
    if indexReg.valid then (st.regTaintMap indexReg).toList else []

def controlSets (st : TaintState w) : List Bitset := st.controlTaintMap.toList.map (·.2)

theorem entryStr_eq (entry : Option Bitset) : entryStr entry = entry.toList.flatMap Bitset.str := by
  cases entry <;> simp [entryStr]

theorem memorySets_str (st : TaintState w) (start size : ADDRINT w) (baseReg indexReg : REG) :
    (st.memorySets start size baseReg indexReg).flatMap Bitset.str =
      st.memoryStr start size baseReg indexReg := by
  have hite : ∀ (c : Prop) [Decidable c] (entry : Option Bitset),
      (if c then entry.toList else []).flatMap Bitset.str = if c then entryStr entry else [] := by
    intro c _ entry
    rw [entryStr_eq]
    split <;> rfl
  simp only [memorySets, memoryStr, List.flatMap_append, List.flatMap_assoc, hite]

theorem controlSets_str (st : TaintState w) (opcode : Nat) :
    markKey st.controlSets opcode = st.keySuffix opcode := by
  rw [markKey, keySuffix, controlSets, List.flatMap_map]

theorem WidthOk.memorySets {st : TaintState w} (h : st.WidthOk n) (start size : ADDRINT w)
    (baseReg indexReg : REG) : ∀ set ∈ st.memorySets start size baseReg indexReg, set.Ok n := by
  have hreg : ∀ reg, ∀ set ∈ (if reg.valid then (st.regTaintMap reg).toList else []), set.Ok n := by
    intro reg set hset
    split at hset
    · exact h.reg reg set (Option.mem_toList.1 hset)
    · cases hset
  refine List.forall_mem_append.2 ⟨List.forall_mem_append.2 ⟨?_, hreg _⟩, hreg _⟩
  intro set hset
  obtain ⟨byte, -, hset⟩ := List.mem_flatMap.1 hset
  split at hset
  · exact h.mem byte.1 set (Option.mem_toList.1 hset)
  · cases hset

theorem WidthOk.controlSets {st : TaintState w} (h : st.WidthOk n) :
    ∀ set ∈ st.controlSets, set.Ok n := by
  intro set hset
  obtain ⟨e, he, rfl⟩ := List.mem_map.1 hset
  exact h.control e.1 e.2 (Std.ExtTreeMap.mem_toList_iff_getElem?_eq_some.1 he)

end TaintState

/-- What a call does to `prof_stream`, from the taint `st` to `st'`. -/
def Call.markActs (ctx : Context w) (opcode : Nat) (toProfile : Bool) (st st' : TaintState w) :
    Call w → List MarkAct
  | .clearTaintSet _ => []
  | .taintForRegister _ set => [.load [st'.scratch set]]
  | .taintForMemory ea baseReg indexReg _ =>
    [.load (st.memorySets (ctx.readEA ea) ctx.memoryReadSize baseReg indexReg)]
  | .setTaintForRegister dest _ =>
    if toProfile then
      if dest = .ESP ∨ dest = .EBP then [.leave] else [.count st.controlSets opcode]
    else []
  | .setTaintForMemory _ | .clearTaintForRegister _ | .clearTaintForMemory =>
    if toProfile then [.count st.controlSets opcode] else []
  | .ifThen check call => if check.holds ctx then call.markActs ctx opcode toProfile st st' else []

def markActsFrom (ctx : Context w) (opcode : Nat) (st : TaintState w) :
    List (Call w × Bool) → List MarkAct
  | [] => [.leave]
  | c :: calls =>
    match c.1.run ctx st with
    | some st' => c.1.markActs ctx opcode c.2 st st' ++ markActsFrom ctx opcode st' calls
    | none => []

/-- What an event of a run does to `prof_stream`. -/
def eventMarkActs (number : XED_ICLASS → Nat) (p : Profiled w) : ProfiledEvent w → List MarkAct
  | .ins e => markActsFrom e.ctx (number e.ins.opcode) p.taint (profiledCalls e.ins)
  | .tool _ => []

/-- The mark operations that a run counts, in order. -/
def markOperations (number : XED_ICLASS → Nat) (p : Profiled w) (events : List (ProfiledEvent w)) :
    List MarkOperation :=
  MarkAct.operations [] (Lib.emitted (profiledStep number) (eventMarkActs number) p events)

theorem Call.acts_eq (ctx : Context w) (opcode : Nat) (toProfile : Bool) (st st' : TaintState w)
    (c : Call w) :
    c.acts ctx opcode toProfile st st' =
      (c.markActs ctx opcode toProfile st st').map MarkAct.act := by
  induction c with
  | clearTaintSet set => rfl
  | taintForRegister reg set => simp [Call.acts, Call.markActs, MarkAct.act]
  | taintForMemory ea baseReg indexReg set =>
    simp only [Call.acts, Call.markActs, List.map_singleton, MarkAct.act, memorySets_str]
  | setTaintForRegister dest args =>
    simp only [Call.acts, Call.markActs, ← controlSets_str]
    split_ifs <;> rfl
  | setTaintForMemory args =>
    simp only [Call.acts, Call.markActs, ← controlSets_str]
    split_ifs <;> rfl
  | clearTaintForRegister reg =>
    simp only [Call.acts, Call.markActs, ← controlSets_str]
    split_ifs <;> rfl
  | clearTaintForMemory =>
    simp only [Call.acts, Call.markActs, ← controlSets_str]
    split_ifs <;> rfl
  | ifThen check call ih =>
    simp only [Call.acts, Call.markActs, ih]
    split_ifs <;> rfl

theorem actsFrom_eq (ctx : Context w) (opcode : Nat) (st : TaintState w)
    (calls : List (Call w × Bool)) :
    actsFrom ctx opcode st calls = (markActsFrom ctx opcode st calls).map MarkAct.act := by
  induction calls generalizing st with
  | nil => rfl
  | cons c calls ih =>
    rw [actsFrom, markActsFrom]
    cases c.1.run ctx st with
    | none => rfl
    | some st' => simp only [Call.acts_eq, ih, List.map_append]

section
variable {number : XED_ICLASS → Nat} {p p' : Profiled w} {events : List (ProfiledEvent w)}

/-- The keys that a run counts are those of its mark operations. -/
theorem emitted_keys : keys [] (Lib.emitted (profiledStep number) (eventActs number) p events) =
    (markOperations number p events).map MarkOperation.key := by
  have hmap : Lib.emitted (profiledStep number) (eventActs number) p events =
      (Lib.emitted (profiledStep number) (eventMarkActs number) p events).map MarkAct.act := by
    induction events generalizing p with
    | nil => rfl
    | cons event events ih =>
      have hevent : eventActs number p event = (eventMarkActs number p event).map MarkAct.act := by
        cases event with
        | ins e => exact actsFrom_eq ..
        | tool taint => rfl
      rw [Lib.emitted, Lib.emitted, hevent, List.map_append]
      cases profiledStep number p event with
      | none => rfl
      | some p₁ => exact congrArg _ ih
  rw [hmap]
  exact MarkAct.keys_operations [] _

/-! ### Width -/

variable {last : Nat}

theorem Call.markActs_ok {ctx : Context w} {opcode : Nat} {toProfile : Bool}
    {st st' : TaintState w} (h : st.WidthOk n) (h' : st'.WidthOk n) (hop : opcode < last)
    (c : Call w) : ∀ a ∈ c.markActs ctx opcode toProfile st st', a.Ok n last := by
  have hcount : ∀ a ∈ if toProfile then [MarkAct.count st.controlSets opcode] else [],
      a.Ok n last := by
    intro a ha
    split at ha
    · exact List.mem_singleton.1 ha ▸ ⟨h.controlSets, hop⟩
    · cases ha
  induction c with
  | clearTaintSet set => exact fun a ha => absurd ha List.not_mem_nil
  | taintForRegister reg set =>
    intro a ha
    rw [List.mem_singleton.1 ha]
    exact List.forall_mem_singleton.2 (h'.scratch set)
  | taintForMemory ea baseReg indexReg set =>
    intro a ha
    rw [List.mem_singleton.1 ha]
    exact h.memorySets _ _ _ _
  | setTaintForRegister dest args =>
    intro a ha
    rw [Call.markActs] at ha
    split_ifs at ha hcount
    · exact List.mem_singleton.1 ha ▸ trivial
    · exact hcount a ha
    · cases ha
  | setTaintForMemory args => exact hcount
  | clearTaintForRegister reg => exact hcount
  | clearTaintForMemory => exact hcount
  | ifThen check call ih =>
    intro a ha
    rw [Call.markActs] at ha
    split at ha
    · exact ih a ha
    · cases ha

theorem markActsFrom_ok {ctx : Context w} {opcode : Nat} {st : TaintState w} (h : st.WidthOk n)
    (hop : opcode < last) (calls : List (Call w × Bool)) :
    ∀ a ∈ markActsFrom ctx opcode st calls, a.Ok n last := by
  induction calls generalizing st with
  | nil => exact List.forall_mem_singleton.2 trivial
  | cons c calls ih =>
    obtain ⟨st', hc, h', -⟩ := run_gives ctx h c.1
    rw [markActsFrom, hc]
    exact List.forall_mem_append.2 ⟨Call.markActs_ok h h' hop c.1, ih h'⟩

/-- The mark operations of a run are on sets of the tool's width. -/
theorem markOperations_ok (hnumber : ∀ opcode, number opcode < last) (hp : p.taint.WidthOk n)
    (htool : ∀ taint, ProfiledEvent.tool taint ∈ events → taint.WidthOk n)
    (h : Lib.run (profiledStep number) p events = some p') :
    ∀ operation ∈ markOperations number p events, operation.Ok n last := by
  refine MarkAct.operations_ok (by simp) ?_
  induction events generalizing p with
  | nil => simp [Lib.emitted]
  | cons event events ih =>
    rw [Lib.run_cons] at h
    obtain ⟨p₁, hs, hrest⟩ := Option.bind_eq_some_iff.1 h
    have htool' : ∀ taint, ProfiledEvent.tool taint ∈ events → taint.WidthOk n :=
      fun taint ht => htool taint (List.mem_cons_of_mem _ ht)
    rw [Lib.emitted_cons_of hs]
    cases event with
    | ins e =>
      have hrun : executeINS p.taint e = some p₁.taint := by
        rw [← executeProfiled_taint number, show executeProfiled number p e = some p₁ from hs,
          Option.map_some]
      obtain ⟨st, hst, hok, -⟩ := runCalls_gives e.ctx (dataflow e.ins).calls hp
      obtain rfl := Option.some.inj ((executeINS_runCalls hrun).symm.trans hst)
      exact List.forall_mem_append.2 ⟨markActsFrom_ok hp (hnumber _) _, ih hok htool' hrest⟩
    | tool taint =>
      cases hs
      exact ih (htool taint List.mem_cons_self) htool' hrest

end

/-! ## Reading a key -/

/-- The mark strings and the opcode of a key. -/
def readKey (n : Nat) (key : List Char) : List (List Char) × Nat :=
  let parts := Lib.FixedWidth.split n ((key.length - 1) / n) key
  (parts.1, Nat.ofDigitChars 10 parts.2 0)

/-- Where no opcode has more than `n` digits, a key says what it counts. -/
theorem readKey_key {last : Nat} {operation : MarkOperation} (hn : 0 < n) (hlast : last ≤ 10 ^ n)
    (h : operation.Ok n last) :
    readKey n operation.key = (operation.sets.map Bitset.str, operation.opcode) := by
  have hwords : ∀ word ∈ operation.sets.map Bitset.str, word.length = n := by
    intro word hword
    obtain ⟨set, hset, rfl⟩ := List.mem_map.1 hword
    exact (h.sets set hset).str_length
  have hpos : 0 < (Nat.toDigits 10 operation.opcode).length := Nat.length_toDigits_pos
  have hle : (Nat.toDigits 10 operation.opcode).length ≤ n :=
    (Nat.length_toDigits_le_iff (by decide) hn).2 (Nat.lt_of_lt_of_le h.opcode hlast)
  have hkey : operation.key =
      (operation.sets.map Bitset.str).flatten ++ Nat.toDigits 10 operation.opcode := by
    rw [MarkOperation.key, markKey, List.flatMap_def]
  have hlength : (operation.sets.map Bitset.str).flatten.length = operation.sets.length * n := by
    rw [List.length_flatten, List.map_congr_left hwords, List.map_const', List.sum_replicate,
      List.length_map, smul_eq_mul]
  have hcount : (operation.key.length - 1) / n = (operation.sets.map Bitset.str).length := by
    rw [hkey, List.length_append, hlength, List.length_map, Nat.add_sub_assoc hpos, Nat.mul_comm,
      Nat.mul_add_div hn, Nat.div_eq_of_lt (Nat.lt_of_lt_of_le (Nat.sub_lt hpos Nat.one_pos) hle),
      Nat.add_zero]
  rw [readKey, hcount, hkey, Lib.FixedWidth.split_flatten hwords]
  exact congrArg _ (Nat.ofDigitChars_toDigits (by decide) (by decide))

theorem key_digits (operation : MarkOperation) : ∀ c ∈ operation.key, c.isDigit := by
  intro c hc
  rcases List.mem_append.1 hc with hc | hc
  · obtain ⟨set, -, hc⟩ := List.mem_flatMap.1 hc
    obtain ⟨i, -, rfl⟩ := List.mem_map.1 hc
    split <;> rfl
  · exact Nat.isDigit_of_mem_toDigits (by decide) (by decide) hc

/-! ## The report -/

open Lib.OrderedMap in
/-- What a profiled call does to `profilingMap`. -/
def countProfiled (m : Lib.OrderedMap (List Char) (BitVec 32)) (key : List Char) :
    Lib.OrderedMap (List Char) (BitVec 32) :=
  match find less m key with
  | some _ => modify less 0 (· + 1) key m
  | none => modify less 0 (fun _ => 1) key m

/-- `profilingMap` after a run from an empty one. -/
def profilingEntries (number : XED_ICLASS → Nat) (p : Profiled w)
    (events : List (ProfiledEvent w)) : Lib.OrderedMap (List Char) (BitVec 32) :=
  (keys [] (Lib.emitted (profiledStep number) (eventActs number) p events)).foldl countProfiled []

/-- An `int` in decimal. -/
def intStr : Int → List Char
  | .ofNat i => Nat.toDigits 10 i
  | .negSucc i => '-' :: Nat.toDigits 10 (i + 1)

/-- `PrintProfilingResult`: the lines that it writes. -/
def printProfilingResult (m : Lib.OrderedMap (List Char) (BitVec 32)) : List (List Char) :=
  m.map fun e => intStr e.2.toInt ++ '\t' :: e.1 ++ ['\n']

/-- `std::ofstream`. -/
structure OFStream where
  isOpen : Bool
  fail : Bool
  file : List Char

namespace OFStream

def new : OFStream := ⟨false, false, []⟩

/-- `open`; it fails for a stream that is open. -/
def openFile (log : OFStream) : OFStream :=
  if log.isOpen then { log with fail := true } else ⟨true, false, []⟩

/-- `<<`. -/
def write (log : OFStream) (text : List Char) : OFStream :=
  if log.isOpen && !log.fail then { log with file := log.file ++ text }
  else { log with fail := true }

end OFStream

/-- `prof_log` when `main` has read the options. -/
def openProfLog (prof : Profiling) : OFStream :=
  let log := if prof.marks then OFStream.new.openFile else .new
  if prof.markop then log.openFile else log

/-- What `prof.log` has in the end. `lines` is what the run writes with `marks`. -/
def profLog (prof : Profiling) (lines : List (List Char))
    (m : Lib.OrderedMap (List Char) (BitVec 32)) : List Char :=
  let log := if prof.marks then lines.foldl .write (openProfLog prof) else openProfLog prof
  (if prof.markop then (printProfilingResult m).foldl .write log else log).file

theorem countProfiled_eq (m : Lib.OrderedMap (List Char) (BitVec 32)) (key : List Char) :
    countProfiled m key = Lib.OrderedMap.modify Lib.OrderedMap.less 0 (· + 1) key m := by
  unfold countProfiled
  cases hfind : Lib.OrderedMap.find Lib.OrderedMap.less m key with
  | some count => rfl
  | none => exact Lib.OrderedMap.modify_of_find_none rfl hfind

theorem profilingEntries_eq (number : XED_ICLASS → Nat) (p : Profiled w)
    (events : List (ProfiledEvent w)) : profilingEntries number p events =
      Lib.OrderedMap.tally 0 (· + 1) ((markOperations number p events).map MarkOperation.key) := by
  rw [profilingEntries, emitted_keys, Lib.OrderedMap.tally]
  congr 1
  funext m key
  exact countProfiled_eq m key

theorem iterate_succ (i : Nat) : (· + 1)^[i] (0 : BitVec 32) = BitVec.ofNat 32 i := by
  induction i with
  | zero => rfl
  | succ i ih =>
    rw [Function.iterate_succ_apply', ih, BitVec.ofNat_add]
    rfl

/-! ## What `prof.log` has -/

theorem OFStream.write_fail (lines : List (List Char)) {log : OFStream} (h : log.fail = true) :
    (lines.foldl write log).fail = true ∧ (lines.foldl write log).file = log.file := by
  induction lines generalizing log with
  | nil => exact ⟨h, rfl⟩
  | cons line lines ih =>
    have hw : log.write line = log := by
      rw [write, if_neg (by simp [h]), ← h]
    rw [List.foldl_cons, hw]
    exact ih h

theorem OFStream.write_lines (lines : List (List Char)) {log : OFStream} (ho : log.isOpen = true)
    (hf : log.fail = false) : (lines.foldl write log).file = log.file ++ lines.flatten := by
  induction lines generalizing log with
  | nil => exact (List.append_nil _).symm
  | cons line lines ih =>
    have hw : log.write line = { log with file := log.file ++ line } := by
      rw [write, if_pos (by simp [ho, hf])]
    have hrest := @ih { log with file := log.file ++ line } ho hf
    rw [List.foldl_cons, hw, hrest, List.flatten_cons, List.append_assoc]

variable {prof : Profiling} {m : Lib.OrderedMap (List Char) (BitVec 32)} {lines : List (List Char)}

/-- With both options nothing gets to `prof.log`. -/
theorem report_lost (hmarks : prof.marks = true) (hmarkop : prof.markop = true) :
    profLog prof lines m = [] := by
  have hlog : openProfLog prof = ⟨true, true, []⟩ := by
    simp [openProfLog, hmarks, hmarkop, OFStream.openFile, OFStream.new]
  obtain ⟨hfail, hfile⟩ := @OFStream.write_fail lines ⟨true, true, []⟩ rfl
  simp only [profLog, hmarks, hmarkop, if_true, hlog]
  rw [(OFStream.write_fail (printProfilingResult m) hfail).2, hfile]

theorem profLog_report (hmarks : prof.marks = false) (hmarkop : prof.markop = true) :
    profLog prof lines m = (printProfilingResult m).flatten := by
  have hlog : openProfLog prof = ⟨true, false, []⟩ := by
    simp [openProfLog, hmarks, hmarkop, OFStream.openFile, OFStream.new]
  simp only [profLog, hmarks, hmarkop, Bool.false_eq_true, if_true, if_false, hlog]
  exact OFStream.write_lines (printProfilingResult m) rfl rfl

/-! ## Reading the report -/

/-- The mark strings, the opcode and the count of a line. -/
def readLine (n : Nat) (line : List Char) : (List (List Char) × Nat) × Nat :=
  (readKey n ((line.dropWhile (· ≠ '\t')).drop 1),
    Nat.ofDigitChars 10 (line.takeWhile (· ≠ '\t')) 0)

def readReport (n : Nat) (text : List Char) : List ((List (List Char) × Nat) × Nat) :=
  (text.splitOn '\n').dropLast.map (readLine n)

theorem readLine_line {count : Nat} {key : List Char} :
    readLine n (Nat.toDigits 10 count ++ '\t' :: key) = (readKey n key, count) := by
  have hdigits : ∀ c ∈ Nat.toDigits 10 count, decide (c ≠ '\t') = true := by
    intro c hc
    have hdigit := Nat.isDigit_of_mem_toDigits (by decide) (by decide) hc
    refine decide_eq_true fun h => ?_
    rw [h] at hdigit
    cases hdigit
  have hdrop : ('\t' :: key).dropWhile (· ≠ '\t') = '\t' :: key := rfl
  have htake : ('\t' :: key).takeWhile (· ≠ '\t') = [] := rfl
  rw [readLine, List.dropWhile_append_of_pos hdigits, List.takeWhile_append_of_pos hdigits, hdrop,
    htake, List.append_nil, Nat.ofDigitChars_toDigits (by decide) (by decide)]
  rfl

theorem splitOn_lines (hlines : ∀ line ∈ lines, '\n' ∉ line) :
    ((lines.map (· ++ ['\n'])).flatten.splitOn '\n').dropLast = lines := by
  have hsplit : (lines.map (· ++ ['\n'])).flatten.splitOn '\n' = lines ++ [[]] := by
    induction lines with
    | nil => rfl
    | cons line lines ih =>
      obtain ⟨hline, hlines⟩ := List.forall_mem_cons.1 hlines
      rw [List.map_cons, List.flatten_cons, List.append_assoc, List.singleton_append,
        List.splitOn_append_cons_self_of_not_mem hline, ih hlines, List.cons_append]
  rw [hsplit, List.dropLast_concat]

/-- The report of counts that are no more than an `int`, read back. -/
theorem readReport_print (hm : ∀ e ∈ m, e.2.toNat < 2 ^ 31 ∧ ∀ c ∈ e.1, c.isDigit) :
    readReport n (printProfilingResult m).flatten = m.map fun e => (readKey n e.1, e.2.toNat) := by
  have hint : ∀ e ∈ m, intStr e.2.toInt = Nat.toDigits 10 e.2.toNat := by
    intro e he
    have hlt : 2 * e.2.toNat < 2 ^ 32 := by
      have := (hm e he).1
      omega
    rw [BitVec.toInt_eq_toNat_of_lt hlt]
    rfl
  have hprint : printProfilingResult m =
      (m.map fun e => Nat.toDigits 10 e.2.toNat ++ '\t' :: e.1).map (· ++ ['\n']) := by
    rw [printProfilingResult, List.map_map]
    exact List.map_congr_left fun e he => by rw [hint e he]; rfl
  have hnewline : ∀ {text : List Char}, (∀ c ∈ text, c.isDigit = true) → '\n' ∉ text := by
    intro text htext hmem
    cases htext _ hmem
  have hline : ∀ line ∈ m.map fun e => Nat.toDigits 10 e.2.toNat ++ '\t' :: e.1, '\n' ∉ line := by
    intro line hline hmem
    obtain ⟨e, he, rfl⟩ := List.mem_map.1 hline
    rcases List.mem_append.1 hmem with hmem | hmem
    · exact hnewline (fun c hc => Nat.isDigit_of_mem_toDigits (by decide) (by decide) hc) hmem
    · rcases List.mem_cons.1 hmem with hmem | hmem
      · cases hmem
      · exact hnewline (hm e he).2 hmem
  rw [readReport, hprint, splitOn_lines hline, List.map_map]
  exact List.map_congr_left fun e _ => readLine_line

/-- A report that counts keys, read back: each key once, with how often it was counted. -/
theorem readReport_tally {keys : List (List Char)} (hkeys : ∀ key ∈ keys, ∀ c ∈ key, c.isDigit)
    (hint : keys.length < 2 ^ 31) :
    (readReport n (printProfilingResult (Lib.OrderedMap.tally 0 (· + 1) keys)).flatten).Perm
      (keys.dedup.map fun key => (readKey n key, keys.count key)) := by
  have htally : ∀ e ∈ Lib.OrderedMap.tally (0 : BitVec 32) (· + 1) keys,
      e.1 ∈ keys ∧ e.2.toNat = keys.count e.1 := by
    rintro ⟨key, count⟩ he
    obtain ⟨hkey, rfl⟩ := Lib.OrderedMap.mem_tally.1 he
    have hlt : keys.count key < 2 ^ 32 :=
      Nat.lt_trans (Nat.lt_of_le_of_lt List.count_le_length hint) (by decide)
    rw [iterate_succ, BitVec.toNat_ofNat, Nat.mod_eq_of_lt hlt]
    exact ⟨hkey, rfl⟩
  have hprint : ∀ e ∈ Lib.OrderedMap.tally (0 : BitVec 32) (· + 1) keys,
      e.2.toNat < 2 ^ 31 ∧ ∀ c ∈ e.1, c.isDigit := by
    intro e he
    obtain ⟨hkey, hcount⟩ := htally e he
    exact ⟨hcount ▸ Nat.lt_of_le_of_lt List.count_le_length hint, hkeys e.1 hkey⟩
  have hcounts : (Lib.OrderedMap.tally (0 : BitVec 32) (· + 1) keys).map
      (fun e => (readKey n e.1, e.2.toNat)) =
        ((Lib.OrderedMap.tally (0 : BitVec 32) (· + 1) keys).map Prod.fst).map
          fun key => (readKey n key, keys.count key) := by
    rw [List.map_map]
    exact List.map_congr_left fun e he => congrArg _ (htally e he).2
  rw [readReport_print hprint, hcounts]
  exact Lib.OrderedMap.tally_keys.map _

/-- Where no opcode has more than `n` digits, different mark operations have different keys. -/
theorem key_injective {last : Nat} (hn : 0 < n) (hlast : last ≤ 10 ^ n) :
    Function.Injective fun o : { operation : MarkOperation // operation.Ok n last } => o.1.key := by
  rintro ⟨⟨sets, opcode⟩, ho⟩ ⟨⟨sets', opcode'⟩, ho'⟩ hkey
  have hread := (readKey_key hn hlast ho).symm.trans
    ((congrArg (readKey n) hkey).trans (readKey_key hn hlast ho'))
  obtain ⟨hsets, rfl⟩ : sets.map Bitset.str = sets'.map Bitset.str ∧ opcode = opcode' :=
    Prod.mk.inj hread
  obtain rfl := Bitset.map_str_inj ho.sets ho'.sets hsets
  rfl

/-- `prof.log` says which mark operations the run did, and how often it did each. -/
theorem report_read {last : Nat} {number : XED_ICLASS → Nat} {p p' : Profiled w}
    {events : List (ProfiledEvent w)} (hmarks : prof.marks = false) (hmarkop : prof.markop = true)
    (hn : 0 < n) (hlast : last ≤ 10 ^ n) (hnumber : ∀ opcode, number opcode < last)
    (hp : p.taint.WidthOk n)
    (htool : ∀ taint, ProfiledEvent.tool taint ∈ events → taint.WidthOk n)
    (h : Lib.run (profiledStep number) p events = some p')
    (hint : (markOperations number p events).length < 2 ^ 31) :
    (readReport n (profLog prof lines (profilingEntries number p events))).Perm
      ((markOperations number p events).dedup.map fun operation =>
        ((operation.sets.map Bitset.str, operation.opcode),
          (markOperations number p events).count operation)) := by
  have hok := markOperations_ok hnumber hp htool h
  rw [profLog_report hmarks hmarkop, profilingEntries_eq]
  generalize markOperations number p events = operations at hok hint ⊢
  -- the operations as operations of width `n`: on these a key is injective
  obtain ⟨os, rfl⟩ :
      ∃ os : List { operation : MarkOperation // operation.Ok n last }, os.map (·.1) = operations :=
    ⟨operations.attachWith _ hok, List.attachWith_map_subtype_val ..⟩
  have hkeys : (os.map (·.1)).map MarkOperation.key = os.map (·.1.key) := List.map_map ..
  have hdigits : ∀ key ∈ os.map (·.1.key), ∀ c ∈ key, c.isDigit = true := by
    intro key hkey
    obtain ⟨o, -, rfl⟩ := List.mem_map.1 hkey
    exact key_digits o.1
  rw [hkeys]
  refine (readReport_tally hdigits (by simpa using hint)).trans (List.Perm.of_eq ?_)
  rw [List.dedup_map_of_injective (key_injective hn hlast),
    List.dedup_map_of_injective Subtype.val_injective, List.map_map, List.map_map]
  refine List.map_congr_left fun o _ => ?_
  have hcount : (os.map (·.1.key)).count o.1.key = (os.map (·.1)).count o.1 :=
    (List.count_map_of_injective os _ (key_injective hn hlast) o).trans
      (List.count_map_of_injective os _ Subtype.val_injective o).symm
  exact congrArg₂ Prod.mk (readKey_key hn hlast o.2) hcount

/-- `MOV EAX, EBX`, twice. -/
def moveTwice : List (ProfiledEvent 32) :=
  List.replicate 2 (.ins
    ⟨{ opcode := .MOV, operands := [{ kind := .reg .EAX }, { kind := .reg .EBX }] },
      ⟨0, 0, 0, 0, 0, fun _ => 0, fun _ => 0⟩⟩)

theorem report_read_twice : ∃ p',
    Lib.run (profiledStep fun _ => 299) ⟨.initial 4, [], fun _ => 0⟩ moveTwice = some p' ∧
    (readReport 4 (profLog ⟨false, true⟩ []
      (profilingEntries (fun _ => 299) ⟨.initial 4, [], fun _ => 0⟩ moveTwice))).Perm
        [(([['0', '0', '0', '0']], 299), 2)] := by
  obtain ⟨p', hp'⟩ : ∃ p',
      Lib.run (profiledStep fun _ => 299) ⟨.initial 4, [], fun _ => 0⟩ moveTwice = some p' :=
    Option.isSome_iff_exists.1 (by rfl)
  have hoperations : markOperations (fun _ => 299) ⟨.initial 4, [], fun _ => 0⟩ moveTwice =
      [⟨[.init 4], 299⟩, ⟨[.init 4], 299⟩] := by rfl
  have hread := @report_read 32 4 ⟨false, true⟩ [] 1000 (fun _ => 299) _ _ _ rfl rfl (by decide)
    (by decide) (fun _ => by decide) (initial_ok 4) (by simp [moveTwice]) hp'
    (by rw [hoperations]; decide)
  rw [hoperations] at hread
  exact ⟨p', hp', hread⟩

end Dytan
