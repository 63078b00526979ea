import Dytan.Taint.Pointers
import Dytan.Taint.Range

/-!
# No two entries share a set, and what a read after a write gives

`Globals.NoSharing n g h`: the pointers of all map entries and scratch variables refer to different
sets, of width `n`. The tool starts so, and every operation keeps it (`Operation.run_noSharing`), so it
holds in every state that is reached (`reached_noSharing`).

In such a state a `SetTaintForMemory` changes the entries of its range alone, and a `TaintForMemory`
after it gives the marks written for the bytes in both ranges and the old marks for the others
(`put_get`).
-/

namespace Dytan

open Lib

variable {w n : Nat} {malloc : Malloc Bitset} {g : Globals w} {h : Heap Bitset} {st : TaintState w}

/-! ## The invariant -/

/-- The pointers refer to different sets, and these have width `n`. -/
structure Globals.NoSharing (n : Nat) (g : Globals w) (h : Heap Bitset) : Prop where
  live : ∀ k p, g.refs none none k = some p → ∃ s : Bitset, h.get p = some s ∧ s.Ok n
  apart : ∀ k k' p, g.refs none none k = some p → g.refs none none k' = some p → k = k'
  marks : g.numberOfTaintMarks = n

/-- The sets that the pointers refer to. -/
def Globals.deref (g : Globals w) (h : Heap Bitset) : TaintState w where
  regTaintMap r := (g.regTaintMap r).bind h.get
  memTaintMap a := (g.memTaintMap a).bind h.get
  controlTaintMap := g.controlTaintMap.map fun _ p => (h.get p).getD (.init 0)
  scratch set := (h.get (g.scratch set)).getD (.init 0)
  numberOfTaintMarks := g.numberOfTaintMarks

theorem Globals.deref_sets (hlive : ∀ k p, g.refs none none k = some p → (h.get p).isSome)
    (k : Key w) : (g.deref h).sets none none k = (g.refs none none k).bind h.get := by
  cases k with
  | control a =>
    simp only [TaintState.sets, Globals.deref, Globals.refs, Std.ExtTreeMap.getElem?_map]
    cases hp : g.controlTaintMap[a]? with
    | none => rfl
    | some p =>
      obtain ⟨s, hs⟩ := Option.isSome_iff_exists.1 (hlive (.control a) p hp)
      simp [hs]
  | scratch set =>
    obtain ⟨s, hs⟩ := Option.isSome_iff_exists.1 (hlive (.scratch set) _ rfl)
    simp [TaintState.sets, Globals.deref, Globals.refs, hs]
  | _ => rfl

theorem Globals.NoSharing.represents (hn : g.NoSharing n h) : g.Represents h (g.deref h) := by
  have hlive : ∀ k p, g.refs none none k = some p → (h.get p).isSome := by
    intro k p hp
    obtain ⟨s, hs, -⟩ := hn.live k p hp
    rw [hs, Option.isSome_some]
  exact ⟨⟨fun k => Globals.deref_sets hlive k, hlive, hn.apart⟩, rfl⟩

/-- The sets of a state of width `n`, by key. -/
theorem TaintState.WidthOk.sets_ok (hst : st.WidthOk n) {k : Key w} {s : Bitset}
    (hs : st.sets none none k = some s) : s.Ok n := by
  cases k with
  | reg r => exact hst.reg r s hs
  | mem a => exact hst.mem a s hs
  | control a => exact hst.control a s hs
  | scratch set => exact Option.some.inj hs ▸ hst.scratch set
  | tmp => cases hs
  | controlTaint => cases hs

/-- No sharing is to represent a state of width `n`. -/
theorem Globals.noSharing_iff :
    g.NoSharing n h ↔ ∃ st : TaintState w, g.Represents h st ∧ st.WidthOk n := by
  constructor
  · intro hn
    have hr := hn.represents
    have hok : ∀ k s, (g.deref h).sets none none k = some s → s.Ok n := by
      intro k s hs
      rw [hr.owns.value] at hs
      obtain ⟨p, hp, hs⟩ := Option.bind_eq_some_iff.1 hs
      obtain ⟨s', hs', hok⟩ := hn.live k p hp
      rw [hs'] at hs
      exact Option.some.inj hs ▸ hok
    exact ⟨g.deref h, hr, fun r => hok (.reg r), fun a => hok (.mem a), fun a => hok (.control a),
      fun set => hok (.scratch set) _ rfl, hn.marks⟩
  · rintro ⟨st, hr, hst⟩
    refine ⟨fun k p hp => ?_, hr.owns.apart, hr.marks.trans hst.marks⟩
    obtain ⟨s, hs⟩ := (hr.owns.entry k).1 hp
    exact ⟨s, (hr.owns.get hp).trans hs, hst.sets_ok hs⟩

/-! ## The operations -/

/-- What the tool does to its taint: the calls of handlers, the calls before branches and at their
ends, the taint sources and the functions that clear. -/
inductive Operation (w : Nat)
  | clearTaintSet (set : Scratch)
  | taintForRegister (reg : REG) (set : Scratch)
  | taintForMemory (start size : ADDRINT w) (baseReg indexReg : REG) (set : Scratch)
  | setTaintForRegister (dest : REG) (args : List Scratch)
  | clearTaintForRegister (reg : REG)
  | setTaintForMemory (start size : ADDRINT w) (args : List Scratch)
  | clearTaintForMemory (start size : ADDRINT w)
  | pushControl (addr : ADDRINT w)
  | popControl (addrs : List (ADDRINT w))
  | markMemory (addrs : List (ADDRINT w)) (mark : Nat)
  | markBytes (bytes : List (ADDRINT w × Nat))
  | eraseMemory (addr : ADDRINT w)
  | freeMemory (addr : ADDRINT w)

def Operation.run (malloc : Malloc Bitset) (g : Globals w) :
    Operation w → HeapM Bitset (Globals w)
  | .clearTaintSet set => do Globals.clearTaintSet (g.scratch set); return g
  | .taintForRegister reg set => do g.taintForRegister reg (g.scratch set); return g
  | .taintForMemory start size baseReg indexReg set => do
    g.taintForMemory start size baseReg indexReg (g.scratch set)
    return g
  | .setTaintForRegister dest args => g.setTaintForRegister malloc dest (args.map g.scratch)
  | .clearTaintForRegister reg => do g.clearTaintForRegister malloc reg; return g
  | .setTaintForMemory start size args => g.setTaintForMemory malloc start size (args.map g.scratch)
  | .clearTaintForMemory start size => do g.clearTaintForMemory malloc start size; return g
  | .pushControl addr => g.pushControl malloc addr
  | .popControl addrs => g.popControl addrs
  | .markMemory addrs mark => g.markMemory malloc addrs mark
  | .markBytes bytes => g.markBytes malloc bytes
  | .eraseMemory addr => return g.eraseMemory addr
  | .freeMemory addr => g.freeMemory addr

/-- The globals as `main` sets them up. -/
def Globals.start (malloc : Malloc Bitset) (w numberOfTaintMarks : Nat) :
    HeapM Bitset (Globals w) := do
  let dest ← bitsetInit malloc numberOfTaintMarks
  let src ← bitsetInit malloc numberOfTaintMarks
  let eax ← bitsetInit malloc numberOfTaintMarks
  let edx ← bitsetInit malloc numberOfTaintMarks
  let base ← bitsetInit malloc numberOfTaintMarks
  let idx ← bitsetInit malloc numberOfTaintMarks
  let eflags ← bitsetInit malloc numberOfTaintMarks
  let cnt ← bitsetInit malloc numberOfTaintMarks
  return {
    regTaintMap := fun _ => none
    memTaintMap := fun _ => none
    controlTaintMap := ∅
    scratch := fun
      | .dest => dest
      | .src => src
      | .eax => eax
      | .edx => edx
      | .base => base
      | .idx => idx
      | .eflags => eflags
      | .cnt => cnt
    numberOfTaintMarks := numberOfTaintMarks }

/-- The tool's start and a list of operations. -/
def runOperations (malloc : Malloc Bitset) (n : Nat) (operations : List (Operation w)) :
    HeapM Bitset (Globals w) := do
  let g ← Globals.start malloc w n
  operations.foldlM (Operation.run malloc) g

/-! ## The loops that mark memory -/

/-- A set of width `n` that gets a bit has width `n`. -/
theorem setBit_ok {s s' : Bitset} (hs : s.Ok n) {mark : Nat} (h : s.setBit mark = some s') :
    s'.Ok n := by
  by_cases hlt : mark < n
  · obtain ⟨r, hr, hok, -⟩ := hs.setBit_spec hlt
    rw [hr] at h
    exact Option.some.inj h ▸ hok
  · rw [Bitset.setBit, if_neg (hs.nbits ▸ hlt)] at h
    cases h

/-- The state of a loop that marks memory: the map so far is `map`, and the local set `p` holds `s`. -/
def Marking (n : Nat) (g : Globals w) (st : TaintState w) (p : Ptr) (s : Bitset)
    (map : ADDRINT w → Option Ptr) (h : Heap Bitset) : Prop :=
  ∃ vmap, Owns h (({ g with memTaintMap := map }).refs (some p) none)
    (({ st with memTaintMap := vmap }).sets (some s) none) ∧ ∀ a s, vmap a = some s → s.Ok n

section
variable {map : ADDRINT w → Option Ptr} {p : Ptr} {s : Bitset}

theorem Marking.setBit (hm : Marking n g st p s map h) (hs : s.Ok n) (mark : Nat) :
    Yields (bitsetSetBit p mark) h fun _ h' => ∃ s', s'.Ok n ∧ Marking n g st p s' map h' := by
  obtain ⟨vmap, ho, hok⟩ := hm
  have hp : ({ g with memTaintMap := map }).refs (some p) none .tmp = some p := rfl
  refine ho.yields_modify hp rfl fun s' h' hs' ho' => ⟨s', setBit_ok hs hs', vmap, ?_, hok⟩
  rwa [sets_tmp] at ho'

theorem Marking.reset (hm : Marking n g st p s map h) (hs : s.Ok n) :
    Yields (bitsetReset p) h fun _ h' => Marking n g st p (.init n) map h' := by
  obtain ⟨vmap, ho, hok⟩ := hm
  have hp : ({ g with memTaintMap := map }).refs (some p) none .tmp = some p := rfl
  refine ho.yields_modify hp rfl fun s' h' hs' ho' => ⟨vmap, ?_, hok⟩
  rw [hs.reset_eq] at hs'
  rwa [sets_tmp, ← Option.some.inj hs'] at ho'

theorem Marking.copy (hm : Marking n g st p s map h) (hs : s.Ok n) (addr : ADDRINT w) :
    Yields (copyPointer malloc p map addr) h fun map' h' => Marking n g st p s map' h' := by
  obtain ⟨vmap, ho, hok⟩ := hm
  have hp : ({ g with memTaintMap := map }).refs (some p) none .tmp = some p := rfl
  refine Ensures.yields (ensures_copyPointer refs_mem sets_mem ho hp rfl addr fun map' h' ho' =>
    ⟨_, ho', fun a s' ha => ?_⟩)
  · by_cases he : a = addr
    · rw [he, Function.update_self, hs.copy_eq] at ha
      exact Option.some.inj ha ▸ hs
    · rw [Function.update_of_ne he] at ha
      exact hok a s' ha

theorem Marking.markByte (hm : Marking n g st p (.init n) map h) (byte : ADDRINT w × Nat) :
    Yields (Globals.markByte malloc p map byte) h fun map' h' =>
      Marking n g st p (.init n) map' h' := by
  refine Yields.bind fun _ h₁ h1 => ?_
  obtain ⟨s, hs, hm₁⟩ := hm.setBit (Bitset.init_ok n) byte.2 _ h₁ h1
  refine Yields.bind fun map₁ h₂ h2 => Yields.bind fun _ h₃ h3 => Yields.pure ?_
  exact (hm₁.copy hs byte.1 map₁ h₂ h2).reset hs _ h₃ h3

end

/-- The local set of such a function, after its `bitset_init`. -/
theorem Marking.start (hr : g.Represents h st) (hst : st.WidthOk n) :
    Yields (bitsetInit malloc g.numberOfTaintMarks) h fun p h' =>
      Marking n g st p (.init n) g.memTaintMap h' := by
  refine Ensures.yields (hr.owns.ensures_alloc .tmp fun p h' ho' => ⟨st.memTaintMap, ?_, hst.mem⟩)
  rwa [refs_tmp, sets_tmp, hr.marks, hst.marks] at ho'

/-- The end of such a function. -/
theorem Marking.finish {map : ADDRINT w → Option Ptr} {p : Ptr} {s : Bitset}
    (hm : Marking n g st p s map h) (hst : st.WidthOk n) (hmarks : g.numberOfTaintMarks = n) :
    Yields (do bitsetFree p; return { g with memTaintMap := map }) h fun g' h' =>
      g'.NoSharing n h' := by
  obtain ⟨vmap, ho, hok⟩ := hm
  have hp : ({ g with memTaintMap := map }).refs (some p) none .tmp = some p := rfl
  refine Ensures.yields (Ensures.bind (ho.ensures_release hp fun h' ho' => Ensures.pure ?_))
  rw [refs_tmp, sets_tmp] at ho'
  exact Globals.noSharing_iff.2 ⟨_, ⟨ho', hmarks.trans hst.marks.symm⟩, hst.setMem hok⟩

theorem markMemory_noSharing (hn : g.NoSharing n h) (addrs : List (ADDRINT w)) (mark : Nat) :
    Yields (g.markMemory malloc addrs mark) h fun g' h' => g'.NoSharing n h' := by
  obtain ⟨st, hr, hst⟩ := Globals.noSharing_iff.1 hn
  refine Yields.bind fun p h₁ h1 => ?_
  refine Yields.bind fun _ h₂ h2 => ?_
  obtain ⟨s, hs, hm⟩ := (Marking.start hr hst p h₁ h1).setBit (Bitset.init_ok n) mark _ h₂ h2
  refine Yields.bind fun map h₃ h3 => ?_
  have hloop := Yields.foldlM (fun map h addr hm => Marking.copy hm hs addr) hm addrs map h₃ h3
  exact hloop.finish hst hn.marks

theorem markBytes_noSharing (hn : g.NoSharing n h) (bytes : List (ADDRINT w × Nat)) :
    Yields (g.markBytes malloc bytes) h fun g' h' => g'.NoSharing n h' := by
  obtain ⟨st, hr, hst⟩ := Globals.noSharing_iff.1 hn
  refine Yields.bind fun p h₁ h1 => Yields.bind fun map h₂ h2 => ?_
  have hm := Marking.start hr hst p h₁ h1
  have hloop := Yields.foldlM (fun map h byte hm => Marking.markByte hm byte) hm bytes map h₂ h2
  exact hloop.finish hst hn.marks

/-- An entry of `memTaintMap` is gone. -/
theorem Globals.Represents.erased {addr : ADDRINT w} (hr : g.Represents h st) (hst : st.WidthOk n)
    {h' : Heap Bitset} (ho : Owns h' (Function.update (g.refs none none) (.mem addr) none)
      (Function.update (st.sets none none) (.mem addr) none)) :
    (g.eraseMemory addr).NoSharing n h' := by
  rw [refs_mem.set g.memTaintMap, sets_mem.set st.memTaintMap] at ho
  refine Globals.noSharing_iff.2 ⟨_, ⟨ho, hr.marks⟩, hst.setMem fun a s hs => ?_⟩
  by_cases he : a = addr
  · simp [he] at hs
  · rw [Function.update_of_ne he] at hs
    exact hst.mem a s hs

theorem freeMemory_noSharing (hn : g.NoSharing n h) (addr : ADDRINT w) :
    Yields (g.freeMemory addr) h fun g' h' => g'.NoSharing n h' := by
  unfold Globals.freeMemory
  cases hp : g.memTaintMap addr with
  | none => exact .pure hn
  | some p =>
    obtain ⟨st, hr, hst⟩ := Globals.noSharing_iff.1 hn
    have hp' : g.refs none none (.mem addr) = some p := hp
    exact Ensures.yields (Ensures.bind (hr.owns.ensures_release hp' fun h' ho' =>
      Ensures.pure (hr.erased hst ho')))

/-! ## Every reached state -/

theorem scratch_holds (g : Globals w) (st : TaintState w) (args : List Scratch) :
    List.Forall₂ (g.Holds st) (args.map g.scratch) (args.map st.scratch) := by
  rw [List.forall₂_map_left_iff, List.forall₂_map_right_iff, List.forall₂_same]
  exact fun set _ => ⟨.scratch set, rfl, rfl⟩

/-- An operation that does on the sets what it does on states of width `n`. -/
theorem noSharing_of_refines {m : HeapM Bitset (Globals w)} {r : Option (TaintState w)}
    {t : Taint w} (hst : TaintState.Gives n r t)
    (hm : ∀ st', r = some st' → Ensures m h fun g' h' => g'.Represents h' st') :
    Yields m h fun g' h' => g'.NoSharing n h' := by
  obtain ⟨st', hr, hok, -⟩ := hst
  intro g' h' hg
  exact Globals.noSharing_iff.2 ⟨st', (hm st' hr).yields g' h' hg, hok⟩

/-- An operation that leaves the pointers as they are. -/
theorem ensures_unit {m : HeapM Bitset Unit} {Q : Globals w → Heap Bitset → Prop}
    (hm : Ensures m h fun _ h' => Q g h') : Ensures (do m; return g) h Q := by
  obtain ⟨u, h', hu, hQ⟩ := hm
  exact Ensures.bind ⟨u, h', hu, Ensures.pure hQ⟩

open TaintState Globals in
theorem Operation.run_noSharing (hn : g.NoSharing n h) (operation : Operation w) :
    Yields (operation.run malloc g) h fun g' h' => g'.NoSharing n h' := by
  obtain ⟨st, hr, hst⟩ := noSharing_iff.1 hn
  have hargs : ∀ args : List Scratch, ∀ s ∈ args.map st.scratch, s.Ok n := by
    intro args s hs
    obtain ⟨set, -, rfl⟩ := List.mem_map.1 hs
    exact hst.scratch set
  cases operation with
  | clearTaintSet set =>
    exact noSharing_of_refines (clearTaintSet_gives hst set) fun st' hs =>
      ensures_unit (Option.some.inj hs ▸ clearTaintSet_refines hr set)
  | taintForRegister reg set =>
    exact noSharing_of_refines (taintForRegister_gives hst reg set) fun st' hs =>
      ensures_unit (taintForRegister_refines hr hs)
  | taintForMemory start size baseReg indexReg set =>
    exact noSharing_of_refines (taintForMemory_gives hst start size baseReg indexReg set)
      fun st' hs => ensures_unit (taintForMemory_refines hr hs)
  | setTaintForRegister dest args =>
    refine noSharing_of_refines (setTaintForRegister_gives hst dest (hargs args)) fun st' hs => ?_
    obtain ⟨g', h', hg, hr', -⟩ : Ensures (g.setTaintForRegister malloc dest _) h _ :=
      setTaintForRegister_refines hr (scratch_holds g st args) hs
    exact ⟨g', h', hg, hr'⟩
  | clearTaintForRegister reg =>
    exact noSharing_of_refines (clearTaintForRegister_gives hst reg) fun st' hs =>
      ensures_unit (clearTaintForRegister_refines hr hs)
  | setTaintForMemory start size args =>
    refine noSharing_of_refines (setTaintForMemory_gives hst start size (hargs args)) fun st' hs => ?_
    obtain ⟨g', h', hg, hr', -⟩ : Ensures (g.setTaintForMemory malloc start size _) h _ :=
      setTaintForMemory_refines hr (scratch_holds g st args) hs
    exact ⟨g', h', hg, hr'⟩
  | clearTaintForMemory start size =>
    exact noSharing_of_refines (clearTaintForMemory_gives hst start size) fun st' hs =>
      ensures_unit (clearTaintForMemory_refines hr hs)
  | pushControl addr =>
    exact noSharing_of_refines (pushControl_gives hst addr) fun st' hs => pushControl_refines hr hs
  | popControl addrs =>
    exact noSharing_of_refines (popControl_gives hst addrs) fun st' hs =>
      Option.some.inj hs ▸ popControl_refines hr addrs
  | markMemory addrs mark => exact markMemory_noSharing hn addrs mark
  | markBytes bytes => exact markBytes_noSharing hn bytes
  | eraseMemory addr => exact .pure (hr.erased hst (hr.owns.forget (.mem addr)))
  | freeMemory addr => exact freeMemory_noSharing hn addr

theorem start_represents (malloc : Malloc Bitset) (n : Nat) (h : Heap Bitset) :
    Ensures (Globals.start malloc w n) h fun g h' => g.Represents h' (.initial n) := by
  have ho := Owns.nothing (K := Key w) h
  refine Ensures.bind (ho.ensures_alloc (.scratch .dest) fun dest h₁ ho₁ => ?_)
  refine Ensures.bind (ho₁.ensures_alloc (.scratch .src) fun src h₂ ho₂ => ?_)
  refine Ensures.bind (ho₂.ensures_alloc (.scratch .eax) fun eax h₃ ho₃ => ?_)
  refine Ensures.bind (ho₃.ensures_alloc (.scratch .edx) fun edx h₄ ho₄ => ?_)
  refine Ensures.bind (ho₄.ensures_alloc (.scratch .base) fun base h₅ ho₅ => ?_)
  refine Ensures.bind (ho₅.ensures_alloc (.scratch .idx) fun idx h₆ ho₆ => ?_)
  refine Ensures.bind (ho₆.ensures_alloc (.scratch .eflags) fun eflags h₇ ho₇ => ?_)
  refine Ensures.bind (ho₇.ensures_alloc (.scratch .cnt) fun cnt h₈ ho₈ => Ensures.pure ?_)
  refine ⟨?_, rfl⟩
  convert ho₈ using 1 <;> funext k
  · cases k with
    | scratch set => cases set <;> simp [Globals.refs]
    | _ => simp [Globals.refs]
  · cases k with
    | scratch set => cases set <;> simp [TaintState.sets, TaintState.initial]
    | _ => simp [TaintState.sets, TaintState.initial]

theorem start_noSharing (malloc : Malloc Bitset) (h : Heap Bitset) :
    Ensures (Globals.start malloc w n) h fun g h' => g.NoSharing n h' := by
  obtain ⟨g, h', hg, hr⟩ := start_represents (w := w) malloc n h
  exact ⟨g, h', hg, Globals.noSharing_iff.2 ⟨.initial n, hr, TaintState.initial_ok n⟩⟩

/-- The tool's pointers never share a set. -/
theorem reached_noSharing (operations : List (Operation w)) :
    Yields (runOperations malloc n operations) .empty fun g h => g.NoSharing n h := by
  refine Yields.bind fun g h hg => ?_
  have hstart := (start_noSharing malloc .empty).yields g h hg
  exact Yields.foldlM (fun g h operation hn => Operation.run_noSharing hn operation) hstart operations

/-! ## A read after a write -/

/-- The marks of the set at `p`. -/
def pointerMarks (h : Heap Bitset) (p : Ptr) : Set ℕ := {m | ∃ s, h.get p = some s ∧ m ∈ s.marks}

/-- The marks of the set `k` refers to; none without a set. -/
def Globals.marks (g : Globals w) (h : Heap Bitset) (k : Key w) : Set ℕ :=
  {m | ∃ p, g.refs none none k = some p ∧ m ∈ pointerMarks h p}

/-- The marks of all sets in `controlTaintMap`. -/
def Globals.active (g : Globals w) (h : Heap Bitset) : Set ℕ :=
  {m | ∃ addr, m ∈ g.marks h (.control addr)}

theorem Globals.Represents.pointerMarks (hr : g.Represents h st) {k : Key w} {p : Ptr} {s : Bitset}
    (hp : g.refs none none k = some p) (hs : st.sets none none k = some s) :
    pointerMarks h p = s.marks := by
  ext m
  simp [Dytan.pointerMarks, hr.owns.get hp, hs]

theorem Globals.Represents.marks_eq (hr : g.Represents h st) (k : Key w) :
    g.marks h k = ((st.sets none none k).map Bitset.marks).getD ∅ := by
  cases hp : g.refs none none k with
  | none =>
    rw [(hr.owns.entry k).2 hp]
    ext m
    simp [Globals.marks, hp]
  | some p =>
    obtain ⟨s, hs⟩ := (hr.owns.entry k).1 hp
    rw [hs, Option.map_some, Option.getD_some, ← hr.pointerMarks hp hs]
    ext m
    simp [Globals.marks, hp]

theorem Globals.Represents.active_eq (hr : g.Represents h st) : g.active h = st.taint.active := by
  ext m
  simp only [Globals.active, Taint.active, Set.mem_ofPred_eq]
  refine exists_congr fun addr => ?_
  rw [hr.marks_eq]
  show m ∈ ((st.controlTaintMap[addr]?).map Bitset.marks).getD ∅ ↔
    ∃ S, (st.controlTaintMap[addr]?).map Bitset.marks = some S ∧ m ∈ S
  cases (st.controlTaintMap[addr]?).map Bitset.marks <;> simp

theorem Globals.Represents.memMarks (hr : g.Represents h st) (addr : ADDRINT w) :
    g.marks h (.mem addr) = st.taint.memMarks addr := hr.marks_eq (.mem addr)

theorem Globals.Represents.addressMarks (hr : g.Represents h st) (reg : REG) :
    st.taint.addressMarks reg = if reg.valid then g.marks h (.reg reg) else ∅ := by
  rw [Taint.addressMarks, hr.marks_eq (.reg reg)]
  rfl

/-- The sets behind a list of pointers. -/
theorem Globals.Represents.args (hr : g.Represents h st) (hst : st.WidthOk n) {args : List Ptr}
    (hargs : ∀ p ∈ args, ∃ k, g.refs none none k = some p) :
    ∃ sets : List Bitset, List.Forall₂ (g.Holds st) args sets ∧ (∀ s ∈ sets, s.Ok n) ∧
      {m | ∃ s ∈ sets, m ∈ s.marks} = {m | ∃ p ∈ args, m ∈ Dytan.pointerMarks h p} := by
  induction args with
  | nil => exact ⟨[], .nil, nofun, by simp⟩
  | cons p args ih =>
    obtain ⟨sets, hsets, hok, hmarks⟩ := ih fun q hq => hargs q (List.mem_cons_of_mem _ hq)
    obtain ⟨k, hk⟩ := hargs p List.mem_cons_self
    obtain ⟨s, hs⟩ := (hr.owns.entry k).1 hk
    refine ⟨s :: sets, .cons ⟨k, hk, hs⟩ hsets, ?_, ?_⟩
    · intro s' hs'
      obtain rfl | hs' := List.mem_cons.1 hs'
      · exact hst.sets_ok hs
      · exact hok s' hs'
    · ext m
      have hm := Set.ext_iff.1 hmarks m
      simp only [Set.mem_ofPred_eq] at hm
      simp only [Set.mem_ofPred_eq, List.mem_cons, exists_eq_or_imp, hm, hr.pointerMarks hk hs]

/-- A write leaves the sets outside its range as they are. -/
theorem setTaintForMemory_sets (hst : st.WidthOk n) {start size : ADDRINT w} {sets : List Bitset}
    (hsets : ∀ s ∈ sets, s.Ok n) {st₁ : TaintState w}
    (h₁ : st.setTaintForMemory start size sets = some st₁) {k : Key w}
    (hk : ∀ a ∈ addrRange start (start + size), k ≠ .mem a) :
    st₁.sets none none k = st.sets none none k := by
  obtain ⟨tmp, ht, htok, -⟩ := TaintState.assignedTaint_spec hst hsets
  rw [TaintState.setTaintForMemory, ht, Option.bind_eq_bind, Option.bind_some,
    putEntries_eq htok hst.mem] at h₁
  obtain rfl := Option.some.inj h₁
  cases k with
  | mem a => exact if_neg fun ha => hk a ha rfl
  | _ => rfl

/-- The marks a read gives after a write of `S`, by byte. -/
theorem bytesMarks_setMem (t : Taint w) {start size rstart rsize : ADDRINT w}
    (hw : ¬ RangeWraps start size) (hr : ¬ RangeWraps rstart rsize) (S : Set ℕ) :
    (t.setMem (addrRange start (start + size)) S).bytesMarks (addrRange rstart (rstart + rsize)) =
      {m | (bytesAt start size ∩ bytesAt rstart rsize).Nonempty ∧ m ∈ S ∪ t.active} ∪
      {m | ∃ a ∈ bytesAt rstart rsize \ bytesAt start size, m ∈ t.memMarks a} := by
  have hin : ∀ a ∈ bytesAt start size,
      (t.setMem (addrRange start (start + size)) S).memMarks a = S ∪ t.active := by
    intro a ha
    simp [Taint.memMarks, Taint.setMem, mem_addrRange_bytes hw, ha]
  have hout : ∀ a ∉ bytesAt start size,
      (t.setMem (addrRange start (start + size)) S).memMarks a = t.memMarks a := by
    intro a ha
    simp [Taint.memMarks, Taint.setMem, mem_addrRange_bytes hw, ha]
  ext m
  constructor
  · rintro ⟨a, ha, hm⟩
    rw [mem_addrRange_bytes hr] at ha
    by_cases hw' : a ∈ bytesAt start size
    · rw [hin a hw'] at hm
      exact .inl ⟨⟨a, hw', ha⟩, hm⟩
    · rw [hout a hw'] at hm
      exact .inr ⟨a, ⟨ha, hw'⟩, hm⟩
  · rintro (⟨⟨a, hw', ha⟩, hm⟩ | ⟨a, ⟨ha, hw'⟩, hm⟩)
    · exact ⟨a, (mem_addrRange_bytes hr).2 ha, by rwa [hin a hw']⟩
    · exact ⟨a, (mem_addrRange_bytes hr).2 ha, by rwa [hout a hw']⟩

/-- In every state that is reached the pointers refer to different sets. In every such state a
`SetTaintForMemory` changes the entries and the sets of its range alone, and a `TaintForMemory` after
it gives the sources and the control taint if the ranges meet, the old marks of the bytes read
outside the range written, and the marks of the address registers. -/
theorem put_get (malloc : Malloc Bitset) (n : Nat) :
    (∀ (operations : List (Operation w)) (g : Globals w) (h : Heap Bitset),
      runOperations malloc n operations .empty = some (g, h) → g.NoSharing n h) ∧
    ∀ (g : Globals w) (h : Heap Bitset), g.NoSharing n h →
    ∀ start size rstart rsize : ADDRINT w, ¬ RangeWraps start size → ¬ RangeWraps rstart rsize →
    ∀ args : List Ptr, (∀ p ∈ args, ∃ k, g.refs none none k = some p) →
    ∀ (baseReg indexReg : REG) (set : Scratch),
      Ensures (g.setTaintForMemory malloc start size args) h fun g₁ h₁ =>
        (∀ k, (∀ a ∈ bytesAt start size, k ≠ .mem a) →
          g₁.refs none none k = g.refs none none k ∧
          ∀ p, g.refs none none k = some p → h₁.get p = h.get p) ∧
        Ensures (g₁.taintForMemory rstart rsize baseReg indexReg (g₁.scratch set)) h₁ fun _ h₂ =>
          pointerMarks h₂ (g₁.scratch set) =
            {m | (bytesAt start size ∩ bytesAt rstart rsize).Nonempty ∧
              m ∈ {m | ∃ p ∈ args, m ∈ pointerMarks h p} ∪ g.active h} ∪
            {m | ∃ a ∈ bytesAt rstart rsize \ bytesAt start size, m ∈ g.marks h (.mem a)} ∪
            (if baseReg.valid then g.marks h (.reg baseReg) else ∅) ∪
            (if indexReg.valid then g.marks h (.reg indexReg) else ∅) := by
  refine ⟨fun operations g h hg => reached_noSharing operations g h hg, ?_⟩
  intro g h hn start size rstart rsize hw hread args hargs baseReg indexReg set
  obtain ⟨st, hr, hst⟩ := Globals.noSharing_iff.1 hn
  obtain ⟨sets, hsets, hok, hmarks⟩ := hr.args hst hargs
  -- the write
  obtain ⟨st₁, hs₁, hst₁, ht₁⟩ := TaintState.setTaintForMemory_gives hst start size hok
  obtain ⟨_, h₁, hg₁, hr₁, map, rfl, hsame⟩ :
      Ensures (g.setTaintForMemory malloc start size args) h _ :=
    Globals.setTaintForMemory_refines hr hsets hs₁
  refine ⟨_, h₁, hg₁, fun k hk => ?_, ?_⟩
  · have hk' : ∀ a ∈ addrRange start (start + size), k ≠ .mem a :=
      fun a ha => hk a ((mem_addrRange_bytes hw).1 ha)
    have hrefs : ({ g with memTaintMap := map }).refs none none k = g.refs none none k := by
      cases k with
      | mem a => exact hsame a fun ha => hk' a ha rfl
      | _ => rfl
    refine ⟨hrefs, fun p hp => ?_⟩
    rw [hr₁.owns.get (hrefs.trans hp), hr.owns.get hp]
    exact setTaintForMemory_sets hst hok hs₁ hk'
  -- the read
  · obtain ⟨st₂, hs₂, -, ht₂⟩ :=
      TaintState.taintForMemory_gives hst₁ rstart rsize baseReg indexReg set
    obtain ⟨u, h₂, hread₂, hr₂⟩ := Globals.taintForMemory_refines hr₁ hs₂
    refine ⟨u, h₂, hread₂, ?_⟩
    have hload := congrArg (fun t => t.scratch set) ht₂
    simp only [TaintState.taint_scratch, Taint.load_scratch_same] at hload
    refine (hr₂.pointerMarks (k := .scratch set) rfl rfl).trans (hload.trans ?_)
    rw [ht₁, bytesMarks_setMem _ hw hread, hmarks, hr.active_eq, ← hr.addressMarks,
      ← hr.addressMarks]
    simp only [hr.memMarks]
    rfl

/-- The bytes 2 to 4, `src`, `EAX`, `eflags` and a branch get the mark 0. -/
def markedRun : List (Operation 32) :=
  [.markMemory [2, 3, 4] 0, .taintForMemory 2 2 .INVALID .INVALID .src,
    .setTaintForRegister .EAX [.src], .taintForRegister .EAX .eflags, .pushControl 0x20]

theorem markedRun_reaches : ∃ (g : Globals 32) (h : Heap Bitset),
    runOperations (.bump Bitset) 2 markedRun .empty = some (g, h) := by
  obtain ⟨⟨g, h⟩, hrun⟩ := Option.isSome_iff_exists.1
    (by decide +kernel : (runOperations (.bump Bitset) 2 markedRun .empty).isSome = true)
  exact ⟨g, h, hrun⟩

/-- After it a word is written and read again at its third byte. -/
theorem put_get_marked : ∃ (g : Globals 32) (h : Heap Bitset),
    runOperations (.bump Bitset) 2 markedRun .empty = some (g, h) ∧ g.NoSharing 2 h ∧
    Ensures (g.setTaintForMemory (.bump Bitset) 0 4 [g.scratch .src]) h fun g₁ h₁ =>
      Ensures (g₁.taintForMemory 2 4 .INVALID .INVALID (g₁.scratch .src)) h₁ fun _ h₂ =>
        pointerMarks h₂ (g₁.scratch .src) =
          {m | (bytesAt (0 : ADDRINT 32) 4 ∩ bytesAt 2 4).Nonempty ∧
            m ∈ {m | ∃ p ∈ [g.scratch .src], m ∈ pointerMarks h p} ∪ g.active h} ∪
          {m | ∃ a ∈ bytesAt 2 4 \ bytesAt 0 4, m ∈ g.marks h (.mem a)} ∪ ∅ ∪ ∅ := by
  obtain ⟨g, h, hrun⟩ := markedRun_reaches
  have hn := (put_get (.bump Bitset) 2).1 markedRun g h hrun
  have hargs : ∀ p ∈ [g.scratch .src], ∃ k, g.refs none none k = some p := by
    intro p hp
    exact ⟨.scratch .src, by rw [List.mem_singleton.1 hp]; rfl⟩
  obtain ⟨g₁, h₁, hg₁, -, hread⟩ := (put_get (.bump Bitset) 2).2 g h hn 0 4 2 4 (by decide)
    (by decide) [g.scratch .src] hargs .INVALID .INVALID .src
  exact ⟨g, h, hrun, hn, g₁, h₁, hg₁, hread⟩

end Dytan
