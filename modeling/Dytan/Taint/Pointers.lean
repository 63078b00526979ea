import Dytan.Lib.Heap
import Dytan.Taint.Marks

/-!
# The taint maps with their pointers

`Globals` is the state of `dytan.cpp` as it is: the maps and the scratch sets hold `bitset *`s, and
sets that are already there are updated in place. Its operations are the analysis functions with
every `bitset_init`, `bitset_copy` and `bitset_free` they do, over a heap and any allocator.

`Globals.Represents g h st`: the pointers refer to different objects, and to the sets of the state
`st`. Every operation keeps it and does on the sets what the operation of `TaintState` does
(`setTaintForMemory_refines` and its siblings), so that no two entries ever share a set.
-/

namespace Dytan

open Lib

/-- `bitset *`. -/
abbrev Ptr := ℕ

section
variable (malloc : Malloc Bitset)

def bitsetInit (nbits : Nat) : HeapM Bitset Ptr := HeapM.alloc malloc (.init nbits)

def bitsetCopy (set : Ptr) : HeapM Bitset Ptr := do
  let s ← HeapM.read set
  HeapM.alloc malloc s.copy

def bitsetReset (set : Ptr) : HeapM Bitset Unit := HeapM.modify set fun s => some s.reset

def bitsetFree (set : Ptr) : HeapM Bitset Unit := HeapM.release set

def bitsetSetBit (set : Ptr) (pos : Nat) : HeapM Bitset Unit := HeapM.modify set (·.setBit pos)

def bitsetSetBits (dest src : Ptr) : HeapM Bitset Unit := do
  let s ← HeapM.read src
  HeapM.modify dest (·.setBits s)

def bitsetUnion (dest src : Ptr) : HeapM Bitset Unit := do
  let s ← HeapM.read src
  HeapM.modify dest (·.union s)

def bitsetIsEmpty (set : Ptr) : HeapM Bitset Bool := do
  let s ← HeapM.read set
  return s.isEmpty

/-- `bitset_union` of each of `sets` into `acc`, in order. -/
def unionInto (acc : Ptr) : List Ptr → HeapM Bitset Unit
  | [] => return
  | set :: sets => do
    bitsetUnion acc set
    unionInto acc sets

variable {α : Type} [DecidableEq α]

/-- The entry of `key` becomes `tmp`: overwritten when present, else a copy is inserted. -/
def putPointer (tmp : Ptr) (map : α → Option Ptr) (key : α) : HeapM Bitset (α → Option Ptr) :=
  match map key with
  | some set => do
    bitsetSetBits set tmp
    return map
  | none => do
    let set ← bitsetCopy malloc tmp
    return Function.update map key (some set)

/-- `map[key] = bitset_copy(s)`. -/
def copyPointer (s : Ptr) (map : α → Option Ptr) (key : α) : HeapM Bitset (α → Option Ptr) := do
  let set ← bitsetCopy malloc s
  return Function.update map key (some set)

/-- The entry of `key` becomes `tmp` when there is one. -/
def refreshPointer (tmp : Ptr) (map : α → Option Ptr) (key : α) : HeapM Bitset Unit :=
  match map key with
  | some set => bitsetSetBits set tmp
  | none => return

def refreshPointers (tmp : Ptr) (map : α → Option Ptr) : List α → HeapM Bitset Unit
  | [] => return
  | key :: keys => do
    refreshPointer tmp map key
    refreshPointers tmp map keys

end

/-- The global variables of `dytan.cpp` that hold taint. -/
structure Globals (w : Nat) where
  regTaintMap : REG → Option Ptr
  memTaintMap : ADDRINT w → Option Ptr
  controlTaintMap : Std.ExtTreeMap (ADDRINT w) Ptr
  scratch : Scratch → Ptr
  numberOfTaintMarks : Nat

namespace Globals

variable {w : Nat} (malloc : Malloc Bitset) (g : Globals w)

/-- `ClearTaintSet`. -/
def clearTaintSet (set : Ptr) : HeapM Bitset Unit := bitsetReset set

/-- `TaintForRegister`. -/
def taintForRegister (reg : REG) (set : Ptr) : HeapM Bitset Unit :=
  match g.regTaintMap reg with
  | some s => bitsetSetBits set s
  | none => bitsetReset set

/-- The part of `TaintForMemory` for the base or the index register. -/
def unionRegister (reg : REG) (set : Ptr) : HeapM Bitset Unit :=
  if reg.valid then
    match g.regTaintMap reg with
    | some s => bitsetUnion set s
    | none => return
  else return

/-- `TaintForMemory`. -/
def taintForMemory (start size : ADDRINT w) (baseReg indexReg : REG) (set : Ptr) :
    HeapM Bitset Unit := do
  bitsetReset set
  unionInto set ((addrRange start (start + size)).filterMap g.memTaintMap)
  g.unionRegister baseReg set
  g.unionRegister indexReg set

/-- The local variable `controlTaint` of the functions that assign or clear. -/
def controlTaint : HeapM Bitset Ptr := do
  let controlTaint ← bitsetInit malloc g.numberOfTaintMarks
  unionInto controlTaint (g.controlTaintMap.toList.map (·.2))
  return controlTaint

/-- The local variables `tmp` and `controlTaint` of the functions that assign. -/
def assignedTaint (args : List Ptr) : HeapM Bitset (Ptr × Ptr) := do
  let tmp ← bitsetInit malloc g.numberOfTaintMarks
  unionInto tmp args
  let controlTaint ← g.controlTaint malloc
  bitsetUnion tmp controlTaint
  return (tmp, controlTaint)

/-- `SetTaintForRegister`. -/
def setTaintForRegister (dest : REG) (args : List Ptr) : HeapM Bitset (Globals w) :=
  if dest = .ESP ∨ dest = .EBP then return g
  else do
    let (tmp, controlTaint) ← g.assignedTaint malloc args
    let map ← (containedRegs dest ++ [dest]).foldlM (putPointer malloc tmp) g.regTaintMap
    bitsetFree tmp
    bitsetFree controlTaint
    return { g with regTaintMap := map }

/-- `ClearTaintForRegister`. -/
def clearTaintForRegister (reg : REG) : HeapM Bitset Unit := do
  let controlTaint ← g.controlTaint malloc
  refreshPointers controlTaint g.regTaintMap (containedRegs reg ++ [reg])
  bitsetFree controlTaint

/-- `SetTaintForMemory`. -/
def setTaintForMemory (start size : ADDRINT w) (args : List Ptr) : HeapM Bitset (Globals w) := do
  let (tmp, controlTaint) ← g.assignedTaint malloc args
  let map ← (addrRange start (start + size)).foldlM (putPointer malloc tmp) g.memTaintMap
  bitsetFree tmp
  bitsetFree controlTaint
  return { g with memTaintMap := map }

/-- `ClearTaintForMemory`. -/
def clearTaintForMemory (start size : ADDRINT w) : HeapM Bitset Unit := do
  let controlTaint ← g.controlTaint malloc
  refreshPointers controlTaint g.memTaintMap (addrRange start (start + size))
  bitsetFree controlTaint

/-- `controlTaintMap[addr]`, a new set when there is none. -/
def controlEntry (addr : ADDRINT w) : HeapM Bitset (Ptr × Globals w) :=
  match g.controlTaintMap[addr]? with
  | some set => return (set, g)
  | none => do
    let set ← bitsetInit malloc g.numberOfTaintMarks
    return (set, { g with controlTaintMap := g.controlTaintMap.insert addr set })

/-- `PushControl`. -/
def pushControl (addr : ADDRINT w) : HeapM Bitset (Globals w) :=
  match g.regTaintMap .EFLAGS with
  | none => return g
  | some eflags => do
    if ← bitsetIsEmpty eflags then return g
    else
      let (set, g) ← g.controlEntry malloc addr
      bitsetUnion set eflags
      return g

/-- `PopControl`. -/
def popControl (g : Globals w) : List (ADDRINT w) → HeapM Bitset (Globals w)
  | [] => return g
  | addr :: addrs =>
    match g.controlTaintMap[addr]? with
    | some s => do
      bitsetFree s
      popControl { g with controlTaintMap := g.controlTaintMap.erase addr } addrs
    | none => return g

/-- The loops of `SetNewTaintForMemory`, the `AssignTag` functions and the sources that give one mark
to all bytes they read. -/
def markMemory (addrs : List (ADDRINT w)) (mark : Nat) : HeapM Bitset (Globals w) := do
  let s ← bitsetInit malloc g.numberOfTaintMarks
  bitsetSetBit s mark
  let map ← addrs.foldlM (copyPointer malloc s) g.memTaintMap
  bitsetFree s
  return { g with memTaintMap := map }

/-- A round of the loop of the sources that give each byte a mark of its own. -/
def markByte (s : Ptr) (map : ADDRINT w → Option Ptr) (byte : ADDRINT w × Nat) :
    HeapM Bitset (ADDRINT w → Option Ptr) := do
  bitsetSetBit s byte.2
  let map ← copyPointer malloc s map byte.1
  bitsetReset s
  return map

/-- The loop of the sources that give each byte a mark of its own. -/
def markBytes (bytes : List (ADDRINT w × Nat)) : HeapM Bitset (Globals w) := do
  let s ← bitsetInit malloc g.numberOfTaintMarks
  let map ← bytes.foldlM (markByte malloc s) g.memTaintMap
  bitsetFree s
  return { g with memTaintMap := map }

/-- `memTaintMap.erase(addr)`, as `ClearTagsForByteRange` does: the set is not freed. -/
def eraseMemory (addr : ADDRINT w) : Globals w :=
  { g with memTaintMap := Function.update g.memTaintMap addr none }

/-- One round of the loops in `syscall_functions.cpp`: the set is freed and the entry erased. -/
def freeMemory (addr : ADDRINT w) : HeapM Bitset (Globals w) :=
  match g.memTaintMap addr with
  | some set => do
    bitsetFree set
    return g.eraseMemory addr
  | none => return g

end Globals

/-! ## The sets behind the pointers -/

/-- Who refers to a set: an entry of a map, a scratch variable, or one of the local variables `tmp`
and `controlTaint` of the function that runs. -/
inductive Key (w : Nat)
  | reg (r : REG)
  | mem (a : ADDRINT w)
  | control (a : ADDRINT w)
  | scratch (set : Scratch)
  | tmp
  | controlTaint
deriving DecidableEq

section
variable {w : Nat}

def Globals.refs (g : Globals w) (tmp controlTaint : Option Ptr) : Key w → Option Ptr
  | .reg r => g.regTaintMap r
  | .mem a => g.memTaintMap a
  | .control a => g.controlTaintMap[a]?
  | .scratch set => some (g.scratch set)
  | .tmp => tmp
  | .controlTaint => controlTaint

def TaintState.sets (st : TaintState w) (tmp controlTaint : Option Bitset) : Key w → Option Bitset
  | .reg r => st.regTaintMap r
  | .mem a => st.memTaintMap a
  | .control a => st.controlTaintMap[a]?
  | .scratch set => some (st.scratch set)
  | .tmp => tmp
  | .controlTaint => controlTaint

/-- The pointers refer to different objects, and to the sets of `st`. -/
structure Globals.Represents (g : Globals w) (h : Heap Bitset) (st : TaintState w) : Prop where
  owns : Owns h (g.refs none none) (st.sets none none)
  marks : g.numberOfTaintMarks = st.numberOfTaintMarks

/-- A global variable or an entry refers to the set `s` by the pointer `p`. -/
def Globals.Holds (g : Globals w) (st : TaintState w) (p : Ptr) (s : Bitset) : Prop :=
  ∃ k, g.refs none none k = some p ∧ st.sets none none k = some s

variable {g : Globals w} {st : TaintState w} {t c : Option Ptr} {x y : Option Bitset}

@[simp] theorem refs_tmp (t' : Option Ptr) :
    Function.update (g.refs t c) .tmp t' = g.refs t' c := by
  funext k
  cases k <;> simp [Globals.refs]

@[simp] theorem refs_controlTaint (c' : Option Ptr) :
    Function.update (g.refs t c) .controlTaint c' = g.refs t c' := by
  funext k
  cases k <;> simp [Globals.refs]

@[simp] theorem sets_tmp (x' : Option Bitset) :
    Function.update (st.sets x y) .tmp x' = st.sets x' y := by
  funext k
  cases k <;> simp [TaintState.sets]

@[simp] theorem sets_controlTaint (y' : Option Bitset) :
    Function.update (st.sets x y) .controlTaint y' = st.sets x y' := by
  funext k
  cases k <;> simp [TaintState.sets]

@[simp] theorem sets_scratch (set : Scratch) (s : Bitset) :
    Function.update (st.sets x y) (.scratch set) (some s) = (st.setScratch set s).sets x y := by
  funext k
  cases k <;> simp [TaintState.sets, TaintState.setScratch, Function.update_apply]
  split <;> rfl

theorem refs_insert (addr : ADDRINT w) (p : Ptr) :
    Function.update (g.refs t c) (.control addr) (some p) =
      ({ g with controlTaintMap := g.controlTaintMap.insert addr p }).refs t c := by
  funext k
  cases k <;> simp [Globals.refs, Function.update_apply, getElem?_insert_eq]

theorem sets_insert (addr : ADDRINT w) (s : Bitset) :
    Function.update (st.sets x y) (.control addr) (some s) =
      ({ st with controlTaintMap := st.controlTaintMap.insert addr s }).sets x y := by
  funext k
  cases k <;> simp [TaintState.sets, Function.update_apply, getElem?_insert_eq]

theorem refs_erase (addr : ADDRINT w) :
    Function.update (g.refs t c) (.control addr) none =
      ({ g with controlTaintMap := g.controlTaintMap.erase addr }).refs t c := by
  funext k
  cases k <;> simp [Globals.refs, Function.update_apply, getElem?_erase_eq]

theorem sets_erase (addr : ADDRINT w) :
    Function.update (st.sets x y) (.control addr) none =
      ({ st with controlTaintMap := st.controlTaintMap.erase addr }).sets x y := by
  funext k
  cases k <;> simp [TaintState.sets, Function.update_apply, getElem?_erase_eq]

/-- `F map` is a family of references with the entries of `map` at the keys `e`. -/
structure View {α β : Type} [DecidableEq α] (e : α → Key w)
    (F : (α → Option β) → Key w → Option β) : Prop where
  get : ∀ map a, F map (e a) = map a
  set : ∀ map a b, Function.update (F map) (e a) b = F (Function.update map a b)

theorem refs_reg : View .reg fun map => ({ g with regTaintMap := map }).refs t c := by
  refine ⟨fun _ _ => rfl, fun map r b => funext fun k => ?_⟩
  cases k <;> simp [Globals.refs, Function.update_apply]

theorem refs_mem : View .mem fun map => ({ g with memTaintMap := map }).refs t c := by
  refine ⟨fun _ _ => rfl, fun map a b => funext fun k => ?_⟩
  cases k <;> simp [Globals.refs, Function.update_apply]

theorem sets_reg : View .reg fun map => ({ st with regTaintMap := map }).sets x y := by
  refine ⟨fun _ _ => rfl, fun map r b => funext fun k => ?_⟩
  cases k <;> simp [TaintState.sets, Function.update_apply]

theorem sets_mem : View .mem fun map => ({ st with memTaintMap := map }).sets x y := by
  refine ⟨fun _ _ => rfl, fun map a b => funext fun k => ?_⟩
  cases k <;> simp [TaintState.sets, Function.update_apply]

/-- What is held does not depend on the local variables. -/
theorem Globals.Holds.locals {p : Ptr} {s : Bitset} (hp : g.Holds st p s) :
    ∃ k, k ≠ .tmp ∧ k ≠ .controlTaint ∧ (∀ t c, g.refs t c k = some p) ∧
      ∀ x y, st.sets x y k = some s := by
  obtain ⟨k, hk, hs⟩ := hp
  cases k with
  | reg r => exact ⟨.reg r, nofun, nofun, fun _ _ => hk, fun _ _ => hs⟩
  | mem a => exact ⟨.mem a, nofun, nofun, fun _ _ => hk, fun _ _ => hs⟩
  | control a => exact ⟨.control a, nofun, nofun, fun _ _ => hk, fun _ _ => hs⟩
  | scratch set => exact ⟨.scratch set, nofun, nofun, fun _ _ => hk, fun _ _ => hs⟩
  | tmp => cases hk
  | controlTaint => cases hk

end

/-! ## The operations on bit sets -/

section
variable {K α : Type} [DecidableEq K] [DecidableEq α] {malloc : Malloc Bitset} {h : Heap Bitset}
  {ρ : K → Option Ptr} {v : K → Option Bitset} {k k' : K} {dest src : Ptr} {d s r : Bitset}

theorem ensures_setBits {Q : Unit → Heap Bitset → Prop} (ho : Owns h ρ v) (hd : ρ k = some dest)
    (hs : ρ k' = some src) (hvd : v k = some d) (hvs : v k' = some s) (hr : d.setBits s = some r)
    (hQ : ∀ h', Owns h' ρ (Function.update v k (some r)) → Q () h') :
    Ensures (bitsetSetBits dest src) h Q :=
  ho.ensures_read_bind hs hvs (ho.ensures_modify hd hvd hr hQ)

theorem ensures_union {Q : Unit → Heap Bitset → Prop} (ho : Owns h ρ v) (hd : ρ k = some dest)
    (hs : ρ k' = some src) (hvd : v k = some d) (hvs : v k' = some s) (hr : d.union s = some r)
    (hQ : ∀ h', Owns h' ρ (Function.update v k (some r)) → Q () h') :
    Ensures (bitsetUnion dest src) h Q :=
  ho.ensures_read_bind hs hvs (ho.ensures_modify hd hvd hr hQ)

theorem ensures_copy {Q : Ptr → Heap Bitset → Prop} (ho : Owns h ρ v) (hs : ρ k' = some src)
    (hvs : v k' = some s) (k : K)
    (hQ : ∀ p h', Owns h' (Function.update ρ k (some p)) (Function.update v k (some s.copy)) →
      Q p h') : Ensures (bitsetCopy malloc src) h Q :=
  ho.ensures_read_bind hs hvs (ho.ensures_alloc k hQ)

/-- A union over sets that are not the one that is updated. -/
theorem ensures_unionInto {Q : Unit → Heap Bitset → Prop} {sources : List Ptr} {sets : List Bitset}
    (ho : Owns h ρ v) (hd : ρ k = some dest) (hvd : v k = some d)
    (hs : List.Forall₂ (fun p s => ∃ k', k' ≠ k ∧ ρ k' = some p ∧ v k' = some s) sources sets)
    (hr : unionAll d sets = some r)
    (hQ : ∀ h', Owns h' ρ (Function.update v k (some r)) → Q () h') :
    Ensures (unionInto dest sources) h Q := by
  induction sources generalizing sets h v d with
  | nil =>
    cases hs
    obtain rfl := Option.some.inj hr
    refine Ensures.pure (hQ h ?_)
    rwa [← hvd, Function.update_eq_self]
  | cons p sources ih =>
    cases hs with | cons hps hrest => ?_
    rw [unionAll, List.foldlM_cons] at hr
    obtain ⟨u, hu, hr⟩ := Option.bind_eq_some_iff.1 hr
    obtain ⟨k', hne, hp, hv⟩ := hps
    refine Ensures.bind (ensures_union ho hd hp hvd hv hu fun h' ho' => ?_)
    refine ih ho' (Function.update_self ..) ?_ hr fun h'' ho'' => hQ h'' ?_
    · refine hrest.imp fun p s => ?_
      rintro ⟨k', hne, hp, hv⟩
      exact ⟨k', hne, hp, by rwa [Function.update_of_ne hne]⟩
    · rwa [Function.update_idem] at ho''

end

/-! ## The loops over entries -/

section
variable {w : Nat} {α : Type} [DecidableEq α] {malloc : Malloc Bitset} {h : Heap Bitset}
  {e : α → Key w} {F : (α → Option Ptr) → Key w → Option Ptr}
  {V : (α → Option Bitset) → Key w → Option Bitset} {map : α → Option Ptr}
  {vmap vmap' : α → Option Bitset} {k : Key w} {tmp : Ptr} {x : Bitset}

/-- `Owns.entry` for the entries of a map. -/
theorem View.entry (hV : View e V) (hF : View e F) (ho : Owns h (F map) (V vmap)) (key : α) :
    (∀ {set}, map key = some set → ∃ s, vmap key = some s) ∧ (map key = none → vmap key = none) := by
  have hentry := ho.entry (e key)
  rwa [hF.get, hV.get] at hentry

theorem ensures_putPointer {Q : (α → Option Ptr) → Heap Bitset → Prop} (hF : View e F)
    (hV : View e V) (ho : Owns h (F map) (V vmap)) (ht : F map k = some tmp)
    (hx : V vmap k = some x) {key : α} (hr : putEntry x vmap key = some vmap')
    (hQ : ∀ map' h', Owns h' (F map') (V vmap') → (∀ a, a ≠ key → map' a = map a) → Q map' h') :
    Ensures (putPointer malloc tmp map key) h Q := by
  unfold putPointer
  unfold putEntry at hr
  have hv := hV.entry hF ho key
  cases hkey : map key with
  | some set =>
    obtain ⟨s, hs⟩ := hv.1 hkey
    rw [hs] at hr
    obtain ⟨r, hset, hr⟩ := Option.bind_eq_some_iff.1 hr
    obtain rfl := Option.some.inj hr
    refine Ensures.bind (ensures_setBits ho ((hF.get map key).trans hkey) ht
      ((hV.get vmap key).trans hs) hx hset fun h' ho' => ?_)
    rw [hV.set] at ho'
    exact Ensures.pure (hQ _ _ ho' fun _ _ => rfl)
  | none =>
    rw [hv.2 hkey] at hr
    obtain rfl := Option.some.inj hr
    refine Ensures.bind (ensures_copy ho ht hx (e key) fun p h' ho' => ?_)
    rw [hF.set, hV.set] at ho'
    exact Ensures.pure (hQ _ _ ho' fun a ha => Function.update_of_ne ha ..)

theorem ensures_copyPointer {Q : (α → Option Ptr) → Heap Bitset → Prop} (hF : View e F)
    (hV : View e V) (ho : Owns h (F map) (V vmap)) (ht : F map k = some tmp)
    (hx : V vmap k = some x) (key : α)
    (hQ : ∀ map' h', Owns h' (F map') (V (Function.update vmap key (some x.copy))) → Q map' h') :
    Ensures (copyPointer malloc tmp map key) h Q := by
  refine Ensures.bind (ensures_copy ho ht hx (e key) fun p h' ho' => ?_)
  rw [hF.set, hV.set] at ho'
  exact Ensures.pure (hQ _ _ ho')

theorem ensures_putPointers {Q : (α → Option Ptr) → Heap Bitset → Prop} {keys : List α}
    (hF : View e F) (hV : View e V) (ho : Owns h (F map) (V vmap)) (ht : ∀ map, F map k = some tmp)
    (hx : ∀ vmap, V vmap k = some x) (hr : keys.foldlM (putEntry x) vmap = some vmap')
    (hQ : ∀ map' h', Owns h' (F map') (V vmap') → (∀ a ∉ keys, map' a = map a) → Q map' h') :
    Ensures (keys.foldlM (putPointer malloc tmp) map) h Q := by
  induction keys generalizing map vmap h with
  | nil =>
    obtain rfl := Option.some.inj hr
    exact Ensures.pure (hQ _ _ ho fun _ _ => rfl)
  | cons key keys ih =>
    rw [List.foldlM_cons] at hr ⊢
    obtain ⟨vmap₁, h1, hr⟩ := Option.bind_eq_some_iff.1 hr
    refine Ensures.bind (ensures_putPointer hF hV ho (ht map) (hx vmap) h1 fun map₁ h₁ ho₁ hsame => ?_)
    refine ih ho₁ hr fun map' h' ho' hsame' => hQ map' h' ho' fun a ha => ?_
    rw [List.mem_cons, not_or] at ha
    rw [hsame' a ha.2, hsame a ha.1]

theorem ensures_refreshPointer {Q : Unit → Heap Bitset → Prop} (hF : View e F) (hV : View e V)
    (ho : Owns h (F map) (V vmap)) (ht : F map k = some tmp) (hx : V vmap k = some x) {key : α}
    (hr : refreshEntry x vmap key = some vmap') (hQ : ∀ h', Owns h' (F map) (V vmap') → Q () h') :
    Ensures (refreshPointer tmp map key) h Q := by
  unfold refreshPointer
  unfold refreshEntry at hr
  have hv := hV.entry hF ho key
  cases hkey : map key with
  | some set =>
    obtain ⟨s, hs⟩ := hv.1 hkey
    rw [hs] at hr
    obtain ⟨r, hset, hr⟩ := Option.bind_eq_some_iff.1 hr
    obtain rfl := Option.some.inj hr
    refine ensures_setBits ho ((hF.get map key).trans hkey) ht ((hV.get vmap key).trans hs) hx hset
      fun h' ho' => hQ h' ?_
    rwa [hV.set] at ho'
  | none =>
    rw [hv.2 hkey] at hr
    obtain rfl := Option.some.inj hr
    exact Ensures.pure (hQ h ho)

theorem ensures_refreshPointers {Q : Unit → Heap Bitset → Prop} {keys : List α}
    (hF : View e F) (hV : View e V) (ho : Owns h (F map) (V vmap)) (ht : ∀ map, F map k = some tmp)
    (hx : ∀ vmap, V vmap k = some x) (hr : keys.foldlM (refreshEntry x) vmap = some vmap')
    (hQ : ∀ h', Owns h' (F map) (V vmap') → Q () h') :
    Ensures (refreshPointers tmp map keys) h Q := by
  induction keys generalizing vmap h with
  | nil =>
    obtain rfl := Option.some.inj hr
    exact Ensures.pure (hQ _ ho)
  | cons key keys ih =>
    rw [List.foldlM_cons] at hr
    obtain ⟨vmap₁, h1, hr⟩ := Option.bind_eq_some_iff.1 hr
    exact Ensures.bind (ensures_refreshPointer hF hV ho (ht map) (hx vmap) h1 fun h' ho' => ih ho' hr)

end

/-! ## The local sets -/

section
variable {w n : Nat} {malloc : Malloc Bitset} {g : Globals w} {h : Heap Bitset} {st : TaintState w}
  {t c : Option Ptr} {x y : Option Bitset}

/-- The sets of the control map, in its order. -/
theorem control_forall₂ (ho : Owns h (g.refs t c) (st.sets x y)) :
    List.Forall₂
      (fun p s => ∃ a : ADDRINT w, g.controlTaintMap[a]? = some p ∧ st.controlTaintMap[a]? = some s)
      (g.controlTaintMap.toList.map (·.2)) (st.controlTaintMap.toList.map (·.2)) := by
  have hmap : st.controlTaintMap = g.controlTaintMap.map fun _ p => (h.get p).getD (.init 0) := by
    refine Std.ExtTreeMap.ext_getElem? fun a => ?_
    rw [Std.ExtTreeMap.getElem?_map]
    have hv := ho.value (.control a)
    simp only [TaintState.sets, Globals.refs] at hv
    rw [hv]
    cases hp : g.controlTaintMap[a]? with
    | none => rfl
    | some p =>
      obtain ⟨s, hs⟩ := Option.isSome_iff_exists.1 (ho.live (.control a) p hp)
      simp [hs]
  have hget : ∀ q ∈ g.controlTaintMap.toList, g.controlTaintMap[q.1]? = some q.2 ∧
      st.controlTaintMap[q.1]? = some ((h.get q.2).getD (.init 0)) := by
    intro q hq
    have hp := Std.ExtTreeMap.mem_toList_iff_getElem?_eq_some.1 hq
    refine ⟨hp, ?_⟩
    rw [hmap, Std.ExtTreeMap.getElem?_map, hp]
    rfl
  have hlist : st.controlTaintMap.toList.map (·.2) =
      g.controlTaintMap.toList.map fun q => (h.get q.2).getD (.init 0) := by
    conv_lhs => rw [hmap, Std.ExtTreeMap.toList_map, List.map_map]
    rfl
  rw [hlist, List.forall₂_map_left_iff, List.forall₂_map_right_iff, List.forall₂_same]
  exact fun q hq => ⟨q.1, hget q hq⟩

theorem ensures_controlTaint {Q : Ptr → Heap Bitset → Prop} {r : Bitset}
    (ho : Owns h (g.refs t none) (st.sets x none)) (hn : g.numberOfTaintMarks = st.numberOfTaintMarks)
    (hr : st.controlTaint = some r)
    (hQ : ∀ c h', Owns h' (g.refs t (some c)) (st.sets x (some r)) → Q c h') :
    Ensures (g.controlTaint malloc) h Q := by
  refine Ensures.bind (ho.ensures_alloc .controlTaint fun c h₁ ho₁ => ?_)
  rw [refs_controlTaint, sets_controlTaint] at ho₁
  have hsources := (control_forall₂ ho₁).imp (S := fun p s => ∃ k' : Key w, k' ≠ .controlTaint ∧
      g.refs t (some c) k' = some p ∧
      st.sets x (some (.init g.numberOfTaintMarks)) k' = some s) fun p s hps => by
    obtain ⟨a, hp, hs⟩ := hps
    exact ⟨.control a, by simp, hp, hs⟩
  rw [TaintState.controlTaint, ← hn] at hr
  refine Ensures.bind (ensures_unionInto ho₁ rfl rfl hsources hr fun h₂ ho₂ => ?_)
  rw [sets_controlTaint] at ho₂
  exact Ensures.pure (hQ c h₂ ho₂)

theorem ensures_assignedTaint {Q : Ptr × Ptr → Heap Bitset → Prop} {args : List Ptr}
    {sets : List Bitset} {r : Bitset} (hr : g.Represents h st)
    (hargs : List.Forall₂ (g.Holds st) args sets) (ha : st.assignedTaint sets = some r)
    (hQ : ∀ tmp c y h', Owns h' (g.refs (some tmp) (some c)) (st.sets (some r) (some y)) →
      Q (tmp, c) h') : Ensures (g.assignedTaint malloc args) h Q := by
  obtain ⟨u, hu, ha⟩ := Option.bind_eq_some_iff.1 ha
  obtain ⟨y, hy, ha⟩ := Option.bind_eq_some_iff.1 ha
  refine Ensures.bind (hr.owns.ensures_alloc .tmp fun tmp h₁ ho₁ => ?_)
  rw [refs_tmp, sets_tmp] at ho₁
  have hsources := hargs.imp (S := fun p s => ∃ k' : Key w, k' ≠ .tmp ∧
      g.refs (some tmp) none k' = some p ∧
      st.sets (some (.init g.numberOfTaintMarks)) none k' = some s) fun p s hp => by
    obtain ⟨k, hne, -, hk, hs⟩ := hp.locals
    exact ⟨k, hne, hk _ _, hs _ _⟩
  refine Ensures.bind (ensures_unionInto ho₁ rfl rfl hsources (hr.marks ▸ hu) fun h₂ ho₂ => ?_)
  rw [sets_tmp] at ho₂
  refine Ensures.bind (ensures_controlTaint ho₂ hr.marks hy fun c h₃ ho₃ => ?_)
  have htmp : g.refs (some tmp) (some c) .tmp = some tmp := rfl
  have hc : g.refs (some tmp) (some c) .controlTaint = some c := rfl
  refine Ensures.bind (ensures_union ho₃ htmp hc rfl rfl ha fun h₄ ho₄ => ?_)
  rw [sets_tmp] at ho₄
  exact Ensures.pure (hQ tmp c y h₄ ho₄)

/-- The local sets are freed. -/
theorem ensures_free {β : Type} {Q : β → Heap Bitset → Prop} {b : β} {tmp c : Ptr}
    (ho : Owns h (g.refs (some tmp) (some c)) (st.sets x y))
    (hQ : ∀ h', Owns h' (g.refs none none) (st.sets none none) → Q b h') :
    Ensures (do bitsetFree tmp; bitsetFree c; return b) h Q := by
  have htmp : g.refs (some tmp) (some c) .tmp = some tmp := rfl
  refine Ensures.bind (ho.ensures_release htmp fun h₁ ho₁ => ?_)
  rw [refs_tmp, sets_tmp] at ho₁
  have hc : g.refs none (some c) .controlTaint = some c := rfl
  refine Ensures.bind (ho₁.ensures_release hc fun h₂ ho₂ => ?_)
  rw [refs_controlTaint, sets_controlTaint] at ho₂
  exact Ensures.pure (hQ h₂ ho₂)

end

/-! ## The operations -/

namespace Globals

section
variable {w : Nat} {malloc : Malloc Bitset} {g : Globals w} {h : Heap Bitset} {st st' : TaintState w}

theorem clearTaintSet_refines (hr : g.Represents h st) (set : Scratch) :
    Ensures (clearTaintSet (g.scratch set)) h fun _ h' => g.Represents h' (st.clearTaintSet set) := by
  have hset : g.refs none none (.scratch set) = some (g.scratch set) := rfl
  refine hr.owns.ensures_modify hset rfl rfl fun h' ho' => ⟨?_, hr.marks⟩
  rwa [sets_scratch] at ho'

theorem taintForRegister_refines (hr : g.Represents h st) {reg : REG} {set : Scratch}
    (hst : st.taintForRegister reg set = some st') :
    Ensures (g.taintForRegister reg (g.scratch set)) h fun _ h' => g.Represents h' st' := by
  have hset : g.refs none none (.scratch set) = some (g.scratch set) := rfl
  have hentry := hr.owns.entry (.reg reg)
  unfold taintForRegister
  unfold TaintState.taintForRegister at hst
  cases hreg : g.regTaintMap reg with
  | some p =>
    obtain ⟨s, hs⟩ := hentry.1 hreg
    have hs' : st.regTaintMap reg = some s := hs
    rw [hs'] at hst
    obtain ⟨r, hbits, hst⟩ := Option.bind_eq_some_iff.1 hst
    obtain rfl := Option.some.inj hst
    have hp : g.refs none none (.reg reg) = some p := hreg
    refine ensures_setBits hr.owns hset hp rfl hs hbits fun h' ho' => ⟨?_, hr.marks⟩
    rwa [sets_scratch] at ho'
  | none =>
    have hs' : st.regTaintMap reg = none := hentry.2 hreg
    rw [hs'] at hst
    obtain rfl := Option.some.inj hst
    exact clearTaintSet_refines hr set

/-- The base or the index register, with the set that is loaded being `s`. -/
theorem ensures_unionRegister {Q : Unit → Heap Bitset → Prop} {set : Scratch} {s r : Bitset}
    (ho : Owns h (g.refs none none) ((st.setScratch set s).sets none none)) {reg : REG}
    (hu : st.unionRegister reg s = some r)
    (hQ : ∀ h', Owns h' (g.refs none none) ((st.setScratch set r).sets none none) → Q () h') :
    Ensures (g.unionRegister reg (g.scratch set)) h Q := by
  have hset : g.refs none none (.scratch set) = some (g.scratch set) := rfl
  have hval : (st.setScratch set s).sets none none (.scratch set) = some s := by
    simp [TaintState.sets, TaintState.setScratch]
  have hentry := ho.entry (.reg reg)
  unfold unionRegister
  unfold TaintState.unionRegister at hu
  split
  · rename_i hvalid
    rw [if_pos hvalid] at hu
    cases hreg : g.regTaintMap reg with
    | some p =>
      obtain ⟨u, hs⟩ := hentry.1 hreg
      have hs' : st.regTaintMap reg = some u := hs
      rw [hs'] at hu
      have hp : g.refs none none (.reg reg) = some p := hreg
      refine ensures_union ho hset hp hval hs hu fun h' ho' => hQ h' ?_
      rw [sets_scratch] at ho'
      simpa [TaintState.setScratch] using ho'
    | none =>
      have hs' : st.regTaintMap reg = none := hentry.2 hreg
      rw [hs'] at hu
      obtain rfl := Option.some.inj hu
      exact Ensures.pure (hQ h ho)
  · rename_i hvalid
    rw [if_neg hvalid] at hu
    obtain rfl := Option.some.inj hu
    exact Ensures.pure (hQ h ho)

/-- The entries of a range that are there. -/
theorem bytes_forall₂ (ho : Owns h (g.refs none none) (st.sets none none)) (addrs : List (ADDRINT w)) :
    List.Forall₂ (fun p s => ∃ a, g.memTaintMap a = some p ∧ st.memTaintMap a = some s)
      (addrs.filterMap g.memTaintMap) (addrs.filterMap st.memTaintMap) := by
  induction addrs with
  | nil => exact .nil
  | cons a addrs ih =>
    have hentry := ho.entry (.mem a)
    cases hp : g.memTaintMap a with
    | some p =>
      obtain ⟨s, hs⟩ := hentry.1 hp
      have hs' : st.memTaintMap a = some s := hs
      rw [List.filterMap_cons_some hp, List.filterMap_cons_some hs']
      exact .cons ⟨a, hp, hs'⟩ ih
    | none =>
      have hs' : st.memTaintMap a = none := hentry.2 hp
      rwa [List.filterMap_cons_none hp, List.filterMap_cons_none hs']

theorem taintForMemory_refines (hr : g.Represents h st) {start size : ADDRINT w}
    {baseReg indexReg : REG} {set : Scratch}
    (hst : st.taintForMemory start size baseReg indexReg set = some st') :
    Ensures (g.taintForMemory start size baseReg indexReg (g.scratch set)) h
      fun _ h' => g.Represents h' st' := by
  obtain ⟨s, hs, hst⟩ := Option.bind_eq_some_iff.1 hst
  obtain ⟨b, hb, hst⟩ := Option.bind_eq_some_iff.1 hst
  obtain ⟨i, hi, hst⟩ := Option.bind_eq_some_iff.1 hst
  obtain rfl := Option.some.inj hst
  have hset : g.refs none none (.scratch set) = some (g.scratch set) := rfl
  refine Ensures.bind (hr.owns.ensures_modify hset rfl rfl fun h₁ ho₁ => ?_)
  rw [sets_scratch] at ho₁
  have hval : (st.setScratch set (st.scratch set).reset).sets none none (.scratch set) =
      some (st.scratch set).reset := by simp [TaintState.sets, TaintState.setScratch]
  have hbytes := (bytes_forall₂ ho₁ (addrRange start (start + size))).imp
    (S := fun p s => ∃ k' : Key w, k' ≠ .scratch set ∧ g.refs none none k' = some p ∧
      (st.setScratch set (st.scratch set).reset).sets none none k' = some s)
    fun p s hps => by
      obtain ⟨a, hp, hs⟩ := hps
      exact ⟨.mem a, by simp, hp, hs⟩
  refine Ensures.bind (ensures_unionInto ho₁ hset hval hbytes hs fun h₂ ho₂ => ?_)
  rw [sets_scratch] at ho₂
  have ho₂' : Owns h₂ (g.refs none none) ((st.setScratch set s).sets none none) := by
    simpa [TaintState.setScratch] using ho₂
  refine Ensures.bind (ensures_unionRegister ho₂' hb fun h₃ ho₃ => ?_)
  exact ensures_unionRegister ho₃ hi fun h₄ ho₄ => ⟨ho₄, hr.marks⟩

theorem setTaintForMemory_refines (hr : g.Represents h st) {start size : ADDRINT w} {args : List Ptr}
    {sets : List Bitset} (hargs : List.Forall₂ (g.Holds st) args sets)
    (hst : st.setTaintForMemory start size sets = some st') :
    Ensures (g.setTaintForMemory malloc start size args) h fun g' h' => g'.Represents h' st' ∧
      ∃ map, g' = { g with memTaintMap := map } ∧
        ∀ a ∉ addrRange start (start + size), map a = g.memTaintMap a := by
  obtain ⟨x, hx, hst⟩ := Option.bind_eq_some_iff.1 hst
  obtain ⟨vmap, hmap, hst⟩ := Option.bind_eq_some_iff.1 hst
  obtain rfl := Option.some.inj hst
  refine Ensures.bind (ensures_assignedTaint hr hargs hx fun tmp c y h₁ ho₁ => ?_)
  refine Ensures.bind (ensures_putPointers refs_mem sets_mem ho₁ (k := .tmp) (fun _ => rfl)
    (fun _ => rfl) hmap fun map h₂ ho₂ hsame => ?_)
  exact ensures_free ho₂ fun h₃ ho₃ => ⟨⟨ho₃, hr.marks⟩, map, rfl, hsame⟩

theorem setTaintForRegister_refines (hr : g.Represents h st) {dest : REG} {args : List Ptr}
    {sets : List Bitset} (hargs : List.Forall₂ (g.Holds st) args sets)
    (hst : st.setTaintForRegister dest sets = some st') :
    Ensures (g.setTaintForRegister malloc dest args) h fun g' h' => g'.Represents h' st' ∧
      ∃ map, g' = { g with regTaintMap := map } ∧
        ∀ r ∉ containedRegs dest ++ [dest], map r = g.regTaintMap r := by
  unfold setTaintForRegister
  unfold TaintState.setTaintForRegister at hst
  split
  · rename_i hstack
    rw [if_pos hstack] at hst
    obtain rfl := Option.some.inj hst
    exact Ensures.pure ⟨hr, _, rfl, fun _ _ => rfl⟩
  · rename_i hstack
    rw [if_neg hstack] at hst
    obtain ⟨x, hx, hst⟩ := Option.bind_eq_some_iff.1 hst
    obtain ⟨vmap, hmap, hst⟩ := Option.bind_eq_some_iff.1 hst
    obtain rfl := Option.some.inj hst
    refine Ensures.bind (ensures_assignedTaint hr hargs hx fun tmp c y h₁ ho₁ => ?_)
    refine Ensures.bind (ensures_putPointers refs_reg sets_reg ho₁ (k := .tmp) (fun _ => rfl)
      (fun _ => rfl) hmap fun map h₂ ho₂ hsame => ?_)
    exact ensures_free ho₂ fun h₃ ho₃ => ⟨⟨ho₃, hr.marks⟩, map, rfl, hsame⟩

/-- The local set of the functions that clear is freed. -/
theorem ensures_freeControl {Q : Unit → Heap Bitset → Prop} {c : Ptr} {y : Option Bitset}
    (ho : Owns h (g.refs none (some c)) (st.sets none y))
    (hQ : ∀ h', Owns h' (g.refs none none) (st.sets none none) → Q () h') :
    Ensures (bitsetFree c) h Q := by
  have hc : g.refs none (some c) .controlTaint = some c := rfl
  refine ho.ensures_release hc fun h' ho' => hQ h' ?_
  rwa [refs_controlTaint, sets_controlTaint] at ho'

theorem clearTaintForRegister_refines (hr : g.Represents h st) {reg : REG}
    (hst : st.clearTaintForRegister reg = some st') :
    Ensures (g.clearTaintForRegister malloc reg) h fun _ h' => g.Represents h' st' := by
  obtain ⟨y, hy, hst⟩ := Option.bind_eq_some_iff.1 hst
  obtain ⟨vmap, hmap, hst⟩ := Option.bind_eq_some_iff.1 hst
  obtain rfl := Option.some.inj hst
  refine Ensures.bind (ensures_controlTaint hr.owns hr.marks hy fun c h₁ ho₁ => ?_)
  refine Ensures.bind (ensures_refreshPointers refs_reg sets_reg ho₁ (k := .controlTaint)
    (fun _ => rfl) (fun _ => rfl) hmap fun h₂ ho₂ => ?_)
  exact ensures_freeControl ho₂ fun h₃ ho₃ => ⟨ho₃, hr.marks⟩

theorem clearTaintForMemory_refines (hr : g.Represents h st) {start size : ADDRINT w}
    (hst : st.clearTaintForMemory start size = some st') :
    Ensures (g.clearTaintForMemory malloc start size) h fun _ h' => g.Represents h' st' := by
  obtain ⟨y, hy, hst⟩ := Option.bind_eq_some_iff.1 hst
  obtain ⟨vmap, hmap, hst⟩ := Option.bind_eq_some_iff.1 hst
  obtain rfl := Option.some.inj hst
  refine Ensures.bind (ensures_controlTaint hr.owns hr.marks hy fun c h₁ ho₁ => ?_)
  refine Ensures.bind (ensures_refreshPointers refs_mem sets_mem ho₁ (k := .controlTaint)
    (fun _ => rfl) (fun _ => rfl) hmap fun h₂ ho₂ => ?_)
  exact ensures_freeControl ho₂ fun h₃ ho₃ => ⟨ho₃, hr.marks⟩

/-- The entry of a branch, with a new set when it had none. -/
theorem ensures_controlEntry {Q : Ptr × Globals w → Heap Bitset → Prop} (hr : g.Represents h st)
    (addr : ADDRINT w)
    (hQ : ∀ set g' h', g'.refs none none (.control addr) = some set →
      Owns h' (g'.refs none none) (Function.update (st.sets none none) (.control addr)
        (some ((st.controlTaintMap[addr]?).getD (.init st.numberOfTaintMarks)))) →
      g'.regTaintMap = g.regTaintMap → g'.numberOfTaintMarks = g.numberOfTaintMarks →
      Q (set, g') h') :
    Ensures (g.controlEntry malloc addr) h Q := by
  have hentry := hr.owns.entry (.control addr)
  unfold controlEntry
  cases hp : g.controlTaintMap[addr]? with
  | some p =>
    obtain ⟨s, hs⟩ := hentry.1 hp
    have hs' : st.controlTaintMap[addr]? = some s := hs
    refine Ensures.pure (hQ p g h hp ?_ rfl rfl)
    rw [hs', Option.getD_some, ← hs, Function.update_eq_self]
    exact hr.owns
  | none =>
    have hs' : st.controlTaintMap[addr]? = none := hentry.2 hp
    refine Ensures.bind (hr.owns.ensures_alloc (.control addr) fun p h₁ ho₁ => ?_)
    rw [refs_insert] at ho₁
    refine Ensures.pure (hQ p _ h₁ ?_ ?_ rfl rfl)
    · simp [refs]
    · rwa [hs', Option.getD_none, ← hr.marks]

theorem pushControl_refines (hr : g.Represents h st) {addr : ADDRINT w}
    (hst : st.pushControl addr = some st') :
    Ensures (g.pushControl malloc addr) h fun g' h' => g'.Represents h' st' := by
  have hentry := hr.owns.entry (.reg .EFLAGS)
  unfold pushControl
  unfold TaintState.pushControl at hst
  cases hreg : g.regTaintMap .EFLAGS with
  | none =>
    have hs' : st.regTaintMap .EFLAGS = none := hentry.2 hreg
    rw [hs'] at hst
    obtain rfl := Option.some.inj hst
    exact Ensures.pure hr
  | some eflags =>
    obtain ⟨s, hs⟩ := hentry.1 hreg
    have hs' : st.regTaintMap .EFLAGS = some s := hs
    have hp : g.refs none none (.reg .EFLAGS) = some eflags := hreg
    rw [hs'] at hst
    refine Ensures.bind (hr.owns.ensures_read_bind hp hs (Ensures.pure ?_))
    cases hempty : s.isEmpty with
    | true =>
      simp only [hempty, if_true] at hst ⊢
      obtain rfl := Option.some.inj hst
      exact Ensures.pure hr
    | false =>
      simp only [hempty, Bool.false_eq_true, if_false] at hst ⊢
      obtain ⟨r, hu, hst⟩ := Option.bind_eq_some_iff.1 hst
      obtain rfl := Option.some.inj hst
      refine Ensures.bind (ensures_controlEntry hr addr fun set g₁ h₁ hset ho₁ hreg₁ hmarks => ?_)
      have hp₁ : g₁.refs none none (.reg .EFLAGS) = some eflags := by
        rw [refs, hreg₁, hreg]
      have hne : Key.reg .EFLAGS ≠ .control addr := by simp
      have hs₁ : Function.update (st.sets none none) (.control addr)
          (some ((st.controlTaintMap[addr]?).getD (.init st.numberOfTaintMarks))) (.reg .EFLAGS) =
          some s := by rw [Function.update_of_ne hne, hs]
      refine Ensures.bind (ensures_union ho₁ hset hp₁ (Function.update_self ..) hs₁ hu
        fun h₂ ho₂ => Ensures.pure ⟨?_, hmarks.trans hr.marks⟩)
      rwa [Function.update_idem, sets_insert] at ho₂

theorem popControl_refines (hr : g.Represents h st) (addrs : List (ADDRINT w)) :
    Ensures (g.popControl addrs) h fun g' h' => g'.Represents h' (st.popControl addrs) := by
  induction addrs generalizing g h st with
  | nil => exact Ensures.pure hr
  | cons addr addrs ih =>
    have hentry := hr.owns.entry (.control addr)
    unfold popControl TaintState.popControl
    cases hp : g.controlTaintMap[addr]? with
    | some p =>
      obtain ⟨s, hs⟩ := hentry.1 hp
      have hs' : st.controlTaintMap[addr]? = some s := hs
      have hp' : g.refs none none (.control addr) = some p := hp
      have hcontains : st.controlTaintMap.contains addr = true := by
        rw [Std.ExtTreeMap.contains_eq_isSome_getElem?, hs']
        rfl
      rw [if_pos hcontains]
      refine Ensures.bind (hr.owns.ensures_release hp' fun h₁ ho₁ => ?_)
      rw [refs_erase, sets_erase] at ho₁
      exact ih ⟨ho₁, hr.marks⟩
    | none =>
      have hs' : st.controlTaintMap[addr]? = none := hentry.2 hp
      have hcontains : ¬ st.controlTaintMap.contains addr = true := by
        rw [Std.ExtTreeMap.contains_eq_isSome_getElem?, hs']
        exact Bool.false_ne_true
      rw [if_neg hcontains]
      exact Ensures.pure hr

end

end Globals

end Dytan
