import Dytan.Lib.Accounts
import Dytan.Taint.PutGet
import Mathlib.Tactic.FinCases

/-!
# Sets that are lost

The maps own their sets (`Dytan/Taint/PutGet.lean`): an entry that is overwritten with a new set, or
erased while its set is not freed, leaves a set that nothing refers to. The functions that mark
memory do the one, `ClearTagsForByteRange` does the other.

`leaked occupied operations` counts these from the operations alone: `occupied` says which bytes have
an entry. `sets_accounted`: from the start of the tool on, whatever the allocator, no operation uses
or frees a set that is not there, and the sets that are lost are as many as `leaked` says.
-/

namespace Dytan

open Lib

variable {w n d : Nat} {malloc : Malloc Bitset} {g : Globals w} {h : Lib.Heap Bitset}
  {t c : Option Ptr}

/-! ## What the operations lose -/

/-- What is in `addrs` has an entry, too. -/
def marked {α : Type} [DecidableEq α] (occupied : α → Bool) (addrs : List α) (a : α) : Bool :=
  occupied a || decide (a ∈ addrs)

/-- The entries that are there when a loop over `addrs` gets to them. -/
def overwritten (occupied : ADDRINT w → Bool) : List (ADDRINT w) → Nat
  | [] => 0
  | addr :: addrs =>
    (if occupied addr then 1 else 0) + overwritten (Function.update occupied addr true) addrs

namespace Operation

/-- The bytes that have an entry after an operation. -/
def occupies (occupied : ADDRINT w → Bool) : Operation w → ADDRINT w → Bool
  | .setTaintForMemory start size _ => marked occupied (addrRange start (start + size))
  | .markMemory addrs _ => marked occupied addrs
  | .markBytes bytes => marked occupied (bytes.map (·.1))
  | .eraseMemory addr => Function.update occupied addr false
  | .freeMemory addr => Function.update occupied addr false
  | _ => occupied

/-- The sets an operation loses. -/
def leaks (occupied : ADDRINT w → Bool) : Operation w → Nat
  | .markMemory addrs _ => overwritten occupied addrs
  | .markBytes bytes => overwritten occupied (bytes.map (·.1))
  | .eraseMemory addr => if occupied addr then 1 else 0
  | _ => 0

/-- The marks an operation assigns. -/
def newMarks : Operation w → List Nat
  | .markMemory _ mark => [mark]
  | .markBytes bytes => bytes.map (·.2)
  | _ => []

end Operation

/-- The sets a list of operations loses. -/
def leaked (occupied : ADDRINT w → Bool) : List (Operation w) → Nat
  | [] => 0
  | operation :: operations =>
    operation.leaks occupied + leaked (operation.occupies occupied) operations

/-- The entries of a map. -/
def entries {α : Type} (map : α → Option Ptr) (a : α) : Bool := (map a).isSome

theorem entries_update {α : Type} [DecidableEq α] (map : α → Option Ptr) (key : α)
    (p : Option Ptr) :
    entries (Function.update map key p) = Function.update (entries map) key p.isSome := by
  funext a
  by_cases he : a = key
  · subst he
    simp [entries]
  · simp [entries, he]

theorem marked_cons (occupied : ADDRINT w → Bool) (addr : ADDRINT w) (addrs : List (ADDRINT w)) :
    marked occupied (addr :: addrs) = marked (Function.update occupied addr true) addrs := by
  funext a
  by_cases he : a = addr
  · subst he
    simp [marked]
  · simp [marked, he]

theorem marked_nil (occupied : ADDRINT w → Bool) : marked occupied [] = occupied := by
  funext a
  simp [marked]

/-! ## Operations that make no sets -/

theorem quiet_setBits (dest src : Ptr) : Quiet (bitsetSetBits dest src) :=
  .bind (.read src) fun _ => .modify dest _

theorem quiet_union (dest src : Ptr) : Quiet (bitsetUnion dest src) :=
  .bind (.read src) fun _ => .modify dest _

theorem quiet_unionInto (acc : Ptr) (sets : List Ptr) : Quiet (unionInto acc sets) := by
  induction sets with
  | nil => exact .pure ()
  | cons set sets ih => exact .bind (quiet_union acc set) fun _ => ih

theorem quiet_refreshPointer {α : Type} (tmp : Ptr) (map : α → Option Ptr) (key : α) :
    Quiet (refreshPointer tmp map key) := by
  unfold refreshPointer
  split
  · exact quiet_setBits ..
  · exact .pure ()

theorem quiet_refreshPointers {α : Type} (tmp : Ptr) (map : α → Option Ptr) (keys : List α) :
    Quiet (refreshPointers tmp map keys) := by
  induction keys with
  | nil => exact .pure ()
  | cons key keys ih => exact .bind (quiet_refreshPointer tmp map key) fun _ => ih

theorem quiet_taintForRegister (g : Globals w) (reg : REG) (set : Ptr) :
    Quiet (g.taintForRegister reg set) := by
  unfold Globals.taintForRegister
  split
  · exact quiet_setBits ..
  · exact .modify set _

theorem quiet_unionRegister (g : Globals w) (reg : REG) (set : Ptr) :
    Quiet (g.unionRegister reg set) := by
  unfold Globals.unionRegister
  split
  · split
    · exact quiet_union ..
    · exact .pure ()
  · exact .pure ()

theorem quiet_taintForMemory (g : Globals w) (start size : ADDRINT w) (baseReg indexReg : REG)
    (set : Ptr) : Quiet (g.taintForMemory start size baseReg indexReg set) :=
  .bind (.modify set _) fun _ => .bind (quiet_unionInto ..) fun _ =>
    .bind (quiet_unionRegister ..) fun _ => quiet_unionRegister ..

/-! ## The local sets -/

theorem yields_controlTaint {Q : Ptr → Lib.Heap Bitset → Prop} (ha : Accounts h (g.refs t none) d)
    (hQ : ∀ p h', Accounts h' (g.refs t (some p)) d → Q p h') :
    Yields (g.controlTaint malloc) h Q := by
  refine Yields.bind (ha.yields_alloc (k := .controlTaint) rfl fun p h₁ ha₁ => ?_)
  rw [refs_controlTaint] at ha₁
  exact Yields.bind (ha₁.yields_quiet (quiet_unionInto ..) fun _ h₂ ha₂ => Yields.pure (hQ p h₂ ha₂))

theorem yields_assignedTaint {Q : Ptr × Ptr → Lib.Heap Bitset → Prop}
    (ha : Accounts h (g.refs none none) d) (args : List Ptr)
    (hQ : ∀ p q h', Accounts h' (g.refs (some p) (some q)) d → Q (p, q) h') :
    Yields (g.assignedTaint malloc args) h Q := by
  refine Yields.bind (ha.yields_alloc (k := .tmp) rfl fun p h₁ ha₁ => ?_)
  rw [refs_tmp] at ha₁
  refine Yields.bind (ha₁.yields_quiet (quiet_unionInto ..) fun _ h₂ ha₂ => ?_)
  refine Yields.bind (yields_controlTaint ha₂ fun q h₃ ha₃ => ?_)
  exact Yields.bind (ha₃.yields_quiet (quiet_union ..) fun _ h₄ ha₄ => Yields.pure (hQ p q h₄ ha₄))

theorem yields_freeTmp {Q : Unit → Lib.Heap Bitset → Prop} {p : Ptr}
    (ha : Accounts h (g.refs (some p) c) d) (hQ : ∀ h', Accounts h' (g.refs none c) d → Q () h') :
    Yields (bitsetFree p) h Q := by
  refine ha.yields_release (k := .tmp) rfl fun h' ha' => hQ h' ?_
  rwa [refs_tmp] at ha'

theorem yields_freeControl {Q : Unit → Lib.Heap Bitset → Prop} {p : Ptr}
    (ha : Accounts h (g.refs t (some p)) d) (hQ : ∀ h', Accounts h' (g.refs t none) d → Q () h') :
    Yields (bitsetFree p) h Q := by
  refine ha.yields_release (k := .controlTaint) rfl fun h' ha' => hQ h' ?_
  rwa [refs_controlTaint] at ha'

/-! ## The loops over entries -/

section
variable {α : Type} [DecidableEq α] {e : α → Key w} {F : (α → Option Ptr) → Key w → Option Ptr}
  {map : α → Option Ptr} {Q : (α → Option Ptr) → Lib.Heap Bitset → Prop}

theorem yields_putPointer (hF : View e F) (ha : Accounts h (F map) d) (tmp : Ptr) (key : α)
    (hQ : ∀ map' h', Accounts h' (F map') d →
      entries map' = Function.update (entries map) key true → Q map' h') :
    Yields (putPointer malloc tmp map key) h Q := by
  unfold putPointer
  cases hk : map key with
  | some set =>
    refine Yields.bind (ha.yields_quiet (quiet_setBits ..) fun _ h₁ ha₁ => ?_)
    have hentry : entries map key = true := by rw [entries, hk, Option.isSome_some]
    exact Yields.pure (hQ map h₁ ha₁ (by rw [← hentry, Function.update_eq_self]))
  | none =>
    have hkey : F map (e key) = none := (hF.get map key).trans hk
    refine Yields.bind (Yields.bind (ha.yields_quiet (.read tmp) fun s h₁ ha₁ =>
      ha₁.yields_alloc hkey fun p h₂ ha₂ => Yields.pure ?_))
    rw [hF.set] at ha₂
    exact hQ _ h₂ ha₂ (entries_update map key (some p))

theorem yields_putPointers (hF : View e F) (tmp : Ptr) (keys : List α)
    (ha : Accounts h (F map) d)
    (hQ : ∀ map' h', Accounts h' (F map') d →
      (∀ a, entries map' a = (entries map a || decide (a ∈ keys))) → Q map' h') :
    Yields (keys.foldlM (putPointer malloc tmp) map) h Q := by
  induction keys generalizing map h with
  | nil => exact Yields.pure (hQ map h ha (by simp))
  | cons key keys ih =>
    rw [List.foldlM_cons]
    refine Yields.bind (yields_putPointer hF ha tmp key fun map₁ h₁ ha₁ he₁ => ?_)
    refine ih ha₁ fun map' h' ha' he' => hQ map' h' ha' fun a => ?_
    rw [he' a, he₁]
    by_cases hkey : a = key
    · subst hkey
      simp
    · simp [hkey]

/-- The old set is lost when there is one. -/
theorem yields_copyPointer (hF : View e F) (ha : Accounts h (F map) d) (s : Ptr) (key : α)
    (hQ : ∀ map' h', Accounts h' (F map') (d + if entries map key then 1 else 0) →
      entries map' = Function.update (entries map) key true → Q map' h') :
    Yields (copyPointer malloc s map key) h Q := by
  refine Yields.bind (Yields.bind (ha.yields_quiet (.read s) fun b h₁ ha₁ => ?_))
  cases hk : map key with
  | some set =>
    have hkey : (F map (e key)).isSome := by rw [hF.get, hk, Option.isSome_some]
    refine ha₁.yields_replace hkey fun p h₂ ha₂ => Yields.pure ?_
    rw [hF.set] at ha₂
    refine hQ _ h₂ ?_ (entries_update map key (some p))
    simpa [entries, hk] using ha₂
  | none =>
    have hkey : F map (e key) = none := (hF.get map key).trans hk
    refine ha₁.yields_alloc hkey fun p h₂ ha₂ => Yields.pure ?_
    rw [hF.set] at ha₂
    refine hQ _ h₂ ?_ (entries_update map key (some p))
    simpa [entries, hk] using ha₂

end

section
variable {map : ADDRINT w → Option Ptr} {Q : (ADDRINT w → Option Ptr) → Lib.Heap Bitset → Prop}

/-- A loop that copies a set to each of `addrs`. -/
theorem yields_copyPointers {F : (ADDRINT w → Option Ptr) → Key w → Option Ptr}
    (hF : View .mem F) (s : Ptr) (addrs : List (ADDRINT w)) (ha : Accounts h (F map) d)
    (hQ : ∀ map' h', Accounts h' (F map') (d + overwritten (entries map) addrs) →
      entries map' = marked (entries map) addrs → Q map' h') :
    Yields (addrs.foldlM (copyPointer malloc s) map) h Q := by
  induction addrs generalizing map h d with
  | nil => exact Yields.pure (hQ map h ha (marked_nil _).symm)
  | cons addr addrs ih =>
    rw [List.foldlM_cons]
    refine Yields.bind (yields_copyPointer hF ha s addr fun map₁ h₁ ha₁ he₁ => ?_)
    refine ih ha₁ fun map' h' ha' he' => hQ map' h' ?_ ?_
    · rwa [he₁, Nat.add_assoc] at ha'
    · rw [he', he₁, marked_cons]

/-- A loop that gives each byte a set of its own. -/
theorem yields_markBytes {F : (ADDRINT w → Option Ptr) → Key w → Option Ptr}
    (hF : View .mem F) (s : Ptr) (bytes : List (ADDRINT w × Nat)) (ha : Accounts h (F map) d)
    (hQ : ∀ map' h', Accounts h' (F map') (d + overwritten (entries map) (bytes.map (·.1))) →
      entries map' = marked (entries map) (bytes.map (·.1)) → Q map' h') :
    Yields (bytes.foldlM (Globals.markByte malloc s) map) h Q := by
  induction bytes generalizing map h d with
  | nil => exact Yields.pure (hQ map h ha (marked_nil _).symm)
  | cons byte bytes ih =>
    rw [List.foldlM_cons]
    refine Yields.bind (Yields.bind (ha.yields_quiet (.modify s _) fun _ h₁ ha₁ => ?_))
    refine Yields.bind (yields_copyPointer hF ha₁ s byte.1 fun map₂ h₂ ha₂ he₂ => ?_)
    refine Yields.bind (ha₂.yields_quiet (.modify s _) fun _ h₃ ha₃ => Yields.pure ?_)
    refine ih ha₃ fun map' h' ha' he' => hQ map' h' ?_ ?_
    · rwa [he₂, Nat.add_assoc] at ha'
    · rw [he', he₂, List.map_cons, marked_cons]

end

/-! ## The operations -/

/-- What an operation leaves, by its number of lost sets and its entries. -/
def Leaves (d : Nat) (occupied : ADDRINT w → Bool) (g : Globals w) (h : Lib.Heap Bitset) : Prop :=
  Accounts h (g.refs none none) d ∧ entries g.memTaintMap = occupied

theorem pushControl_leaves (ha : Accounts h (g.refs none none) d) (addr : ADDRINT w) :
    Yields (g.pushControl malloc addr) h (Leaves d (entries g.memTaintMap)) := by
  unfold Globals.pushControl
  split
  · exact Yields.pure ⟨ha, rfl⟩
  refine Yields.bind (ha.yields_quiet (.bind (.read _) fun _ => .pure _) fun empty h₁ ha₁ => ?_)
  split
  · exact Yields.pure ⟨ha₁, rfl⟩
  unfold Globals.controlEntry
  cases hp : g.controlTaintMap[addr]? with
  | some set =>
    refine Yields.bind (Yields.pure (Yields.bind ?_))
    exact ha₁.yields_quiet (quiet_union ..) fun _ h₂ ha₂ => Yields.pure ⟨ha₂, rfl⟩
  | none =>
    have hkey : g.refs none none (.control addr) = none := hp
    refine Yields.bind (Yields.bind (ha₁.yields_alloc hkey fun p h₂ ha₂ => Yields.pure ?_))
    rw [refs_insert] at ha₂
    exact Yields.bind (ha₂.yields_quiet (quiet_union ..) fun _ h₃ ha₃ => Yields.pure ⟨ha₃, rfl⟩)

theorem popControl_leaves (ha : Accounts h (g.refs none none) d) (addrs : List (ADDRINT w)) :
    Yields (g.popControl addrs) h (Leaves d (entries g.memTaintMap)) := by
  induction addrs generalizing g h with
  | nil => exact Yields.pure ⟨ha, rfl⟩
  | cons addr addrs ih =>
    unfold Globals.popControl
    cases hp : g.controlTaintMap[addr]? with
    | none => exact Yields.pure ⟨ha, rfl⟩
    | some s =>
      have hkey : g.refs none none (.control addr) = some s := hp
      refine Yields.bind (ha.yields_release hkey fun h₁ ha₁ => ?_)
      rw [refs_erase] at ha₁
      exact ih ha₁

theorem eraseMemory_leaves (ha : Accounts h (g.refs none none) d) (addr : ADDRINT w) :
    Leaves (d + if entries g.memTaintMap addr then 1 else 0)
      (Function.update (entries g.memTaintMap) addr false) (g.eraseMemory addr) h := by
  refine ⟨?_, entries_update g.memTaintMap addr none⟩
  have hset : (g.eraseMemory addr).refs none none =
      Function.update (g.refs none none) (.mem addr) none :=
    (refs_mem.set g.memTaintMap addr none).symm
  rw [hset]
  cases hp : g.memTaintMap addr with
  | none =>
    have hkey : Function.update (g.refs none none) (.mem addr) none = g.refs none none :=
      Function.update_eq_self_iff.2 hp.symm
    rw [hkey]
    simpa [entries, hp] using ha
  | some p =>
    have hkey : (g.refs none none (.mem addr)).isSome := by
      rw [Globals.refs, hp, Option.isSome_some]
    simpa [entries, hp] using ha.forget hkey

theorem freeMemory_leaves (ha : Accounts h (g.refs none none) d) (addr : ADDRINT w) :
    Yields (g.freeMemory addr) h
      (Leaves d (Function.update (entries g.memTaintMap) addr false)) := by
  unfold Globals.freeMemory
  cases hp : g.memTaintMap addr with
  | none =>
    have hentry : entries g.memTaintMap addr = false := by rw [entries, hp, Option.isSome_none]
    exact Yields.pure ⟨ha, by rw [← hentry, Function.update_eq_self]⟩
  | some p =>
    have hkey : g.refs none none (.mem addr) = some p := hp
    refine Yields.bind (ha.yields_release hkey fun h₁ ha₁ => Yields.pure ⟨?_, ?_⟩)
    · rwa [refs_mem.set g.memTaintMap] at ha₁
    · exact entries_update g.memTaintMap addr none

theorem markMemory_leaves (ha : Accounts h (g.refs none none) d) (addrs : List (ADDRINT w))
    (mark : Nat) : Yields (g.markMemory malloc addrs mark) h
      (Leaves (d + overwritten (entries g.memTaintMap) addrs)
        (marked (entries g.memTaintMap) addrs)) := by
  refine Yields.bind (ha.yields_alloc (k := .tmp) rfl fun s h₁ ha₁ => ?_)
  rw [refs_tmp] at ha₁
  refine Yields.bind (ha₁.yields_quiet (.modify s _) fun _ h₂ ha₂ => ?_)
  refine Yields.bind (yields_copyPointers refs_mem s addrs ha₂ fun map h₃ ha₃ he => ?_)
  exact Yields.bind (yields_freeTmp ha₃ fun h₄ ha₄ => Yields.pure ⟨ha₄, he⟩)

theorem markBytes_leaves (ha : Accounts h (g.refs none none) d)
    (bytes : List (ADDRINT w × Nat)) : Yields (g.markBytes malloc bytes) h
      (Leaves (d + overwritten (entries g.memTaintMap) (bytes.map (·.1)))
        (marked (entries g.memTaintMap) (bytes.map (·.1)))) := by
  refine Yields.bind (ha.yields_alloc (k := .tmp) rfl fun s h₁ ha₁ => ?_)
  rw [refs_tmp] at ha₁
  refine Yields.bind (yields_markBytes refs_mem s bytes ha₁ fun map h₂ ha₂ he => ?_)
  exact Yields.bind (yields_freeTmp ha₂ fun h₃ ha₃ => Yields.pure ⟨ha₃, he⟩)

theorem setTaintForMemory_leaves (ha : Accounts h (g.refs none none) d) (start size : ADDRINT w)
    (args : List Ptr) : Yields (g.setTaintForMemory malloc start size args) h
      (Leaves d (marked (entries g.memTaintMap) (addrRange start (start + size)))) := by
  refine Yields.bind (yields_assignedTaint ha args fun p q h₁ ha₁ => ?_)
  refine Yields.bind (yields_putPointers refs_mem p _ ha₁ fun map h₂ ha₂ he => ?_)
  refine Yields.bind (yields_freeTmp ha₂ fun h₃ ha₃ => ?_)
  exact Yields.bind (yields_freeControl ha₃ fun h₄ ha₄ => Yields.pure ⟨ha₄, funext he⟩)

theorem setTaintForRegister_leaves (ha : Accounts h (g.refs none none) d) (dest : REG)
    (args : List Ptr) : Yields (g.setTaintForRegister malloc dest args) h
      (Leaves d (entries g.memTaintMap)) := by
  unfold Globals.setTaintForRegister
  split
  · exact Yields.pure ⟨ha, rfl⟩
  refine Yields.bind (yields_assignedTaint ha args fun p q h₁ ha₁ => ?_)
  refine Yields.bind (yields_putPointers refs_reg p _ ha₁ fun map h₂ ha₂ _ => ?_)
  refine Yields.bind (yields_freeTmp ha₂ fun h₃ ha₃ => ?_)
  exact Yields.bind (yields_freeControl ha₃ fun h₄ ha₄ => Yields.pure ⟨ha₄, rfl⟩)

/-- The functions that clear refresh the sets that are there. -/
theorem refresh_leaves {α : Type} (ha : Accounts h (g.refs none none) d) (map : α → Option Ptr)
    (keys : List α) :
    Yields (do
      let controlTaint ← g.controlTaint malloc
      refreshPointers controlTaint map keys
      bitsetFree controlTaint) h fun _ h' => Accounts h' (g.refs none none) d := by
  refine Yields.bind (yields_controlTaint ha fun p h₁ ha₁ => ?_)
  refine Yields.bind (ha₁.yields_quiet (quiet_refreshPointers ..) fun _ h₂ ha₂ => ?_)
  exact yields_freeControl ha₂ fun h₃ ha₃ => ha₃

/-- An operation loses the sets `leaks` says. -/
theorem Operation.run_leaves (ha : Accounts h (g.refs none none) d) (operation : Operation w) :
    Yields (operation.run malloc g) h
      (Leaves (d + operation.leaks (entries g.memTaintMap))
        (operation.occupies (entries g.memTaintMap))) := by
  -- an operation that changes sets in place
  have hquiet : ∀ {m : HeapM Bitset Unit}, Quiet m →
      Yields (do m; return g) h (Leaves d (entries g.memTaintMap)) := fun hm =>
    Yields.bind (ha.yields_quiet hm fun _ h₁ ha₁ => Yields.pure ⟨ha₁, rfl⟩)
  cases operation with
  | clearTaintSet set => exact hquiet (.modify _ _)
  | taintForRegister reg set => exact hquiet (quiet_taintForRegister ..)
  | taintForMemory start size baseReg indexReg set => exact hquiet (quiet_taintForMemory ..)
  | setTaintForRegister dest args => exact setTaintForRegister_leaves ha dest _
  | clearTaintForRegister reg =>
    exact Yields.bind fun u h₁ hu => Yields.pure ⟨refresh_leaves ha _ _ u h₁ hu, rfl⟩
  | setTaintForMemory start size args => exact setTaintForMemory_leaves ha start size _
  | clearTaintForMemory start size =>
    exact Yields.bind fun u h₁ hu => Yields.pure ⟨refresh_leaves ha _ _ u h₁ hu, rfl⟩
  | pushControl addr => exact pushControl_leaves ha addr
  | popControl addrs => exact popControl_leaves ha addrs
  | markMemory addrs mark => exact markMemory_leaves ha addrs mark
  | markBytes bytes => exact markBytes_leaves ha bytes
  | eraseMemory addr => exact Yields.pure (eraseMemory_leaves ha addr)
  | freeMemory addr => exact freeMemory_leaves ha addr

theorem start_leaves (malloc : Malloc Bitset) (n : Nat) :
    Yields (Globals.start malloc w n) .empty (Leaves 0 fun _ => false) := by
  have ha : Accounts (.empty : Lib.Heap Bitset) (fun _ : Key w => none) 0 := .nothing
  refine Yields.bind (ha.yields_alloc (k := .scratch .dest) rfl fun dest h₁ ha₁ => ?_)
  refine Yields.bind (ha₁.yields_alloc (k := .scratch .src) rfl fun src h₂ ha₂ => ?_)
  refine Yields.bind (ha₂.yields_alloc (k := .scratch .eax) rfl fun eax h₃ ha₃ => ?_)
  refine Yields.bind (ha₃.yields_alloc (k := .scratch .edx) rfl fun edx h₄ ha₄ => ?_)
  refine Yields.bind (ha₄.yields_alloc (k := .scratch .base) rfl fun base h₅ ha₅ => ?_)
  refine Yields.bind (ha₅.yields_alloc (k := .scratch .idx) rfl fun idx h₆ ha₆ => ?_)
  refine Yields.bind (ha₆.yields_alloc (k := .scratch .eflags) rfl fun eflags h₇ ha₇ => ?_)
  refine Yields.bind (ha₇.yields_alloc (k := .scratch .cnt) rfl fun cnt h₈ ha₈ => ?_)
  refine Yields.pure ⟨?_, rfl⟩
  convert ha₈ using 1
  funext k
  cases k with
  | scratch set => cases set <;> simp [Globals.refs]
  | _ => simp [Globals.refs]

/-! ## Operations that return -/

section
variable {st : TaintState w} {p : Ptr} {s : Bitset} {map : ADDRINT w → Option Ptr}

/-- An operation that does on the sets what it does on states of width `n`. -/
theorem succeeds_of_refines {m : HeapM Bitset (Globals w)} {r : Option (TaintState w)} {x : Taint w}
    (hst : TaintState.Gives n r x)
    (hm : ∀ st', r = some st' → Ensures m h fun g' h' => g'.Represents h' st') : Succeeds m h := by
  obtain ⟨st', hr, -, -⟩ := hst
  exact (hm st' hr).succeeds

theorem Marking.setBit_succeeds (hm : Marking n g st p s map h) (hs : s.Ok n) {mark : Nat}
    (hmark : mark < n) : Succeeds (bitsetSetBit p mark) h := by
  obtain ⟨vmap, ho, -⟩ := hm
  obtain ⟨r, hr, -⟩ := hs.setBit_spec hmark
  have hp : ({ g with memTaintMap := map }).refs (some p) none .tmp = some p := rfl
  exact (ho.ensures_modify (Q := fun _ _ => True) hp rfl hr fun _ _ => trivial).succeeds

theorem Marking.copy_succeeds (hm : Marking n g st p s map h) (addr : ADDRINT w) :
    Succeeds (copyPointer malloc p map addr) h := by
  obtain ⟨vmap, ho, -⟩ := hm
  have hp : ({ g with memTaintMap := map }).refs (some p) none .tmp = some p := rfl
  exact (ensures_copyPointer (Q := fun _ _ => True) refs_mem sets_mem ho hp rfl addr
    fun _ _ _ => trivial).succeeds

theorem Marking.reset_succeeds (hm : Marking n g st p s map h) : Succeeds (bitsetReset p) h := by
  obtain ⟨vmap, ho, -⟩ := hm
  have hp : ({ g with memTaintMap := map }).refs (some p) none .tmp = some p := rfl
  have hreset : Ensures (bitsetReset p) h fun _ _ => True :=
    ho.ensures_modify hp rfl rfl fun _ _ => trivial
  exact hreset.succeeds

theorem Marking.free_succeeds (hm : Marking n g st p s map h) : Succeeds (bitsetFree p) h := by
  obtain ⟨vmap, ho, -⟩ := hm
  have hp : ({ g with memTaintMap := map }).refs (some p) none .tmp = some p := rfl
  exact (ho.ensures_release (Q := fun _ _ => True) hp fun _ _ => trivial).succeeds

/-- The local set is freed at the end. -/
theorem Marking.finish_succeeds (hm : Marking n g st p s map h) :
    Succeeds (do bitsetFree p; return { g with memTaintMap := map }) h :=
  hm.free_succeeds.bind fun _ h' _ => ⟨_, h', rfl⟩

theorem Marking.markByte_succeeds (hm : Marking n g st p (.init n) map h) (byte : ADDRINT w × Nat)
    (hmark : byte.2 < n) : Succeeds (Globals.markByte malloc p map byte) h := by
  refine (hm.setBit_succeeds (Bitset.init_ok n) hmark).bind fun _ h₁ h1 => ?_
  obtain ⟨s, hs, hm₁⟩ := hm.setBit (Bitset.init_ok n) byte.2 _ h₁ h1
  refine (hm₁.copy_succeeds byte.1).bind fun map₁ h₂ h2 => ?_
  have hm₂ := hm₁.copy hs byte.1 map₁ h₂ h2
  exact hm₂.reset_succeeds.bind fun _ h₃ _ => ⟨_, h₃, rfl⟩

theorem markMemory_succeeds (hn : g.NoSharing n h) (addrs : List (ADDRINT w)) {mark : Nat}
    (hmark : mark < n) : Succeeds (g.markMemory malloc addrs mark) h := by
  obtain ⟨st, hr, hst⟩ := Globals.noSharing_iff.1 hn
  refine Succeeds.bind ⟨_, _, rfl⟩ fun p h₁ h1 => ?_
  have hm₁ := Marking.start hr hst p h₁ h1
  refine (hm₁.setBit_succeeds (Bitset.init_ok n) hmark).bind fun _ h₂ h2 => ?_
  obtain ⟨s, hs, hm₂⟩ := hm₁.setBit (Bitset.init_ok n) mark _ h₂ h2
  have hkeep : ∀ map h addr, Marking n g st p s map h →
      Yields (copyPointer malloc p map addr) h fun map' h' => Marking n g st p s map' h' :=
    fun map h addr hm => hm.copy hs addr
  refine (Succeeds.foldlM hkeep (fun map h addr _ hm => hm.copy_succeeds addr) hm₂).bind
    fun map h₃ h3 => ?_
  exact (Yields.foldlM hkeep hm₂ addrs map h₃ h3).finish_succeeds

theorem markBytes_succeeds (hn : g.NoSharing n h) (bytes : List (ADDRINT w × Nat))
    (hmarks : ∀ byte ∈ bytes, byte.2 < n) : Succeeds (g.markBytes malloc bytes) h := by
  obtain ⟨st, hr, hst⟩ := Globals.noSharing_iff.1 hn
  refine Succeeds.bind ⟨_, _, rfl⟩ fun p h₁ h1 => ?_
  have hm₁ := Marking.start hr hst p h₁ h1
  have hkeep : ∀ map h byte, Marking n g st p (.init n) map h →
      Yields (Globals.markByte malloc p map byte) h fun map' h' =>
        Marking n g st p (.init n) map' h' := fun map h byte hm => hm.markByte byte
  refine (Succeeds.foldlM hkeep (fun map h byte hb hm => hm.markByte_succeeds byte (hmarks byte hb))
    hm₁).bind fun map h₂ h2 => ?_
  exact (Yields.foldlM hkeep hm₁ bytes map h₂ h2).finish_succeeds

theorem freeMemory_succeeds (hr : g.Represents h st) (addr : ADDRINT w) :
    Succeeds (g.freeMemory addr) h := by
  unfold Globals.freeMemory
  cases hp : g.memTaintMap addr with
  | none => exact ⟨g, h, rfl⟩
  | some p =>
    have hkey : g.refs none none (.mem addr) = some p := hp
    have hfree : Ensures (bitsetFree p) h fun _ _ => True :=
      hr.owns.ensures_release hkey fun _ _ => trivial
    exact hfree.succeeds.bind fun _ h' _ => ⟨_, h', rfl⟩

end

open TaintState Globals in
theorem Operation.run_succeeds (hn : g.NoSharing n h) (operation : Operation w)
    (hmarks : ∀ mark ∈ operation.newMarks, mark < n) : Succeeds (operation.run malloc g) h := by
  obtain ⟨st, hr, hst⟩ := noSharing_iff.1 hn
  have hargs : ∀ args : List Scratch, ∀ s ∈ args.map st.scratch, s.Ok n := by
    intro args s hs
    obtain ⟨set, -, rfl⟩ := List.mem_map.1 hs
    exact hst.scratch set
  cases operation with
  | clearTaintSet set =>
    exact succeeds_of_refines (clearTaintSet_gives hst set) fun st' hs =>
      ensures_unit (Option.some.inj hs ▸ clearTaintSet_refines hr set)
  | taintForRegister reg set =>
    exact succeeds_of_refines (taintForRegister_gives hst reg set) fun st' hs =>
      ensures_unit (taintForRegister_refines hr hs)
  | taintForMemory start size baseReg indexReg set =>
    exact succeeds_of_refines (taintForMemory_gives hst start size baseReg indexReg set)
      fun st' hs => ensures_unit (taintForMemory_refines hr hs)
  | setTaintForRegister dest args =>
    obtain ⟨st', hs, -⟩ := setTaintForRegister_gives hst dest (hargs args)
    exact (setTaintForRegister_refines hr (scratch_holds g st args) hs).succeeds
  | clearTaintForRegister reg =>
    exact succeeds_of_refines (clearTaintForRegister_gives hst reg) fun st' hs =>
      ensures_unit (clearTaintForRegister_refines hr hs)
  | setTaintForMemory start size args =>
    obtain ⟨st', hs, -⟩ := setTaintForMemory_gives hst start size (hargs args)
    exact (setTaintForMemory_refines hr (scratch_holds g st args) hs).succeeds
  | clearTaintForMemory start size =>
    exact succeeds_of_refines (clearTaintForMemory_gives hst start size) fun st' hs =>
      ensures_unit (clearTaintForMemory_refines hr hs)
  | pushControl addr =>
    exact succeeds_of_refines (pushControl_gives hst addr) fun st' hs => pushControl_refines hr hs
  | popControl addrs => exact (popControl_refines hr addrs).succeeds
  | markMemory addrs mark => exact markMemory_succeeds hn addrs (hmarks mark (by simp [newMarks]))
  | markBytes bytes =>
    exact markBytes_succeeds hn bytes fun byte hb =>
      hmarks byte.2 (List.mem_map.2 ⟨byte, hb, rfl⟩)
  | eraseMemory addr => exact ⟨_, h, rfl⟩
  | freeMemory addr => exact freeMemory_succeeds hr addr

/-! ## Every run -/

/-- Operations from a state in which `d` sets are lost. -/
theorem run_accounts {occupied : ADDRINT w → Bool} (hl : Leaves d occupied g h)
    (operations : List (Operation w)) :
    Yields (operations.foldlM (Operation.run malloc) g) h fun g' h' =>
      Accounts h' (g'.refs none none) (d + leaked occupied operations) := by
  induction operations generalizing g h d occupied with
  | nil => exact Yields.pure hl.1
  | cons operation operations ih =>
    rw [List.foldlM_cons]
    obtain ⟨ha, rfl⟩ := hl
    refine Yields.bind fun g₁ h₁ hg₁ => ?_
    rw [leaked, ← Nat.add_assoc]
    exact ih (Operation.run_leaves ha operation g₁ h₁ hg₁)

/-- Operations from a state in which the maps own their sets. -/
theorem run_succeeds (hn : g.NoSharing n h) (operations : List (Operation w))
    (hmarks : ∀ operation ∈ operations, ∀ mark ∈ operation.newMarks, mark < n) :
    Succeeds (operations.foldlM (Operation.run malloc) g) h :=
  Succeeds.foldlM (fun _ _ operation hn => Operation.run_noSharing hn operation)
    (fun _ _ operation ho hn => Operation.run_succeeds hn operation (hmarks operation ho)) hn

/-- No run of the tool uses a set that was freed or frees one twice, and the sets that it loses are
those of the entries that marks overwrite and `ClearTagsForByteRange` erases. -/
theorem sets_accounted (malloc : Malloc Bitset) (n : Nat) (operations : List (Operation w))
    (hmarks : ∀ operation ∈ operations, ∀ mark ∈ operation.newMarks, mark < n) :
    Ensures (runOperations malloc n operations) .empty fun g h =>
      g.NoSharing n h ∧ (h.lost (g.refs none none)).ncard = leaked (fun _ => false) operations := by
  obtain ⟨g, h, hg, hn⟩ := start_noSharing (w := w) (n := n) malloc .empty
  obtain ⟨g', h', hg'⟩ : Succeeds (operations.foldlM (Operation.run malloc) g) h :=
    run_succeeds hn operations hmarks
  have hn' : g'.NoSharing n h' :=
    Yields.foldlM (fun _ _ operation hn => Operation.run_noSharing hn operation) hn operations g' h'
      hg'
  have ha' := run_accounts (start_leaves malloc n g h hg) operations g' h' hg'
  refine Ensures.bind ⟨g, h, hg, g', h', hg', hn', ?_⟩
  rw [Nat.zero_add] at ha'
  exact ha'.lost hn'.represents.owns

/-- A block of four bytes is tagged, cleared, tagged and tagged again: all but the last tags are
lost. -/
theorem sets_accounted_twice :
    Ensures (runOperations (w := 32) (.bump Bitset) 4
      [.markMemory [0, 1] 1, .eraseMemory 0, .eraseMemory 1, .markMemory [0, 1] 2,
        .markMemory [0, 1] 3]) .empty fun g h =>
      g.NoSharing 4 h ∧ (h.lost (g.refs none none)).ncard = 4 := by
  refine sets_accounted (.bump Bitset) 4 _ fun operation ho mark hm => ?_
  fin_cases ho <;> simp_all [Operation.newMarks]

end Dytan
