import Dytan.Taint.PutGet
import Dytan.Taint.Clear

/-!
# Writes to registers

`SetTaintForRegister` and `ClearTaintForRegister` update the entries of a register and of the
registers it contains (`updatedRegs`) in place, through pointers. `register_writes`: what each leaves
in them, and that everything else is as it was; no state that is reached has an entry for `ESP` or
`EBP`.
-/

namespace Dytan

open Lib

variable {w n : Nat} {malloc : Malloc Bitset} {g : Globals w} {h : Heap Bitset} {st : TaintState w}

/-- Not an entry of `reg` or of a register it contains. -/
def Key.Apart (reg : REG) (k : Key w) : Prop := ∀ r ∈ updatedRegs reg, k ≠ .reg r

/-- The entries and the sets of `g` that are apart from `reg` are as in `g₁`. -/
def SameApart (reg : REG) (g : Globals w) (h : Heap Bitset) (g₁ : Globals w) (h₁ : Heap Bitset) :
    Prop :=
  ∀ k, Key.Apart reg k → g₁.refs none none k = g.refs none none k ∧
    ∀ p, g.refs none none k = some p → h₁.get p = h.get p

/-- An assignment: the entries of `dest` have the marks of the sources and of the active branches;
nothing else changes. To `ESP` and `EBP` it does nothing. -/
def SetLaw (dest : REG) (args : List Ptr) (g : Globals w) (h : Heap Bitset) (g₁ : Globals w)
    (h₁ : Heap Bitset) : Prop :=
  if dest = .ESP ∨ dest = .EBP then g₁ = g ∧ h₁ = h
  else (∀ r ∈ updatedRegs dest, ∃ p, g₁.regTaintMap r = some p ∧
      pointerMarks h₁ p = {m | ∃ q ∈ args, m ∈ pointerMarks h q} ∪ g.active h) ∧
    SameApart dest g h g₁ h₁

/-- A clearing: the entries of `reg` that are there have the marks of the active branches; nothing
else changes. -/
def ClearLaw (reg : REG) (g : Globals w) (h h₁ : Heap Bitset) : Prop :=
  (∀ r ∈ updatedRegs reg, ∀ p, g.regTaintMap r = some p → pointerMarks h₁ p = g.active h) ∧
    SameApart reg g h g h₁

/-! ## The sets of a state -/

theorem setTaintForRegister_sets (hst : st.WidthOk n) {dest : REG} {sets : List Bitset}
    (hsets : ∀ s ∈ sets, s.Ok n) {st₁ : TaintState w}
    (h₁ : st.setTaintForRegister dest sets = some st₁) {k : Key w} (hk : Key.Apart dest k) :
    st₁.sets none none k = st.sets none none k := by
  unfold TaintState.setTaintForRegister at h₁
  split at h₁
  · obtain rfl := Option.some.inj h₁
    rfl
  · obtain ⟨tmp, ht, htok, -⟩ := TaintState.assignedTaint_spec hst hsets
    rw [ht, Option.bind_eq_bind, Option.bind_some, putEntries_eq htok hst.reg] at h₁
    obtain rfl := Option.some.inj h₁
    cases k with
    | reg r => exact if_neg fun hr => hk r hr rfl
    | _ => rfl

theorem clearTaintForRegister_sets (hst : st.WidthOk n) {reg : REG} {st₁ : TaintState w}
    (h₁ : st.clearTaintForRegister reg = some st₁) {k : Key w} (hk : Key.Apart reg k) :
    st₁.sets none none k = st.sets none none k := by
  obtain ⟨c, hc, hcok, -⟩ := TaintState.controlTaint_spec hst
  rw [TaintState.clearTaintForRegister, hc, Option.bind_eq_bind, Option.bind_some,
    refreshEntries_eq hcok hst.reg] at h₁
  obtain rfl := Option.some.inj h₁
  cases k with
  | reg r => exact if_neg fun hr => hk r hr.1 rfl
  | _ => rfl

/-! ## The two functions -/

theorem Globals.Represents.regMarks (hr : g.Represents h st) {r : REG} {p : Ptr}
    (hp : g.regTaintMap r = some p) : Dytan.pointerMarks h p = st.taint.regMarks r := by
  obtain ⟨s, hs⟩ := (hr.owns.entry (.reg r)).1 hp
  have hs' : st.regTaintMap r = some s := hs
  rw [hr.pointerMarks (k := .reg r) hp hs, Taint.regMarks, TaintState.taint_reg, hs']
  rfl

theorem setTaintForRegister_law (hn : g.NoSharing n h) (dest : REG) {args : List Ptr}
    (hargs : ∀ p ∈ args, ∃ k, g.refs none none k = some p) :
    Ensures (g.setTaintForRegister malloc dest args) h fun g₁ h₁ => SetLaw dest args g h g₁ h₁ := by
  obtain ⟨st, hr, hst⟩ := Globals.noSharing_iff.1 hn
  obtain ⟨sets, hsets, hok, hmarks⟩ := hr.args hst hargs
  by_cases hstack : dest = .ESP ∨ dest = .EBP
  · unfold Globals.setTaintForRegister SetLaw
    rw [if_pos hstack]
    simp only [if_pos hstack]
    exact Ensures.pure ⟨rfl, rfl⟩
  · obtain ⟨st₁, hs₁, -, ht₁⟩ := TaintState.setTaintForRegister_gives hst dest hok
    obtain ⟨_, h₁, hg₁, hr₁, map, rfl, hsame⟩ :
        Ensures (g.setTaintForRegister malloc dest args) h _ :=
      Globals.setTaintForRegister_refines hr hsets hs₁
    refine ⟨_, h₁, hg₁, ?_⟩
    dsimp only [SetLaw]
    rw [if_neg hstack]
    refine ⟨fun r hr' => ?_, fun k hk => ?_⟩
    · have hin : r ∈ containedRegs dest ++ [dest] := hr'
      have hreg : st₁.taint.reg r = some ({m | ∃ s ∈ sets, m ∈ s.marks} ∪ st.taint.active) := by
        rw [ht₁, reg_setReg hstack, if_pos hin]
      obtain ⟨s, hs, -⟩ := Option.map_eq_some_iff.1 hreg
      cases hp : map r with
      | none =>
        have hnone : st₁.regTaintMap r = none := (hr₁.owns.entry (.reg r)).2 hp
        rw [hnone] at hs
        cases hs
      | some p =>
        refine ⟨p, rfl, ?_⟩
        rw [hr₁.regMarks hp, Taint.regMarks, hreg, Option.getD_some, hmarks, hr.active_eq]
    · have hrefs : ({ g with regTaintMap := map }).refs none none k = g.refs none none k := by
        cases k with
        | reg r => exact hsame r fun hr' => hk r hr' rfl
        | _ => rfl
      refine ⟨hrefs, fun p hp => ?_⟩
      rw [hr₁.owns.get (hrefs.trans hp), hr.owns.get hp]
      exact setTaintForRegister_sets hst hok hs₁ hk

theorem clearTaintForRegister_law (hn : g.NoSharing n h) (reg : REG) :
    Ensures (g.clearTaintForRegister malloc reg) h fun _ h₁ => ClearLaw reg g h h₁ := by
  obtain ⟨st, hr, hst⟩ := Globals.noSharing_iff.1 hn
  obtain ⟨st₁, hs₁, -, ht₁⟩ := TaintState.clearTaintForRegister_gives hst reg
  obtain ⟨u, h₁, hg₁, hr₁⟩ : Ensures (g.clearTaintForRegister malloc reg) h _ :=
    Globals.clearTaintForRegister_refines hr hs₁
  refine ⟨u, h₁, hg₁, fun r hr' p hp => ?_, fun k hk => ⟨rfl, fun p hp => ?_⟩⟩
  · obtain ⟨s, hs⟩ := (hr.owns.entry (.reg r)).1 hp
    have hs' : st.regTaintMap r = some s := hs
    rw [hr₁.regMarks hp, ht₁, regMarks_clearReg, if_pos ⟨hr', by simp [hs']⟩, hr.active_eq]
  · rw [hr₁.owns.get hp, hr.owns.get hp]
    exact clearTaintForRegister_sets hst hs₁ hk

/-! ## The stack registers -/

/-- There is no entry for `ESP` or `EBP`. -/
def Globals.NoStackEntry (g : Globals w) : Prop :=
  g.regTaintMap .ESP = none ∧ g.regTaintMap .EBP = none

theorem putPointer_other {α : Type} [DecidableEq α] {tmp : Ptr} {map : α → Option Ptr} {key a : α}
    (hne : a ≠ key) : Yields (putPointer malloc tmp map key) h fun map' _ => map' a = map a := by
  unfold putPointer
  split
  · exact Yields.bind fun _ _ _ => Yields.pure rfl
  · exact Yields.bind fun _ _ _ => Yields.pure (Function.update_of_ne hne ..)

/-- The loop over the entries keeps the sets that are there. -/
theorem putPointers_keeps {α : Type} [DecidableEq α] {tmp p : Ptr} {map : α → Option Ptr}
    (keys : List α) {a : α} (ha : map a = some p) :
    Yields (keys.foldlM (putPointer malloc tmp) map) h fun map' _ => map' a = some p := by
  refine Yields.foldlM (fun map h key hmap => ?_) ha keys
  unfold putPointer
  split
  · exact Yields.bind fun _ _ _ => Yields.pure hmap
  · rename_i hnone
    have hne : a ≠ key := by
      rintro rfl
      rw [hmap] at hnone
      cases hnone
    exact Yields.bind fun _ _ _ => Yields.pure ((Function.update_of_ne hne ..).trans hmap)

theorem setTaintForRegister_keeps {dest r : REG} {args : List Ptr} {p : Ptr}
    (hp : g.regTaintMap r = some p) :
    Yields (g.setTaintForRegister malloc dest args) h fun g' _ => g'.regTaintMap r = some p := by
  unfold Globals.setTaintForRegister
  split
  · exact Yields.pure hp
  · refine Yields.bind fun tmp h₁ _ => Yields.bind fun map h₂ hmap => ?_
    exact Yields.bind fun _ _ _ => Yields.bind fun _ _ _ =>
      Yields.pure (putPointers_keeps _ hp map h₂ hmap)

theorem stack_notUpdated {dest r : REG} (hstack : ¬ (dest = .ESP ∨ dest = .EBP))
    (hr : r = .ESP ∨ r = .EBP) : r ∉ containedRegs dest ++ [dest] := by
  rw [List.mem_append, List.mem_singleton, not_or]
  constructor
  · intro hin
    obtain ⟨h1, h2⟩ := containedRegs_ne hin
    exact hr.elim h1 h2
  · rintro rfl
    exact hstack hr

/-- The loop over the entries leaves other entries as they are. -/
theorem putPointers_other {α : Type} [DecidableEq α] {tmp : Ptr} {map : α → Option Ptr}
    {keys : List α} {a : α} (ha : a ∉ keys) :
    Yields (keys.foldlM (putPointer malloc tmp) map) h fun map' _ => map' a = map a := by
  induction keys generalizing map h with
  | nil => exact Yields.pure rfl
  | cons key keys ih =>
    rw [List.mem_cons, not_or] at ha
    rw [List.foldlM_cons]
    refine Yields.bind fun map₁ h₁ hput map₂ h₂ hrest => ?_
    exact (ih ha.2 map₂ h₂ hrest).trans (putPointer_other ha.1 map₁ h₁ hput)

theorem controlEntry_regTaintMap (addr : ADDRINT w) :
    Yields (g.controlEntry malloc addr) h fun r _ => r.2.regTaintMap = g.regTaintMap := by
  unfold Globals.controlEntry
  split
  · exact Yields.pure rfl
  · exact Yields.bind fun _ _ _ => Yields.pure rfl

theorem popControl_regTaintMap (addrs : List (ADDRINT w)) :
    Yields (g.popControl addrs) h fun g' _ => g'.regTaintMap = g.regTaintMap := by
  induction addrs generalizing g h with
  | nil => exact Yields.pure rfl
  | cons addr addrs ih =>
    unfold Globals.popControl
    split
    · exact Yields.bind fun _ _ _ => ih
    · exact Yields.pure rfl

/-- An operation creates no entry for the stack registers. -/
theorem Operation.run_noStackEntry (hg : g.NoStackEntry) (operation : Operation w) :
    Yields (operation.run malloc g) h fun g' _ => g'.NoStackEntry := by
  cases operation with
  | setTaintForRegister dest args =>
    show Yields (g.setTaintForRegister malloc dest (args.map g.scratch)) h _
    unfold Globals.setTaintForRegister
    split
    · exact Yields.pure hg
    · rename_i hstack
      refine Yields.bind fun tmp h₁ _ => Yields.bind fun map h₂ hmap => ?_
      refine Yields.bind fun _ _ _ => Yields.bind fun _ _ _ => Yields.pure ⟨?_, ?_⟩
      · exact (putPointers_other (stack_notUpdated hstack (.inl rfl)) map h₂ hmap).trans hg.1
      · exact (putPointers_other (stack_notUpdated hstack (.inr rfl)) map h₂ hmap).trans hg.2
  | pushControl addr =>
    show Yields (g.pushControl malloc addr) h _
    unfold Globals.pushControl
    split
    · exact Yields.pure hg
    · refine Yields.bind fun empty h₁ _ => ?_
      cases empty with
      | true => exact Yields.pure hg
      | false =>
        simp only [Bool.false_eq_true, if_false]
        refine Yields.bind fun r h₂ hentry => Yields.bind fun _ _ _ => Yields.pure ?_
        have hsame := controlEntry_regTaintMap addr r h₂ hentry
        exact ⟨hsame ▸ hg.1, hsame ▸ hg.2⟩
  | popControl addrs =>
    intro g' h' hrun
    have hsame := popControl_regTaintMap addrs g' h' hrun
    exact ⟨hsame ▸ hg.1, hsame ▸ hg.2⟩
  | freeMemory addr =>
    show Yields (g.freeMemory addr) h _
    unfold Globals.freeMemory
    split
    · exact Yields.bind fun _ _ _ => Yields.pure hg
    · exact Yields.pure hg
  | markMemory addrs mark =>
    exact Yields.bind fun _ _ _ => Yields.bind fun _ _ _ => Yields.bind fun _ _ _ =>
      Yields.bind fun _ _ _ => Yields.pure hg
  | markBytes bytes =>
    exact Yields.bind fun _ _ _ => Yields.bind fun _ _ _ => Yields.bind fun _ _ _ => Yields.pure hg
  | setTaintForMemory start size args =>
    exact Yields.bind fun _ _ _ => Yields.bind fun _ _ _ => Yields.bind fun _ _ _ =>
      Yields.bind fun _ _ _ => Yields.pure hg
  | eraseMemory addr => exact Yields.pure hg
  | clearTaintSet set => exact Yields.bind fun _ _ _ => Yields.pure hg
  | taintForRegister reg set => exact Yields.bind fun _ _ _ => Yields.pure hg
  | taintForMemory start size baseReg indexReg set => exact Yields.bind fun _ _ _ => Yields.pure hg
  | clearTaintForRegister reg => exact Yields.bind fun _ _ _ => Yields.pure hg
  | clearTaintForMemory start size => exact Yields.bind fun _ _ _ => Yields.pure hg

theorem start_noStackEntry (malloc : Malloc Bitset) (n : Nat) (h : Heap Bitset) :
    Yields (Globals.start malloc w n) h fun g _ => g.NoStackEntry := by
  unfold Globals.start
  exact Yields.bind fun _ _ _ => Yields.bind fun _ _ _ => Yields.bind fun _ _ _ =>
    Yields.bind fun _ _ _ => Yields.bind fun _ _ _ => Yields.bind fun _ _ _ =>
    Yields.bind fun _ _ _ => Yields.bind fun _ _ _ => Yields.pure ⟨rfl, rfl⟩

theorem reached_noStackEntry (operations : List (Operation w)) :
    Yields (runOperations malloc n operations) .empty fun g _ => g.NoStackEntry := by
  refine Yields.bind fun g h hg => ?_
  have hstart := start_noStackEntry malloc n .empty g h hg
  exact Yields.foldlM (Q := fun (g : Globals w) _ => g.NoStackEntry)
    (fun g h operation hn => Operation.run_noStackEntry hn operation) hstart operations

/-- **Writes to registers.** What `SetTaintForRegister` and `ClearTaintForRegister` leave in a state
without sharing; the states that are reached are such, and have no entry for `ESP` or `EBP`. -/
theorem register_writes (malloc : Malloc Bitset) (n : Nat) :
    (∀ (g : Globals w) (h : Heap Bitset), g.NoSharing n h →
      (∀ (dest : REG) (args : List Ptr), (∀ p ∈ args, ∃ k, g.refs none none k = some p) →
        Ensures (g.setTaintForRegister malloc dest args) h fun g₁ h₁ =>
          SetLaw dest args g h g₁ h₁ ∧
          ∀ p ∈ args, (∀ r ∈ updatedRegs dest, g.regTaintMap r ≠ some p) → h₁.get p = h.get p) ∧
      ∀ reg : REG, Ensures (g.clearTaintForRegister malloc reg) h fun _ h₁ => ClearLaw reg g h h₁) ∧
    ∀ (operations : List (Operation w)) (g : Globals w) (h : Heap Bitset),
      runOperations malloc n operations .empty = some (g, h) →
      g.NoSharing n h ∧ g.regTaintMap .ESP = none ∧ g.regTaintMap .EBP = none := by
  refine ⟨fun g h hn => ⟨fun dest args hargs => ?_, clearTaintForRegister_law hn⟩,
    fun operations g h hrun => ⟨reached_noSharing operations g h hrun,
      reached_noStackEntry operations g h hrun⟩⟩
  obtain ⟨g₁, h₁, hset, hlaw⟩ := setTaintForRegister_law hn dest hargs
  refine ⟨g₁, h₁, hset, hlaw, fun p hp hother => ?_⟩
  by_cases hstack : dest = .ESP ∨ dest = .EBP
  · rw [SetLaw, if_pos hstack] at hlaw
    rw [hlaw.2]
  · rw [SetLaw, if_neg hstack] at hlaw
    obtain ⟨k, hk⟩ := hargs p hp
    refine (hlaw.2 k fun r hr he => ?_).2 p hk
    rw [he] at hk
    exact hother r hr hk

/-- After `markedRun` the set `eflags` is assigned to `EAX`. -/
theorem register_writes_marked : ∃ (g : Globals 32) (h : Heap Bitset),
    runOperations (.bump Bitset) 2 markedRun .empty = some (g, h) ∧ g.NoSharing 2 h ∧
    Ensures (g.setTaintForRegister (.bump Bitset) .EAX [g.scratch .eflags]) h fun g₁ h₁ =>
      SetLaw .EAX [g.scratch .eflags] g h g₁ h₁ ∧
      ∀ p ∈ [g.scratch .eflags], (∀ r ∈ updatedRegs .EAX, g.regTaintMap r ≠ some p) →
        h₁.get p = h.get p := by
  obtain ⟨g, h, hrun⟩ := markedRun_reaches
  have hn := ((register_writes (.bump Bitset) 2).2 markedRun g h hrun).1
  refine ⟨g, h, hrun, hn, ((register_writes (.bump Bitset) 2).1 g h hn).1 .EAX _ fun p hp => ?_⟩
  exact ⟨.scratch .eflags, by rw [List.mem_singleton.1 hp]; rfl⟩

/-- A state with a new entry for a register. -/
theorem Globals.Represents.addReg (hr : g.Represents h st) (r : REG) {p : Ptr}
    (hp : h.get p = none) (s : Bitset) :
    ({ g with regTaintMap := Function.update g.regTaintMap r (some p) } : Globals w).Represents
      (h.store p s) { st with regTaintMap := Function.update st.regTaintMap r (some s) } := by
  have ho := hr.owns.add (k := .reg r) (a := s) hp
  have hrefs := (@refs_reg w g none none).set g.regTaintMap r (some p)
  have hsets := (@sets_reg w st none none).set st.regTaintMap r (some s)
  exact ⟨hrefs ▸ hsets ▸ ho, hr.marks⟩

/-- A state with a new active branch. -/
theorem Globals.Represents.addControl (hr : g.Represents h st) (addr : ADDRINT w) {p : Ptr}
    (hp : h.get p = none) (s : Bitset) :
    ({ g with controlTaintMap := g.controlTaintMap.insert addr p } : Globals w).Represents
      (h.store p s) { st with controlTaintMap := st.controlTaintMap.insert addr s } := by
  have ho := hr.owns.add (k := .control addr) (a := s) hp
  rw [refs_insert, sets_insert] at ho
  exact ⟨ho, hr.marks⟩

/-- In some state `EAX` has an entry without marks, and a branch with a mark is active. -/
theorem exists_entry_and_branch : ∃ (g : Globals 32) (h : Heap Bitset) (p : Ptr), g.NoSharing 2 h ∧
    g.regTaintMap .EAX = some p ∧ pointerMarks h p = ∅ ∧ g.active h = {0} := by
  obtain ⟨g₀, h₀, -, hr₀⟩ := start_represents (w := 32) (.bump Bitset) 2 .empty
  obtain ⟨s, hs, hmarks⟩ := Bitset.exists_single
  have hr₁ := hr₀.addReg .EAX ((Malloc.bump Bitset).fresh h₀) (.init 2)
  have hr₂ := hr₁.addControl 0 ((Malloc.bump Bitset).fresh _) s
  have hentry : ∀ r : REG, (Function.update (TaintState.initial 2 : TaintState 32).regTaintMap .EAX
      (some (.init 2))) r = if r = .EAX then some (.init 2) else none := fun r => by
    rw [Function.update_apply]
    rfl
  have hcontrol : ∀ a : ADDRINT 32, ((TaintState.initial 2 : TaintState 32).controlTaintMap.insert 0 s)[a]? =
      if a = 0 then some s else none := fun a => by
    rw [getElem?_insert_eq]
    simp [TaintState.initial]
  have hEAX : Function.update g₀.regTaintMap .EAX (some ((Malloc.bump Bitset).pick h₀)) .EAX =
      some ((Malloc.bump Bitset).pick h₀) := Function.update_self ..
  refine ⟨_, _, (Malloc.bump Bitset).pick h₀, Globals.noSharing_iff.2 ⟨_, hr₂, ⟨fun r s' hs' => ?_,
    fun a s' hs' => ?_, fun a s' hs' => ?_, fun _ => Bitset.init_ok 2, rfl⟩⟩,
    hEAX, ?_, ?_⟩
  · have hs := Option.ite_none_right_eq_some.1 ((hentry r).symm.trans hs')
    exact Option.some.inj hs.2 ▸ Bitset.init_ok 2
  · cases hs'
  · have hs₁ := Option.ite_none_right_eq_some.1 ((hcontrol a).symm.trans hs')
    exact Option.some.inj hs₁.2 ▸ hs
  · refine (hr₂.regMarks (r := .EAX) hEAX).trans ?_
    simp [Taint.regMarks]
  · rw [hr₂.active_eq]
    ext m
    have hcontrol' : ∀ a : ADDRINT 32, _ = _ := fun a => congrArg (Option.map Bitset.marks) (hcontrol a)
    simp only [Taint.active, TaintState.taint_control, Set.mem_ofPred_eq]
    constructor
    · rintro ⟨a, S, hS, hm⟩
      have hS' := (hcontrol' a).symm.trans hS
      split at hS' <;> simp_all
    · rintro rfl
      exact ⟨0, {0}, (hcontrol' 0).trans (by simp [hmarks]), rfl⟩

/-- A source set that is itself the entry of the register gets the marks of the active branches. -/
theorem stored_source_changes :
    ¬ ∀ (malloc : Malloc Bitset) (n : Nat) (g : Globals 32) (h : Heap Bitset), g.NoSharing n h →
      ∀ (dest : REG) (args : List Ptr), (∀ p ∈ args, ∃ k, g.refs none none k = some p) →
      Ensures (g.setTaintForRegister malloc dest args) h fun g₁ h₁ =>
        SetLaw dest args g h g₁ h₁ ∧ ∀ p ∈ args, h₁.get p = h.get p := by
  intro hall
  obtain ⟨g, h, p, hn, hp, hnone, hactive⟩ := exists_entry_and_branch
  obtain ⟨g₁, h₁, hset, hlaw, hsame⟩ := hall (.bump Bitset) 2 g h hn .EAX [p] fun q hq =>
    ⟨.reg .EAX, by rw [List.mem_singleton.1 hq]; exact hp⟩
  rw [SetLaw, if_neg (by decide)] at hlaw
  obtain ⟨p₁, hp₁, hm⟩ := hlaw.1 .EAX (mem_updated _)
  have hkeeps := setTaintForRegister_keeps hp g₁ h₁ hset
  obtain rfl := Option.some.inj (hp₁.symm.trans hkeeps)
  have hzero : (0 : ℕ) ∈ pointerMarks h₁ p₁ := by
    rw [hm, hactive]
    exact .inr rfl
  have hunchanged : pointerMarks h₁ p₁ = pointerMarks h p₁ := by
    unfold pointerMarks
    rw [hsame p₁ (List.mem_singleton_self _)]
  rw [hunchanged, hnone] at hzero
  exact hzero

end Dytan
