import Dytan.Taint.State

/-!
# What the taint operations mean

`Taint w` is the state of the analysis with sets of marks in place of bit sets: what each register,
memory byte, active branch and scratch set carries (`none`: no entry). Its operations are equations
between sets. `TaintState.taint` maps a `TaintState` to it.

`TaintState.WidthOk n` is the invariant that every set in the state has width `n`
(`NUMBER_OF_TAINT_MARKS`). Under it every operation of `Dytan/Taint/State.lean` passes its
assertions, keeps the invariant and computes the operation of `Taint` of the same name
(`TaintState.Gives`): `taintForRegister_gives`, `setTaintForMemory_gives`, ...
-/

open Classical

namespace Dytan

@[ext]
structure Taint (w : Nat) where
  reg : REG → Option (Set ℕ)
  mem : ADDRINT w → Option (Set ℕ)
  control : ADDRINT w → Option (Set ℕ)
  scratch : Scratch → Set ℕ

noncomputable section

namespace Taint

variable {w : Nat}

/-- The marks of a register; a register without an entry has none. -/
def regMarks (t : Taint w) (reg : REG) : Set ℕ := (t.reg reg).getD ∅

/-- The marks of a byte of memory. -/
def memMarks (t : Taint w) (addr : ADDRINT w) : Set ℕ := (t.mem addr).getD ∅

/-- The control taint: the marks of all active branches. -/
def active (t : Taint w) : Set ℕ := {m | ∃ addr S, t.control addr = some S ∧ m ∈ S}

/-- The marks of a base or index register. -/
def addressMarks (t : Taint w) (reg : REG) : Set ℕ := if reg.valid then t.regMarks reg else ∅

/-- The marks of the bytes at `addrs`. -/
def bytesMarks (t : Taint w) (addrs : List (ADDRINT w)) : Set ℕ :=
  {m | ∃ addr ∈ addrs, m ∈ t.memMarks addr}

/-- The scratch set `set` becomes `S`. -/
def load (t : Taint w) (set : Scratch) (S : Set ℕ) : Taint w :=
  { t with scratch := Function.update t.scratch set S }

/-- `S` and the control taint go to `dest` and the registers it contains; a write to `ESP` or `EBP`
is dropped. -/
def setReg (t : Taint w) (dest : REG) (S : Set ℕ) : Taint w :=
  if dest = .ESP ∨ dest = .EBP then t
  else { t with reg := fun r => if r ∈ containedRegs dest ++ [dest] then some (S ∪ t.active)
                                else t.reg r }

/-- The entries of `reg` and of the registers it contains become the control taint. -/
def clearReg (t : Taint w) (reg : REG) : Taint w :=
  { t with reg := fun r => if r ∈ containedRegs reg ++ [reg] ∧ (t.reg r).isSome then some t.active
                           else t.reg r }

def setMem (t : Taint w) (addrs : List (ADDRINT w)) (S : Set ℕ) : Taint w :=
  { t with mem := fun a => if a ∈ addrs then some (S ∪ t.active) else t.mem a }

def clearMem (t : Taint w) (addrs : List (ADDRINT w)) : Taint w :=
  { t with mem := fun a => if a ∈ addrs ∧ (t.mem a).isSome then some t.active else t.mem a }

/-- The branch at `addr` becomes active with the marks of `EFLAGS`, if there are any. -/
def pushControl (t : Taint w) (addr : ADDRINT w) : Taint w :=
  if t.regMarks .EFLAGS = ∅ then t
  else { t with control := Function.update t.control addr
                  (some ((t.control addr).getD ∅ ∪ t.regMarks .EFLAGS)) }

/-- The branches of the longest prefix of active branches of `addrs` end. -/
def popControl (t : Taint w) : List (ADDRINT w) → Taint w
  | [] => t
  | addr :: addrs =>
    if (t.control addr).isSome then
      popControl { t with control := Function.update t.control addr none } addrs
    else t

/-! ## Simp lemmas -/

section
variable (t : Taint w) (set : Scratch) (S : Set ℕ) (r d : REG) (a : ADDRINT w)
  (addrs : List (ADDRINT w))

@[simp] theorem load_reg : (t.load set S).reg = t.reg := rfl
@[simp] theorem load_mem : (t.load set S).mem = t.mem := rfl
@[simp] theorem load_control : (t.load set S).control = t.control := rfl
@[simp] theorem load_scratch_same : (t.load set S).scratch set = S := by simp [load]
@[simp] theorem load_active : (t.load set S).active = t.active := rfl
@[simp] theorem load_regMarks : (t.load set S).regMarks r = t.regMarks r := rfl
@[simp] theorem load_memMarks : (t.load set S).memMarks a = t.memMarks a := rfl
@[simp] theorem load_addressMarks : (t.load set S).addressMarks r = t.addressMarks r := rfl
@[simp] theorem load_bytesMarks : (t.load set S).bytesMarks addrs = t.bytesMarks addrs := rfl

theorem load_scratch_other {set set' : Scratch} (h : set' ≠ set) :
    (t.load set S).scratch set' = t.scratch set' := by simp [load, h]

@[simp] theorem setReg_mem : (t.setReg d S).mem = t.mem := by unfold setReg; split <;> rfl
@[simp] theorem setReg_control : (t.setReg d S).control = t.control := by
  unfold setReg; split <;> rfl
@[simp] theorem setReg_scratch : (t.setReg d S).scratch = t.scratch := by
  unfold setReg; split <;> rfl
@[simp] theorem setReg_active : (t.setReg d S).active = t.active := by unfold active; simp
@[simp] theorem setReg_memMarks : (t.setReg d S).memMarks a = t.memMarks a := by
  unfold memMarks; simp

@[simp] theorem setMem_reg : (t.setMem addrs S).reg = t.reg := rfl
@[simp] theorem setMem_control : (t.setMem addrs S).control = t.control := rfl
@[simp] theorem setMem_scratch : (t.setMem addrs S).scratch = t.scratch := rfl
@[simp] theorem setMem_active : (t.setMem addrs S).active = t.active := rfl
@[simp] theorem setMem_regMarks : (t.setMem addrs S).regMarks r = t.regMarks r := rfl

@[simp] theorem clearReg_mem : (t.clearReg d).mem = t.mem := rfl
@[simp] theorem clearReg_control : (t.clearReg d).control = t.control := rfl
@[simp] theorem clearReg_scratch : (t.clearReg d).scratch = t.scratch := rfl
@[simp] theorem clearReg_active : (t.clearReg d).active = t.active := rfl
@[simp] theorem clearMem_reg : (t.clearMem addrs).reg = t.reg := rfl
@[simp] theorem clearMem_control : (t.clearMem addrs).control = t.control := rfl
@[simp] theorem clearMem_scratch : (t.clearMem addrs).scratch = t.scratch := rfl
@[simp] theorem clearMem_active : (t.clearMem addrs).active = t.active := rfl

end

end Taint

/-! ## The abstraction -/

namespace TaintState

variable {w : Nat}

/-- What a state means. -/
def taint (st : TaintState w) : Taint w where
  reg r := (st.regTaintMap r).map Bitset.marks
  mem a := (st.memTaintMap a).map Bitset.marks
  control a := (st.controlTaintMap[a]?).map Bitset.marks
  scratch s := (st.scratch s).marks

@[simp] theorem taint_reg (st : TaintState w) (r : REG) :
    st.taint.reg r = (st.regTaintMap r).map Bitset.marks := rfl
@[simp] theorem taint_mem (st : TaintState w) (a : ADDRINT w) :
    st.taint.mem a = (st.memTaintMap a).map Bitset.marks := rfl
@[simp] theorem taint_control (st : TaintState w) (a : ADDRINT w) :
    st.taint.control a = (st.controlTaintMap[a]?).map Bitset.marks := rfl
@[simp] theorem taint_scratch (st : TaintState w) (s : Scratch) :
    st.taint.scratch s = (st.scratch s).marks := rfl

/-- Every set of the state has width `n`, the number of taint marks. -/
structure WidthOk (n : Nat) (st : TaintState w) : Prop where
  reg : ∀ r (s : Bitset), st.regTaintMap r = some s → s.Ok n
  mem : ∀ a (s : Bitset), st.memTaintMap a = some s → s.Ok n
  control : ∀ (a : ADDRINT w) (s : Bitset), st.controlTaintMap[a]? = some s → s.Ok n
  scratch : ∀ s, (st.scratch s).Ok n
  marks : st.numberOfTaintMarks = n

theorem initial_ok (n : Nat) : (initial n : TaintState w).WidthOk n :=
  ⟨nofun, nofun, fun a s h => by simp [initial] at h, fun _ => Bitset.init_ok n, rfl⟩

/-- The operation's assertions hold, and its result is a state of width `n` that means `t`. -/
def Gives (n : Nat) (r : Option (TaintState w)) (t : Taint w) : Prop :=
  ∃ st, r = some st ∧ st.WidthOk n ∧ st.taint = t

theorem Gives.bind {n : Nat} {r : Option (TaintState w)} {t t' : Taint w}
    {f : TaintState w → Option (TaintState w)} (h : Gives n r t)
    (hf : ∀ st, st.WidthOk n → st.taint = t → Gives n (f st) t') : Gives n (r.bind f) t' := by
  obtain ⟨st, rfl, hst, ht⟩ := h
  exact hf st hst ht

theorem WidthOk.init_ok {n : Nat} {st : TaintState w} (h : st.WidthOk n) :
    (Bitset.init st.numberOfTaintMarks).Ok n := by
  rw [h.marks]
  exact Bitset.init_ok n

theorem WidthOk.gives {n : Nat} {st : TaintState w} (h : st.WidthOk n) :
    Gives n (some st) st.taint := ⟨st, rfl, h, rfl⟩

/-- States of one width that mean the same have the same maps and scratch sets. -/
theorem WidthOk.ext_taint {n : Nat} {st st' : TaintState w} (h : st.WidthOk n)
    (h' : st'.WidthOk n) :
    (st.taint.reg = st'.taint.reg → st.regTaintMap = st'.regTaintMap) ∧
    (st.taint.mem = st'.taint.mem → st.memTaintMap = st'.memTaintMap) ∧
    (st.taint.control = st'.taint.control → st.controlTaintMap = st'.controlTaintMap) := by
  have key : ∀ {o o' : Option Bitset}, (∀ s : Bitset, o = some s → s.Ok n) →
      (∀ s : Bitset, o' = some s → s.Ok n) →
      o.map Bitset.marks = o'.map Bitset.marks → o = o' := by
    intro o o' ho ho' he
    cases o with
    | none => cases o' with
      | none => rfl
      | some _ => simp at he
    | some s => cases o' with
      | none => simp at he
      | some s' =>
        simp only [Option.map_some, Option.some.injEq] at he
        rw [(ho s rfl).ext_marks (ho' s' rfl) he]
  refine ⟨fun he => funext fun r => ?_, fun he => funext fun a => ?_, fun he => ?_⟩
  · exact key (h.reg r) (h'.reg r) (congrFun he r)
  · exact key (h.mem a) (h'.mem a) (congrFun he a)
  · exact Std.ExtTreeMap.ext_getElem? fun a => key (h.control a) (h'.control a) (congrFun he a)

end TaintState

/-! ## Unions and entries -/

section
variable {n : Nat}

theorem unionAll_spec {sets : List Bitset} (hs : ∀ s ∈ sets, s.Ok n) :
    ∀ {acc : Bitset}, acc.Ok n → ∃ r, unionAll acc sets = some r ∧ r.Ok n ∧
      r.marks = acc.marks ∪ {m | ∃ s ∈ sets, m ∈ s.marks} := by
  induction sets with
  | nil => intro acc h; exact ⟨acc, rfl, h, by simp⟩
  | cons s sets ih =>
    intro acc h
    obtain ⟨u, hu, huok, hum⟩ := h.union_spec (hs s (by simp))
    obtain ⟨r, hr, hrok, hrm⟩ := ih (fun s hm => hs s (by simp [hm])) huok
    refine ⟨r, by simpa [unionAll, List.foldlM_cons, hu] using hr, hrok, ?_⟩
    rw [hrm, hum]
    ext m
    simp [or_assoc]

theorem noArgs_ok : ∀ s ∈ ([] : List Bitset), s.Ok n := nofun

variable {α : Type} [DecidableEq α] {tmp : Bitset} {map : α → Option Bitset}

theorem putEntry_eq (ht : tmp.Ok n) (hm : ∀ a s, map a = some s → s.Ok n) (key : α) :
    putEntry tmp map key = some (Function.update map key (some tmp)) := by
  unfold putEntry
  split
  · rename_i s hs
    simp [(hm _ s hs).setBits_eq ht]
  · rw [ht.copy_eq]

theorem putEntries_eq (ht : tmp.Ok n) (hm : ∀ a s, map a = some s → s.Ok n) (keys : List α) :
    keys.foldlM (putEntry tmp) map = some fun a => if a ∈ keys then some tmp else map a := by
  induction keys generalizing map with
  | nil => simp
  | cons key keys ih =>
    rw [List.foldlM_cons, putEntry_eq ht hm]
    have hm' : ∀ a s, Function.update map key (some tmp) a = some s → s.Ok n := by
      intro a s h
      by_cases ha : a = key
      · subst ha; simp at h; exact h ▸ ht
      · exact hm a s (by simpa [Function.update_of_ne ha] using h)
    refine (ih hm').trans (congrArg some (funext fun a => ?_))
    by_cases hk : a ∈ keys
    · simp [hk]
    · by_cases ha : a = key
      · subst ha; simp [hk]
      · simp [hk, ha]

theorem refreshEntry_eq (ht : tmp.Ok n) (hm : ∀ a s, map a = some s → s.Ok n) (key : α) :
    refreshEntry tmp map key =
      some (Function.update map key (if (map key).isSome then some tmp else map key)) := by
  unfold refreshEntry
  split
  · rename_i s hs
    simp [(hm _ s hs).setBits_eq ht, hs]
  · rename_i hs
    simp [hs]

theorem refreshEntries_eq (ht : tmp.Ok n) (hm : ∀ a s, map a = some s → s.Ok n) (keys : List α) :
    keys.foldlM (refreshEntry tmp) map =
      some fun a => if a ∈ keys ∧ (map a).isSome then some tmp else map a := by
  induction keys generalizing map with
  | nil => simp
  | cons key keys ih =>
    rw [List.foldlM_cons, refreshEntry_eq ht hm]
    set map' := Function.update map key (if (map key).isSome then some tmp else map key) with hdef
    have hsame : ∀ a, (map' a).isSome = (map a).isSome := by
      intro a
      by_cases ha : a = key
      · subst ha
        simp only [hdef, Function.update_self]
        split <;> simp_all
      · simp [hdef, ha]
    have hm' : ∀ a s, map' a = some s → s.Ok n := by
      intro a s h
      by_cases ha : a = key
      · subst ha
        simp only [hdef, Function.update_self] at h
        split at h
        · exact (Option.some.inj h) ▸ ht
        · exact hm a s h
      · exact hm a s (by simpa [hdef, Function.update_of_ne ha] using h)
    refine (ih hm').trans (congrArg some (funext fun a => ?_))
    rw [hsame]
    by_cases ha : a = key
    · subst ha
      simp only [hdef, Function.update_self, List.mem_cons, true_or, true_and]
      split
      · simp_all
      · rfl
    · simp [hdef, ha]

end

/-! ## The operations -/

namespace TaintState

variable {w n : Nat} {st : TaintState w}

theorem setScratch_taint (st : TaintState w) (set : Scratch) (s : Bitset) :
    (st.setScratch set s).taint = st.taint.load set s.marks := by
  ext1 <;> try rfl
  funext s'
  by_cases h : s' = set
  · subst h; simp [taint, setScratch, Taint.load]
  · simp [taint, setScratch, Taint.load, h]

theorem WidthOk.setScratch (h : st.WidthOk n) {s : Bitset} (hs : s.Ok n) (set : Scratch) :
    (st.setScratch set s).WidthOk n := by
  refine ⟨h.reg, h.mem, h.control, fun s' => ?_, h.marks⟩
  by_cases he : s' = set
  · subst he; simpa [TaintState.setScratch] using hs
  · simpa [TaintState.setScratch, he] using h.scratch s'

theorem WidthOk.setReg (h : st.WidthOk n) {map : REG → Option Bitset}
    (hm : ∀ r s, map r = some s → s.Ok n) : ({ st with regTaintMap := map }).WidthOk n :=
  ⟨hm, h.mem, h.control, h.scratch, h.marks⟩

theorem WidthOk.setMem (h : st.WidthOk n) {map : ADDRINT w → Option Bitset}
    (hm : ∀ a s, map a = some s → s.Ok n) : ({ st with memTaintMap := map }).WidthOk n :=
  ⟨h.reg, hm, h.control, h.scratch, h.marks⟩

section
variable (h : st.WidthOk n)
include h

theorem clearTaintSet_gives (set : Scratch) :
    Gives n (some (st.clearTaintSet set)) (st.taint.load set ∅) := by
  refine ⟨_, rfl, ?_, ?_⟩
  · unfold clearTaintSet
    rw [(h.scratch set).reset_eq]
    exact h.setScratch (Bitset.init_ok n) set
  · rw [clearTaintSet, setScratch_taint, (h.scratch set).reset_eq, Bitset.marks_init]

theorem taintForRegister_gives (reg : REG) (set : Scratch) :
    Gives n (st.taintForRegister reg set) (st.taint.load set (st.taint.regMarks reg)) := by
  unfold taintForRegister
  split
  · rename_i s hs
    rw [(h.scratch set).setBits_eq (h.reg _ s hs)]
    refine ⟨_, rfl, h.setScratch (h.reg _ s hs) set, ?_⟩
    rw [setScratch_taint]
    simp [Taint.regMarks, taint, hs]
  · rename_i hs
    have he : st.taint.regMarks reg = ∅ := by simp [Taint.regMarks, taint, hs]
    rw [he]
    exact clearTaintSet_gives h set

theorem controlTaint_spec :
    ∃ c, st.controlTaint = some c ∧ c.Ok n ∧ c.marks = st.taint.active := by
  have hs : ∀ s ∈ st.controlTaintMap.toList.map (·.2), s.Ok n := by
    intro s hm
    obtain ⟨⟨a, s⟩, hin, rfl⟩ := List.mem_map.1 hm
    exact h.control a s (Std.ExtTreeMap.mem_toList_iff_getElem?_eq_some.1 hin)
  obtain ⟨c, hc, hok, hcm⟩ := unionAll_spec hs h.init_ok
  refine ⟨c, hc, hok, ?_⟩
  rw [hcm]
  ext m
  simp only [Bitset.marks_init, Set.empty_union, Set.mem_ofPred_eq, List.mem_map, Taint.active,
    taint, Option.map_eq_some_iff]
  constructor
  · rintro ⟨_, ⟨⟨a, s⟩, hm, rfl⟩, hms⟩
    exact ⟨a, _, ⟨s, Std.ExtTreeMap.mem_toList_iff_getElem?_eq_some.1 hm, rfl⟩, hms⟩
  · rintro ⟨a, _, ⟨s, hm, rfl⟩, hms⟩
    exact ⟨s, ⟨(a, s), Std.ExtTreeMap.mem_toList_iff_getElem?_eq_some.2 hm, rfl⟩, hms⟩

theorem assignedTaint_spec {args : List Bitset} (ha : ∀ s ∈ args, s.Ok n) :
    ∃ c, st.assignedTaint args = some c ∧ c.Ok n ∧
      c.marks = {m | ∃ s ∈ args, m ∈ s.marks} ∪ st.taint.active := by
  obtain ⟨u, hu, huok, hum⟩ := unionAll_spec ha h.init_ok
  obtain ⟨c, hc, hcok, hcm⟩ := controlTaint_spec h
  obtain ⟨r, hr, hrok, hrm⟩ := huok.union_spec hcok
  refine ⟨r, by simp [assignedTaint, hu, hc, hr], hrok, ?_⟩
  rw [hrm, hum, hcm, Bitset.marks_init, Set.empty_union]

theorem setTaintForRegister_gives (dest : REG) {args : List Bitset} (ha : ∀ s ∈ args, s.Ok n) :
    Gives n (st.setTaintForRegister dest args)
      (st.taint.setReg dest {m | ∃ s ∈ args, m ∈ s.marks}) := by
  unfold setTaintForRegister Taint.setReg
  split
  · exact h.gives
  · obtain ⟨tmp, ht, htok, htm⟩ := assignedTaint_spec h ha
    simp only [ht, putEntries_eq htok h.reg, Option.bind_eq_bind, Option.bind_some, Option.pure_def]
    refine ⟨_, rfl, h.setReg fun r s hs => ?_, ?_⟩
    · split at hs
      · exact (Option.some.inj hs) ▸ htok
      · exact h.reg r s hs
    · ext1 <;> try rfl
      funext r
      simp only [taint_reg]
      split <;> simp [htm]

theorem clearTaintForRegister_gives (reg : REG) :
    Gives n (st.clearTaintForRegister reg) (st.taint.clearReg reg) := by
  obtain ⟨c, hc, hcok, hcm⟩ := controlTaint_spec h
  simp only [clearTaintForRegister, hc, refreshEntries_eq hcok h.reg, Option.bind_eq_bind,
    Option.bind_some, Option.pure_def]
  refine ⟨_, rfl, h.setReg fun r s hs => ?_, ?_⟩
  · split at hs
    · exact (Option.some.inj hs) ▸ hcok
    · exact h.reg r s hs
  · ext1 <;> try rfl
    funext r
    simp only [taint_reg, Taint.clearReg, Option.isSome_map]
    split <;> simp [hcm]

theorem setTaintForMemory_gives (start size : ADDRINT w) {args : List Bitset}
    (ha : ∀ s ∈ args, s.Ok n) :
    Gives n (st.setTaintForMemory start size args)
      (st.taint.setMem (addrRange start (start + size)) {m | ∃ s ∈ args, m ∈ s.marks}) := by
  obtain ⟨tmp, ht, htok, htm⟩ := assignedTaint_spec h ha
  simp only [setTaintForMemory, ht, putEntries_eq htok h.mem, Option.bind_eq_bind,
    Option.bind_some, Option.pure_def]
  refine ⟨_, rfl, h.setMem fun r s hs => ?_, ?_⟩
  · split at hs
    · exact (Option.some.inj hs) ▸ htok
    · exact h.mem r s hs
  · ext1 <;> try rfl
    funext r
    simp only [taint_mem, Taint.setMem]
    split <;> simp [htm]

theorem clearTaintForMemory_gives (start size : ADDRINT w) :
    Gives n (st.clearTaintForMemory start size)
      (st.taint.clearMem (addrRange start (start + size))) := by
  obtain ⟨c, hc, hcok, hcm⟩ := controlTaint_spec h
  simp only [clearTaintForMemory, hc, refreshEntries_eq hcok h.mem, Option.bind_eq_bind,
    Option.bind_some, Option.pure_def]
  refine ⟨_, rfl, h.setMem fun r s hs => ?_, ?_⟩
  · split at hs
    · exact (Option.some.inj hs) ▸ hcok
    · exact h.mem r s hs
  · ext1 <;> try rfl
    funext r
    simp only [taint_mem, Taint.clearMem, Option.isSome_map]
    split <;> simp [hcm]

theorem unionRegister_spec (reg : REG) {set : Bitset} (hs : set.Ok n) :
    ∃ r, st.unionRegister reg set = some r ∧ r.Ok n ∧
      r.marks = set.marks ∪ st.taint.addressMarks reg := by
  unfold unionRegister Taint.addressMarks
  split
  · split
    · rename_i s hr
      obtain ⟨r, h1, h2, h3⟩ := hs.union_spec (h.reg _ s hr)
      exact ⟨r, h1, h2, by simp [h3, Taint.regMarks, taint, hr]⟩
    · rename_i hr
      exact ⟨set, rfl, hs, by simp [Taint.regMarks, taint, hr]⟩
  · exact ⟨set, rfl, hs, by simp⟩

theorem taintForMemory_gives (start size : ADDRINT w) (baseReg indexReg : REG) (set : Scratch) :
    Gives n (st.taintForMemory start size baseReg indexReg set)
      (st.taint.load set (st.taint.bytesMarks (addrRange start (start + size)) ∪
        st.taint.addressMarks baseReg ∪ st.taint.addressMarks indexReg)) := by
  have hs : ∀ s ∈ (addrRange start (start + size)).filterMap st.memTaintMap, s.Ok n := by
    intro s hm
    obtain ⟨a, -, hm⟩ := List.mem_filterMap.1 hm
    exact h.mem a s hm
  have hr : (st.scratch set).reset.Ok n := (h.scratch set).reset_eq ▸ Bitset.init_ok n
  obtain ⟨u, hu, huok, hum⟩ := unionAll_spec hs hr
  obtain ⟨b, hb, hbok, hbm⟩ := unionRegister_spec h baseReg huok
  obtain ⟨i, hi, hiok, him⟩ := unionRegister_spec h indexReg hbok
  simp only [taintForMemory, hu, hb, hi, Option.bind_eq_bind, Option.bind_some, Option.pure_def]
  refine ⟨_, rfl, h.setScratch hiok set, ?_⟩
  rw [setScratch_taint, him, hbm, hum, (h.scratch set).reset_eq, Bitset.marks_init,
    Set.empty_union]
  congr 3
  ext m
  simp only [Set.mem_ofPred_eq, List.mem_filterMap, Taint.bytesMarks, Taint.memMarks, taint]
  constructor
  · rintro ⟨s, ⟨a, ha, hs⟩, hm⟩
    exact ⟨a, ha, by simpa [hs] using hm⟩
  · rintro ⟨a, ha, hm⟩
    cases hs : st.memTaintMap a with
    | none => simp [hs] at hm
    | some s => exact ⟨s, ⟨a, ha, hs⟩, by simpa [hs] using hm⟩

theorem pushControl_gives (addr : ADDRINT w) :
    Gives n (st.pushControl addr) (st.taint.pushControl addr) := by
  unfold pushControl Taint.pushControl
  split
  · rename_i hr
    rw [if_pos (by simp [Taint.regMarks, taint, hr])]
    exact h.gives
  · rename_i e hr
    have he : e.Ok n := h.reg _ e hr
    have hm : st.taint.regMarks .EFLAGS = e.marks := by simp [Taint.regMarks, taint, hr]
    rw [hm]
    by_cases hemp : e.marks = ∅
    · rw [if_pos (he.isEmpty_iff.2 hemp), if_pos hemp]
      exact h.gives
    · rw [if_neg (fun hc => hemp (he.isEmpty_iff.1 hc)), if_neg hemp]
      set cur := (st.controlTaintMap[addr]?).getD (.init st.numberOfTaintMarks) with hcur
      have hcok : cur.Ok n := by
        rw [hcur, h.marks]
        cases hc : st.controlTaintMap[addr]? with
        | none => exact Bitset.init_ok n
        | some s => exact h.control _ s hc
      have hcm : cur.marks = (st.taint.control addr).getD ∅ := by
        rw [hcur]
        simp only [taint]
        cases st.controlTaintMap[addr]? <;> simp
      obtain ⟨u, hu, huok, hum⟩ := hcok.union_spec he
      simp only [hu, Option.bind_eq_bind, Option.bind_some, Option.pure_def]
      refine ⟨_, rfl, ⟨h.reg, h.mem, fun a s hs => ?_, h.scratch, h.marks⟩, ?_⟩
      · simp only [getElem?_insert_eq] at hs
        split at hs
        · exact (Option.some.inj hs) ▸ huok
        · exact h.control a s hs
      · ext1 <;> try rfl
        funext a
        simp only [taint, getElem?_insert_eq, Function.update_apply]
        split
        · simp only [Option.map_some, hum, hcm, taint]
        · rfl

end

theorem popControl_gives (h : st.WidthOk n) (addrs : List (ADDRINT w)) :
    Gives n (some (st.popControl addrs)) (st.taint.popControl addrs) := by
  induction addrs generalizing st with
  | nil => exact h.gives
  | cons addr addrs ih =>
    unfold popControl Taint.popControl
    have hiff : st.controlTaintMap.contains addr = (st.taint.control addr).isSome := by
      simp [taint]
    rw [hiff]
    split
    · have herase : ({ st with controlTaintMap := st.controlTaintMap.erase addr }).WidthOk n := by
        refine ⟨h.reg, h.mem, fun a s hs => ?_, h.scratch, h.marks⟩
        simp only [getElem?_erase_eq] at hs
        split at hs
        · cases hs
        · exact h.control a s hs
      have htaint : ({ st with controlTaintMap := st.controlTaintMap.erase addr }).taint =
          { st.taint with control := Function.update st.taint.control addr none } := by
        ext1 <;> try rfl
        funext a
        simp only [taint, getElem?_erase_eq, Function.update_apply]
        split <;> rfl
      rw [← htaint]
      exact ih herase
    · exact h.gives

/-- The state has the mark `0` on the registers `regs`, on the bytes `bytes` and, if `branch`, on an
active branch; nothing else has an entry. -/
structure Marked (regs : Set REG) (bytes : Set (ADDRINT w)) (branch : Bool) (st : TaintState w) :
    Prop where
  ok : st.WidthOk 2
  reg : ∀ r, st.taint.reg r = if r ∈ regs then some {0} else none
  mem : ∀ a, st.taint.mem a = if a ∈ bytes then some {0} else none
  active : st.taint.active = if branch then {0} else ∅

section
variable {regs : Set REG} {bytes : Set (ADDRINT w)} {branch : Bool}

theorem Marked.regMarks (h : Marked regs bytes branch st) (r : REG) :
    st.taint.regMarks r = if r ∈ regs then {0} else ∅ := by
  rw [Taint.regMarks, h.reg]
  split <;> rfl

theorem Marked.memMarks (h : Marked regs bytes branch st) (a : ADDRINT w) :
    st.taint.memMarks a = if a ∈ bytes then {0} else ∅ := by
  rw [Taint.memMarks, h.mem]
  split <;> rfl

theorem Marked.addressMarks (h : Marked regs bytes branch st) {r : REG} (hr : r ∉ regs) :
    st.taint.addressMarks r = ∅ := by
  rw [Taint.addressMarks, h.regMarks, if_neg hr, ite_self]

end

theorem exists_marked (regs : Set REG) (bytes : Set (ADDRINT w)) (branch : Bool) :
    ∃ st : TaintState w, Marked regs bytes branch st := by
  obtain ⟨s, hs, hmarks⟩ := Bitset.exists_single
  let control : Std.ExtTreeMap (ADDRINT w) Bitset :=
    if branch then (∅ : Std.ExtTreeMap (ADDRINT w) Bitset).insert 0 s else ∅
  have hcontrol : ∀ a : ADDRINT w, control[a]? = if branch = true ∧ a = 0 then some s else none := by
    intro a
    cases branch with
    | false => simp [control]
    | true =>
      simp only [control, if_true, getElem?_insert_eq, Std.ExtTreeMap.getElem?_empty, true_and]
  let st : TaintState w :=
    { (initial 2 : TaintState w) with
      regTaintMap := fun r => if r ∈ regs then some s else none
      memTaintMap := fun a => if a ∈ bytes then some s else none
      controlTaintMap := control }
  refine ⟨st, ⟨fun r s' h => ?_, fun a s' h => ?_, fun a s' h => ?_, fun _ => Bitset.init_ok 2, rfl⟩,
    fun r => ?_, fun a => ?_, ?_⟩
  · simp only [st, Option.ite_none_right_eq_some, Option.some.injEq] at h
    exact h.2 ▸ hs
  · simp only [st, Option.ite_none_right_eq_some, Option.some.injEq] at h
    exact h.2 ▸ hs
  · simp only [st, hcontrol, Option.ite_none_right_eq_some, Option.some.injEq] at h
    exact h.2 ▸ hs
  · simp only [taint_reg, st]
    split <;> simp [hmarks]
  · simp only [taint_mem, st]
    split <;> simp [hmarks]
  · ext m
    simp only [Taint.active, taint_control, st, hcontrol, Set.mem_ofPred_eq]
    cases branch <;> simp [hmarks]

end TaintState

end

end Dytan
