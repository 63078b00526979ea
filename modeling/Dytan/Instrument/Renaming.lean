import Dytan.Instrument.Scratch
import Mathlib.Data.Rel

/-!
# Marks under a renaming

`Renamed ρ L t t'`: the maps of `t'` and its scratch sets in `L` hold the images under `ρ` of what
those of `t` hold, a relation between marks that may split a mark, merge marks or drop them. The
calls keep it (`Renamed.calls`), and so does `PushControl`: the analysis combines sets by union
only and never looks at a mark.

`PopControl` asks whether a branch is in the map. A renaming that drops no mark keeps the branches
(`SameBranches`), and with them the effect of `PopControl`.
-/

namespace Dytan

open TaintState

variable {w : Nat} {ρ : SetRel ℕ ℕ}

/-! ## Entries -/

/-- The entries of `map'` are the images of those of `map`. -/
def EntriesImage {α : Type} (ρ : SetRel ℕ ℕ) (map map' : α → Option (Set ℕ)) : Prop :=
  ∀ a, map' a = (map a).map ρ.image

namespace EntriesImage

variable {α : Type} {map map' : α → Option (Set ℕ)} {S S' : Set ℕ} {P : α → Prop} [DecidablePred P]

theorem isSome (h : EntriesImage ρ map map') (a : α) : (map' a).isSome = (map a).isSome := by
  rw [h a, Option.isSome_map]

theorem getD (h : EntriesImage ρ map map') (a : α) :
    (map' a).getD ∅ = ρ.image ((map a).getD ∅) := by
  rw [h a]
  cases map a with
  | none => exact SetRel.image_empty_right.symm
  | some S => rfl

/-- The entries in `P` are overwritten. -/
theorem put (h : EntriesImage ρ map map') (hS : S' = ρ.image S) :
    EntriesImage ρ (fun a => if P a then some S else map a)
      (fun a => if P a then some S' else map' a) := by
  intro a
  by_cases hP : P a
  · simp only [if_pos hP, hS, Option.map_some]
  · simp only [if_neg hP, h a]

/-- The entries in `P` are overwritten where there is one, which is the same in both maps. -/
theorem refresh (h : EntriesImage ρ map map') (hS : S' = ρ.image S) :
    EntriesImage ρ (fun a => if P a ∧ (map a).isSome then some S else map a)
      (fun a => if P a ∧ (map' a).isSome then some S' else map' a) := by
  intro a
  simp only [h.isSome a]
  by_cases hP : P a ∧ (map a).isSome = true
  · rw [if_pos hP, if_pos hP, hS, Option.map_some]
  · rw [if_neg hP, if_neg hP, h a]

end EntriesImage

/-! ## States -/

/-- The maps and the scratch sets in `L` of `t'` hold the images of those of `t`; a branch that is
not active counts as one without marks. -/
structure Renamed (ρ : SetRel ℕ ℕ) (L : Set Scratch) (t t' : Taint w) : Prop where
  reg : EntriesImage ρ t.reg t'.reg
  mem : EntriesImage ρ t.mem t'.mem
  control : ∀ a, (t'.control a).getD ∅ = ρ.image ((t.control a).getD ∅)
  scratch : ∀ s ∈ L, t'.scratch s = ρ.image (t.scratch s)

/-- The same branches are active. -/
def SameBranches (t t' : Taint w) : Prop := ∀ a, (t'.control a).isSome = (t.control a).isSome

/-- Some active branch has the mark. -/
theorem Taint.mem_active {t : Taint w} {m : ℕ} :
    m ∈ t.active ↔ ∃ a, m ∈ (t.control a).getD ∅ := by
  constructor
  · rintro ⟨a, S, hS, hm⟩
    exact ⟨a, by rwa [hS]⟩
  · rintro ⟨a, hm⟩
    cases hc : t.control a with
    | none => rw [hc] at hm; exact hm.elim
    | some S => exact ⟨a, S, hc, by rwa [hc] at hm⟩

namespace Renamed

variable {L M : Set Scratch} {t t' : Taint w} {S S' : Set ℕ}

theorem mono (h : Renamed ρ L t t') (hM : M ⊆ L) : Renamed ρ M t t' :=
  ⟨h.reg, h.mem, h.control, fun s hs => h.scratch s (hM hs)⟩

theorem active (h : Renamed ρ L t t') : t'.active = ρ.image t.active := by
  ext m'
  simp only [Taint.mem_active, h.control, SetRel.mem_image]
  constructor
  · rintro ⟨a, m, hm, hρ⟩
    exact ⟨m, ⟨a, hm⟩, hρ⟩
  · rintro ⟨m, ⟨a, hm⟩, hρ⟩
    exact ⟨a, m, hm, hρ⟩

theorem regMarks (h : Renamed ρ L t t') (r : REG) : t'.regMarks r = ρ.image (t.regMarks r) :=
  h.reg.getD r

theorem addressMarks (h : Renamed ρ L t t') (r : REG) :
    t'.addressMarks r = ρ.image (t.addressMarks r) := by
  unfold Taint.addressMarks
  split
  · exact h.regMarks r
  · exact SetRel.image_empty_right.symm

theorem bytesMarks (h : Renamed ρ L t t') (addrs : List (ADDRINT w)) :
    t'.bytesMarks addrs = ρ.image (t.bytesMarks addrs) := by
  ext m'
  simp only [Taint.bytesMarks, Taint.memMarks, h.mem.getD, Set.mem_ofPred_eq, SetRel.mem_image]
  constructor
  · rintro ⟨a, ha, m, hm, hρ⟩
    exact ⟨m, ⟨a, ha, hm⟩, hρ⟩
  · rintro ⟨m, ⟨a, ha, hm⟩, hρ⟩
    exact ⟨a, ha, m, hm, hρ⟩

theorem readMarks (h : Renamed ρ L t t') (addrs : List (ADDRINT w)) (b i : REG) :
    t'.readMarks addrs b i = ρ.image (t.readMarks addrs b i) := by
  simp only [Taint.readMarks, SetRel.image_union, h.bytesMarks, h.addressMarks]

theorem scratchMarks (h : Renamed ρ L t t') {args : List Scratch} (hargs : ∀ s ∈ args, s ∈ L) :
    t'.scratchMarks args = ρ.image (t.scratchMarks args) := by
  ext m'
  simp only [Taint.scratchMarks, Set.mem_ofPred_eq, SetRel.mem_image]
  constructor
  · rintro ⟨s, hs, hm⟩
    rw [h.scratch s (hargs s hs)] at hm
    obtain ⟨m, hm, hρ⟩ := hm
    exact ⟨m, ⟨s, hs, hm⟩, hρ⟩
  · rintro ⟨m, ⟨s, hs, hm⟩, hρ⟩
    refine ⟨s, hs, ?_⟩
    rw [h.scratch s (hargs s hs)]
    exact ⟨m, hm, hρ⟩

theorem union_active (h : Renamed ρ L t t') (hS : S' = ρ.image S) :
    S' ∪ t'.active = ρ.image (S ∪ t.active) := by
  rw [SetRel.image_union, hS, h.active]

/-! ### The calls -/

theorem load (h : Renamed ρ L t t') (set : Scratch) (hS : S' = ρ.image S) :
    Renamed ρ (insert set L) (t.load set S) (t'.load set S') := by
  refine ⟨h.reg, h.mem, h.control, fun s hs => ?_⟩
  by_cases he : s = set
  · rw [he, Taint.load_scratch_same, Taint.load_scratch_same]
    exact hS
  · rw [Taint.load_scratch_other _ _ he, Taint.load_scratch_other _ _ he]
    exact h.scratch s (hs.resolve_left he)

theorem setReg (h : Renamed ρ L t t') (dest : REG) (hS : S' = ρ.image S) :
    Renamed ρ L (t.setReg dest S) (t'.setReg dest S') := by
  refine ⟨?_, by simpa using h.mem, by simpa using h.control, by simpa using h.scratch⟩
  unfold Taint.setReg
  split
  · exact h.reg
  · exact h.reg.put (h.union_active hS)

theorem setMem (h : Renamed ρ L t t') (addrs : List (ADDRINT w)) (hS : S' = ρ.image S) :
    Renamed ρ L (t.setMem addrs S) (t'.setMem addrs S') :=
  ⟨h.reg, h.mem.put (h.union_active hS), h.control, h.scratch⟩

theorem clearReg (h : Renamed ρ L t t') (reg : REG) :
    Renamed ρ L (t.clearReg reg) (t'.clearReg reg) :=
  ⟨h.reg.refresh h.active, h.mem, h.control, h.scratch⟩

theorem clearMem (h : Renamed ρ L t t') (addrs : List (ADDRINT w)) :
    Renamed ρ L (t.clearMem addrs) (t'.clearMem addrs) :=
  ⟨h.reg, h.mem.refresh h.active, h.control, h.scratch⟩

/-- One call. -/
theorem step (h : Renamed ρ L t t') (ctx : Context w) {c : Call w} (hc : ∀ s ∈ c.uses, s ∈ L) :
    Renamed ρ (c.loads L) (c.step ctx t) (c.step ctx t') := by
  induction c with
  | clearTaintSet set => exact h.load set SetRel.image_empty_right.symm
  | taintForRegister reg set => exact h.load set (h.regMarks reg)
  | taintForMemory ea b i set => exact h.load set (h.readMarks _ b i)
  | setTaintForRegister dest args => exact h.setReg dest (h.scratchMarks hc)
  | setTaintForMemory args => exact h.setMem _ (h.scratchMarks hc)
  | clearTaintForRegister reg => exact h.clearReg reg
  | clearTaintForMemory => exact h.clearMem _
  | ifThen check call ih =>
    -- the check reads the machine's values only
    simp only [Call.step]
    split
    · refine (ih hc).mono ?_
      cases call with
      | clearTaintSet | taintForRegister | taintForMemory => exact Set.subset_insert _ _
      | _ => exact subset_rfl
    · exact h

/-- A list of calls that loads before it reads. -/
theorem calls (h : Renamed ρ L t t') (ctx : Context w) {cs : List (Call w)}
    (hcs : LoadsFirst L cs) : Renamed ρ L (stepCalls ctx t cs) (stepCalls ctx t' cs) := by
  induction cs generalizing L t t' with
  | nil => exact h
  | cons c cs ih =>
    refine (ih (h.step ctx hcs.1) hcs.2).mono ?_
    cases c with
    | clearTaintSet | taintForRegister | taintForMemory => exact Set.subset_insert _ _
    | _ => exact subset_rfl

end Renamed

/-! ## Branches -/

/-- The marks of a branch after `PushControl`, whether the branch is pushed or not. -/
theorem Taint.pushControl_getD (t : Taint w) (addr a : ADDRINT w) :
    ((t.pushControl addr).control a).getD ∅ =
      if a = addr then (t.control a).getD ∅ ∪ t.regMarks .EFLAGS else (t.control a).getD ∅ := by
  unfold Taint.pushControl
  by_cases he : t.regMarks .EFLAGS = ∅
  · rw [if_pos he, he, Set.union_empty, ite_self]
  · rw [if_neg he]
    by_cases ha : a = addr
    · simp [ha]
    · simp only [Function.update_of_ne ha, if_neg ha]

@[simp] theorem Taint.pushControl_reg (t : Taint w) (addr : ADDRINT w) :
    (t.pushControl addr).reg = t.reg := by
  unfold Taint.pushControl
  split <;> rfl

@[simp] theorem Taint.pushControl_mem (t : Taint w) (addr : ADDRINT w) :
    (t.pushControl addr).mem = t.mem := by
  unfold Taint.pushControl
  split <;> rfl

@[simp] theorem Taint.pushControl_scratch (t : Taint w) (addr : ADDRINT w) :
    (t.pushControl addr).scratch = t.scratch := by
  unfold Taint.pushControl
  split <;> rfl

namespace Renamed

variable {L : Set Scratch} {t t' : Taint w}

/-- A branch without marks is not pushed: it counts as one without marks all the same. -/
theorem pushControl (h : Renamed ρ L t t') (addr : ADDRINT w) :
    Renamed ρ L (t.pushControl addr) (t'.pushControl addr) := by
  refine ⟨by simpa using h.reg, by simpa using h.mem, fun a => ?_, by simpa using h.scratch⟩
  rw [Taint.pushControl_getD, Taint.pushControl_getD]
  split
  · rw [h.control a, h.regMarks, SetRel.image_union]
  · exact h.control a

end Renamed

/-- The calls leave the branches alone. -/
theorem Call.step_control (ctx : Context w) (t : Taint w) (c : Call w) :
    (c.step ctx t).control = t.control := by
  induction c with
  | setTaintForRegister dest args => exact Taint.setReg_control ..
  | ifThen check call ih =>
    rw [Call.step]
    split
    · exact ih
    · rfl
  | _ => rfl

theorem stepCalls_control (ctx : Context w) (t : Taint w) (cs : List (Call w)) :
    (stepCalls ctx t cs).control = t.control := by
  induction cs generalizing t with
  | nil => rfl
  | cons c cs ih => rw [stepCalls_cons, ih, c.step_control]

/-- No set with a mark is renamed to an empty one. -/
theorem image_eq_empty_iff (hρ : ρ.dom = Set.univ) (S : Set ℕ) : ρ.image S = ∅ ↔ S = ∅ := by
  constructor
  · intro h
    refine Set.eq_empty_iff_forall_notMem.2 fun m hm => ?_
    obtain ⟨m', hm'⟩ : m ∈ ρ.dom := hρ ▸ Set.mem_univ m
    exact Set.notMem_empty m' (h ▸ ⟨m, hm, hm'⟩)
  · rintro rfl
    exact SetRel.image_empty_right

namespace SameBranches

variable {L : Set Scratch} {t t' : Taint w}

theorem calls (h : SameBranches t t') (ctx : Context w) (cs : List (Call w)) :
    SameBranches (stepCalls ctx t cs) (stepCalls ctx t' cs) := by
  intro a
  rw [stepCalls_control, stepCalls_control]
  exact h a

theorem pushControl (h : SameBranches t t') (hρ : ρ.dom = Set.univ) (hr : Renamed ρ L t t')
    (addr : ADDRINT w) : SameBranches (t.pushControl addr) (t'.pushControl addr) := by
  have hempty : t'.regMarks .EFLAGS = ∅ ↔ t.regMarks .EFLAGS = ∅ := by
    rw [hr.regMarks, image_eq_empty_iff hρ]
  intro a
  unfold Taint.pushControl
  by_cases he : t.regMarks .EFLAGS = ∅
  · rw [if_pos he, if_pos (hempty.2 he)]
    exact h a
  · rw [if_neg he, if_neg (mt hempty.1 he)]
    by_cases ha : a = addr
    · simp [ha]
    · simp only [Function.update_of_ne ha]
      exact h a

/-- The same branches end. -/
theorem popControl (h : SameBranches t t') (hr : Renamed ρ L t t') (addrs : List (ADDRINT w)) :
    SameBranches (t.popControl addrs) (t'.popControl addrs) ∧
      Renamed ρ L (t.popControl addrs) (t'.popControl addrs) := by
  induction addrs generalizing t t' with
  | nil => exact ⟨h, hr⟩
  | cons addr addrs ih =>
    simp only [Taint.popControl, h addr]
    split
    · refine ih (fun a => ?_) ⟨hr.reg, hr.mem, fun a => ?_, hr.scratch⟩
      · by_cases ha : a = addr
        · simp [ha]
        · simpa only [Function.update_of_ne ha] using h a
      · by_cases ha : a = addr
        · simp [ha]
        · simpa only [Function.update_of_ne ha] using hr.control a
    · exact ⟨h, hr⟩

end SameBranches

end Dytan
