import Dytan.Taint.Range
import Dytan.Taint.SubRegister

/-!
# Clearing and assigning nothing

`ClearTaintForRegister` and `ClearTaintForMemory` update the entries that are there,
`SetTaintForRegister` and `SetTaintForMemory` with no sets also create those that are not. Both
write the control taint, so the two differ exactly when there is some and an entry is missing
(`clear_agrees_iff`).
-/

namespace Dytan

open TaintState Classical

variable {w n : Nat}

/-- Two results of clearing `keys`: the same marks everywhere, and the control taint at `keys`. -/
def SameCleared {α : Type} (keys : Set α) (active : Set ℕ) (cleared assigned : α → Set ℕ) : Prop :=
  (∀ a, cleared a = assigned a) ∧ ∀ a ∈ keys, cleared a = active ∧ assigned a = active

/-- `reg` and the registers it contains. -/
def updatedRegs (reg : REG) : Set REG := {r | r ∈ containedRegs reg ++ [reg]}

/-- Clearing `reg` and assigning no sets to it have the same result. -/
def ClearsRegister (st : TaintState w) (reg : REG) : Prop :=
  ∃ cleared assigned, st.clearTaintForRegister reg = some cleared ∧
    st.setTaintForRegister reg [] = some assigned ∧
    SameCleared (updatedRegs reg) st.taint.active cleared.taint.regMarks assigned.taint.regMarks

/-- Clearing a range of memory and assigning no sets to it have the same result. -/
def ClearsMemory (st : TaintState w) (start size : ADDRINT w) : Prop :=
  ∃ cleared assigned, st.clearTaintForMemory start size = some cleared ∧
    st.setTaintForMemory start size [] = some assigned ∧
    SameCleared (bytesAt start size) st.taint.active cleared.taint.memMarks assigned.taint.memMarks

/-- The marks once the entries at `keys` that are there became `active`. -/
def refreshed {α : Type} (keys : Set α) (active : Set ℕ) (map : α → Option (Set ℕ)) (a : α) :
    Set ℕ :=
  if a ∈ keys ∧ (map a).isSome then active else (map a).getD ∅

/-- The marks once all entries at `keys` became `active`. -/
def replaced {α : Type} (keys : Set α) (active : Set ℕ) (map : α → Option (Set ℕ)) (a : α) :
    Set ℕ :=
  if a ∈ keys then active else (map a).getD ∅

theorem sameCleared_iff {α : Type} {keys : Set α} {active : Set ℕ} {map : α → Option (Set ℕ)} :
    SameCleared keys active (refreshed keys active map) (replaced keys active map) ↔
      active = ∅ ∨ ∀ a ∈ keys, (map a).isSome := by
  constructor
  · rintro ⟨-, hkeys⟩
    by_contra hcond
    push Not at hcond
    obtain ⟨hactive, a, ha, hnone⟩ := hcond
    -- the missing entry stays missing
    have hnone : map a = none := Option.not_isSome_iff_eq_none.1 hnone
    have := (hkeys a ha).1
    rw [refreshed, if_neg (by simp [hnone]), hnone] at this
    exact hactive.ne_empty this.symm
  · intro hcond
    have heq : ∀ a ∈ keys, refreshed keys active map a = active := by
      intro a ha
      cases hmap : map a with
      | some S => simp [refreshed, ha, hmap]
      | none =>
        have hactive : active = ∅ := hcond.resolve_right fun h => by simpa [hmap] using h a ha
        simp [refreshed, hmap, hactive]
    refine ⟨fun a => ?_, fun a ha => ⟨heq a ha, if_pos ha⟩⟩
    by_cases ha : a ∈ keys
    · rw [heq a ha, replaced, if_pos ha]
    · rw [refreshed, replaced, if_neg ha, if_neg fun h => ha h.1]

section
variable {st : TaintState w} (h : st.WidthOk n)
include h

theorem clearTaintForRegister_marks (reg : REG) :
    ∃ st', st.clearTaintForRegister reg = some st' ∧
      st'.taint.regMarks = refreshed (updatedRegs reg) st.taint.active st.taint.reg := by
  obtain ⟨st', hst, -, htaint⟩ := clearTaintForRegister_gives h reg
  refine ⟨st', hst, funext fun r => ?_⟩
  rw [htaint, regMarks_clearReg]
  exact if_congr Iff.rfl rfl rfl

theorem setTaintForRegister_marks {reg : REG} (hstack : ¬ (reg = .ESP ∨ reg = .EBP)) :
    ∃ st', st.setTaintForRegister reg [] = some st' ∧
      st'.taint.regMarks = replaced (updatedRegs reg) st.taint.active st.taint.reg := by
  obtain ⟨st', hst, -, htaint⟩ := setTaintForRegister_gives h reg noArgs_ok
  refine ⟨st', hst, funext fun r => ?_⟩
  rw [htaint, regMarks_setReg hstack]
  simp [replaced, updatedRegs, Taint.regMarks]

theorem clearTaintForMemory_marks {start size : ADDRINT w} (hw : ¬ RangeWraps start size) :
    ∃ st', st.clearTaintForMemory start size = some st' ∧
      st'.taint.memMarks = refreshed (bytesAt start size) st.taint.active st.taint.mem := by
  obtain ⟨st', hst, -, htaint⟩ := clearTaintForMemory_gives h start size
  refine ⟨st', hst, funext fun a => ?_⟩
  simp only [htaint, Taint.memMarks, Taint.clearMem, mem_addrRange_bytes hw, refreshed]
  split <;> rfl

theorem setTaintForMemory_marks {start size : ADDRINT w} (hw : ¬ RangeWraps start size) :
    ∃ st', st.setTaintForMemory start size [] = some st' ∧
      st'.taint.memMarks = replaced (bytesAt start size) st.taint.active st.taint.mem := by
  obtain ⟨st', hst, -, htaint⟩ := setTaintForMemory_gives h start size noArgs_ok
  refine ⟨st', hst, funext fun a => ?_⟩
  simp only [htaint, Taint.memMarks, Taint.setMem, mem_addrRange_bytes hw, replaced]
  split <;> simp

theorem clearsRegister_iff {reg : REG} (hstack : ¬ (reg = .ESP ∨ reg = .EBP)) :
    ClearsRegister st reg ↔ st.taint.active = ∅ ∨
      ∀ r ∈ updatedRegs reg, (st.regTaintMap r).isSome := by
  obtain ⟨cleared, hclear, hc⟩ := clearTaintForRegister_marks h reg
  obtain ⟨assigned, hset, hs⟩ := setTaintForRegister_marks h hstack
  simp only [ClearsRegister, hclear, hset, Option.some.injEq, exists_eq_left', exists_and_left, hc,
    hs]
  rw [sameCleared_iff]
  simp only [taint_reg, Option.isSome_map]

theorem clearsMemory_iff {start size : ADDRINT w} (hw : ¬ RangeWraps start size) :
    ClearsMemory st start size ↔ st.taint.active = ∅ ∨
      ∀ a ∈ bytesAt start size, (st.memTaintMap a).isSome := by
  obtain ⟨cleared, hclear, hc⟩ := clearTaintForMemory_marks h hw
  obtain ⟨assigned, hset, hs⟩ := setTaintForMemory_marks h hw
  simp only [ClearsMemory, hclear, hset, Option.some.injEq, exists_eq_left', exists_and_left, hc,
    hs]
  rw [sameCleared_iff]
  simp only [taint_mem, Option.isSome_map]

/-- Clearing agrees with assigning nothing when no active branch carries a mark, or every location
to be cleared has an entry. -/
theorem clear_agrees_iff :
    (∀ reg, reg ≠ .ESP → reg ≠ .EBP →
      (ClearsRegister st reg ↔ st.taint.active = ∅ ∨
        ∀ r ∈ updatedRegs reg, (st.regTaintMap r).isSome)) ∧
    ∀ start size, ¬ RangeWraps start size →
      (ClearsMemory st start size ↔ st.taint.active = ∅ ∨
        ∀ a ∈ bytesAt start size, (st.memTaintMap a).isSome) :=
  ⟨fun _ hesp hebp => clearsRegister_iff h (not_or.2 ⟨hesp, hebp⟩),
    fun _ _ hw => clearsMemory_iff h hw⟩

end

/-- With a mark on `AX`, on a byte and on an active branch. -/
theorem clear_agrees_iff_marked : ∃ st : TaintState 32, Marked {.AX} {0x1000} true st ∧
    (∀ reg, reg ≠ .ESP → reg ≠ .EBP →
      (ClearsRegister st reg ↔ st.taint.active = ∅ ∨
        ∀ r ∈ updatedRegs reg, (st.regTaintMap r).isSome)) ∧
    ∀ start size, ¬ RangeWraps start size →
      (ClearsMemory st start size ↔ st.taint.active = ∅ ∨
        ∀ a ∈ bytesAt start size, (st.memTaintMap a).isSome) := by
  obtain ⟨st, hst⟩ := exists_marked {.AX} {(0x1000 : ADDRINT 32)} true
  exact ⟨st, hst, clear_agrees_iff hst.ok⟩

/-- Under a tainted branch, `EAX` without an entry is left without the control taint. -/
theorem clear_EAX_differs :
    ¬ ∀ st : TaintState 32, st.WidthOk 2 → ClearsRegister st .EAX := by
  intro hclaim
  obtain ⟨s, hs, hmarks⟩ := Bitset.exists_single
  let st : TaintState 32 := { initial 2 with
    controlTaintMap := (∅ : Std.ExtTreeMap (ADDRINT 32) Bitset).insert 0x20 s }
  have hok : st.WidthOk 2 := by
    refine ⟨nofun, nofun, fun a s' hs' => ?_, fun _ => Bitset.init_ok 2, rfl⟩
    simp only [st, Std.ExtTreeMap.getElem?_insert] at hs'
    split at hs'
    · exact Option.some.inj hs' ▸ hs
    · simp at hs'
  rcases (clearsRegister_iff hok (by decide)).1 (hclaim st hok) with hactive | hall
  · have hzero : 0 ∈ st.taint.active := ⟨0x20, s.marks, by simp [st], by rw [hmarks]; rfl⟩
    rw [hactive] at hzero
    exact hzero
  · have hsome := hall .EAX (mem_updated _)
    simp [st, initial] at hsome

end Dytan
