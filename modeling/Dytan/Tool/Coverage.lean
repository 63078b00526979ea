import Dytan.Taint.Marks
import Dytan.Tool.Draws

/-!
# Ranges that end at the last byte of memory

The loops over a range test `addr < start + size`, a sum of `ADDRINT`s. For a range of at least one
byte within memory the sum is `0` exactly when the range ends at the last byte (`wraps_iff_end`), and
the loops then visit nothing.

`coverage_iff`: `SetTaintForMemory`, `SetNewTaintForMemory`, `AssignTagToByteRange` and
`TaintForMemory` each treat every byte of the range, in all states, exactly when the range does not
end there.
-/

namespace Dytan

open TaintState

variable {w : Nat} (start size : ADDRINT w)

/-- `SetTaintForMemory` gives every byte the marks of its arguments and the control taint. -/
def SetTaintCovers : Prop :=
  ∀ (n : Nat) (st : TaintState w) (args : List Bitset), st.WidthOk n → (∀ s ∈ args, s.Ok n) →
    ∃ st', st.setTaintForMemory start size args = some st' ∧
      ∀ a ∈ bytesAt start size,
        st'.taint.mem a = some ({m | ∃ s ∈ args, m ∈ s.marks} ∪ st.taint.active)

/-- `SetNewTaintForMemory` gives every byte the mark it is called with, if it is one below
`NUMBER_OF_TAINT_MARKS`, and for `-1` the generator's. -/
def SetNewTaintCovers : Prop :=
  ∀ (n : Nat) (tool : Tool w) (g : TaintGenerator), tool.MarksOk n → tool.taintGen = some g →
    (∃ tool', tool.setNewTaintForMemory start size (-1) = some tool' ∧
      ∀ a ∈ bytesAt start size, tool'.taint.taint.mem a = some {g.mark 0}) ∧
    ∀ mark : Nat, mark < n → mark < 2 ^ 31 →
      ∃ tool', tool.setNewTaintForMemory start size mark = some tool' ∧
        ∀ a ∈ bytesAt start size, tool'.taint.taint.mem a = some {mark}

/-- `AssignTagToByteRange` gives every byte the mark of the tag. -/
def AssignTagCovers : Prop :=
  ∀ (n : Nat) (tool : Tool w) (id : Nat), tool.MarksOk n →
    ∃ tool' mark, tool.assignTagToByteRange start size id = some tool' ∧
      tool'.tagMap (toString id) = some mark ∧
      ∀ a ∈ bytesAt start size, tool'.taint.taint.mem a = some {mark}

/-- `TaintForMemory` collects the marks of every byte. -/
def TaintForMemoryCovers : Prop :=
  ∀ (n : Nat) (st : TaintState w) (baseReg indexReg : REG) (set : Scratch), st.WidthOk n →
    ∃ st', st.taintForMemory start size baseReg indexReg set = some st' ∧
      ∀ a ∈ bytesAt start size, st.taint.memMarks a ⊆ st'.taint.scratch set

section
variable {start size}

theorem wraps_iff_end (hsize : size ≠ 0) (hend : start.toNat + size.toNat ≤ 2 ^ w) :
    RangeWraps start size ↔ start.toNat + size.toNat = 2 ^ w := by
  unfold RangeWraps
  constructor
  · rintro ⟨-, h⟩
    omega
  · intro h
    exact ⟨hsize, h.ge⟩

/-! ## Ranges that do not wrap -/

theorem setTaintCovers (hw : ¬ RangeWraps start size) : SetTaintCovers start size := by
  intro n st args h ha
  obtain ⟨st', hst, -, htaint⟩ := setTaintForMemory_gives h start size ha
  refine ⟨st', hst, fun a hmem => ?_⟩
  rw [htaint]
  exact if_pos ((mem_addrRange_bytes hw).2 hmem)

theorem taintForMemoryCovers (hw : ¬ RangeWraps start size) :
    TaintForMemoryCovers start size := by
  intro n st baseReg indexReg set h
  obtain ⟨st', hst, -, htaint⟩ := taintForMemory_gives h start size baseReg indexReg set
  refine ⟨st', hst, fun a hmem m hm => ?_⟩
  rw [htaint, Taint.load_scratch_same]
  exact .inl (.inl ⟨a, (mem_addrRange_bytes hw).2 hmem, hm⟩)

/-- The entry a byte of the range got. -/
theorem Tool.Gave.entry {tool tool' : Tool w} {mark : Nat} (hw : ¬ RangeWraps start size)
    (h : tool.Gave (addrRange start (start + size)) (fun _ => mark) tool') :
    ∀ a ∈ bytesAt start size, tool'.taint.taint.mem a = some {mark} := by
  intro a ha
  obtain ⟨i, -, s, hs, hmarks⟩ := h.mem ((mem_addrRange_bytes hw).2 ha)
  rw [taint_mem, hs, Option.map_some, hmarks]

theorem Tool.setNewTaintForMemory_mark {n mark : Nat} {tool : Tool w} (h : tool.MarksOk n)
    (hm : mark < n) (hint : mark < 2 ^ 31) :
    ∃ tool', tool.setNewTaintForMemory start size mark = some tool' ∧
      tool.Gave (addrRange start (start + size)) (fun _ => mark) tool' := by
  obtain ⟨tool', hput, hgave, -, -⟩ := putMark_gave h hm (addrRange start (start + size))
  refine ⟨tool', ?_, hgave⟩
  have hlegal : ¬ (mark : Int) ≥ tool.taint.numberOfTaintMarks := by
    rw [h.width.marks]
    omega
  have hsizet : (BitVec.ofInt 32 mark).toNat = mark := by
    rw [BitVec.ofInt_natCast, BitVec.toNat_ofNat]
    omega
  rw [setNewTaintForMemory, if_neg (by omega), if_neg hlegal, hsizet]
  exact hput

theorem setNewTaintCovers (hw : ¬ RangeWraps start size) : SetNewTaintCovers start size := by
  intro n tool g h hg
  constructor
  · obtain ⟨tool', hset, hgave, -⟩ := Tool.setNewTaintForMemory_gave h hg start size
    exact ⟨tool', hset, hgave.entry hw⟩
  · intro mark hm hint
    obtain ⟨tool', hset, hgave⟩ := Tool.setNewTaintForMemory_mark h hm hint
    exact ⟨tool', hset, hgave.entry hw⟩

theorem assignTagCovers (hw : ¬ RangeWraps start size) : AssignTagCovers start size := by
  intro n tool id h
  obtain ⟨g, hg, -⟩ := h.gen
  obtain ⟨tool', hassign, hgave, -, htags⟩ := Tool.assignTag_gave h hg start size id
  refine ⟨tool', _, hassign, ?_, hgave.entry hw⟩
  rw [htags, Function.update_self]

/-! ## Ranges that wrap -/

/-- A tool with one mark and nothing tainted. -/
def oneMark (w : Nat) : Tool w := ⟨.initial 1, some (.sequential 0 0 1), fun _ => none⟩

theorem oneMark_marks : (oneMark w).MarksOk 1 :=
  ⟨initial_ok 1, ⟨_, rfl, Nat.one_pos, Nat.one_pos, le_rfl⟩, nofun⟩

theorem not_setTaintCovers (hw : RangeWraps start size) : ¬ SetTaintCovers start size := by
  intro hcovers
  obtain ⟨st', hst, hmem⟩ := hcovers 1 (initial 1) [] (initial_ok 1) nofun
  obtain ⟨st₁, hst₁, -, htaint⟩ :=
    setTaintForMemory_gives (initial_ok 1) start size noArgs_ok
  obtain rfl := Option.some.inj (hst.symm.trans hst₁)
  have hstart := hmem start (start_mem_bytesAt hw.1)
  rw [htaint, addrRange_wraps hw] at hstart
  simp [Taint.setMem, initial] at hstart

/-- The one byte at `start` is tainted, and is not collected. -/
theorem not_taintForMemoryCovers (hw : RangeWraps start size) :
    ¬ TaintForMemoryCovers start size := by
  intro hcovers
  obtain ⟨s, hs, hmarks⟩ := Bitset.exists_single
  let st : TaintState w := { initial 2 with memTaintMap := fun _ => some s }
  have hok : st.WidthOk 2 :=
    (initial_ok 2).setMem fun a s' hs' => Option.some.inj hs' ▸ hs
  obtain ⟨st', hst, hmem⟩ := hcovers 2 st .INVALID .INVALID .src hok
  obtain ⟨st₁, hst₁, -, htaint⟩ := taintForMemory_gives hok start size .INVALID .INVALID .src
  obtain rfl := Option.some.inj (hst.symm.trans hst₁)
  have hzero : (0 : ℕ) ∈ st.taint.memMarks start := by
    simp [Taint.memMarks, st, hmarks]
  have hin := hmem start (start_mem_bytesAt hw.1) hzero
  rw [htaint, Taint.load_scratch_same, addrRange_wraps hw] at hin
  simp [Taint.bytesMarks, Taint.addressMarks, REG.valid] at hin

/-- A tool that gave marks to no address has no new entry at `start`. -/
theorem Tool.Gave.no_entry {tool' : Tool w} {mark : Nat} (hw : RangeWraps start size)
    (h : (oneMark w).Gave (addrRange start (start + size)) (fun _ => mark) tool') :
    tool'.taint.taint.mem start = none := by
  rw [addrRange_wraps hw] at h
  rw [taint_mem, h.outside start List.not_mem_nil]
  rfl

theorem not_setNewTaintCovers (hw : RangeWraps start size) : ¬ SetNewTaintCovers start size := by
  intro hcovers
  obtain ⟨tool', hset, hmem⟩ := (hcovers 1 (oneMark w) _ oneMark_marks rfl).1
  obtain ⟨tool₁, hset₁, hgave, -⟩ :=
    Tool.setNewTaintForMemory_gave oneMark_marks rfl start size
  obtain rfl := Option.some.inj (hset.symm.trans hset₁)
  have hstart := hmem start (start_mem_bytesAt hw.1)
  rw [hgave.no_entry hw] at hstart
  cases hstart

theorem not_assignTagCovers (hw : RangeWraps start size) : ¬ AssignTagCovers start size := by
  intro hcovers
  obtain ⟨tool', mark, hassign, -, hmem⟩ := hcovers 1 (oneMark w) 0 oneMark_marks
  obtain ⟨tool₁, hassign₁, hgave, -⟩ := Tool.assignTag_gave oneMark_marks rfl start size 0
  obtain rfl := Option.some.inj (hassign.symm.trans hassign₁)
  have hstart := hmem start (start_mem_bytesAt hw.1)
  rw [hgave.no_entry hw] at hstart
  cases hstart

/-! ## All ranges -/

/-- The functions cover exactly the ranges that end before the last byte. -/
theorem coverage_iff (hsize : size ≠ 0) (hend : start.toNat + size.toNat ≤ 2 ^ w) :
    (SetTaintCovers start size ↔ start.toNat + size.toNat ≠ 2 ^ w) ∧
    (SetNewTaintCovers start size ↔ start.toNat + size.toNat ≠ 2 ^ w) ∧
    (AssignTagCovers start size ↔ start.toNat + size.toNat ≠ 2 ^ w) ∧
    (TaintForMemoryCovers start size ↔ start.toNat + size.toNat ≠ 2 ^ w) := by
  have hwraps := (wraps_iff_end hsize hend).not
  refine ⟨?_, ?_, ?_, ?_⟩ <;> refine Iff.trans ⟨fun h hw => ?_, fun hw => ?_⟩ hwraps
  · exact not_setTaintCovers hw h
  · exact setTaintCovers hw
  · exact not_setNewTaintCovers hw h
  · exact setNewTaintCovers hw
  · exact not_assignTagCovers hw h
  · exact assignTagCovers hw
  · exact not_taintForMemoryCovers hw h
  · exact taintForMemoryCovers hw

end

/-- Four bytes at `0x1000`. -/
theorem coverage_iff_four :
    (SetTaintCovers 0x1000#32 4#32 ↔ 0x1000 + 4 ≠ 2 ^ 32) ∧
    (SetNewTaintCovers 0x1000#32 4#32 ↔ 0x1000 + 4 ≠ 2 ^ 32) ∧
    (AssignTagCovers 0x1000#32 4#32 ↔ 0x1000 + 4 ≠ 2 ^ 32) ∧
    (TaintForMemoryCovers 0x1000#32 4#32 ↔ 0x1000 + 4 ≠ 2 ^ 32) :=
  coverage_iff (by decide) (by decide)

/-- The last four bytes of memory. -/
theorem last_bytes_not_covered :
    ¬ ∀ start size : ADDRINT 32, size ≠ 0 → start.toNat + size.toNat ≤ 2 ^ 32 →
      SetTaintCovers start size ∧ SetNewTaintCovers start size ∧ AssignTagCovers start size ∧
        TaintForMemoryCovers start size := by
  intro h
  exact not_setTaintCovers (by decide) (h 0xfffffffc 4 (by decide) (by decide)).1

end Dytan
