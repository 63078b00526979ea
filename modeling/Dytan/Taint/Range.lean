import Dytan.Taint.State
import Mathlib.Data.BitVec

/-!
# Address ranges

The loops `for (addr = start; addr < start + size; addr++)` of the source run over
`addrRange start (start + size)`. Their sum wraps: they visit the bytes `bytesAt start size`
(`addrRange_bytes`) unless the range reaches the last byte of memory (`RangeWraps`), when they visit
none (`addrRange_wraps`).
-/

namespace Dytan

variable {w : Nat} {start stop size addr : ADDRINT w}

theorem mem_addrRange : addr ∈ addrRange start stop ↔ start ≤ addr ∧ addr < stop := by
  have hs := start.isLt
  have he := stop.isLt
  have ha := addr.isLt
  simp only [addrRange, List.mem_map, List.mem_range, BitVec.le_def, BitVec.lt_def]
  constructor
  · rintro ⟨i, hi, rfl⟩
    have : (start + BitVec.ofNat w i).toNat = start.toNat + i := by
      rw [BitVec.toNat_add, BitVec.toNat_ofNat, Nat.add_mod_mod, Nat.mod_eq_of_lt (by omega)]
    omega
  · rintro ⟨h1, h2⟩
    refine ⟨addr.toNat - start.toNat, by omega, BitVec.eq_of_toNat_eq ?_⟩
    rw [BitVec.toNat_add, BitVec.toNat_ofNat, Nat.add_mod_mod, Nat.mod_eq_of_lt (by omega)]
    omega

theorem addrRange_nodup (start stop : ADDRINT w) : (addrRange start stop).Nodup := by
  have he := stop.isLt
  refine List.Nodup.map_on (fun i hi j hj hij => ?_) List.nodup_range
  rw [List.mem_range] at hi hj
  have := congrArg BitVec.toNat (add_left_cancel hij)
  rwa [BitVec.toNat_ofNat, BitVec.toNat_ofNat, Nat.mod_eq_of_lt (by omega),
    Nat.mod_eq_of_lt (by omega)] at this

/-- `addrRange` is the loop: test, visit, increment. -/
theorem addrRange_loop :
    addrRange start stop = if start < stop then start :: addrRange (start + 1#w) stop else [] := by
  have he := stop.isLt
  by_cases h : start < stop
  · rw [if_pos h]
    rw [BitVec.lt_def] at h
    have h1 : (1 : Nat) < 2 ^ w := by omega
    have hs : (start + 1#w).toNat = start.toNat + 1 := by
      rw [BitVec.toNat_add, BitVec.toNat_ofNat, Nat.mod_eq_of_lt h1, Nat.mod_eq_of_lt (by omega)]
    unfold addrRange
    rw [hs, show stop.toNat - start.toNat = (stop.toNat - (start.toNat + 1)) + 1 by omega,
      List.range_succ_eq_map, List.map_cons, List.map_map]
    refine congrArg₂ List.cons (by simp) (List.map_congr_left fun i _ => ?_)
    simp only [Function.comp_apply, BitVec.add_assoc]
    congr 1
    apply BitVec.eq_of_toNat_eq
    simp [Nat.add_comm]
  · rw [if_neg h]
    rw [BitVec.lt_def] at h
    simp [addrRange, show stop.toNat - start.toNat = 0 by omega]

/-- The bytes at `start .. start + size - 1`. -/
def bytesAt (start size : ADDRINT w) : Set (ADDRINT w) :=
  {a | ∃ i < size.toNat, a = start + BitVec.ofNat w i}

/-- The range is not empty and `start + size` wraps. -/
def RangeWraps (start size : ADDRINT w) : Prop := size ≠ 0 ∧ 2 ^ w ≤ start.toNat + size.toNat

instance (start size : ADDRINT w) : Decidable (RangeWraps start size) :=
  inferInstanceAs (Decidable (_ ∧ _))

theorem mem_bytesAt : addr ∈ bytesAt start size ↔ (addr - start).toNat < size.toNat := by
  have hs := start.isLt
  have hz := size.isLt
  have ha := addr.isLt
  constructor
  · rintro ⟨i, hi, rfl⟩
    rwa [BitVec.add_comm, BitVec.add_sub_cancel, BitVec.toNat_ofNat, Nat.mod_eq_of_lt (by omega)]
  · intro h
    refine ⟨(addr - start).toNat, h, ?_⟩
    rw [BitVec.ofNat_toNat, BitVec.setWidth_eq, BitVec.add_comm, BitVec.sub_add_cancel]

theorem addrRange_bytes (h : ¬ RangeWraps start size) :
    {a | a ∈ addrRange start (start + size)} = bytesAt start size := by
  have hs := start.isLt
  have hz := size.isLt
  ext a
  have ha := a.isLt
  rw [Set.mem_ofPred_eq, mem_addrRange]
  rcases Nat.lt_or_ge (start.toNat + size.toNat) (2 ^ w) with hlt | hge
  · have hsum : (start + size).toNat = start.toNat + size.toNat := by
      rw [BitVec.toNat_add, Nat.mod_eq_of_lt hlt]
    rw [BitVec.le_def, BitVec.lt_def, hsum]
    constructor
    · rintro ⟨h1, h2⟩
      refine ⟨a.toNat - start.toNat, by omega, BitVec.eq_of_toNat_eq ?_⟩
      rw [BitVec.toNat_add, BitVec.toNat_ofNat, Nat.add_mod_mod, Nat.mod_eq_of_lt (by omega)]
      omega
    · rintro ⟨i, hi, rfl⟩
      have : (start + BitVec.ofNat w i).toNat = start.toNat + i := by
        rw [BitVec.toNat_add, BitVec.toNat_ofNat, Nat.add_mod_mod, Nat.mod_eq_of_lt (by omega)]
      omega
  · have h0 : size = 0 := by
      by_contra hne
      exact h ⟨hne, hge⟩
    subst h0
    have : start.toNat + 0 < 2 ^ w := hs
    simp at hge
    omega

theorem mem_addrRange_bytes (h : ¬ RangeWraps start size) :
    addr ∈ addrRange start (start + size) ↔ addr ∈ bytesAt start size :=
  Set.ext_iff.1 (addrRange_bytes h) addr

/-- The loop over such a range visits nothing. -/
theorem addrRange_wraps (h : RangeWraps start size) :
    addrRange start (start + size) = [] := by
  have hs := start.isLt
  have hz := size.isLt
  have hsum : (start + size).toNat = start.toNat + size.toNat - 2 ^ w := by
    rw [BitVec.toNat_add, Nat.mod_eq_sub_mod h.2, Nat.mod_eq_of_lt (by omega)]
  unfold addrRange
  rw [hsum, show start.toNat + size.toNat - 2 ^ w - start.toNat = 0 by omega]
  rfl

theorem addrRange_getElem (i : Nat) (hi : i < (addrRange start stop).length) :
    (addrRange start stop)[i] = start + BitVec.ofNat w i := by
  simp only [addrRange, List.getElem_map, List.getElem_range]

/-- The loop over a range that does not wrap visits as many bytes as the range has. -/
theorem addrRange_length (h : ¬ RangeWraps start size) :
    (addrRange start (start + size)).length = size.toNat := by
  have hs := start.isLt
  have hz := size.isLt
  rw [addrRange, List.length_map, List.length_range]
  by_cases h0 : size = 0
  · subst h0
    simp
  · have hlt : start.toNat + size.toNat < 2 ^ w := by
      by_contra hge
      exact h ⟨h0, Nat.le_of_not_lt hge⟩
    rw [BitVec.toNat_add, Nat.mod_eq_of_lt hlt]
    omega

/-- The loop visits no byte outside the range. -/
theorem notMem_addrRange (h : addr ∉ bytesAt start size) :
    addr ∉ addrRange start (start + size) := by
  by_cases hw : RangeWraps start size
  · rw [addrRange_wraps hw]
    exact List.not_mem_nil
  · rwa [mem_addrRange_bytes hw]

theorem start_mem_bytesAt (h : size ≠ 0) : start ∈ bytesAt start size :=
  ⟨0, Nat.pos_of_ne_zero fun h0 => h (BitVec.eq_of_toNat_eq (by simpa using h0)), by simp⟩

end Dytan
