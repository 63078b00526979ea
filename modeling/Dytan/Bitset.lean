import Dytan.Lib.BitWords
import Mathlib.Data.Set.Basic
import Mathlib.Data.Set.Insert
import Mathlib.Tactic.Cases

/-!
# Bit sets (`bitset.cpp`)

`Bitset`: the words of a set of taint marks and its width. The operations keep the source's
assertions: an operation whose `assert` fails returns `none`.

`Bitset.Ok n s` is the invariant every set built by the operations has: width `n`, as many words
as `n` bits need, and no bit at or past `n` (the padding of the last word is zero).
`Bitset.marks s` is the set of marks `s` stands for; on `Ok` sets the operations are the operations
of `Set ℕ` (`marks_union`, `marks_setBits`, ...) and `marks` is injective (`Ok.ext_marks`).
-/

namespace Dytan

open Lib.BitWords

/-- `CHAR_BIT * sizeof(size_t)` on ia32. -/
def bitsetBits : Nat := 32

structure Bitset where
  bits : List (BitVec 32)
  nbits : Nat
deriving DecidableEq, Repr

/-- `BITSET_USED`. -/
def bitsetUsed (nbits : Nat) : Nat := (nbits + (bitsetBits - 1)) / bitsetBits

/-- `BITSET_MASK`. -/
def bitsetMask (pos : Nat) : BitVec 32 := 1#32 <<< (pos % bitsetBits)

namespace Bitset

/-- `bitset_init`. -/
def init (nbits : Nat) : Bitset := ⟨List.replicate (bitsetUsed nbits) 0, nbits⟩

/-- `bitset_copy`. -/
def copy (set : Bitset) : Bitset :=
  { init set.nbits with bits := set.bits.take (bitsetUsed set.nbits) }

/-- `bitset_reset`. -/
def reset (set : Bitset) : Bitset :=
  { set with bits := List.replicate (bitsetUsed set.nbits) 0 ++ set.bits.drop (bitsetUsed set.nbits) }

/-- `bitset_set_bit`. -/
def setBit (set : Bitset) (pos : Nat) : Option Bitset :=
  if pos < set.nbits then
    some { set with bits := set.bits.modify (pos / bitsetBits) (· ||| bitsetMask pos) }
  else none

/-- `bitset_set_bits`: `memcpy` of the words `src` uses. -/
def setBits (dest src : Bitset) : Option Bitset :=
  if src.nbits ≤ dest.nbits then
    some { dest with
      bits := src.bits.take (bitsetUsed src.nbits) ++ dest.bits.drop (bitsetUsed src.nbits) }
  else none

/-- `bitset_test_bit`. -/
def testBit (set : Bitset) (pos : Nat) : Option Bool :=
  if pos < set.nbits then
    some ((set.bits.getD (pos / bitsetBits) 0 &&& bitsetMask pos) != 0)
  else none

/-- `bitset_union`. -/
def union (dest src : Bitset) : Option Bitset :=
  if dest.nbits = src.nbits then
    some { dest with bits := List.zipWith (· ||| ·) dest.bits src.bits }
  else none

/-- `bitset_is_empty`. -/
def isEmpty (set : Bitset) : Bool := (set.bits.take (bitsetUsed set.nbits)).all (· == 0)

/-! ## The set of marks -/

/-- Bit `pos` of the words. -/
def bit (set : Bitset) (pos : Nat) : Bool :=
  (set.bits.getD (pos / bitsetBits) 0).getLsbD (pos % bitsetBits)

/-- The marks in `set`. -/
def marks (set : Bitset) : Set ℕ := {pos | set.bit pos = true}

theorem mem_marks {set : Bitset} {pos : Nat} : pos ∈ set.marks ↔ set.bit pos = true := Iff.rfl

/-- The invariant of the sets of width `n` (module doc). -/
structure Ok (n : Nat) (set : Bitset) : Prop where
  nbits : set.nbits = n
  length : set.bits.length = bitsetUsed n
  padding : ∀ pos, set.bit pos = true → pos < n

theorem used_spec {n pos : Nat} : pos / bitsetBits < bitsetUsed n ↔ pos / 32 * 32 < n := by
  unfold bitsetUsed bitsetBits; omega

theorem div_lt_used {n pos : Nat} (h : pos < n) : pos / bitsetBits < bitsetUsed n :=
  used_spec.2 (by omega)

theorem bit_eq (set : Bitset) (pos : Nat) : set.bit pos = bitAt set.bits pos := rfl

theorem bit_false_of_length {set : Bitset} {pos : Nat}
    (h : set.bits.length ≤ pos / bitsetBits) : set.bit pos = false :=
  bitAt_of_length_le h

/-- `bitset_test_bit` reads the bit. -/
theorem testBit_eq {set : Bitset} {pos : Nat} (h : pos < set.nbits) :
    set.testBit pos = some (set.bit pos) := by
  rw [testBit, if_pos h]
  exact congrArg some (and_one_shiftLeft_ne_zero (Nat.mod_lt _ (by decide)))

/-- Two sets of the same width with the same marks are the same words. -/
theorem Ok.ext_marks {n : Nat} {a b : Bitset} (ha : Ok n a) (hb : Ok n b)
    (h : a.marks = b.marks) : a = b := by
  obtain ⟨abits, an⟩ := a
  obtain ⟨bbits, bn⟩ := b
  have hn : an = bn := ha.nbits.trans hb.nbits.symm
  have hlen : abits.length = bbits.length := ha.length.trans hb.length.symm
  subst hn
  simp only [mk.injEq, and_true]
  refine ext hlen fun pos => ?_
  have := Set.ext_iff.1 h pos
  rwa [mem_marks, mem_marks, bit_eq, bit_eq, ← Bool.eq_iff_iff] at this

/-! ## The operations -/

section
variable {n : Nat}

theorem bit_replicate_zero {k m pos : Nat} : bit ⟨List.replicate k 0#32, m⟩ pos = false :=
  bitAt_replicate_zero

theorem init_ok (n : Nat) : Ok n (init n) :=
  ⟨rfl, by simp [init], fun pos h => by simp [init, bit_replicate_zero] at h⟩

@[simp] theorem marks_init (n : Nat) : (init n).marks = ∅ := by
  ext pos
  simp [mem_marks, init, bit_replicate_zero]

/-- A copy of a set is the set. -/
theorem Ok.copy_eq {set : Bitset} (h : Ok n set) : set.copy = set := by
  obtain ⟨bits, nbits⟩ := set
  have hn : nbits = n := h.nbits
  have hl : bits.length = bitsetUsed n := h.length
  subst hn
  simp only [copy, init, mk.injEq, and_true]
  exact List.take_of_length_le (by omega)

theorem Ok.reset_eq {set : Bitset} (h : Ok n set) : set.reset = init n := by
  simp only [reset, h.nbits, init, mk.injEq, and_true]
  rw [List.drop_of_length_le (by rw [h.length]), List.append_nil]

/-- Between sets of one width, `bitset_set_bits` overwrites. -/
theorem Ok.setBits_eq {dest src : Bitset} (hd : Ok n dest) (hs : Ok n src) :
    dest.setBits src = some src := by
  obtain ⟨sbits, snbits⟩ := src
  have hn : snbits = n := hs.nbits
  have hl : sbits.length = bitsetUsed n := hs.length
  subst hn
  simp only [setBits, hd.nbits, le_refl, if_true, Option.some.injEq, mk.injEq, and_true]
  rw [List.drop_of_length_le (by rw [hd.length]), List.take_of_length_le (by omega),
    List.append_nil]

theorem Ok.union_spec {dest src : Bitset} (hd : Ok n dest) (hs : Ok n src) :
    ∃ r, dest.union src = some r ∧ Ok n r ∧ r.marks = dest.marks ∪ src.marks := by
  have hbit : ∀ pos, bit ⟨List.zipWith (· ||| ·) dest.bits src.bits, dest.nbits⟩ pos =
      (dest.bit pos || src.bit pos) := fun pos =>
    bitAt_zipWith (by decide) bitwise_or rfl (hd.length.trans hs.length.symm)
  refine ⟨_, if_pos (hd.nbits.trans hs.nbits.symm), ⟨hd.nbits, ?_, fun pos h => ?_⟩, ?_⟩
  · simp [hd.length, hs.length]
  · rw [hbit, Bool.or_eq_true] at h
    exact h.elim (hd.padding pos) (hs.padding pos)
  · ext pos
    simp [mem_marks, hbit]

theorem Ok.setBit_spec {set : Bitset} (h : Ok n set) {pos : Nat} (hp : pos < n) :
    ∃ r, set.setBit pos = some r ∧ Ok n r ∧ r.marks = insert pos set.marks := by
  have hw : pos / bitsetBits < set.bits.length := by rw [h.length]; exact div_lt_used hp
  have hget := List.getElem?_eq_getElem hw
  have hbit : ∀ q, bit ⟨set.bits.modify (pos / bitsetBits) (· ||| bitsetMask pos), set.nbits⟩ q =
      if q = pos then true else set.bit q := by
    intro q
    rw [bit_eq, List.modify_eq_set_getElem?, hget]
    exact bitAt_set hget (fun i hi => getLsbD_or_one_shiftLeft hi) (by decide)
  refine ⟨_, if_pos (h.nbits ▸ hp), ⟨h.nbits, by simp [h.length], fun q hq => ?_⟩, ?_⟩
  · rw [hbit] at hq
    split at hq
    · rename_i he
      exact he ▸ hp
    · exact h.padding q hq
  · ext q
    rw [mem_marks, hbit, Set.mem_insert_iff, mem_marks]
    split <;> simp [*]

/-- A set with the one mark 0, when a word has room for its marks. -/
theorem single_spec (h0 : 0 < n) (hn : n ≤ 32) : Ok n ⟨[1], n⟩ ∧ marks ⟨[1], n⟩ = {0} := by
  obtain ⟨s, hset, hs, hm⟩ := (init_ok n).setBit_spec h0
  have hused : bitsetUsed n = 1 := by unfold bitsetUsed bitsetBits; omega
  have hinit : (init n).setBit 0 = some ⟨[1], n⟩ := by
    rw [init, hused, setBit, if_pos h0]
    rfl
  obtain rfl := Option.some.inj (hinit.symm.trans hset)
  exact ⟨hs, by simpa using hm⟩

theorem single_ok : Ok 2 ⟨[1], 2⟩ := (single_spec (by decide) (by decide)).1

theorem exists_single : ∃ s : Bitset, s.Ok 2 ∧ s.marks = {0} :=
  ⟨_, single_spec (by decide) (by decide)⟩

theorem Ok.isEmpty_iff {set : Bitset} (h : Ok n set) : set.isEmpty = true ↔ set.marks = ∅ := by
  constructor
  · intro he
    rw [Set.eq_empty_iff_forall_notMem]
    intro pos hm
    have hw : pos / bitsetBits < set.bits.length := by
      rw [h.length]; exact div_lt_used (h.padding pos hm)
    rw [isEmpty, h.nbits, List.take_of_length_le (by rw [h.length]), List.all_eq_true] at he
    have h0 := he _ (List.getElem_mem hw)
    rw [beq_iff_eq] at h0
    rw [mem_marks, bit, List.getD_eq_getElem?_getD, List.getElem?_eq_getElem hw, Option.getD_some,
      h0] at hm
    simp at hm
  · intro he
    have : set = init n := h.ext_marks (init_ok n) (by rw [he, marks_init])
    rw [this]
    simp [isEmpty, init]

end

end Bitset

end Dytan
