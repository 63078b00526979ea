import Dytan.Instrument.Profile
import Dytan.Lib.BitWords
import Mathlib.Data.Finset.SymmDiff

/-!
# Bit sets in memory (`bitset.cpp`)

`CBitset`: what a `bitset *` refers to, with the words that `calloc` allocated and a width that is a
`size_t` of 32 bits. The allocations are taken to succeed: `bitset_init` asserts that its two do, but
`bitset_str` writes to what `malloc` returns without a test. An operation has no result when its
`assert` fails or when it needs a word that was not allocated.

`Operation`: the operations that make a set from sets. `Built n`: the sets they make, one after the
other, from `bitset_init(n)`. `elements` are the positions at which `bitset_test_bit` is true, and
`Refines n` says that the sets `Built n` are the finite sets of positions below `n`.

`refines_iff`: this is so exactly when `n + 31` is a `size_t`. From there on `BITSET_USED` wraps to 0.
Below, the sets are those of `Bitset`, which has no bound (`toBitset`).
-/

namespace Dytan

open Lib.BitWords

/-- `bitset`. -/
structure CBitset where
  bits : List (BitVec 32)
  nbits : BitVec 32
deriving DecidableEq, Repr

namespace CBitset

/-- `BITSET_USED`, in `size_t`. -/
def used (nbits : BitVec 32) : BitVec 32 := (nbits + (32#32 - 1#32)) / 32#32

/-- `BITSET_WORD`. -/
def word (set : CBitset) (pos : BitVec 32) : Option (BitVec 32) :=
  set.bits[pos.toNat / bitsetBits]?

/-- An assignment to `BITSET_WORD`. -/
def modifyWord (set : CBitset) (pos : BitVec 32) (f : BitVec 32 → BitVec 32) : Option CBitset :=
  (set.word pos).map fun word =>
    { set with bits := set.bits.set (pos.toNat / bitsetBits) (f word) }

/-- `memcpy` of `n` words. -/
def memcpy (dest src : List (BitVec 32)) (n : Nat) : Option (List (BitVec 32)) :=
  if n ≤ dest.length ∧ n ≤ src.length then some (src.take n ++ dest.drop n) else none

/-- `memset` of `n` words to 0. -/
def memset (dest : List (BitVec 32)) (n : Nat) : Option (List (BitVec 32)) :=
  if n ≤ dest.length then some (List.replicate n 0#32 ++ dest.drop n) else none

/-- `bitset_init`. -/
def init (nbits : BitVec 32) : CBitset := ⟨List.replicate (used nbits).toNat 0#32, nbits⟩

/-- `bitset_copy`. -/
def copy (set : CBitset) : Option CBitset :=
  let clone := init set.nbits
  (memcpy clone.bits set.bits (used set.nbits).toNat).map fun bits => { clone with bits }

/-- `bitset_reset`. -/
def reset (set : CBitset) : Option CBitset :=
  (memset set.bits (used set.nbits).toNat).map fun bits => { set with bits }

/-- `bitset_clear_bit`. -/
def clearBit (set : CBitset) (pos : BitVec 32) : Option CBitset :=
  if pos < set.nbits then set.modifyWord pos (· &&& ~~~bitsetMask pos.toNat) else none

/-- `bitset_set_bit`. -/
def setBit (set : CBitset) (pos : BitVec 32) : Option CBitset :=
  if pos < set.nbits then set.modifyWord pos (· ||| bitsetMask pos.toNat) else none

/-- `bitset_set_bits`. -/
def setBits (dest src : CBitset) : Option CBitset :=
  if src.nbits ≤ dest.nbits then
    (memcpy dest.bits src.bits (used src.nbits).toNat).map fun bits => { dest with bits }
  else none

/-- `bitset_test_bit`. -/
def testBit (set : CBitset) (pos : BitVec 32) : Option Bool :=
  if pos < set.nbits then (set.word pos).map fun word => (word &&& bitsetMask pos.toNat) != 0#32
  else none

/-- `bitset_toggle_bit`. -/
def toggleBit (set : CBitset) (pos : BitVec 32) : Option CBitset :=
  if pos < set.nbits then
    (set.testBit pos).bind fun isSet => if isSet then set.clearBit pos else set.setBit pos
  else none

/-- The loop of `bitset_union` and its siblings. `BITSET_USED` is an `int`. -/
def combine (op : BitVec 32 → BitVec 32 → BitVec 32) (dest src : CBitset) : Option CBitset :=
  if dest.nbits = src.nbits then
    (countdown (combineAt op src.bits) (used dest.nbits).toNat dest.bits).map fun bits =>
      { dest with bits }
  else none

/-- `bitset_union`. -/
def union : CBitset → CBitset → Option CBitset := combine fun dest src => dest ||| src

/-- `bitset_intersection`. -/
def intersection : CBitset → CBitset → Option CBitset := combine fun dest src => dest &&& src

/-- `bitset_difference`. -/
def difference : CBitset → CBitset → Option CBitset := combine fun dest src => dest &&& ~~~src

/-- `bitset_xor`. -/
def xor : CBitset → CBitset → Option CBitset := combine fun dest src => dest ^^^ src

/-- The loop of `bitset_equal` and its siblings: `return i == -1`. -/
def loopEnds (nbits : BitVec 32) (test : Nat → Option Bool) : Option Bool :=
  (countdownWhile test (used nbits).toNat).map (· == -1)

/-- `bitset_equal`. -/
def equal (a b : CBitset) : Option Bool :=
  if a.nbits ≠ b.nbits then some false
  else loopEnds a.nbits fun i => a.bits[i]?.bind fun x => b.bits[i]?.map fun y => x == y

/-- `bitset_is_subset`. -/
def isSubset (a b : CBitset) : Option Bool :=
  if a.nbits = b.nbits then
    loopEnds a.nbits fun i => a.bits[i]?.bind fun x => b.bits[i]?.map fun y => (x ||| y) == x
  else none

/-- `bitset_is_empty`. -/
def isEmpty (set : CBitset) : Option Bool :=
  loopEnds set.nbits fun i => set.bits[i]?.map fun x => x == 0#32

/-- `bitset_population`. -/
def population (s : CBitset) : Option (BitVec 32) :=
  (List.range s.nbits.toNat).foldlM
    (fun total i => (s.testBit (BitVec.ofNat 32 i)).map fun isSet =>
      if isSet then total + 1#32 else total) 0#32

/-- `strncat(buf, [c], 1)`, in a buffer of `size` characters with one for the end of the string. -/
def strncat (size : BitVec 32) (buf : List Char) (c : Char) : Option (List Char) :=
  if buf.length + 1 < size.toNat then some (buf ++ [c]) else none

/-- `bitset_str`. -/
def str (set : CBitset) : Option (List Char) :=
  let size := set.nbits + 1#32
  if 0#32 < size then
    (List.range set.nbits.toNat).foldlM
      (fun buf i => (set.testBit (BitVec.ofNat 32 i)).bind fun isSet =>
        strncat size buf (if isSet then '1' else '0')) []
  else none

/-! ## Sets and operations on them -/

/-- The positions at which `bitset_test_bit` is true. -/
def elements (set : CBitset) : Finset ℕ :=
  (Finset.range set.nbits.toNat).filter fun pos =>
    set.testBit (BitVec.ofNat 32 pos) = some true

/-- The operations that make a set from sets. -/
inductive Operation
  | copy
  | reset
  | setBit (pos : BitVec 32)
  | clearBit (pos : BitVec 32)
  | toggleBit (pos : BitVec 32)
  | setBits
  | union
  | intersection
  | difference
  | xor
deriving DecidableEq, Repr

namespace Operation

/-- The set that the operation makes or leaves in `dest`. -/
def run : Operation → CBitset → CBitset → Option CBitset
  | copy, dest, _ => dest.copy
  | reset, dest, _ => dest.reset
  | setBit pos, dest, _ => dest.setBit pos
  | clearBit pos, dest, _ => dest.clearBit pos
  | toggleBit pos, dest, _ => dest.toggleBit pos
  | setBits, dest, src => dest.setBits src
  | union, dest, src => dest.union src
  | intersection, dest, src => dest.intersection src
  | difference, dest, src => dest.difference src
  | xor, dest, src => dest.xor src

/-- The operation on finite sets. -/
def onSets : Operation → Finset ℕ → Finset ℕ → Finset ℕ
  | copy, d, _ => d
  | reset, _, _ => ∅
  | setBit pos, d, _ => insert pos.toNat d
  | clearBit pos, d, _ => d.erase pos.toNat
  | toggleBit pos, d, _ => symmDiff d {pos.toNat}
  | setBits, _, s => s
  | union, d, s => d ∪ s
  | intersection, d, s => d ∩ s
  | difference, d, s => d \ s
  | xor, d, s => symmDiff d s

/-- The position is one of the set. -/
def Allowed (n : BitVec 32) : Operation → Prop
  | setBit pos | clearBit pos | toggleBit pos => pos < n
  | _ => True

end Operation

/-- The sets that operations between sets of width `n` make. -/
inductive Built (n : BitVec 32) : CBitset → Prop
  | init : Built n (init n)
  | run {op : Operation} {dest src set : CBitset} : Built n dest → Built n src → op.Allowed n →
      op.run dest src = some set → Built n set

/-- The sets of width `n` are the finite sets of positions below `n`. -/
structure Refines (n : BitVec 32) : Prop where
  init : (init n).elements = ∅
  /-- The bits behind the last position are 0. -/
  padding : ∀ set, Built n set → ∀ pos, n.toNat ≤ pos → bitAt set.bits pos = false
  testBit : ∀ set, Built n set → ∀ pos < n,
    set.testBit pos = some (decide (pos.toNat ∈ set.elements))
  run : ∀ (op : Operation) (dest src : CBitset), Built n dest → Built n src → op.Allowed n →
    ∃ set, op.run dest src = some set ∧ set.elements = op.onSets dest.elements src.elements
  equal : ∀ a b, Built n a → Built n b → a.equal b = some (decide (a.elements = b.elements))
  isSubset : ∀ a b, Built n a → Built n b →
    a.isSubset b = some (decide (b.elements ⊆ a.elements))
  isEmpty : ∀ set, Built n set → set.isEmpty = some (decide (set.elements = ∅))
  population : ∀ set, Built n set →
    ∃ total, set.population = some total ∧ total.toNat = set.elements.card
  str : ∀ set, Built n set → ∃ buf, set.str = some buf ∧ buf.count '1' = set.elements.card

/-! ## The invariant -/

/-- The set with its width as a number. -/
def toBitset (set : CBitset) : Bitset := ⟨set.bits, set.nbits.toNat⟩

/-- The invariant of the sets of width `n`. -/
def Ok (n : BitVec 32) (set : CBitset) : Prop := set.toBitset.Ok n.toNat

theorem used_toNat {n : BitVec 32} (hn : n.toNat + 31 < 2 ^ 32) :
    (used n).toNat = bitsetUsed n.toNat := by
  rw [used, BitVec.toNat_udiv, BitVec.toNat_add]
  exact congrArg (· / 32) (Nat.mod_eq_of_lt hn)

section
variable {n pos : BitVec 32} {set dest src a b : CBitset}

theorem Ok.nbits_eq (h : Ok n set) : set.nbits = n := BitVec.eq_of_toNat_eq h.nbits

theorem Ok.length_eq (h : Ok n set) : set.bits.length = bitsetUsed n.toNat := h.length

theorem Ok.exists_word (h : Ok n set) (hpos : pos < n) :
    ∃ word, set.bits[pos.toNat / bitsetBits]? = some word :=
  ⟨_, List.getElem?_eq_getElem (h.length_eq ▸ Bitset.div_lt_used hpos)⟩

theorem Ok.testBit_eq (h : Ok n set) (hpos : pos < n) :
    set.testBit pos = some (bitAt set.bits pos.toNat) := by
  obtain ⟨word, hword⟩ := h.exists_word hpos
  rw [testBit, h.nbits_eq, if_pos hpos, CBitset.word, hword, Option.map_some, bitAt_of_get hword]
  exact congrArg some (and_one_shiftLeft_ne_zero (Nat.mod_lt _ (by decide)))

/-- A loop over the positions calls `bitset_test_bit`. -/
theorem Ok.testBit_ofNat (h : Ok n set) {i : ℕ} (hi : i < n.toNat) :
    set.testBit (BitVec.ofNat 32 i) = some (bitAt set.bits i) := by
  have hto : (BitVec.ofNat 32 i).toNat = i :=
    (BitVec.toNat_ofNat _ _).trans (Nat.mod_eq_of_lt (hi.trans n.isLt))
  rw [h.testBit_eq (by rw [BitVec.lt_def, hto]; exact hi), hto]

theorem Ok.mem_elements (h : Ok n set) {p : ℕ} : p ∈ set.elements ↔ bitAt set.bits p = true := by
  rw [elements, h.nbits_eq, Finset.mem_filter, Finset.mem_range]
  constructor
  · rintro ⟨hlt, htest⟩
    rw [h.testBit_ofNat hlt] at htest
    exact Option.some.inj htest
  · intro hbit
    have hlt : p < n.toNat := h.padding p hbit
    exact ⟨hlt, by rw [h.testBit_ofNat hlt, hbit]⟩

theorem Ok.elements_eq_iff (ha : Ok n a) (hb : Ok n b) :
    a.elements = b.elements ↔ a.bits = b.bits := by
  refine ⟨fun h => ext (ha.length_eq.trans hb.length_eq.symm) fun p => ?_, fun h => ?_⟩
  · rw [Bool.eq_iff_iff, ← ha.mem_elements, ← hb.mem_elements, h]
  · ext p
    rw [ha.mem_elements, hb.mem_elements, h]

/-! ## The operations -/

theorem toBitset_init (hn : n.toNat + 31 < 2 ^ 32) : (init n).toBitset = Bitset.init n.toNat :=
  congrArg (fun k => (⟨List.replicate k 0#32, n.toNat⟩ : Bitset)) (used_toNat hn)

theorem init_ok (hn : n.toNat + 31 < 2 ^ 32) : Ok n (init n) := by
  rw [Ok, toBitset_init hn]
  exact Bitset.init_ok n.toNat

theorem init_elements (hn : n.toNat + 31 < 2 ^ 32) : (init n).elements = ∅ := by
  refine Finset.eq_empty_of_forall_notMem fun p hp => ?_
  rw [(init_ok hn).mem_elements, init, bitAt_replicate_zero] at hp
  exact Bool.noConfusion hp

theorem memcpy_eq {dest src : List (BitVec 32)} (h : dest.length = src.length) :
    memcpy dest src src.length = some src := by
  rw [memcpy, if_pos ⟨h.ge, le_rfl⟩, List.take_length, ← h, List.drop_length, List.append_nil]

theorem memset_eq (l : List (BitVec 32)) :
    memset l l.length = some (List.replicate l.length 0#32) := by
  rw [memset, if_pos le_rfl, List.drop_length, List.append_nil]

theorem Ok.used_eq (hn : n.toNat + 31 < 2 ^ 32) (h : Ok n set) :
    (used set.nbits).toNat = set.bits.length := by
  rw [h.nbits_eq, used_toNat hn, h.length_eq]

/-- A copy of a set is the set. -/
theorem Ok.copy_eq (hn : n.toNat + 31 < 2 ^ 32) (h : Ok n set) : set.copy = some set := by
  have hlen : (init set.nbits).bits.length = set.bits.length := by
    rw [init, List.length_replicate, h.used_eq hn]
  rw [copy, h.used_eq hn, memcpy_eq hlen]
  rfl

theorem Ok.reset_eq (hn : n.toNat + 31 < 2 ^ 32) (h : Ok n set) : set.reset = some (init n) := by
  rw [reset, h.used_eq hn, memset_eq, init, used_toNat hn, ← h.length_eq, ← h.nbits_eq]
  rfl

theorem Ok.setBits_eq (hn : n.toNat + 31 < 2 ^ 32) (hd : Ok n dest) (hs : Ok n src) :
    dest.setBits src = some src := by
  have hnbits : src.nbits = dest.nbits := hs.nbits_eq.trans hd.nbits_eq.symm
  rw [setBits, if_pos (hnbits ▸ BitVec.le_refl _), hs.used_eq hn,
    memcpy_eq (hd.length_eq.trans hs.length_eq.symm), Option.map_some, ← hnbits]

theorem Ok.modifyWord_spec (h : Ok n set) (hpos : pos < n) {f : BitVec 32 → BitVec 32} {v : Bool}
    (hf : ∀ x, ∀ i < 32,
      (f x).getLsbD i = if i = pos.toNat % bitsetBits then v else x.getLsbD i) :
    ∃ r, set.modifyWord pos f = some r ∧ Ok n r ∧
      ∀ p, bitAt r.bits p = if p = pos.toNat then v else bitAt set.bits p := by
  obtain ⟨word, hword⟩ := h.exists_word hpos
  have hbit : ∀ p, bitAt (set.bits.set (pos.toNat / bitsetBits) (f word)) p =
      if p = pos.toNat then v else bitAt set.bits p := fun p =>
    bitAt_set hword (hf word) (by decide)
  refine ⟨{ set with bits := set.bits.set (pos.toNat / bitsetBits) (f word) },
    by rw [modifyWord, CBitset.word, hword, Option.map_some],
    ⟨h.nbits, List.length_set.trans h.length, fun p hp => ?_⟩, hbit⟩
  · have hp := (hbit p).symm.trans hp
    split at hp
    · rename_i he
      exact he ▸ hpos
    · exact h.padding p hp

theorem Ok.combine_spec (hn : n.toNat + 31 < 2 ^ 32) (hd : Ok n dest) (hs : Ok n src)
    {op : BitVec 32 → BitVec 32 → BitVec 32} {f : Bool → Bool → Bool} (hop : Bitwise op f)
    (hf : f false false = false) :
    ∃ r, combine op dest src = some r ∧ Ok n r ∧
      ∀ p, bitAt r.bits p = f (bitAt dest.bits p) (bitAt src.bits p) := by
  have hlen : dest.bits.length = src.bits.length := hd.length_eq.trans hs.length_eq.symm
  have hbit : ∀ p, bitAt (List.zipWith op dest.bits src.bits) p =
      f (bitAt dest.bits p) (bitAt src.bits p) := fun p =>
    bitAt_zipWith (by decide) hop hf hlen
  refine ⟨{ dest with bits := List.zipWith op dest.bits src.bits }, ?_,
    ⟨hd.nbits, ?_, fun p hp => ?_⟩, hbit⟩
  · rw [combine, if_pos (hd.nbits_eq.trans hs.nbits_eq.symm), hd.used_eq hn,
      countdown_combineAt hlen, Option.map_some]
  · have hzip : (List.zipWith op dest.bits src.bits).length = src.bits.length := by
      rw [List.length_zipWith, hlen, Nat.min_self]
    exact hzip.trans hs.length
  · by_contra hlt
    have hd0 : bitAt dest.bits p = false := Bool.eq_false_iff.2 fun h => hlt (hd.padding p h)
    have hs0 : bitAt src.bits p = false := Bool.eq_false_iff.2 fun h => hlt (hs.padding p h)
    have : f (bitAt dest.bits p) (bitAt src.bits p) = true := (hbit p).symm.trans hp
    rw [hd0, hs0, hf] at this
    exact Bool.noConfusion this

theorem Ok.combine_elements (hn : n.toNat + 31 < 2 ^ 32) (hd : Ok n dest) (hs : Ok n src)
    {op : BitVec 32 → BitVec 32 → BitVec 32} {f : Bool → Bool → Bool} {s : Finset ℕ}
    (hop : Bitwise op f) (hf : f false false = false)
    (hmem : ∀ p, p ∈ s ↔ f (decide (p ∈ dest.elements)) (decide (p ∈ src.elements)) = true) :
    ∃ r, combine op dest src = some r ∧ Ok n r ∧ r.elements = s := by
  obtain ⟨r, he, hr, hbit⟩ := hd.combine_spec hn hs hop hf
  refine ⟨r, he, hr, ?_⟩
  ext p
  rw [hr.mem_elements, hbit, hmem]
  simp only [hd.mem_elements, hs.mem_elements, Bool.decide_eq_true]

theorem Ok.setBit_spec (h : Ok n set) (hpos : pos < n) :
    ∃ r, set.setBit pos = some r ∧ Ok n r ∧ r.elements = insert pos.toNat set.elements := by
  obtain ⟨r, he, hr, hbit⟩ := @modifyWord_spec n pos set h hpos (· ||| bitsetMask pos.toNat) true
    (fun x i hi => getLsbD_or_one_shiftLeft hi)
  refine ⟨r, by rw [setBit, h.nbits_eq, if_pos hpos, he], hr, ?_⟩
  ext p
  rw [hr.mem_elements, hbit, Finset.mem_insert, h.mem_elements]
  split <;> simp [*]

theorem Ok.clearBit_spec (h : Ok n set) (hpos : pos < n) :
    ∃ r, set.clearBit pos = some r ∧ Ok n r ∧ r.elements = set.elements.erase pos.toNat := by
  obtain ⟨r, he, hr, hbit⟩ := @modifyWord_spec n pos set h hpos
    (· &&& ~~~bitsetMask pos.toNat) false (fun x i hi => getLsbD_and_not_one_shiftLeft hi)
  refine ⟨r, by rw [clearBit, h.nbits_eq, if_pos hpos, he], hr, ?_⟩
  ext p
  rw [hr.mem_elements, hbit, Finset.mem_erase, h.mem_elements]
  split <;> simp [*]

theorem Ok.toggleBit_spec (h : Ok n set) (hpos : pos < n) :
    ∃ r, set.toggleBit pos = some r ∧ Ok n r ∧ r.elements = symmDiff set.elements {pos.toNat} := by
  have htest := h.testBit_eq hpos
  rw [toggleBit, h.nbits_eq, if_pos hpos, htest, Option.bind_some]
  cases hbit : bitAt set.bits pos.toNat with
  | true =>
    obtain ⟨r, he, hr, hset⟩ := h.clearBit_spec hpos
    refine ⟨r, he, hr, ?_⟩
    have hmem := h.mem_elements.2 hbit
    ext p
    rw [hset, Finset.mem_erase, Finset.mem_symmDiff, Finset.mem_singleton]
    by_cases hp : p = pos.toNat
    · simp [hp, hmem]
    · simp [hp]
  | false =>
    obtain ⟨r, he, hr, hset⟩ := h.setBit_spec hpos
    refine ⟨r, he, hr, ?_⟩
    have hmem : pos.toNat ∉ set.elements := fun hm => by
      rw [h.mem_elements, hbit] at hm
      exact Bool.noConfusion hm
    ext p
    rw [hset, Finset.mem_insert, Finset.mem_symmDiff, Finset.mem_singleton]
    by_cases hp : p = pos.toNat
    · simp [hp, hmem]
    · simp [hp]

/-- Each operation makes the set that the operation on finite sets makes. -/
theorem Operation.run_spec (hn : n.toNat + 31 < 2 ^ 32) (hd : Ok n dest) (hs : Ok n src)
    (op : Operation) (hop : op.Allowed n) :
    ∃ set, op.run dest src = some set ∧ Ok n set ∧
      set.elements = op.onSets dest.elements src.elements := by
  cases op with
  | copy => exact ⟨dest, hd.copy_eq hn, hd, rfl⟩
  | reset => exact ⟨_, hd.reset_eq hn, init_ok hn, init_elements hn⟩
  | setBit pos => exact hd.setBit_spec hop
  | clearBit pos => exact hd.clearBit_spec hop
  | toggleBit pos => exact hd.toggleBit_spec hop
  | setBits => exact ⟨src, hd.setBits_eq hn hs, hs, rfl⟩
  | union => exact hd.combine_elements hn hs bitwise_or rfl fun p => by simp [onSets]
  | intersection =>
    exact hd.combine_elements hn hs (fun _ _ _ _ => BitVec.getLsbD_and) rfl fun p => by
      simp [onSets]
  | difference =>
    refine hd.combine_elements (f := fun x y => x && !y) hn hs (fun x y i hi => ?_) rfl fun p => ?_
    · rw [BitVec.getLsbD_and, BitVec.getLsbD_not, decide_eq_true hi, Bool.true_and]
    · simp [onSets]
  | xor =>
    refine hd.combine_elements hn hs (fun _ _ _ _ => BitVec.getLsbD_xor) rfl fun p => ?_
    rw [onSets, Finset.mem_symmDiff, Bool.xor_iff_ne, Ne, decide_eq_decide]
    tauto

/-! ## The tests -/

/-- The loops that compare words: `return i == -1`. -/
theorem Ok.loopEnds_eq (hn : n.toNat + 31 < 2 ^ 32) {words words' : List (BitVec 32)}
    {test : Nat → Option Bool} (h : Ok n set) (hlen : words.length = set.bits.length)
    (hlen' : words'.length = set.bits.length) (htest : ∀ (i : Nat) (x y : BitVec 32),
      words[i]? = some x → words'[i]? = some y → test i = some (x == y)) :
    loopEnds set.nbits test = some (decide (words = words')) := by
  rw [loopEnds, h.used_eq hn]
  exact countdownWhile_words hlen hlen' htest

theorem Ok.equal_eq (hn : n.toNat + 31 < 2 ^ 32) (ha : Ok n a) (hb : Ok n b) :
    a.equal b = some (decide (a.elements = b.elements)) := by
  rw [equal, if_neg (not_not.2 (ha.nbits_eq.trans hb.nbits_eq.symm)),
    ha.loopEnds_eq hn rfl (hb.length_eq.trans ha.length_eq.symm) fun i x y hx hy => by
      rw [hx, hy, Option.bind_some, Option.map_some]]
  rw [Option.some.injEq, decide_eq_decide, ha.elements_eq_iff hb]

theorem Ok.isSubset_eq (hn : n.toNat + 31 < 2 ^ 32) (ha : Ok n a) (hb : Ok n b) :
    a.isSubset b = some (decide (b.elements ⊆ a.elements)) := by
  have hlen : a.bits.length = b.bits.length := ha.length_eq.trans hb.length_eq.symm
  have hzip : (List.zipWith (· ||| ·) a.bits b.bits).length = a.bits.length := by
    rw [List.length_zipWith, ← hlen, Nat.min_self]
  rw [isSubset, if_pos (ha.nbits_eq.trans hb.nbits_eq.symm),
    ha.loopEnds_eq hn hzip rfl fun i z x hz hx => by
      obtain ⟨x', y, hx', hy, rfl⟩ := List.getElem?_zipWith_eq_some.1 hz
      rw [hx, hy, Option.bind_some, Option.map_some, Option.some.inj (hx'.symm.trans hx)]]
  rw [Option.some.injEq, decide_eq_decide]
  constructor
  · intro h p hp
    have := congrArg (bitAt · p) h
    simp only [bitAt_zipWith (by decide) bitwise_or rfl hlen, hb.mem_elements.1 hp, Bool.or_true] at this
    exact ha.mem_elements.2 this.symm
  · intro h
    refine ext hzip fun p => ?_
    rw [bitAt_zipWith (by decide) bitwise_or rfl hlen]
    have := @h p
    rw [ha.mem_elements, hb.mem_elements] at this
    revert this
    cases bitAt a.bits p <;> cases bitAt b.bits p <;> simp

theorem Ok.isEmpty_eq (hn : n.toNat + 31 < 2 ^ 32) (h : Ok n set) :
    set.isEmpty = some (decide (set.elements = ∅)) := by
  have hinit : (init n).bits.length = set.bits.length :=
    (init_ok hn).length_eq.trans h.length_eq.symm
  rw [isEmpty, h.loopEnds_eq hn rfl hinit fun i x y hx hy => by
      rw [init, List.getElem?_replicate] at hy
      split at hy
      · rw [hx, Option.map_some, ← Option.some.inj hy]
      · cases hy]
  rw [Option.some.injEq, decide_eq_decide, ← init_elements hn, h.elements_eq_iff (init_ok hn)]

/-! ## The number of elements -/

theorem Ok.card_elements (h : Ok n set) :
    set.elements.card = Nat.count (fun p => bitAt set.bits p = true) n.toNat := by
  rw [Nat.count_eq_card_filter_range]
  congr 1
  ext p
  rw [h.mem_elements, Finset.mem_filter, Finset.mem_range]
  exact ⟨fun hp => ⟨h.padding p hp, hp⟩, And.right⟩

theorem Ok.population_eq (h : Ok n set) :
    ∃ total, set.population = some total ∧ total.toNat = set.elements.card := by
  rw [population, h.nbits_eq, h.card_elements]
  refine foldlM_range_rule
    (I := fun i (total : BitVec 32) => total.toNat = Nat.count (fun p => bitAt set.bits p = true) i)
    (fun i hi total htotal => ?_) rfl
  rw [h.testBit_ofNat hi, Option.map_some]
  refine ⟨_, rfl, ?_⟩
  have hle := Nat.count_le (p := fun p => bitAt set.bits p = true) (n := i)
  have hlt := n.isLt
  rw [Nat.count_succ]
  cases bitAt set.bits i with
  | true =>
    rw [if_pos rfl, if_pos rfl, BitVec.toNat_add, htotal]
    exact Nat.mod_eq_of_lt (Nat.lt_of_le_of_lt (Nat.succ_le_of_lt (hle.trans_lt hi)) hlt)
  | false => simpa using htotal

/-- The buffer is long enough, and its string is that of the set without a bound. -/
theorem Ok.str_eq (hn : n.toNat + 31 < 2 ^ 32) (h : Ok n set) :
    set.str = some set.toBitset.str := by
  have hsize : (n + 1#32).toNat = n.toNat + 1 := by
    rw [BitVec.toNat_add]
    exact Nat.mod_eq_of_lt (Nat.lt_of_le_of_lt (Nat.add_le_add_left (by decide) _) hn)
  rw [str, h.nbits_eq, if_pos (by rw [BitVec.lt_def, hsize]; exact Nat.succ_pos _),
    Bitset.Ok.str_eq h]
  refine foldlM_range_eq (f := fun i =>
    (List.range i).map fun i => if set.toBitset.bit i then '1' else '0') fun i hi => ?_
  rw [h.testBit_ofNat hi, Option.bind_some, strncat, List.length_map, List.length_range,
    if_pos (by rw [hsize]; exact Nat.succ_lt_succ hi), List.range_succ, List.map_append]
  rfl

theorem Ok.count_str (h : Ok n set) : set.toBitset.str.count '1' = set.elements.card := by
  rw [h.card_elements, Bitset.Ok.str_eq h, List.count, List.countP_map, Nat.count]
  refine List.countP_congr fun i _ => ?_
  change ((if bitAt set.bits i then '1' else '0') == '1') = true ↔ _
  cases bitAt set.bits i <;> decide

/-! ## The sets without a bound -/

theorem Ok.mem_marks (h : Ok n set) {p : ℕ} : p ∈ set.toBitset.marks ↔ p ∈ set.elements := by
  rw [h.mem_elements]
  exact Iff.rfl

theorem Ok.toBitset_eq {t : Bitset} (h : Ok n set) (ht : t.Ok n.toNat)
    (hmem : ∀ p, p ∈ set.elements ↔ p ∈ t.marks) : set.toBitset = t := by
  refine Bitset.Ok.ext_marks h ht (Set.ext fun p => ?_)
  rw [← hmem, h.mem_marks]

theorem Ok.toBitset_copy (hn : n.toNat + 31 < 2 ^ 32) (h : Ok n set) :
    set.copy.map toBitset = some set.toBitset.copy := by
  rw [h.copy_eq hn, Bitset.Ok.copy_eq h, Option.map_some]

theorem Ok.toBitset_reset (hn : n.toNat + 31 < 2 ^ 32) (h : Ok n set) :
    set.reset.map toBitset = some set.toBitset.reset := by
  rw [h.reset_eq hn, Bitset.Ok.reset_eq h, Option.map_some, toBitset_init hn]

theorem Ok.toBitset_setBits (hn : n.toNat + 31 < 2 ^ 32) (hd : Ok n dest) (hs : Ok n src) :
    (dest.setBits src).map toBitset = dest.toBitset.setBits src.toBitset := by
  rw [hd.setBits_eq hn hs, Bitset.Ok.setBits_eq hd hs, Option.map_some]

theorem Ok.toBitset_setBit (h : Ok n set) (hpos : pos < n) :
    (set.setBit pos).map toBitset = set.toBitset.setBit pos.toNat := by
  obtain ⟨r, he, hr, hset⟩ := h.setBit_spec hpos
  obtain ⟨t, het, ht, hmarks⟩ := Bitset.Ok.setBit_spec h hpos
  rw [he, het, Option.map_some, hr.toBitset_eq ht fun p => ?_]
  rw [hset, hmarks, Finset.mem_insert, Set.mem_insert_iff, h.mem_marks]

theorem Ok.toBitset_union (hn : n.toNat + 31 < 2 ^ 32) (hd : Ok n dest) (hs : Ok n src) :
    (dest.union src).map toBitset = dest.toBitset.union src.toBitset := by
  obtain ⟨r, he, hr, hset⟩ := Operation.run_spec hn hd hs .union trivial
  obtain ⟨t, het, ht, hmarks⟩ := Bitset.Ok.union_spec hd hs
  rw [Operation.run] at he
  rw [he, het, Option.map_some, hr.toBitset_eq ht fun p => ?_]
  rw [hset, hmarks, Operation.onSets, Finset.mem_union, Set.mem_union, hd.mem_marks, hs.mem_marks]

theorem Ok.toBitset_isEmpty (hn : n.toNat + 31 < 2 ^ 32) (h : Ok n set) :
    set.isEmpty = some set.toBitset.isEmpty := by
  rw [h.isEmpty_eq hn, Option.some.injEq, Bool.eq_iff_iff, decide_eq_true_iff,
    Bitset.Ok.isEmpty_iff h, Set.eq_empty_iff_forall_notMem, Finset.eq_empty_iff_forall_notMem]
  exact forall_congr' fun p => not_congr h.mem_marks.symm

/-! ## Sets built by operations -/

theorem Built.ok (hn : n.toNat + 31 < 2 ^ 32) (h : Built n set) : Ok n set := by
  induction h with
  | init => exact init_ok hn
  | run _ _ hop hrun hd hs =>
    obtain ⟨r, he, hr, -⟩ := Operation.run_spec hn hd hs _ hop
    exact Option.some.inj (he.symm.trans hrun) ▸ hr

theorem refines_of_lt (hn : n.toNat + 31 < 2 ^ 32) : Refines n where
  init := init_elements hn
  padding set hset p hp := by
    refine Bool.eq_false_iff.2 fun hbit => ?_
    exact Nat.not_lt.2 hp ((hset.ok hn).padding p hbit)
  testBit set hset pos hpos := by
    have h := hset.ok hn
    rw [h.testBit_eq hpos, Option.some.injEq, Bool.eq_iff_iff, decide_eq_true_iff, h.mem_elements]
  run op dest src hd hs hop := by
    obtain ⟨r, he, -, hr⟩ := Operation.run_spec hn (hd.ok hn) (hs.ok hn) op hop
    exact ⟨r, he, hr⟩
  equal a b ha hb := (ha.ok hn).equal_eq hn (hb.ok hn)
  isSubset a b ha hb := (ha.ok hn).isSubset_eq hn (hb.ok hn)
  isEmpty set hset := (hset.ok hn).isEmpty_eq hn
  population set hset := (hset.ok hn).population_eq
  str set hset := ⟨_, (hset.ok hn).str_eq hn, (hset.ok hn).count_str⟩

/-- `BITSET_USED` wraps: no words are allocated. -/
theorem init_of_le (hn : 2 ^ 32 ≤ n.toNat + 31) : init n = ⟨[], n⟩ := by
  have hlt := n.isLt
  have hsum : (n + (32#32 - 1#32)).toNat = n.toNat + 31 - 2 ^ 32 := by
    rw [BitVec.toNat_add]
    change (n.toNat + 31) % 2 ^ 32 = _
    omega
  have : (used n).toNat = 0 := by
    rw [used, BitVec.toNat_udiv, hsum]
    exact Nat.div_eq_of_lt (by change _ < 32; omega)
  rw [init, this, List.replicate_zero]

theorem not_refines_of_le (hn : 2 ^ 32 ≤ n.toNat + 31) : ¬ Refines n := by
  intro h
  have hpos : 0#32 < n := by
    rw [BitVec.lt_def]
    change 0 < n.toNat
    omega
  obtain ⟨r, he, -⟩ := h.run (.setBit 0#32) _ _ .init .init hpos
  rw [Operation.run, setBit, init_of_le hn, if_pos hpos] at he
  cases he

/-- The sets of width `n` are finite sets exactly when `n + 31` is a `size_t`. -/
theorem refines_iff (n : BitVec 32) : Refines n ↔ n.toNat + 31 < 2 ^ 32 :=
  ⟨fun h => Nat.lt_of_not_le fun hn => not_refines_of_le hn h, refines_of_lt⟩

/-- At the greatest width `bitset_set_bit` writes behind the words. -/
theorem setBit_wide : 1#32 ≤ 4294967295#32 ∧ Built 4294967295#32 (init 4294967295#32) ∧
    (init 4294967295#32).setBit 0#32 = none ∧ ¬ Refines 4294967295#32 :=
  ⟨by decide, .init, by decide, not_refines_of_le (by decide)⟩

end

end CBitset

end Dytan
