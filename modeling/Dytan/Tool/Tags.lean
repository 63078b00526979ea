import Dytan.Lib.Run
import Dytan.Taint.Range
import Dytan.Tool.Sources
import Mathlib.Data.Set.BooleanAlgebra
import Mathlib.Order.CompletePartialOrder

/-!
# Tags of heap blocks (`replace_functions.cpp`)

`clearTagsForByteRange` is what a call of `free` runs: it is not told the size of the block and
removes entries of `memTaintMap` up to the first address that has none (`clearLoop_eq`).

`Heap` is a run of the allocator under the tool: the blocks that are live and the tool's state.
`clear_exact_iff`: along a run every `clearTagsForByteRange` removes exactly the entries of its block
if and only if the address after the block never has an entry (`PastUntainted`). Two adjacent blocks
do not meet it (`clear_adjacent`).
-/

namespace Dytan

variable {w : Nat}

/-! ## The clearing loop -/

/-- The loop of `ClearTagsForByteRange`; it erases an entry in each of at most `fuel` rounds. -/
def clearLoop : Nat → (ADDRINT w → Option Bitset) → ADDRINT w → ADDRINT w → Option Bitset
  | 0, map, _ => map
  | fuel + 1, map, addr =>
    if (map addr).isSome then clearLoop fuel (Function.update map addr none) (addr + 1) else map

/-- `ClearTagsForByteRange`; the map has at most `2 ^ w` entries. -/
def Tool.clearTagsForByteRange (tool : Tool w) (start : ADDRINT w) : Tool w :=
  { tool with taint := { tool.taint with
      memTaintMap := clearLoop (2 ^ w) tool.taint.memTaintMap start } }

/-- Every address from `start` to `a` has an entry. -/
def Chunk (map : ADDRINT w → Option Bitset) (start a : ADDRINT w) : Prop :=
  ∀ j ≤ (a - start).toNat, (map (start + BitVec.ofNat w j)).isSome = true

instance (map : ADDRINT w → Option Bitset) (start a : ADDRINT w) : Decidable (Chunk map start a) :=
  inferInstanceAs (Decidable (∀ j ≤ _, _))

section
variable {map : ADDRINT w → Option Bitset} {start a : ADDRINT w}

theorem Chunk.start_isSome (h : Chunk map start a) : (map start).isSome = true := by
  simpa using h 0 (Nat.zero_le _)

/-- The address after `start` is one nearer to any other address. -/
theorem toNat_sub_succ (h : a ≠ start) : (a - start).toNat = (a - (start + 1)).toNat + 1 := by
  have hpos : (a - start).toNat ≠ 0 := by
    intro h0
    have h1 : a - start = 0 := BitVec.eq_of_toNat_eq h0
    exact h (BitVec.sub_eq_iff_eq_add.1 h1 |>.trans (BitVec.zero_add _))
  have hlt := (a - start).isLt
  have hone : (1 : ADDRINT w).toNat = 1 := by
    show 1 % 2 ^ w = 1
    exact Nat.mod_eq_of_lt (by omega)
  have hle : (1 : ADDRINT w) ≤ a - start := by
    rw [BitVec.le_def, hone]
    omega
  rw [← BitVec.sub_sub, BitVec.toNat_sub_of_le hle, hone]
  omega

theorem add_ofNat_succ (start : ADDRINT w) (j : Nat) :
    start + BitVec.ofNat w (j + 1) = start + 1 + BitVec.ofNat w j := by
  rw [BitVec.add_assoc, Nat.add_comm j 1, BitVec.ofNat_add]
  rfl

/-- The chunk from `start` is `start` and the chunk from the next address. -/
theorem chunk_succ (hs : (map start).isSome = true) (h : a ≠ start) :
    Chunk map start a ↔ Chunk (Function.update map start none) (start + 1) a := by
  have hd := toNat_sub_succ h
  have hlt := (a - start).isLt
  -- the walk does not come back to `start` before it reaches `a`
  have hne : ∀ j ≤ (a - (start + 1)).toNat, start + 1 + BitVec.ofNat w j ≠ start := by
    intro j hj he
    have h0 : BitVec.ofNat w (j + 1) = 0 := by
      have := congrArg (· - start) ((add_ofNat_succ start j).trans he)
      simpa [BitVec.add_comm start] using this
    have h1 := congrArg BitVec.toNat h0
    rw [BitVec.toNat_ofNat, Nat.mod_eq_of_lt (by omega)] at h1
    simp at h1
  constructor
  · intro hc j hj
    rw [Function.update_of_ne (hne j hj), ← add_ofNat_succ]
    exact hc (j + 1) (by omega)
  · intro hc j hj
    cases j with
    | zero => simpa using hs
    | succ j =>
      have hj' := hc j (by omega)
      rwa [Function.update_of_ne (hne j (by omega)), ← add_ofNat_succ] at hj'

/-- The loop removes the chunk of addresses with entries that begins at `start`, as far as its
rounds go. -/
theorem clearLoop_apply (fuel : Nat) (map : ADDRINT w → Option Bitset) (start a : ADDRINT w) :
    clearLoop fuel map start a =
      if (a - start).toNat < fuel ∧ Chunk map start a then none else map a := by
  induction fuel generalizing map start with
  | zero => simp [clearLoop]
  | succ fuel ih =>
    unfold clearLoop
    split
    · rename_i hs
      rw [ih]
      by_cases h : a = start
      · subst h
        have hc : Chunk map a a := by
          intro j hj
          obtain rfl : j = 0 := by simpa using hj
          simpa using hs
        rw [Function.update_self, ite_self, if_pos ⟨by simp, hc⟩]
      · rw [Function.update_of_ne h, toNat_sub_succ h]
        exact if_congr (and_congr Nat.succ_lt_succ_iff.symm (chunk_succ hs h).symm) rfl rfl
    · rename_i hs
      rw [if_neg fun hc => hs hc.2.start_isSome]

/-- `2 ^ w` rounds, or more, reach the `break`. -/
theorem clearLoop_eq {fuel : Nat} (hf : 2 ^ w ≤ fuel) (map : ADDRINT w → Option Bitset)
    (start : ADDRINT w) :
    clearLoop fuel map start = fun a => if Chunk map start a then none else map a := by
  funext a
  have hlt : (a - start).toNat < fuel := Nat.lt_of_lt_of_le (a - start).isLt hf
  rw [clearLoop_apply, if_congr (and_iff_right hlt) rfl rfl]

end

/-! ## The heap -/

/-- The `size` bytes a call of `malloc` returned. -/
structure Block (w : Nat) where
  start : ADDRINT w
  size : ADDRINT w
deriving DecidableEq

def Block.bytes (b : Block w) : Set (ADDRINT w) := bytesAt b.start b.size

/-- The block ends before the last byte of memory. -/
def Block.Fits (b : Block w) : Prop := ¬ RangeWraps b.start b.size

structure TaggedHeap (w : Nat) where
  tool : Tool w
  live : Finset (Block w)

inductive HeapCall (w : Nat)
  /-- `AssignMemoryTagToByteRange`, of a new block or again of a live one. -/
  | assign (b : Block w) (id : Nat)
  /-- `ClearTagsForByteRange` -/
  | clear (b : Block w)
  /-- Whatever else the tool does. -/
  | other (tool : Tool w)

namespace TaggedHeap

def mem (s : TaggedHeap w) : ADDRINT w → Option Bitset := s.tool.taint.memTaintMap

def step (s : TaggedHeap w) : HeapCall w → Option (TaggedHeap w)
  | .assign b id => do
    let tool ← s.tool.assignMemoryTagToByteRange b.start b.size id
    return ⟨tool, insert b s.live⟩
  | .clear b => some ⟨s.tool.clearTagsForByteRange b.start, s.live.erase b⟩
  | .other tool => some { s with tool := tool }

/-- The calls treat the heap as a set of disjoint live blocks, and the rest of the tool leaves the
taint of live blocks alone. -/
def Treats (s : TaggedHeap w) : HeapCall w → Prop
  | .assign b _ => ∀ b' ∈ s.live, b' ≠ b → Disjoint b'.bytes b.bytes
  | .clear b => b ∈ s.live
  | .other tool => ∀ b ∈ s.live, ∀ a ∈ b.bytes, tool.taint.memTaintMap a = s.mem a

/-- `ClearTagsForByteRange` removes the entries of its block and no other. -/
def Exact (s : TaggedHeap w) : HeapCall w → Prop
  | .clear b => ∀ a, (a ∈ b.bytes → (s.mem a).isSome ∧
        (s.tool.clearTagsForByteRange b.start).taint.memTaintMap a = none) ∧
      (a ∉ b.bytes → (s.tool.clearTagsForByteRange b.start).taint.memTaintMap a = s.mem a)
  | _ => True

/-- The address after a block has no entry when its tags are cleared. -/
def PastUntainted (s : TaggedHeap w) : HeapCall w → Prop
  | .clear b => s.mem (b.start + b.size) = none
  | _ => True

/-- The blocks a call tags end before the last byte of memory. -/
def Fits : HeapCall w → Prop
  | .assign b _ => b.Fits
  | _ => True

/-- The live blocks are disjoint, and every byte of theirs has an entry. -/
structure Tagged (s : TaggedHeap w) : Prop where
  fits : ∀ b ∈ s.live, b.Fits
  isSome : ∀ b ∈ s.live, ∀ a ∈ b.bytes, (s.mem a).isSome = true
  disjoint : ∀ b ∈ s.live, ∀ b' ∈ s.live, b ≠ b' → Disjoint b.bytes b'.bytes

variable {s s' : TaggedHeap w} {call : HeapCall w}

theorem clear_mem (s : TaggedHeap w) (b : Block w) :
    (s.tool.clearTagsForByteRange b.start).taint.memTaintMap =
      fun a => if Chunk s.mem b.start a then none else s.mem a :=
  clearLoop_eq le_rfl _ _

/-- A tagged block is a chunk. -/
theorem Tagged.chunk (h : s.Tagged) {b : Block w} (hb : b ∈ s.live) {a : ADDRINT w}
    (ha : a ∈ b.bytes) : Chunk s.mem b.start a := by
  intro j hj
  rw [Block.bytes, mem_bytesAt] at ha
  exact h.isSome b hb _ ⟨j, by omega, rfl⟩

theorem exact_iff_pastUntainted (h : s.Tagged) (hv : s.Treats call) :
    s.Exact call ↔ s.PastUntainted call := by
  cases call with
  | assign b id => exact Iff.rfl
  | other tool => exact Iff.rfl
  | clear b =>
    have hb : b ∈ s.live := hv
    have hoff : b.start + b.size - b.start = b.size := by
      rw [BitVec.add_comm, BitVec.add_sub_cancel]
    simp only [Exact, PastUntainted, clear_mem]
    constructor
    · intro hexact
      have hpast : b.start + b.size ∉ b.bytes := by
        rw [Block.bytes, mem_bytesAt, hoff]
        exact Nat.lt_irrefl _
      -- with an entry the address after the block would be cleared too
      by_contra hne
      have hchunk : Chunk s.mem b.start (b.start + b.size) := by
        intro j hj
        rw [hoff] at hj
        rcases Nat.lt_or_eq_of_le hj with hlt | rfl
        · exact h.isSome b hb _ ⟨j, hlt, rfl⟩
        · rw [BitVec.ofNat_toNat, BitVec.setWidth_eq]
          exact Option.isSome_iff_ne_none.2 hne
      have := (hexact (b.start + b.size)).2 hpast
      rw [if_pos hchunk] at this
      exact hne this.symm
    · intro hpast a
      refine ⟨fun ha => ⟨h.isSome b hb a ha, if_pos (h.chunk hb ha)⟩, fun ha => if_neg fun hc => ?_⟩
      -- the chunk cannot pass the address after the block
      rw [Block.bytes, mem_bytesAt, Nat.not_lt] at ha
      have hsome := hc b.size.toNat ha
      rw [BitVec.ofNat_toNat, BitVec.setWidth_eq, hpast] at hsome
      cases hsome

/-- Tagging a block gives every byte of it an entry. -/
theorem assign_mem {b : Block w} {id : Nat} (hf : b.Fits)
    (h : s.step (.assign b id) = some s') :
    s'.live = insert b s.live ∧ (∀ a ∈ b.bytes, (s'.mem a).isSome = true) ∧
      ∀ a, (s.mem a).isSome = true → (s'.mem a).isSome = true := by
  obtain ⟨tool, ht, h⟩ := Option.bind_eq_some_iff.1 h
  obtain rfl := Option.some.inj h
  obtain ⟨mark, next, set, -, -, rfl⟩ := Tool.assignTag_cases ht
  refine ⟨rfl, fun a ha => ?_, fun a ha => ?_⟩
  · simp only [mem, if_pos ((mem_addrRange_bytes hf).2 ha), Option.isSome_some]
  · simp only [mem]
    split
    · rfl
    · exact ha

/-- What meets `Exact` keeps the live blocks tagged. -/
theorem Tagged.step (h : s.Tagged) (hv : s.Treats call) (hf : Fits call) (he : s.Exact call)
    (hs : s.step call = some s') : s'.Tagged := by
  cases call with
  | assign b id =>
    obtain ⟨hlive, hnew, hold⟩ := assign_mem hf hs
    refine ⟨fun b' hb' => ?_, fun b' hb' a ha => ?_, fun b₁ h₁ b₂ h₂ hne => ?_⟩
    · rw [hlive, Finset.mem_insert] at hb'
      obtain rfl | hb' := hb'
      · exact hf
      · exact h.fits b' hb'
    · rw [hlive, Finset.mem_insert] at hb'
      obtain rfl | hb' := hb'
      · exact hnew a ha
      · exact hold a (h.isSome b' hb' a ha)
    · rw [hlive, Finset.mem_insert] at h₁ h₂
      obtain rfl | h₁ := h₁
      · exact (hv b₂ (h₂.resolve_left hne.symm) hne.symm).symm
      · obtain rfl | h₂ := h₂
        · exact hv b₁ h₁ hne
        · exact h.disjoint b₁ h₁ b₂ h₂ hne
  | clear b =>
    obtain rfl := Option.some.inj hs
    refine ⟨fun b' hb' => h.fits b' (Finset.mem_of_mem_erase hb'), fun b' hb' a ha => ?_,
      fun b₁ h₁ b₂ h₂ => h.disjoint b₁ (Finset.mem_of_mem_erase h₁) b₂ (Finset.mem_of_mem_erase h₂)⟩
    obtain ⟨hne, hb'⟩ := Finset.mem_erase.1 hb'
    have hnot : a ∉ b.bytes := fun hab => Set.disjoint_left.1 (h.disjoint b' hb' b hv hne) ha hab
    have hkeep := (he a).2 hnot
    rw [mem, hkeep]
    exact h.isSome b' hb' a ha
  | other tool =>
    obtain rfl := Option.some.inj hs
    refine ⟨h.fits, fun b hb a ha => ?_, h.disjoint⟩
    rw [mem, hv b hb a ha]
    exact h.isSome b hb a ha

/-- Along a run that treats the heap as disjoint blocks, none of which reaches the last byte of
memory, every `ClearTagsForByteRange` removes exactly the entries of its block if and only if the
address after the block never has an entry then. -/
theorem clear_exact_iff (h : s.live = ∅) {calls : List (HeapCall w)}
    (hf : ∀ call ∈ calls, Fits call) (hv : Lib.Along step Treats s calls)
    (hr : Lib.run step s calls = some s') :
    Lib.Along step Exact s calls ↔ Lib.Along step PastUntainted s calls := by
  have hstart : s.Tagged := by
    refine ⟨fun b hb => ?_, fun b hb => ?_, fun b hb => ?_⟩ <;> simp [h] at hb
  have hvf : Lib.Along step (fun s call => s.Treats call ∧ Fits call) s calls := by
    intro pre call post hsplit t ht
    exact ⟨hv pre call post hsplit t ht, hf call (by simp [hsplit])⟩
  exact Lib.along_iff_along (fun _ _ _ ht hv he hs => ht.step hv.1 hv.2 he hs)
    (fun _ _ _ ht hv _ => exact_iff_pastUntainted ht hv.1) hstart hvf hr

/-- Two adjacent blocks of four bytes. -/
def first : Block 32 := ⟨0x1000, 4⟩
def second : Block 32 := ⟨0x1004, 4⟩

/-- A tool with a generator of 16 marks. -/
def tagging : TaggedHeap 32 := ⟨⟨.initial 16, some (.sequential 0 0 16), fun _ => none⟩, ∅⟩

theorem clear_exact_iff_first :
    Lib.Along step Exact tagging [.assign first 1, .clear first] ↔
      Lib.Along step PastUntainted tagging [.assign first 1, .clear first] := by
  refine clear_exact_iff rfl (fun call hc => ?_) ?_ rfl
  · simp only [List.mem_cons, List.not_mem_nil, or_false] at hc
    obtain rfl | rfl := hc
    · show ¬ RangeWraps first.start first.size
      decide
    · trivial
  · refine (Lib.Along.cons rfl).2 ⟨fun b hb => ?_, (Lib.Along.cons rfl).2 ⟨?_, Lib.Along.nil⟩⟩
    · simp [tagging] at hb
    · exact Finset.mem_insert_self first ∅

/-- Clearing the tags of the first of two adjacent blocks also removes those of the second. -/
theorem clear_adjacent :
    Lib.Along step Treats tagging [.assign first 1, .assign second 2, .clear first] ∧
    ¬ Lib.Along step Exact tagging [.assign first 1, .assign second 2, .clear first] ∧
    ∃ s, Lib.run step tagging [.assign first 1, .assign second 2, .clear first] = some s ∧
      second ∈ s.live ∧ s.mem 0x1004 = none := by
  have hdisj : Disjoint first.bytes second.bytes := by
    rw [Set.disjoint_left]
    intro a h₁ h₂
    simp only [Block.bytes, mem_bytesAt, first, second] at h₁ h₂
    bv_omega
  obtain ⟨s₁, s₂, h₁, h₂⟩ : ∃ s₁ s₂, tagging.step (.assign first 1) = some s₁ ∧
      s₁.step (.assign second 2) = some s₂ := ⟨_, _, rfl, rfl⟩
  have hfirst : first.Fits := show ¬ RangeWraps _ _ by decide
  have hsecond : second.Fits := show ¬ RangeWraps _ _ by decide
  have hv₁ : tagging.Treats (.assign first 1) := fun b hb => by simp [tagging] at hb
  have htagged : tagging.Tagged := by
    refine ⟨fun b hb => ?_, fun b hb => ?_, fun b hb => ?_⟩ <;> simp [tagging] at hb
  have ht₁ : s₁.Tagged := htagged.step hv₁ hfirst trivial h₁
  have hlive₁ : s₁.live = {first} := (assign_mem hfirst h₁).1
  have hv₂ : s₁.Treats (.assign second 2) := by
    intro b hb _
    rw [hlive₁, Finset.mem_singleton] at hb
    exact hb ▸ hdisj
  have ht₂ : s₂.Tagged := ht₁.step hv₂ hsecond trivial h₂
  obtain ⟨hlive₂, hnew, -⟩ := assign_mem hsecond h₂
  have hv₃ : s₂.Treats (.clear first) := by
    show first ∈ s₂.live
    simp [hlive₂, hlive₁]
  have hpast : (s₂.mem 0x1004).isSome = true := hnew 0x1004 (start_mem_bytesAt (by decide))
  refine ⟨?_, fun h => ?_, ?_⟩
  · exact (Lib.Along.cons h₁).2 ⟨hv₁, (Lib.Along.cons h₂).2 ⟨hv₂, (Lib.Along.cons rfl).2
      ⟨hv₃, Lib.Along.nil⟩⟩⟩
  · have he := ((Lib.Along.cons h₂).1 ((Lib.Along.cons h₁).1 h).2).2
    have hnone : s₂.mem 0x1004 = none :=
      (exact_iff_pastUntainted ht₂ hv₃).1 ((Lib.Along.cons rfl).1 he).1
    rw [hnone] at hpast
    cases hpast
  · refine ⟨_, by rw [Lib.run_cons_of h₁, Lib.run_cons_of h₂]; rfl, ?_, ?_⟩
    · show second ∈ s₂.live.erase first
      simp [hlive₂, first, second]
    · have hchunk : Chunk s₂.mem first.start 0x1004 := by
        intro j hj
        rcases Nat.lt_or_eq_of_le hj with hlt | rfl
        · exact ht₂.isSome first hv₃ _ ⟨j, hlt, rfl⟩
        · exact hpast
      show (s₂.tool.clearTagsForByteRange first.start).taint.memTaintMap 0x1004 = none
      rw [clear_mem]
      exact if_pos hchunk

end TaggedHeap

end Dytan
