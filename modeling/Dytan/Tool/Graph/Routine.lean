import Dytan.Tool.Graph.RoutineGraph
import Mathlib.Data.List.Chain

/-!
# Routines

`Routine`: the instructions of a routine, one behind the other. The source takes the addresses up to
5 for impossible and uses them as flags.

`Leader` and `InBlock` say on the instructions alone where blocks begin and which block an instruction
is in. `ofRoutine_targets` and `ofRoutine_branches` are what the first pass finds.
-/

namespace Dytan

variable {w : Nat}

namespace FlowKind

/-- The kinds with an entry in `branches`. -/
def isTransfer : FlowKind w → Bool
  | .other => false
  | _ => true

def target? : FlowKind w → Option (ADDRINT w)
  | .conditionalBranch target | .jump target => some target
  | _ => none

end FlowKind

namespace FlowINS

/-- Control can pass from the instruction to `a` within the routine. -/
def Passes (ins : FlowINS w) (a : ADDRINT w) : Prop :=
  match ins.kind with
  | .other | .call _ | .indirectCall _ => a = ins.nextAddress
  | .conditionalBranch target => a = target ∨ a = ins.nextAddress
  | .jump target => a = target
  | .indirectJump | .ret => False

/-- The first pass enters the instruction in `targets` at `a`. -/
def Marks (ins : FlowINS w) (a : ADDRINT w) : Prop :=
  match ins.kind with
  | .conditionalBranch target => a = target ∨ a = ins.nextAddress
  | .jump target => a = target
  | .call true | .indirectCall true => a = ins.nextAddress
  | _ => False

end FlowINS

/-- The set of `a` and the next address. -/
def FlowINS.withNext (ins : FlowINS w) (a : ADDRINT w) : List (ADDRINT w) :=
  if ins.nextAddress = a then [a] else if ins.nextAddress ≤ a then [ins.nextAddress, a]
  else [a, ins.nextAddress]

/-- What `branches` has at the instruction. -/
def FlowINS.branchSet (ins : FlowINS w) : List (ADDRINT w) :=
  match ins.kind with
  | .other => []
  | .conditionalBranch target => ins.withNext target
  | .jump target => [target]
  | .indirectJump => [5]
  | .call true => ins.withNext 1
  | .call false => [1]
  | .indirectCall true => ins.withNext 4
  | .indirectCall false => [4]
  | .ret => [2]

theorem three_le_word : 3 ≤ 32 := by decide

structure Routine (w : Nat) where
  firstIns : FlowINS w
  rest : List (FlowINS w)
  invalid : ADDRINT w
  width : 3 ≤ w
  increasing : (firstIns :: rest).Pairwise fun i j => i.address < j.address
  contiguous : (firstIns :: rest).IsChain fun i j => i.nextAddress = j.address
  forward : ∀ i ∈ firstIns :: rest, i.address < i.nextAddress
  possible : ∀ i ∈ firstIns :: rest, 5 < i.address ∧ ∀ target ∈ i.kind.target?, 5 < target
  calls : ((firstIns :: rest).getLast (List.cons_ne_nil _ _)).kind.isCall = false
  invalid_ne : invalid ≠ 2 ∧ ∀ i ∈ firstIns :: rest, i.address ≠ invalid

namespace Routine

def instructions (r : Routine w) : List (FlowINS w) := r.firstIns :: r.rest

/-- The first pass enters something in `targets` at `a`. -/
def Targeted (r : Routine w) (a : ADDRINT w) : Prop := ∃ i ∈ r.instructions, i.Marks a

/-- A block begins at the instruction: it is the first, a target, or behind a transfer, which the
second pass does not look for in the first instruction. -/
def Leader (r : Routine w) (ins : FlowINS w) : Prop :=
  ins = r.firstIns ∨ r.Targeted ins.address ∨
    ∃ p ∈ r.rest, p.kind.isTransfer ∧ p.nextAddress = ins.address

/-- The instruction is in the block that begins at `a`. -/
def InBlock (r : Routine w) (a : ADDRINT w) (i : FlowINS w) : Prop :=
  (∃ first ∈ r.instructions, first.address = a ∧ r.Leader first) ∧ a ≤ i.address ∧
    ∀ j ∈ r.instructions, a < j.address → j.address ≤ i.address → ¬ r.Leader j

/-- The maps of the first pass. -/
def maps (r : Routine w) : Maps w := .ofRoutine r.instructions

end Routine

/-! ## The first pass -/

namespace AddressSets

variable {sets : AddressSets w} {key a x b : ADDRINT w}

theorem mem_insert : x ∈ sets.insert key a b ↔ x ∈ sets b ∨ b = key ∧ x = a := by
  unfold insert
  by_cases hb : b = key
  · subst hb
    rw [Function.update_self]
    split
    · rename_i ha
      rw [List.contains_iff_mem] at ha
      constructor
      · exact .inl
      · rintro (hx | ⟨-, rfl⟩)
        · exact hx
        · exact ha
    · rw [List.mem_orderedInsert]
      constructor
      · rintro (rfl | hx)
        · exact .inr ⟨rfl, rfl⟩
        · exact .inl hx
      · rintro (hx | ⟨-, rfl⟩)
        · exact .inr hx
        · exact .inl rfl
  · rw [Function.update_of_ne hb]
    simp [hb]

theorem insert_of_ne (hb : b ≠ key) : sets.insert key a b = sets b := Function.update_of_ne hb _ _

theorem insert_of_nil (h : sets key = []) : sets.insert key a key = [a] := by
  rw [insert, Function.update_self, h]
  rfl

theorem insert_of_single (h : sets key = [x]) :
    sets.insert key a key = if a = x then [x] else if a ≤ x then [a, x] else [x, a] := by
  rw [insert, Function.update_self, h]
  simp only [List.contains_cons, List.contains_nil, Bool.or_false, beq_iff_eq,
    List.orderedInsert_cons, List.orderedInsert_nil]

end AddressSets

namespace Maps

variable {m : Maps w} {ins : FlowINS w} {is : List (FlowINS w)} {a b x : ADDRINT w}

/-- What the first pass does at an instruction. -/
theorem mapper_eq : m.mapper ins = match ins.kind with
    | .other => m
    | .conditionalBranch target =>
      (((m.insertBranch ins.address target).insertTarget target ins.address).insertBranch
        ins.address ins.nextAddress).insertTarget ins.nextAddress ins.address
    | .jump target => (m.insertBranch ins.address target).insertTarget target ins.address
    | .indirectJump => m.insertBranch ins.address 5
    | .call false => m.insertBranch ins.address 1
    | .call true => ((m.insertBranch ins.address 1).insertBranch ins.address
        ins.nextAddress).insertTarget ins.nextAddress ins.address
    | .indirectCall false => m.insertBranch ins.address 4
    | .indirectCall true => ((m.insertBranch ins.address 4).insertBranch ins.address
        ins.nextAddress).insertTarget ins.nextAddress ins.address
    | .ret => m.insertBranch ins.address 2 := by
  obtain ⟨addr, next, kind⟩ := ins
  cases kind with
  | call fall | indirectCall fall => cases fall <;> rfl
  | _ => rfl

theorem mapper_targets : x ∈ (m.mapper ins).targets b ↔
    x ∈ m.targets b ∨ x = ins.address ∧ ins.Marks b := by
  rw [mapper_eq, FlowINS.Marks]
  cases ins.kind with
  | call fall | indirectCall fall =>
    cases fall
    · simp [insertBranch]
    · simp [insertBranch, insertTarget, AddressSets.mem_insert, and_comm]
  | conditionalBranch t =>
    simp only [insertBranch, insertTarget, AddressSets.mem_insert]
    tauto
  | _ => simp [insertBranch, insertTarget, AddressSets.mem_insert, and_comm]

theorem mapper_branches_of_ne (hb : b ≠ ins.address) : (m.mapper ins).branches b = m.branches b := by
  rw [mapper_eq]
  cases ins.kind with
  | call fall | indirectCall fall =>
    cases fall <;> simp [insertBranch, insertTarget, AddressSets.insert_of_ne hb]
  | _ => simp [insertBranch, insertTarget, AddressSets.insert_of_ne hb]

theorem mapper_branches (h : m.branches ins.address = []) :
    (m.mapper ins).branches ins.address = ins.branchSet := by
  have hone : ∀ a, m.branches.insert ins.address a ins.address = [a] :=
    fun a => AddressSets.insert_of_nil h
  rw [mapper_eq, FlowINS.branchSet]
  cases ins.kind with
  | call fall | indirectCall fall =>
    cases fall
    · exact hone _
    · exact AddressSets.insert_of_single (hone _)
  | conditionalBranch t => exact AddressSets.insert_of_single (hone _)
  | other => exact h
  | jump t | indirectJump | ret => exact hone _

theorem ofRoutine_targets :
    x ∈ (ofRoutine is).targets b ↔ ∃ ins ∈ is, x = ins.address ∧ ins.Marks b := by
  have hfold : ∀ m : Maps w, x ∈ (is.foldl mapper m).targets b ↔
      x ∈ m.targets b ∨ ∃ ins ∈ is, x = ins.address ∧ ins.Marks b := by
    induction is with
    | nil => simp
    | cons ins is ih =>
      intro m
      rw [List.foldl_cons, ih, mapper_targets, List.exists_mem_cons_iff, or_assoc]
  rw [ofRoutine, hfold]
  simp

/-- The instructions have different addresses, so that `branches` has the set of each. -/
theorem ofRoutine_branches (hnodup : (is.map FlowINS.address).Nodup) (h : ins ∈ is) :
    (ofRoutine is).branches ins.address = ins.branchSet := by
  have hkeep : ∀ (is : List (FlowINS w)) (m : Maps w), (∀ i ∈ is, i.address ≠ ins.address) →
      (is.foldl mapper m).branches ins.address = m.branches ins.address := by
    intro is
    induction is with
    | nil => exact fun m _ => rfl
    | cons i is ih =>
      intro m hne
      obtain ⟨hi, his⟩ := List.forall_mem_cons.1 hne
      rw [List.foldl_cons, ih _ his, mapper_branches_of_ne hi.symm]
  obtain ⟨pre, post, rfl⟩ := List.append_of_mem h
  rw [List.map_append, List.map_cons] at hnodup
  obtain ⟨-, hpost, hpre⟩ := List.nodup_append.1 hnodup
  have hbefore : ∀ i ∈ pre, i.address ≠ ins.address := fun i hi =>
    hpre _ (List.mem_map_of_mem hi) _ List.mem_cons_self
  have hafter : ∀ i ∈ post, i.address ≠ ins.address := fun i hi he =>
    (List.nodup_cons.1 hpost).1 (he ▸ List.mem_map_of_mem hi)
  rw [ofRoutine, List.foldl_append, List.foldl_cons, hkeep post _ hafter]
  exact mapper_branches (hkeep pre _ hbefore)

end Maps

/-! ## Routines and blocks -/

namespace Routine

variable {r : Routine w} {i j p ins : FlowINS w} {a b : ADDRINT w} {pre post : List (FlowINS w)}

theorem rest_subset (hi : i ∈ r.rest) : i ∈ r.instructions := List.mem_cons_of_mem _ hi

theorem cases_of_split (h : r.instructions = pre ++ ins :: post) (hj : j ∈ r.instructions) :
    j ∈ pre ∧ j.address < ins.address ∨ j = ins ∨ j ∈ post ∧ ins.address < j.address := by
  have hinc := r.increasing
  change List.Pairwise _ r.instructions at hinc
  rw [h, List.pairwise_append, List.pairwise_cons] at hinc
  obtain ⟨-, ⟨hafter, -⟩, hbefore⟩ := hinc
  rw [h, List.mem_append, List.mem_cons] at hj
  rcases hj with hj | rfl | hj
  · exact .inl ⟨hj, hbefore j hj ins List.mem_cons_self⟩
  · exact .inr (.inl rfl)
  · exact .inr (.inr ⟨hj, hafter j hj⟩)

theorem eq_of_address (hi : i ∈ r.instructions) (hj : j ∈ r.instructions)
    (h : i.address = j.address) : i = j := by
  obtain ⟨pre, post, hsplit⟩ := List.append_of_mem hj
  rcases cases_of_split hsplit hi with ⟨-, hlt⟩ | rfl | ⟨-, hlt⟩
  · exact absurd (h ▸ hlt) (BitVec.lt_irrefl _)
  · rfl
  · exact absurd (h ▸ hlt) (BitVec.lt_irrefl _)

theorem nodup : (r.instructions.map FlowINS.address).Nodup := by
  rw [List.Nodup, List.pairwise_map]
  exact r.increasing.imp fun hlt he => absurd (he ▸ hlt) (BitVec.lt_irrefl _)

theorem first_notMem_rest (hi : i ∈ r.rest) : i ≠ r.firstIns := by
  rintro rfl
  exact absurd ((List.pairwise_cons.1 r.increasing).1 _ hi) (BitVec.lt_irrefl _)

theorem mem_rest_of_ne (hi : i ∈ r.instructions) (hne : i ≠ r.firstIns) : i ∈ r.rest :=
  (List.mem_cons.1 hi).resolve_left hne

/-- Consecutive instructions. -/
theorem next_of_split (h : r.instructions = pre ++ p :: ins :: post) :
    p.nextAddress = ins.address := by
  have hchain := r.contiguous
  change List.IsChain _ r.instructions at hchain
  rw [h, List.isChain_append_cons_cons] at hchain
  exact hchain.2.1

/-- The instruction at the next address is the next. -/
theorem split_of_next (hi : i ∈ r.instructions) (hj : j ∈ r.instructions)
    (h : i.nextAddress = j.address) : ∃ pre post, r.instructions = pre ++ i :: j :: post := by
  obtain ⟨pre, post, hsplit⟩ := List.append_of_mem hi
  have hlt : i.address < j.address := h ▸ r.forward i hi
  cases post with
  | nil =>
    rcases cases_of_split hsplit hj with ⟨-, hlt'⟩ | rfl | ⟨hj', -⟩
    · exact absurd (BitVec.lt_trans hlt hlt') (BitVec.lt_irrefl _)
    · exact absurd hlt (BitVec.lt_irrefl _)
    · cases hj'
  | cons k post =>
    have hk : k ∈ r.instructions := hsplit ▸ by simp
    obtain rfl : k = j := eq_of_address hk hj ((next_of_split hsplit).symm.trans h)
    exact ⟨pre, post, hsplit⟩

theorem targets_isEmpty : (r.maps.targets a).isEmpty = false ↔ r.Targeted a := by
  rw [List.isEmpty_eq_false_iff_exists_mem]
  constructor
  · rintro ⟨x, hx⟩
    obtain ⟨i, hi, -, hm⟩ := Maps.ofRoutine_targets.1 hx
    exact ⟨i, hi, hm⟩
  · rintro ⟨i, hi, hm⟩
    exact ⟨i.address, Maps.ofRoutine_targets.2 ⟨i, hi, rfl, hm⟩⟩

theorem branches_eq (hi : i ∈ r.instructions) : r.maps.branches i.address = i.branchSet :=
  Maps.ofRoutine_branches nodup hi

/-! ### Leaders -/

theorem leader_of_transfer (hp : p ∈ r.rest) (ht : p.kind.isTransfer)
    (h : p.nextAddress = ins.address) : r.Leader ins := .inr (.inr ⟨p, hp, ht, h⟩)

theorem InBlock.unique (ha : r.InBlock a i) (hb : r.InBlock b i) : a = b := by
  obtain ⟨⟨x, hx, rfl, hxl⟩, hxi, hxb⟩ := ha
  obtain ⟨⟨y, hy, rfl, hyl⟩, hyi, hyb⟩ := hb
  rcases BitVec.lt_trichotomy x.address y.address with hlt | he | hlt
  · exact absurd hyl (hxb y hy hlt hyi)
  · exact he
  · exact absurd hxl (hyb x hx hlt hxi)

theorem inBlock_self (hi : i ∈ r.instructions) (h : r.Leader i) : r.InBlock i.address i := by
  refine ⟨⟨i, hi, rfl, h⟩, BitVec.le_refl _, fun j _ hlt hle => ?_⟩
  rw [BitVec.lt_def] at hlt
  rw [BitVec.le_def] at hle
  omega

theorem InBlock.eq_of_leader (h : r.InBlock a i) (hi : i ∈ r.instructions) (hl : r.Leader i) :
    a = i.address := h.unique (inBlock_self hi hl)

theorem lt_of_mem_pre (h : r.instructions = pre ++ ins :: post) (hj : j ∈ pre) :
    j.address < ins.address := by
  have hinc := r.increasing
  change List.Pairwise _ r.instructions at hinc
  rw [h, List.pairwise_append] at hinc
  exact hinc.2.2 j hj ins List.mem_cons_self

/-- Nothing is between consecutive instructions. -/
theorem le_of_lt_next (h : r.instructions = pre ++ p :: ins :: post) (hj : j ∈ r.instructions)
    (hlt : j.address < ins.address) : j.address ≤ p.address := by
  have hsplit : r.instructions = (pre ++ [p]) ++ ins :: post := by simpa using h
  rcases cases_of_split hsplit hj with ⟨hmem, -⟩ | rfl | ⟨-, hgt⟩
  · rcases List.mem_append.1 hmem with hmem | hmem
    · exact BitVec.le_of_lt (lt_of_mem_pre h hmem)
    · rw [List.mem_singleton.1 hmem]
      exact BitVec.le_refl _
  · exact absurd hlt (BitVec.lt_irrefl _)
  · exact absurd (BitVec.lt_trans hlt hgt) (BitVec.lt_irrefl _)

/-- An instruction that is no leader is in the block of the one before. -/
theorem inBlock_next (h : r.instructions = pre ++ p :: ins :: post) (hl : ¬ r.Leader ins) :
    r.InBlock a ins ↔ r.InBlock a p := by
  have hp : p ∈ r.instructions := h ▸ by simp
  have hlt : p.address < ins.address := next_of_split h ▸ r.forward p hp
  have hle : ∀ j ∈ r.instructions, r.Leader j → j.address ≤ ins.address →
      j.address ≤ p.address := by
    intro j hj hjl hjle
    refine le_of_lt_next h hj ?_
    have hne : j.address ≠ ins.address := fun he => hl (eq_of_address hj (h ▸ by simp) he ▸ hjl)
    rw [BitVec.lt_def]
    rw [BitVec.le_def] at hjle
    have hne' : j.address.toNat ≠ ins.address.toNat := fun he => hne (BitVec.eq_of_toNat_eq he)
    omega
  constructor
  · rintro ⟨⟨x, hx, rfl, hxl⟩, hxle, hxb⟩
    refine ⟨⟨x, hx, rfl, hxl⟩, hle x hx hxl hxle, fun j hj hxj hjp => hxb j hj hxj ?_⟩
    rw [BitVec.le_def] at hjp ⊢
    rw [BitVec.lt_def] at hlt
    omega
  · rintro ⟨⟨x, hx, rfl, hxl⟩, hxle, hxb⟩
    refine ⟨⟨x, hx, rfl, hxl⟩, ?_, fun j hj hxj hjins hjl => hxb j hj hxj (hle j hj hjl hjins) hjl⟩
    rw [BitVec.le_def] at hxle ⊢
    rw [BitVec.lt_def] at hlt
    omega

end Routine

end Dytan
