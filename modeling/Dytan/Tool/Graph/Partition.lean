import Dytan.Tool.Graph.Listing

/-!
# Blocks as runs of instructions

The second pass goes once over the instructions. `Blocks.Closed` says that the blocks cut the
instructions seen into runs; while a run is being built it holds of the blocks with the run ended
(`Blocks.Open`). A turn of the loop keeps this (`Blocks.Current.buildIns`).

The loop starts at the second instruction: the first one is never looked for in `branches`, and
`addressMap` of the return block overwrites that of a first instruction at 2. So the blocks are runs
exactly if the second instruction begins a block anyway, or the first one is none of these
(`partitions_iff`).
-/

namespace Dytan

variable {w : Nat}

/-- Where the second pass allocates the block that begins at `a`. -/
def blockAt (a : ADDRINT w) : BlockPtr w := if a = 2 then .returnBlock else .block a

theorem blockAt_inRoutine (a : ADDRINT w) : (blockAt a).inRoutine := by
  unfold blockAt
  split_ifs
  · trivial
  · trivial

theorem blockAt_injective {a b : ADDRINT w} (h : blockAt a = blockAt b) : a = b := by
  unfold blockAt at h
  split_ifs at h with ha hb hb
  · rw [ha, hb]
  · exact BlockPtr.block.inj h

theorem blockAt_ne_block {a b : ADDRINT w} (h : a ≠ b) : blockAt a ≠ .block b := by
  unfold blockAt
  split_ifs
  · intro he
    cases he
  · exact fun he => h (BlockPtr.block.inj he)

namespace Listing

/-- The blocks partition the routine. -/
structure Partitions (r : Listing w) (g : Blocks w) : Prop where
  mapped : ∀ i ∈ r.instructions, ∃ B, g.addressMap i.address = some B ∧
    (g.heap B).startingAddress ≤ i.address ∧ i.address ≤ (g.heap B).endingAddress
  disjoint : ∀ i ∈ r.instructions, ∀ j ∈ r.instructions, ∀ A B,
    g.addressMap i.address = some A → g.addressMap j.address = some B → A ≠ B →
    ∀ a, (g.heap A).startingAddress ≤ a → a ≤ (g.heap A).endingAddress →
      (g.heap B).startingAddress ≤ a → ¬ a ≤ (g.heap B).endingAddress
  transferLast : ∀ i ∈ r.instructions, ∀ j ∈ r.instructions, i.kind.isTransfer →
    g.addressMap i.address = g.addressMap j.address → j.address ≤ i.address
  targetFirst : ∀ i ∈ r.instructions, ∀ j ∈ r.instructions, r.maps.targets j.address ≠ [] →
    g.addressMap i.address = g.addressMap j.address → j.address ≤ i.address

/-- The first pass enters something in `targets` at `a`. -/
def Targeted (r : Listing w) (a : ADDRINT w) : Prop := ∃ i ∈ r.instructions, i.Marks a

/-- The second instruction, if there is one, is a target; or the first is no transfer and not at the
address that stands for the return block. -/
def HeadRight (r : Listing w) : Prop :=
  ∀ second ∈ r.rest.head?, r.Targeted second.address ∨
    r.firstIns.kind.isTransfer = false ∧ r.firstIns.address ≠ 2

end Listing

namespace Blocks

variable {m : Maps w} {g g' : Blocks w} {i j p ins : FlowINS w} {seen : List (FlowINS w)}
  {a q next : ADDRINT w} {b c A B : BlockPtr w}

/-! ## Runs -/

/-- Of two instructions the second is later in the same run, or in a later one. -/
def Apart (m : Maps w) (g : Blocks w) (i j : FlowINS w) : Prop :=
  (i.kind.isTransfer = false ∧ m.targets j.address = [] ∧
    g.addressMap i.address = g.addressMap j.address) ∨
  ∃ A B, g.addressMap i.address = some A ∧ g.addressMap j.address = some B ∧
    (g.heap A).endingAddress < (g.heap B).startingAddress

/-- A block of an instruction seen: it is where the block of one of these is allocated. -/
structure Covers (g : Blocks w) (seen : List (FlowINS w)) (i : FlowINS w) (B : BlockPtr w) : Prop where
  mapped : g.addressMap i.address = some B
  allocated : ∃ j ∈ seen, B = blockAt j.address
  starting : (g.heap B).startingAddress ≤ i.address
  ending : i.address ≤ (g.heap B).endingAddress
  last : ∃ j ∈ seen, (g.heap B).endingAddress = j.address

/-- The addresses behind `last` have their own blocks or none. -/
def Fresh (g : Blocks w) (last : ADDRINT w) : Prop :=
  ∀ a, last < a → g.addressMap a = some (blockAt a) ∨ g.addressMap a = none ∧ a ≠ 2

/-- The blocks cut the instructions seen into runs. -/
structure Closed (m : Maps w) (seen : List (FlowINS w)) (g : Blocks w) : Prop where
  covers : ∀ i ∈ seen, ∃ B, g.Covers seen i B
  apart : seen.Pairwise (Apart m g)

/-- So they do when the block of the last instruction ends there. -/
structure Open (m : Maps w) (seen : List (FlowINS w)) (ins : FlowINS w) (g : Blocks w)
    (c : BlockPtr w) : Prop where
  closed : Closed m (seen ++ [ins]) (g.modify c (·.setEnding ins.address))
  mapped : g.addressMap ins.address = some c

/-- Nothing changes for the instructions seen. -/
structure Same (g g' : Blocks w) (seen : List (FlowINS w)) : Prop where
  addressMap : ∀ i ∈ seen, g'.addressMap i.address = g.addressMap i.address
  starting : ∀ i ∈ seen, (g'.heap (blockAt i.address)).startingAddress =
    (g.heap (blockAt i.address)).startingAddress
  ending : ∀ i ∈ seen, (g'.heap (blockAt i.address)).endingAddress =
    (g.heap (blockAt i.address)).endingAddress

theorem Covers.same (h : g.Covers seen i B) (hi : i ∈ seen) (hs : Same g g' seen) :
    g'.Covers seen i B := by
  obtain ⟨j, hj, rfl⟩ := h.allocated
  obtain ⟨k, hk, he⟩ := h.last
  refine ⟨(hs.addressMap i hi).trans h.mapped, ⟨j, hj, rfl⟩, ?_, ?_, k, hk, ?_⟩
  · rw [hs.starting j hj]
    exact h.starting
  · rw [hs.ending j hj]
    exact h.ending
  · rw [hs.ending j hj]
    exact he

theorem Closed.same (h : Closed m seen g) (hs : Same g g' seen) : Closed m seen g' where
  covers i hi := by
    obtain ⟨B, hB⟩ := h.covers i hi
    exact ⟨B, hB.same hi hs⟩
  apart := by
    refine h.apart.imp_of_mem fun {i j} hi hj hij => ?_
    rcases hij with ⟨ht, hu, he⟩ | ⟨A, B, hA, hB, hlt⟩
    · exact .inl ⟨ht, hu, by rw [hs.addressMap i hi, hs.addressMap j hj, he]⟩
    · obtain ⟨A', hA'⟩ := h.covers i hi
      obtain ⟨B', hB'⟩ := h.covers j hj
      obtain rfl : A' = A := Option.some.inj (hA'.mapped.symm.trans hA)
      obtain rfl : B' = B := Option.some.inj (hB'.mapped.symm.trans hB)
      obtain ⟨k, hk, rfl⟩ := hA'.allocated
      obtain ⟨l, hl, rfl⟩ := hB'.allocated
      refine .inr ⟨_, _, (hs.addressMap i hi).trans hA, (hs.addressMap j hj).trans hB, ?_⟩
      rw [hs.ending k hk, hs.starting l hl]
      exact hlt

theorem Covers.more (h : g.Covers seen i B) : g.Covers (seen ++ [ins]) i B := by
  obtain ⟨j, hj, hB⟩ := h.allocated
  obtain ⟨k, hk, he⟩ := h.last
  exact ⟨h.mapped, ⟨j, List.mem_append_left _ hj, hB⟩, h.starting, h.ending, k,
    List.mem_append_left _ hk, he⟩

/-- Extents off the routine do not count. -/
theorem Same.grows {N : BlockPtr w → Prop} (hg : Grows g g' N) (hN : ∀ B, N B → ¬ B.inRoutine)
    (h : Closed m seen g) : Same g g' seen where
  addressMap i hi := by
    obtain ⟨B, hB⟩ := h.covers i hi
    rw [hg.mapped hB.mapped, hB.mapped]
  starting i _ := hg.starting _ fun hn => hN _ hn (blockAt_inRoutine _)
  ending i _ := hg.ending _ fun hn => hN _ hn (blockAt_inRoutine _)

theorem Closed.grows {N : BlockPtr w → Prop} (h : Closed m seen g) (hg : Grows g g' N)
    (hN : ∀ B, N B → ¬ B.inRoutine) : Closed m seen g' :=
  h.same (.grows hg hN h)

theorem Fresh.grows {N : BlockPtr w → Prop} {last : ADDRINT w} (h : g.Fresh last)
    (hg : Grows g g' N) : g'.Fresh last := by
  intro a ha
  rcases h a ha with he | ⟨hn, h2⟩
  · exact .inl (hg.mapped he)
  · rcases hg.addressMap a with he | ⟨-, he⟩
    · exact .inr ⟨he.trans hn, h2⟩
    · refine .inl ?_
      rw [he, blockAt, if_neg h2]

theorem Fresh.modify {f : BasicBlock (BlockPtr w) w → BasicBlock (BlockPtr w) w}
    {last : ADDRINT w} (h : g.Fresh last) : (g.modify B f).Fresh last := h

theorem Fresh.getBasicBlockAt {last : ADDRINT w} (h : g.Fresh last) (ha : last < a)
    (hg : g.getBasicBlockAt a = (b, g')) : b = blockAt a := by
  unfold Blocks.getBasicBlockAt at hg
  rcases h a ha with he | ⟨hn, h2⟩
  · rw [he] at hg
    cases hg
    rfl
  · rw [hn] at hg
    cases hg
    rw [blockAt, if_neg h2]

/-! ## What a turn of the loop does to the runs -/

/-- The next instruction begins a run. -/
theorem Closed.start (h : Closed m seen g) (hlt : ∀ i ∈ seen, i.address < ins.address)
    (hmap : g.addressMap ins.address = some (blockAt ins.address)) :
    Open m seen ins (g.modify (blockAt ins.address) (·.setStarting ins.address))
      (blockAt ins.address) := by
  have hne : ∀ i ∈ seen, blockAt i.address ≠ blockAt ins.address := fun i hi he =>
    BitVec.lt_irrefl _ (blockAt_injective he ▸ hlt i hi)
  let g' := (g.modify (blockAt ins.address) (·.setStarting ins.address)).modify
    (blockAt ins.address) (·.setEnding ins.address)
  have hstart : (g'.heap (blockAt ins.address)).startingAddress = ins.address := by
    simp only [g', heap_modify, Heap.modify_same]
    rfl
  have hend : (g'.heap (blockAt ins.address)).endingAddress = ins.address := by
    simp only [g', heap_modify, Heap.modify_same]
    rfl
  have hsame : Same g g' seen := by
    refine ⟨fun _ _ => rfl, fun i hi => ?_, fun i hi => ?_⟩
    · simp only [g', heap_modify]
      rw [Heap.modify_of_ne _ _ (hne i hi), Heap.modify_of_ne _ _ (hne i hi)]
    · simp only [g', heap_modify]
      rw [Heap.modify_of_ne _ _ (hne i hi), Heap.modify_of_ne _ _ (hne i hi)]
  have hseen := h.same hsame
  refine ⟨⟨fun i hi => ?_, List.pairwise_append.2 ⟨hseen.apart, List.pairwise_singleton .., ?_⟩⟩, hmap⟩
  · rcases List.mem_append.1 hi with hi | hi
    · obtain ⟨B, hB⟩ := hseen.covers i hi
      exact ⟨B, hB.more⟩
    · obtain rfl := List.mem_singleton.1 hi
      exact ⟨_, hmap, ⟨i, by simp, rfl⟩, BitVec.le_of_eq hstart, BitVec.le_of_eq hend.symm, i,
        by simp, hend⟩
  · intro i hi j hj
    obtain rfl := List.mem_singleton.1 hj
    obtain ⟨A, hA⟩ := hseen.covers i hi
    obtain ⟨k, hk, he⟩ := hA.last
    refine .inr ⟨A, _, hA.mapped, hmap, ?_⟩
    rw [he, hstart]
    exact hlt k hk

/-- The run goes on with the next instruction. -/
theorem Open.goOn (h : Open m seen p g c) (hle : ∀ i ∈ seen ++ [p], i.address ≤ p.address)
    (hlt : ∀ i ∈ seen ++ [p], i.address < ins.address) (hp : p.kind.isTransfer = false)
    (hu : m.targets ins.address = []) :
    Open m (seen ++ [p]) ins (g.setAddress ins.address c) c := by
  let g₁ := g.modify c (·.setEnding p.address)
  let g₂ := (g.setAddress ins.address c).modify c (·.setEnding ins.address)
  have hlast : p ∈ seen ++ [p] := by simp
  have hmap : ∀ i ∈ seen ++ [p], g₂.addressMap i.address = g₁.addressMap i.address := fun i hi =>
    Function.update_of_ne (fun he => BitVec.lt_irrefl _ (he ▸ hlt i hi)) ..
  have hins : g₂.addressMap ins.address = some c := Function.update_self ..
  have hstart : ∀ B, (g₂.heap B).startingAddress = (g₁.heap B).startingAddress := by
    intro B
    simp only [g₁, g₂, heap_modify]
    rw [Heap.modify_field BasicBlock.startingAddress (by intro _; rfl),
      Heap.modify_field BasicBlock.startingAddress (by intro _; rfl)]
    rfl
  have hend : ∀ B, B ≠ c → (g₂.heap B).endingAddress = (g₁.heap B).endingAddress := by
    intro B hB
    simp only [g₁, g₂, heap_modify]
    rw [Heap.modify_of_ne _ _ hB, Heap.modify_of_ne _ _ hB]
    rfl
  have hend₁ : (g₁.heap c).endingAddress = p.address := by
    simp only [g₁, heap_modify, Heap.modify_same]
    rfl
  have hend₂ : (g₂.heap c).endingAddress = ins.address := by
    simp only [g₂, heap_modify, Heap.modify_same]
    rfl
  have hc : g₁.Covers (seen ++ [p]) p c := by
    obtain ⟨B, hB⟩ := h.closed.covers p hlast
    obtain rfl : B = c := Option.some.inj (hB.mapped.symm.trans h.mapped)
    exact hB
  -- the run that goes on is the last one
  have hne : ∀ j ∈ seen ++ [p], ∀ A B, g₁.addressMap j.address = some B →
      (g₁.heap A).endingAddress < (g₁.heap B).startingAddress → A ≠ c := by
    rintro j hj A B hB hlt rfl
    obtain ⟨B', hB'⟩ := h.closed.covers j hj
    obtain rfl : B' = B := Option.some.inj (hB'.mapped.symm.trans hB)
    have hstarting : (g₁.heap B').startingAddress ≤ j.address := hB'.starting
    have hjp := hle j hj
    rw [hend₁] at hlt
    rw [BitVec.lt_def] at hlt
    rw [BitVec.le_def] at hstarting hjp
    omega
  refine ⟨⟨fun i hi => ?_, List.pairwise_append.2 ⟨?_, List.pairwise_singleton .., ?_⟩⟩, hins⟩
  · rcases List.mem_append.1 hi with hi | hi
    · obtain ⟨B, hB⟩ := h.closed.covers i hi
      have hle : i.address ≤ ins.address := BitVec.le_of_lt (hlt i hi)
      obtain ⟨j, hj, hBj⟩ := hB.allocated
      obtain ⟨k, hk, he⟩ := hB.last
      refine ⟨B, (hmap i hi).trans hB.mapped, ⟨j, List.mem_append_left _ hj, hBj⟩,
        (hstart B).symm ▸ hB.starting, ?_, ?_⟩
      · by_cases hBc : B = c
        · subst hBc
          exact BitVec.le_trans hle (BitVec.le_of_eq hend₂.symm)
        · exact (hend B hBc).symm ▸ hB.ending
      · by_cases hBc : B = c
        · subst hBc
          exact ⟨ins, by simp, hend₂⟩
        · exact ⟨k, List.mem_append_left _ hk, (hend B hBc).trans he⟩
    · obtain rfl := List.mem_singleton.1 hi
      obtain ⟨j, hj, hBj⟩ := hc.allocated
      refine ⟨c, hins, ⟨j, List.mem_append_left _ hj, hBj⟩, ?_, BitVec.le_of_eq hend₂.symm, i,
        by simp, hend₂⟩
      exact BitVec.le_trans ((hstart c).symm ▸ hc.starting) (BitVec.le_of_lt (hlt p hlast))
  · refine h.closed.apart.imp_of_mem fun {i j} hi hj hij => ?_
    rcases hij with ⟨ht, hu, he⟩ | ⟨A, B, hA, hB, hAB⟩
    · exact .inl ⟨ht, hu, by rw [hmap i hi, hmap j hj, he]⟩
    · refine .inr ⟨A, B, (hmap i hi).trans hA, (hmap j hj).trans hB, ?_⟩
      rw [hstart, hend A (hne j hj A B hB hAB)]
      exact hAB
  · intro i hi j hj
    obtain rfl := List.mem_singleton.1 hj
    have hmapc : g₁.addressMap p.address = some c := h.mapped
    rcases List.mem_append.1 hi with hseen | hi'
    · rcases (List.pairwise_append.1 h.closed.apart).2.2 i hseen p (by simp) with
        ⟨ht, -, he⟩ | ⟨A, B, hA, hB, hAB⟩
      · exact .inl ⟨ht, hu, by rw [hmap i hi, hins, he, hmapc]⟩
      · obtain rfl : c = B := Option.some.inj (hmapc.symm.trans hB)
        refine .inr ⟨A, c, (hmap i hi).trans hA, hins, ?_⟩
        rw [hstart, hend A (hne p hlast A c hB hAB)]
        exact hAB
    · obtain rfl := List.mem_singleton.1 hi'
      exact .inl ⟨hp, hu, by rw [hmap i hi, hins, hmapc]⟩

/-- A transfer ends the run. -/
theorem Open.transfer (h : Open m seen ins g c)
    (hg : g.branchIns m.branches ins.address next c = some g') : Closed m (seen ++ [ins]) g' := by
  have hsame : (g.modify c (·.setEnding ins.address)).setAddress ins.address c =
      g.modify c (·.setEnding ins.address) := by
    have hupdate : Function.update g.addressMap ins.address (some c) = g.addressMap :=
      Function.update_eq_self_iff.2 h.mapped.symm
    simp only [Blocks.setAddress, Blocks.modify, hupdate]
  have hgrows := branchIns_grows hg
  rw [hsame] at hgrows
  refine h.closed.grows hgrows fun B hB => ?_
  rcases hB with rfl | rfl
  · exact id
  · exact id

/-- The run before is ended, and a target begins the next one. -/
theorem Closed.opened {last : ADDRINT w} (h : Closed m seen (g.modify c (·.setEnding q)))
    (hfresh : g.Fresh last) (hlast : last < ins.address)
    (hlt : ∀ i ∈ seen, i.address < ins.address) (ht : (m.targets ins.address).isEmpty = false) :
    Open m seen ins (g.opened m q ins.address (some c)).2
      (g.opened m q ins.address (some c)).1 := by
  rcases hg : (g.modify c (·.setEnding q)).getBasicBlockAt ins.address with ⟨b, g₁⟩
  obtain ⟨hgrows, hmap⟩ := Grows.getBasicBlockAt (N := fun _ => False) hg
  obtain rfl : b = blockAt ins.address := hfresh.modify.getBasicBlockAt hlast hg
  simp only [Blocks.opened, ht, if_true, hg]
  refine Closed.start (h.grows (N := fun _ => False) ?_ fun _ => False.elim) hlt hmap
  exact (hgrows.trans .insertSuccs).trans .insertPreds

/-- `last` has been dealt with: what the loop has built, and its current block. -/
structure Current (m : Maps w) (seen : List (FlowINS w)) (last : FlowINS w) (g : Blocks w)
    (currentBlock : Option (BlockPtr w)) : Prop where
  fresh : g.Fresh last.address
  closed : currentBlock = none → Closed m (seen ++ [last]) g
  current : ∀ c ∈ currentBlock, Open m seen last g c ∧ last.kind.isTransfer = false

theorem Fresh.opened {last : ADDRINT w} (h : g.Fresh last) (hlt : last < a)
    (currentBlock : Option (BlockPtr w)) : (g.opened m q a currentBlock).2.Fresh a := by
  have hweak : g.Fresh a := fun x hx => h x (BitVec.lt_trans hlt hx)
  cases currentBlock with
  | none =>
    rcases hg : g.getBasicBlockAt a with ⟨b, g₁⟩
    simp only [Blocks.opened, hg]
    exact (hweak.grows (N := fun _ => False) (Grows.getBasicBlockAt hg).1).modify
  | some c =>
    by_cases ht : (m.targets a).isEmpty = false
    · rcases hg : (g.modify c (·.setEnding q)).getBasicBlockAt a with ⟨b, g₁⟩
      simp only [Blocks.opened, ht, if_true, hg]
      have hfresh : g₁.Fresh a :=
        hweak.modify.grows (N := fun _ => False) (Grows.getBasicBlockAt hg).1
      exact hfresh
    · simp only [Blocks.opened, if_neg ht]
      intro x hx
      have hne : x ≠ a := fun he => BitVec.lt_irrefl _ (he ▸ hx)
      rcases hweak x hx with he | ⟨hn, h2⟩
      · exact .inl ((Function.update_of_ne hne ..).trans he)
      · exact .inr ⟨(Function.update_of_ne hne ..).trans hn, h2⟩

/-- The next instruction is put in its run. -/
theorem Current.opened {currentBlock : Option (BlockPtr w)} (h : Current m seen p g currentBlock)
    (hle : ∀ i ∈ seen ++ [p], i.address ≤ p.address) (hlt : p.address < ins.address) :
    Open m (seen ++ [p]) ins (g.opened m p.address ins.address currentBlock).2
      (g.opened m p.address ins.address currentBlock).1 := by
  have hbefore : ∀ i ∈ seen ++ [p], i.address < ins.address := by
    intro i hi
    have hip := hle i hi
    bv_omega
  cases currentBlock with
  | none =>
    rcases hg : g.getBasicBlockAt ins.address with ⟨b, g₁⟩
    obtain ⟨hgrows, hmap⟩ := Grows.getBasicBlockAt (N := fun _ => False) hg
    obtain rfl := h.fresh.getBasicBlockAt hlt hg
    simp only [Blocks.opened, hg]
    exact Closed.start ((h.closed rfl).grows hgrows fun _ => False.elim) hbefore hmap
  | some c =>
    obtain ⟨hopen, hp⟩ := h.current c rfl
    by_cases ht : (m.targets ins.address).isEmpty = false
    · exact hopen.closed.opened h.fresh hlt hbefore ht
    · have hu : m.targets ins.address = [] := by simpa using ht
      simp only [Blocks.opened, if_neg ht]
      exact hopen.goOn hle hbefore hp hu

/-- The instruction has been put in its run. -/
theorem Open.buildIns {last : ADDRINT w} {currentBlock currentBlock' : Option (BlockPtr w)}
    (h : Open m seen ins (g.opened m last ins.address currentBlock).2
      (g.opened m last ins.address currentBlock).1)
    (hfresh : (g.opened m last ins.address currentBlock).2.Fresh ins.address)
    (hm : m.branches ins.address = [] ↔ ins.kind.isTransfer = false)
    (hg : g.buildIns m last ins.address next currentBlock = some (currentBlock', g')) :
    Current m seen ins g' currentBlock' := by
  rw [buildIns_eq] at hg
  split_ifs at hg with hb
  · cases hg
    refine ⟨hfresh, fun hn => ?_, fun c hc => ?_⟩
    · cases hn
    · cases hc
      exact ⟨h, hm.1 hb⟩
  · obtain ⟨g₁, hbranch, he⟩ := Option.bind_eq_some_iff.1 hg
    cases he
    refine ⟨?_, fun _ => h.transfer hbranch, fun c hc => ?_⟩
    · refine Fresh.grows (fun a ha => ?_) (branchIns_grows hbranch)
      have hne : a ≠ ins.address := fun he => BitVec.lt_irrefl _ (he ▸ ha)
      rcases hfresh a ha with he | ⟨hn, h2⟩
      · exact .inl ((Function.update_of_ne hne ..).trans he)
      · exact .inr ⟨(Function.update_of_ne hne ..).trans hn, h2⟩
    · cases hc

/-- A turn of the loop. -/
theorem Current.buildIns {currentBlock currentBlock' : Option (BlockPtr w)}
    (h : Current m seen p g currentBlock) (hle : ∀ i ∈ seen ++ [p], i.address ≤ p.address)
    (hlt : p.address < ins.address) (hm : m.branches ins.address = [] ↔ ins.kind.isTransfer = false)
    (hg : g.buildIns m p.address ins.address next currentBlock = some (currentBlock', g')) :
    Current m (seen ++ [p]) ins g' currentBlock' :=
  (h.opened hle hlt).buildIns (h.fresh.opened hlt currentBlock) hm hg

/-! ## What a turn of the loop keeps -/

/-- Nothing changes but for the instructions at the addresses in `D`. -/
structure Keeps (g g' : Blocks w) (D : ADDRINT w → Prop) : Prop where
  mapped : ∀ a, ¬ D a → ∀ B, g.addressMap a = some B → g'.addressMap a = some B
  starting : ∀ B, B.inRoutine → (∀ a, D a → B ≠ blockAt a) →
    (g'.heap B).startingAddress = (g.heap B).startingAddress

variable {D D' : ADDRINT w → Prop} {g'' : Blocks w}

theorem Keeps.refl : Keeps g g D := ⟨fun _ _ _ h => h, fun _ _ _ => rfl⟩

theorem Keeps.trans (h : Keeps g g' D) (h' : Keeps g' g'' D) : Keeps g g'' D :=
  ⟨fun a ha B hB => h'.mapped a ha B (h.mapped a ha B hB),
    fun B hB hne => (h'.starting B hB hne).trans (h.starting B hB hne)⟩

theorem Keeps.mono (h : Keeps g g' D) (hD : ∀ a, D a → D' a) : Keeps g g' D' :=
  ⟨fun a ha B hB => h.mapped a (fun hd => ha (hD a hd)) B hB,
    fun B hB hne => h.starting B hB fun a ha => hne a (hD a ha)⟩

theorem Keeps.grows {N : BlockPtr w → Prop} (h : Grows g g' N) (hN : ∀ B, N B → ¬ B.inRoutine) :
    Keeps g g' D :=
  ⟨fun _ _ _ hB => h.mapped hB, fun B hB _ => h.starting B fun hn => hN B hn hB⟩

theorem Keeps.of_field {f : BasicBlock (BlockPtr w) w → BasicBlock (BlockPtr w) w}
    (hf : ∀ b, (f b).startingAddress = b.startingAddress) : Keeps g (g.modify B f) D :=
  ⟨fun _ _ _ h => h, fun _ _ _ => Heap.modify_field BasicBlock.startingAddress hf _ _ _⟩

theorem Keeps.setStarting (ha : D a) :
    Keeps g (g.modify (blockAt a) (·.setStarting a)) D :=
  ⟨fun _ _ _ h => h, fun B _ hne => by rw [heap_modify, Heap.modify_of_ne _ _ (hne a ha)]⟩

theorem Keeps.setAddress (ha : D a) : Keeps g (g.setAddress a c) D :=
  ⟨fun x hx B hB => (Function.update_of_ne (by rintro rfl; exact hx ha) ..).trans hB,
    fun _ _ _ => rfl⟩

theorem Keeps.opened {last : ADDRINT w} (h : g.Fresh last) (hlt : last < a) (ha : D a)
    (currentBlock : Option (BlockPtr w)) : Keeps g (g.opened m q a currentBlock).2 D := by
  cases currentBlock with
  | none =>
    rcases hg : g.getBasicBlockAt a with ⟨b, g₁⟩
    obtain rfl := h.getBasicBlockAt hlt hg
    simp only [Blocks.opened, hg]
    exact (Keeps.grows (N := fun _ => False) (Grows.getBasicBlockAt hg).1 fun _ => False.elim).trans
      (.setStarting ha)
  | some c =>
    by_cases ht : (m.targets a).isEmpty = false
    · rcases hg : (g.modify c (·.setEnding q)).getBasicBlockAt a with ⟨b, g₁⟩
      obtain rfl := h.modify.getBasicBlockAt hlt hg
      simp only [Blocks.opened, ht, if_true, hg]
      have hgrows := ((Grows.getBasicBlockAt (N := fun _ => False) hg).1.trans
        (.insertSuccs (B := c) (b := blockAt a))).trans (.insertPreds (B := blockAt a) (b := c))
      exact ((Keeps.of_field (by intro _; rfl)).trans (.grows hgrows fun _ => False.elim)).trans
        (.setStarting ha)
    · simp only [Blocks.opened, if_neg ht]
      exact .setAddress ha

/-- The instructions up to `last` have been dealt with, and there is a return block. -/
structure Ready (g : Blocks w) (last : ADDRINT w) : Prop where
  fresh : g.Fresh last
  returnBlock : g.addressMap 2 ≠ none

theorem mapped_opened (currentBlock : Option (BlockPtr w)) :
    (g.opened m q a currentBlock).2.addressMap a = some (g.opened m q a currentBlock).1 := by
  cases currentBlock with
  | none =>
    rcases hg : g.getBasicBlockAt a with ⟨b, g₁⟩
    simp only [Blocks.opened, hg]
    exact (Grows.getBasicBlockAt (N := fun _ => False) hg).2
  | some c =>
    by_cases ht : (m.targets a).isEmpty = false
    · rcases hg : (g.modify c (·.setEnding q)).getBasicBlockAt a with ⟨b, g₁⟩
      simp only [Blocks.opened, ht, if_true, hg]
      exact (Grows.getBasicBlockAt (N := fun _ => False) hg).2
    · simp only [Blocks.opened, if_neg ht]
      exact Function.update_self ..

/-- A turn of the loop ends. -/
theorem Ready.buildIns {last : ADDRINT w} (h : g.Ready last) (hlt : last < a) (next : ADDRINT w)
    (currentBlock : Option (BlockPtr w)) :
    ∃ currentBlock' g', g.buildIns m last a next currentBlock = some (currentBlock', g') ∧
      Keeps g g' (· = a) ∧ g'.Ready a ∧
      g'.addressMap a = some (g.opened m last a currentBlock).1 := by
  have hfresh := h.fresh.opened (m := m) (q := last) hlt currentBlock
  have hkeeps := Keeps.opened (m := m) (q := last) (D := (· = a)) h.fresh hlt rfl currentBlock
  have hmap := mapped_opened (g := g) (a := a) (m := m) (q := last) currentBlock
  rw [buildIns_eq]
  generalize g.opened m last a currentBlock = o at hfresh hkeeps hmap ⊢
  have h2 : o.2.addressMap 2 ≠ none := by
    by_cases ha : 2 = a
    · rw [ha, hmap]
      exact Option.some_ne_none _
    · obtain ⟨B, hB⟩ := Option.ne_none_iff_exists'.1 h.returnBlock
      rw [hkeeps.mapped 2 ha B hB]
      exact Option.some_ne_none _
  split_ifs with hb
  · exact ⟨_, _, rfl, hkeeps, ⟨hfresh, h2⟩, hmap⟩
  · obtain ⟨g', hg'⟩ := exists_branchIns next o.1 hb h2
    have hout : ∀ B, OutsideAt a B → ¬ B.inRoutine := by
      rintro B (rfl | rfl)
      · exact id
      · exact id
    have hgrows := branchIns_grows hg'
    have hsame : ((o.2.modify o.1 (·.setEnding a)).setAddress a o.1).addressMap = o.2.addressMap :=
      Function.update_eq_self_iff.2 hmap.symm
    have hend : Keeps o.2 ((o.2.modify o.1 (·.setEnding a)).setAddress a o.1) (· = a) :=
      (Keeps.of_field (by intro _; rfl)).trans (.setAddress rfl)
    refine ⟨none, g', by rw [hg']; rfl, hkeeps.trans (hend.trans (.grows hgrows hout)), ⟨?_, ?_⟩,
      hgrows.mapped (hsame ▸ hmap)⟩
    · refine Fresh.grows (fun x hx => ?_) hgrows
      rw [hsame]
      exact hfresh x hx
    · obtain ⟨B, hB⟩ := Option.ne_none_iff_exists'.1 h2
      rw [hgrows.mapped (hsame ▸ hB)]
      exact Option.some_ne_none _

/-! ## The loop -/

theorem Ready.buildLoop {last : ADDRINT w} {post : List (FlowINS w)} (h : g.Ready last)
    (invalid : ADDRINT w) (currentBlock : Option (BlockPtr w))
    (hpost : post.Pairwise fun i j => i.address < j.address) (hlt : ∀ i ∈ post, last < i.address) :
    ∃ g', g.buildLoop m invalid last currentBlock post = some g' ∧ Keeps g g' (last < ·) := by
  induction post generalizing g last currentBlock with
  | nil =>
    cases currentBlock with
    | none => exact ⟨g, rfl, .refl⟩
    | some c => exact ⟨_, rfl, .of_field (by intro _; rfl)⟩
  | cons ins post ih =>
    have hins := hlt ins List.mem_cons_self
    obtain ⟨currentBlock', g₁, hg₁, hkeeps, hready, -⟩ :=
      h.buildIns (m := m) hins (headAddress invalid post) currentBlock
    obtain ⟨hhead, htail⟩ := List.pairwise_cons.1 hpost
    obtain ⟨g', hg', hkeeps'⟩ := ih hready currentBlock' htail hhead
    refine ⟨g', ?_, (hkeeps.mono ?_).trans (hkeeps'.mono fun a ha => BitVec.lt_trans hins ha)⟩
    · rw [Blocks.buildLoop, hg₁]
      exact hg'
    · rintro a rfl
      exact hins

theorem Current.buildLoop {invalid : ADDRINT w} {post : List (FlowINS w)}
    {currentBlock : Option (BlockPtr w)} (h : Current m seen p g currentBlock)
    (hsorted : (seen ++ [p] ++ post).Pairwise fun i j => i.address < j.address)
    (hm : ∀ i ∈ post, m.branches i.address = [] ↔ i.kind.isTransfer = false)
    (hg : g.buildLoop m invalid p.address currentBlock post = some g') :
    Closed m (seen ++ [p] ++ post) g' := by
  induction post generalizing seen p g currentBlock with
  | nil =>
    rw [List.append_nil]
    cases currentBlock with
    | none =>
      cases hg
      exact h.closed rfl
    | some c =>
      cases hg
      exact (h.current c rfl).1.closed
  | cons ins post ih =>
    rw [Blocks.buildLoop] at hg
    obtain ⟨⟨currentBlock', g₁⟩, hg₁, hg⟩ := Option.bind_eq_some_iff.1 hg
    obtain ⟨hseen, -, hbefore⟩ := List.pairwise_append.1 hsorted
    have hle : ∀ i ∈ seen ++ [p], i.address ≤ p.address := by
      intro i hi
      rcases List.mem_append.1 hi with hi | hi
      · exact BitVec.le_of_lt ((List.pairwise_append.1 hseen).2.2 i hi p (by simp))
      · rw [List.mem_singleton.1 hi]
        exact BitVec.le_refl _
    have hcurrent := h.buildIns hle (hbefore p (by simp) ins List.mem_cons_self)
      (hm ins List.mem_cons_self) hg₁
    have hclosed := ih hcurrent (by simpa using hsorted) (fun i hi => hm i (List.mem_cons_of_mem _ hi)) hg
    simpa using hclosed

/-- The entrance block and the return block. -/
def initial (f : ADDRINT w) : Blocks w :=
  let g : Blocks w := ⟨fun _ => .new, Function.update (fun _ => none) f (some (.block f))⟩
  let g := (g.modify (.block f) (·.setStarting f)).setAddress f (.block f)
  (g.modify .returnBlock fun block => (block.setStarting 2).setEnding 2).setAddress 2 .returnBlock

theorem initial_addressMap (f : ADDRINT w) : (initial f).addressMap =
    Function.update (Function.update (fun _ => none) f (some (.block f))) 2 (some .returnBlock) := by
  simp [initial, Blocks.setAddress, Blocks.modify]

theorem initial_first (f : ADDRINT w) : (initial f).addressMap f = some (blockAt f) := by
  rw [initial_addressMap, blockAt]
  split_ifs with hf
  · rw [hf, Function.update_self]
  · rw [Function.update_of_ne hf, Function.update_self]

theorem initial_start (f : ADDRINT w) :
    ((initial f).heap (.block f)).startingAddress = f := by
  simp [initial, Blocks.setAddress, Heap.modify_of_ne, Heap.modify_same, BasicBlock.setStarting]

theorem initial_ready (f : ADDRINT w) : (initial f).Ready f := by
  refine ⟨fun a ha => ?_, ?_⟩
  · rw [initial_addressMap]
    have hne : a ≠ f := fun he => BitVec.lt_irrefl _ (he ▸ ha)
    by_cases h2 : a = 2
    · rw [h2, Function.update_self, blockAt, if_pos rfl]
      exact .inl rfl
    · rw [Function.update_of_ne h2, Function.update_of_ne hne]
      exact .inr ⟨rfl, h2⟩
  · rw [initial_addressMap, Function.update_self]
    exact Option.some_ne_none _

/-- The first instruction alone is a run. -/
theorem initial_closed (m : Maps w) (first : FlowINS w) :
    Closed m [first] ((initial first.address).modify (.block first.address)
      (·.setEnding first.address)) := by
  refine ⟨fun i hi => ?_, List.pairwise_singleton ..⟩
  obtain rfl := List.mem_singleton.1 hi
  have hextent : ((((initial i.address).modify (.block i.address) (·.setEnding i.address)).heap
        (blockAt i.address)).startingAddress = i.address) ∧
      (((initial i.address).modify (.block i.address) (·.setEnding i.address)).heap
        (blockAt i.address)).endingAddress = i.address := by
    unfold blockAt
    split_ifs with hf
    · simp [initial, Blocks.setAddress, Heap.modify_of_ne, Heap.modify_same, BasicBlock.setStarting,
        BasicBlock.setEnding, hf]
    · simp [initial, Blocks.setAddress, Heap.modify_of_ne, Heap.modify_same, BasicBlock.setStarting,
        BasicBlock.setEnding]
  exact ⟨blockAt i.address, initial_first _, ⟨i, hi, rfl⟩, BitVec.le_of_eq hextent.1,
    BitVec.le_of_eq hextent.2.symm, i, hi, hextent.2⟩

end Blocks

namespace Listing

variable {r : Listing w} {g : Blocks w} {i j : FlowINS w}

theorem nodup (r : Listing w) : (r.instructions.map FlowINS.address).Nodup := by
  refine List.pairwise_map.2 (r.increasing.imp fun {i j} hlt he => ?_)
  rw [he] at hlt
  exact BitVec.lt_irrefl _ hlt

/-- What holds of every two instructions in order holds of those at increasing addresses. -/
theorem of_pairwise {R : FlowINS w → FlowINS w → Prop} (h : r.instructions.Pairwise R)
    (hi : i ∈ r.instructions) (hj : j ∈ r.instructions) (hlt : i.address < j.address) : R i j := by
  obtain ⟨pre, post, hsplit⟩ := List.append_of_mem hi
  have hincreasing : (pre ++ i :: post).Pairwise fun i j => i.address < j.address :=
    hsplit ▸ r.increasing
  rw [hsplit] at h hj
  rcases List.mem_append.1 hj with hj | hj
  · have hgt := (List.pairwise_append.1 hincreasing).2.2 j hj i List.mem_cons_self
    exact absurd (BitVec.lt_trans hlt hgt) (BitVec.lt_irrefl _)
  · rcases List.mem_cons.1 hj with rfl | hj
    · exact absurd hlt (BitVec.lt_irrefl _)
    · exact (List.pairwise_cons.1 (List.pairwise_append.1 h).2.1).1 j hj

theorem branches_eq_nil (hi : i ∈ r.instructions) :
    r.maps.branches i.address = [] ↔ i.kind.isTransfer = false := by
  rw [maps, Maps.ofRoutine_branches r.nodup hi, Scan.branchSet_eq_nil]

theorem targets_isEmpty {a : ADDRINT w} : (r.maps.targets a).isEmpty = false ↔ r.Targeted a := by
  rw [List.isEmpty_eq_false_iff_exists_mem]
  constructor
  · rintro ⟨x, hx⟩
    obtain ⟨i, hi, -, hm⟩ := Maps.ofRoutine_targets.1 hx
    exact ⟨i, hi, hm⟩
  · rintro ⟨i, hi, hm⟩
    exact ⟨i.address, Maps.ofRoutine_targets.2 ⟨i, hi, rfl, hm⟩⟩

theorem blocks_eq (r : Listing w) : r.blocks =
    (Blocks.initial r.firstIns.address).buildLoop r.maps r.invalid r.firstIns.address
      (some (.block r.firstIns.address)) r.rest := rfl

/-- Runs partition the routine. -/
theorem partitions_of_closed (h : Blocks.Closed r.maps r.instructions g) : r.Partitions g := by
  have hlater : ∀ i ∈ r.instructions, ∀ j ∈ r.instructions,
      g.addressMap i.address = g.addressMap j.address → ¬ j.address ≤ i.address →
      i.kind.isTransfer = false ∧ r.maps.targets j.address = [] := by
    intro i hi j hj he hle
    rcases of_pairwise h.apart hi hj (BitVec.not_le.1 hle) with ⟨ht, hu, -⟩ | ⟨A, B, hA, hB, hlt⟩
    · exact ⟨ht, hu⟩
    · obtain rfl : A = B := Option.some.inj (hA.symm.trans (he.trans hB))
      obtain ⟨A', hA'⟩ := h.covers i hi
      obtain rfl : A' = A := Option.some.inj (hA'.mapped.symm.trans hA)
      have hextent := BitVec.le_trans hA'.starting hA'.ending
      exact absurd (BitVec.not_lt.2 hextent) (not_not.2 hlt)
  have hbehind : ∀ i ∈ r.instructions, ∀ j ∈ r.instructions, i.address < j.address →
      ∀ A B, g.addressMap i.address = some A → g.addressMap j.address = some B → A ≠ B →
      (g.heap A).endingAddress < (g.heap B).startingAddress := by
    intro i hi j hj hlt A B hA hB hne
    rcases of_pairwise h.apart hi hj hlt with ⟨-, -, he⟩ | ⟨A', B', hA', hB', hlt⟩
    · exact absurd (Option.some.inj (hA.symm.trans (he.trans hB))) hne
    · cases hA.symm.trans hA'
      cases hB.symm.trans hB'
      exact hlt
  refine ⟨fun i hi => ?_, ?_, fun i hi j hj ht he => ?_, fun i hi j hj ht he => ?_⟩
  · obtain ⟨B, hB⟩ := h.covers i hi
    exact ⟨B, hB.mapped, hB.starting, hB.ending⟩
  · intro i hi j hj A B hA hB hne a hsA heA hsB heB
    by_cases hle : j.address ≤ i.address
    · have hji : j.address < i.address := by
        have hne' : j.address ≠ i.address := fun he =>
          hne (Option.some.inj (hA.symm.trans (he ▸ hB)))
        bv_omega
      have := hbehind j hj i hi hji B A hB hA hne.symm
      bv_omega
    · have := hbehind i hi j hj (BitVec.not_le.1 hle) A B hA hB hne
      bv_omega
  · by_contra hle
    rw [(hlater i hi j hj he hle).1] at ht
    cases ht
  · by_contra hle
    exact ht (hlater i hi j hj he hle).2

theorem partitions_of_headRight (h : r.HeadRight) (hg : r.blocks = some g) : r.Partitions g := by
  refine partitions_of_closed ?_
  rw [blocks_eq] at hg
  have hready := Blocks.initial_ready r.firstIns.address
  cases hrest : r.rest with
  | nil =>
    rw [hrest] at hg
    cases hg
    rw [instructions, hrest]
    exact Blocks.initial_closed r.maps r.firstIns
  | cons second rest =>
    have hinstructions : r.instructions = [r.firstIns] ++ [second] ++ rest := by
      rw [instructions, hrest]
      rfl
    have hincreasing : ([r.firstIns] ++ [second] ++ rest).Pairwise fun i j => i.address < j.address :=
      hinstructions ▸ r.increasing
    have hlt : r.firstIns.address < second.address :=
      (List.pairwise_cons.1 hincreasing).1 second (by simp)
    have hbranches : ∀ i ∈ second :: rest,
        r.maps.branches i.address = [] ↔ i.kind.isTransfer = false := fun i hi =>
      branches_eq_nil (List.mem_cons_of_mem _ (hrest ▸ hi))
    rw [hrest, Blocks.buildLoop] at hg
    obtain ⟨⟨currentBlock, g₁⟩, hg₁, hg⟩ := Option.bind_eq_some_iff.1 hg
    have hcurrent : Blocks.Current r.maps [r.firstIns] second g₁ currentBlock := by
      rcases h second (by rw [hrest]; rfl) with ht | ⟨hk, hf⟩
      · have hopen := (Blocks.initial_closed r.maps r.firstIns).opened hready.fresh hlt
          (by simpa using hlt) (targets_isEmpty.2 ht)
        exact hopen.buildIns (hready.fresh.opened hlt _) (hbranches second List.mem_cons_self) hg₁
      · have hmap := Blocks.initial_first r.firstIns.address
        rw [blockAt, if_neg hf] at hmap
        have hfirst : Blocks.Current r.maps [] r.firstIns (Blocks.initial r.firstIns.address)
            (some (.block r.firstIns.address)) := by
          refine ⟨hready.fresh, fun hn => ?_, fun c hc => ?_⟩
          · cases hn
          · cases hc
            exact ⟨⟨Blocks.initial_closed r.maps r.firstIns, hmap⟩, hk⟩
        refine hfirst.buildIns (fun i hi => ?_) hlt (hbranches second List.mem_cons_self) hg₁
        rw [List.mem_singleton.1 hi]
        exact BitVec.le_refl _
    rw [hinstructions]
    exact hcurrent.buildLoop hincreasing (fun i hi => hbranches i (List.mem_cons_of_mem _ hi)) hg

/-- A second instruction that is no target stays in the entrance block. -/
theorem second_stays {second : FlowINS w} {rest : List (FlowINS w)} (hg : r.blocks = some g)
    (hrest : r.rest = second :: rest) (ht : ¬ r.Targeted second.address) :
    g.addressMap r.firstIns.address = some (blockAt r.firstIns.address) ∧
      g.addressMap second.address = some (.block r.firstIns.address) ∧
      (g.heap (.block r.firstIns.address)).startingAddress = r.firstIns.address := by
  obtain ⟨hbefore, hbehind⟩ := List.pairwise_cons.1 r.increasing
  rw [hrest] at hbefore hbehind
  have hlt := hbefore second List.mem_cons_self
  rw [blocks_eq, hrest, Blocks.buildLoop] at hg
  obtain ⟨⟨currentBlock, g₁⟩, hg₁, hg⟩ := Option.bind_eq_some_iff.1 hg
  obtain ⟨currentBlock', g₁', hg₁', hkeeps, hready, hmap⟩ :=
    (Blocks.initial_ready r.firstIns.address).buildIns (m := r.maps) hlt
      (Blocks.headAddress r.invalid rest) (some (.block r.firstIns.address))
  cases hg₁.symm.trans hg₁'
  rw [Blocks.opened, if_neg fun he => ht (targets_isEmpty.1 he)] at hmap
  obtain ⟨g', hg', hkeeps'⟩ := hready.buildLoop r.invalid currentBlock
    (List.pairwise_cons.1 hbehind).2 (List.pairwise_cons.1 hbehind).1
  cases hg.symm.trans hg'
  have hne : ∀ a, r.firstIns.address < a → BlockPtr.block r.firstIns.address ≠ blockAt a :=
    fun a ha => (blockAt_ne_block fun he => BitVec.lt_irrefl _ (he ▸ ha)).symm
  refine ⟨?_, hkeeps'.mapped _ (BitVec.lt_irrefl _) _ hmap, ?_⟩
  · refine hkeeps'.mapped _ (fun hn => ?_) _ (hkeeps.mapped _ (fun he => ?_) _
      (Blocks.initial_first _))
    · exact BitVec.lt_irrefl _ (BitVec.lt_trans hlt hn)
    · rw [he] at hlt
      exact BitVec.lt_irrefl _ hlt
  · calc (g.heap (.block r.firstIns.address)).startingAddress
      _ = (g₁.heap (.block r.firstIns.address)).startingAddress :=
        hkeeps'.starting _ trivial fun a ha => hne a (BitVec.lt_trans hlt ha)
      _ = ((Blocks.initial r.firstIns.address).heap (.block r.firstIns.address)).startingAddress :=
        hkeeps.starting _ trivial fun a ha => hne a (ha ▸ hlt)
      _ = r.firstIns.address := Blocks.initial_start _

theorem headRight_of_partitions (hg : r.blocks = some g) (h : r.Partitions g) : r.HeadRight := by
  intro second hsecond
  by_contra hn
  obtain ⟨ht, hfirst⟩ := not_or.1 hn
  obtain ⟨rest, hrest⟩ : ∃ rest, r.rest = second :: rest := by
    cases hr : r.rest with
    | nil =>
      rw [hr] at hsecond
      cases hsecond
    | cons second' rest =>
      rw [hr] at hsecond
      cases hsecond
      exact ⟨rest, rfl⟩
  have hfirstMem : r.firstIns ∈ r.instructions := List.mem_cons_self
  have hsecondRest : second ∈ r.rest := by
    rw [hrest]
    exact List.mem_cons_self
  have hsecondMem : second ∈ r.instructions := List.mem_cons_of_mem _ hsecondRest
  have hlt := (List.pairwise_cons.1 r.increasing).1 second hsecondRest
  obtain ⟨hfirstMap, hsecondMap, hstart⟩ := second_stays hg hrest ht
  by_cases hf : r.firstIns.address = 2
  · -- the entrance block begins where the return block is
    have hne : blockAt r.firstIns.address ≠ .block r.firstIns.address := by
      rw [blockAt, if_pos hf]
      intro he
      cases he
    obtain ⟨A, hA, hsA, heA⟩ := h.mapped _ hfirstMem
    obtain ⟨B, hB, hsB, heB⟩ := h.mapped _ hsecondMem
    cases hA.symm.trans hfirstMap
    cases hB.symm.trans hsecondMap
    exact h.disjoint _ hfirstMem _ hsecondMem _ _ hfirstMap hsecondMap hne _ hsA heA
      (BitVec.le_of_eq hstart) (BitVec.le_trans (BitVec.le_of_lt hlt) heB)
  · have htransfer : r.firstIns.kind.isTransfer := by
      by_contra hk
      exact hfirst ⟨by simpa using hk, hf⟩
    rw [blockAt, if_neg hf] at hfirstMap
    have hle := h.transferLast _ hfirstMem _ hsecondMem htransfer (hfirstMap.trans hsecondMap.symm)
    exact BitVec.not_le.2 hlt hle

/-- The blocks partition the routine if and only if the head of the routine is right. -/
theorem partitions_iff (r : Listing w) : ∃ g, r.blocks = some g ∧ (r.Partitions g ↔ r.HeadRight) := by
  obtain ⟨g, hg, -⟩ := (Blocks.initial_ready r.firstIns.address).buildLoop (m := r.maps) r.invalid
    (some (.block r.firstIns.address)) (List.pairwise_cons.1 r.increasing).2
    (List.pairwise_cons.1 r.increasing).1
  have hblocks : r.blocks = some g := r.blocks_eq.trans hg
  exact ⟨g, hblocks, headRight_of_partitions hblocks, fun h => partitions_of_headRight h hblocks⟩

/-- The one instruction behind a return. -/
def behindReturn : Listing 32 where
  firstIns := ⟨4096, 4097, .ret⟩
  rest := [⟨4097, 4098, .other⟩]
  invalid := 0
  width := three_le_word
  increasing := by simp

theorem return_not_last : ¬ ∃ g, behindReturn.blocks = some g ∧ behindReturn.Partitions g := by
  rintro ⟨g, hg, h⟩
  rcases headRight_of_partitions hg h ⟨4097, 4098, .other⟩ rfl with ⟨i, hi, hm⟩ | ⟨hk, -⟩
  · simp only [instructions, behindReturn, List.mem_cons, List.not_mem_nil, or_false] at hi
    rcases hi with rfl | rfl
    · exact hm
    · exact hm
  · cases hk

end Listing

end Dytan
