import Dytan.Tool.Graph.Edges

/-!
# The second pass

`Scan`: the blocks after part of the second pass, in terms of the instructions: every instruction
seen is in the block of `InBlock`, and the predecessors are those that the instructions dealt with
have put there. A turn of the loop keeps it (`Scan.buildIns`), so that it holds of what
`routineBlocks` returns (`Scan.routineBlocks`).
-/

namespace Dytan

variable {w : Nat}

namespace Routine

/-- The second pass ends the block at the instruction. -/
def Ends (r : Routine w) (i : FlowINS w) : Prop := i ∈ r.rest ∧ i.kind.isTransfer

/-- The address of `INS_Next`. -/
def Next (r : Routine w) (i : FlowINS w) (a : ADDRINT w) : Prop :=
  ∃ pre post, r.instructions = pre ++ i :: post ∧ a = Blocks.headAddress r.invalid post

/-- The blocks of which the instruction makes its block, which begins at `a`, a predecessor, when
the blocks of the instructions `dst` are known. -/
def Contributes (r : Routine w) (dst : List (FlowINS w)) (i : FlowINS w) (a : ADDRINT w)
    (B : BlockPtr w) : Prop :=
  (r.Ends i ∧ ∃ nextIns, r.Next i nextIns ∧ i.Enters nextIns a B) ∨
  (¬ r.Ends i ∧ B = .block i.nextAddress ∧ ∃ j ∈ dst, j.address = i.nextAddress ∧ r.Leader j)

variable {r : Routine w} {i j p ins : FlowINS w} {a b : ADDRINT w} {pre post : List (FlowINS w)}

theorem instructions_ne_two (hi : i ∈ r.instructions) : i.address ≠ 2 :=
  (Blocks.not_flag r.width (r.possible i hi).1).2.1

theorem leader_first : r.Leader r.firstIns := .inl rfl

theorem first_mem : r.firstIns ∈ r.instructions := List.mem_cons_self

theorem not_lt_first (hi : i ∈ r.instructions) : ¬ i.address < r.firstIns.address := by
  intro hlt
  rcases List.mem_cons.1 hi with rfl | hi
  · exact BitVec.lt_irrefl _ hlt
  · exact BitVec.lt_irrefl _ (BitVec.lt_trans hlt ((List.pairwise_cons.1 r.increasing).1 i hi))

/-- Every instruction is in a block. -/
theorem exists_inBlock (hi : i ∈ r.instructions) : ∃ a, r.InBlock a i := by
  obtain ⟨pre, post, hsplit⟩ := List.append_of_mem hi
  induction pre using List.reverseRecOn generalizing i post with
  | nil =>
    obtain rfl : i = r.firstIns := by
      simp only [List.nil_append, instructions, List.cons.injEq] at hsplit
      exact hsplit.1.symm
    exact ⟨_, inBlock_self first_mem leader_first⟩
  | append_singleton pre p ih =>
    by_cases hl : r.Leader i
    · exact ⟨_, inBlock_self hi hl⟩
    · have hsplit' : r.instructions = pre ++ p :: i :: post := by simpa using hsplit
      have hp : p ∈ r.instructions := hsplit' ▸ by simp
      obtain ⟨a, ha⟩ := ih hp _ hsplit'
      exact ⟨a, (inBlock_next hsplit' hl).2 ha⟩

/-- `INS_Next` is the instruction at the next address, or invalid behind the last instruction. -/
theorem Next.cases (h : r.Next i a) :
    (a = i.nextAddress ∧ ∃ j ∈ r.instructions, j.address = i.nextAddress) ∨
    (a = r.invalid ∧ ∀ j ∈ r.instructions, j.address ≠ i.nextAddress) := by
  obtain ⟨pre, post, hsplit, rfl⟩ := h
  have hi : i ∈ r.instructions := hsplit ▸ by simp
  cases post with
  | nil =>
    refine .inr ⟨rfl, fun j hj he => ?_⟩
    have hlt : i.address < j.address := he ▸ r.forward i hi
    rcases cases_of_split hsplit hj with ⟨-, hlt'⟩ | rfl | ⟨hmem, -⟩
    · exact BitVec.lt_irrefl _ (BitVec.lt_trans hlt hlt')
    · exact BitVec.lt_irrefl _ hlt
    · cases hmem
  | cons k post =>
    have hk : i.nextAddress = k.address := next_of_split hsplit
    exact .inl ⟨hk.symm, k, hsplit ▸ by simp, hk.symm⟩

theorem exists_next (hi : i ∈ r.instructions) : ∃ a, r.Next i a := by
  obtain ⟨pre, post, hsplit⟩ := List.append_of_mem hi
  exact ⟨_, pre, post, hsplit, rfl⟩

theorem Next.unique (ha : r.Next i a) (hb : r.Next i b) : a = b := by
  rcases ha.cases with ⟨rfl, j, hj, he⟩ | ⟨rfl, hn⟩
  · rcases hb.cases with ⟨rfl, -⟩ | ⟨-, hn⟩
    · rfl
    · exact absurd he (hn j hj)
  · rcases hb.cases with ⟨-, j, hj, he⟩ | ⟨rfl, -⟩
    · exact absurd he (hn j hj)
    · rfl

theorem eq_of_next (h : r.instructions = pre ++ p :: ins :: post) (hi : i ∈ r.instructions)
    (he : i.nextAddress = ins.address) : i = p := by
  have hp : p ∈ r.instructions := h ▸ by simp
  have hlt : p.address < ins.address := next_of_split h ▸ r.forward p hp
  have hilt : i.address < ins.address := he ▸ r.forward i hi
  obtain ⟨pre', post', h'⟩ := split_of_next hi (h ▸ by simp) he
  exact eq_of_address hi hp (BitVec.le_antisymm (le_of_lt_next h hi hilt) (le_of_lt_next h' hp hlt))

/-- The instruction behind one at which the block goes on is a leader only as a target. -/
theorem leader_next (h : r.instructions = pre ++ p :: ins :: post) :
    r.Leader ins ↔ r.Ends p ∨ r.Targeted ins.address := by
  have hnext := next_of_split h
  have hp : p ∈ r.instructions := h ▸ by simp
  have hlt : p.address < ins.address := hnext ▸ r.forward p hp
  constructor
  · rintro (hfirst | ht | ⟨q, hq, hqt, hqn⟩)
    · rw [hfirst] at hlt
      exact absurd hlt (not_lt_first hp)
    · exact .inr ht
    · obtain rfl : q = p := eq_of_next h (rest_subset hq) hqn
      exact .inl ⟨hq, hqt⟩
  · rintro (⟨hp, ht⟩ | ht)
    · exact leader_of_transfer hp ht hnext
    · exact .inr (.inl ht)

/-! ## What is recorded -/

/-- `x` is to be a predecessor of `B` after the instructions `src`, when the blocks of the
instructions `dst` are known. -/
def Recorded (r : Routine w) (src dst : List (FlowINS w)) (B x : BlockPtr w) : Prop :=
  ∃ i ∈ src, ∃ a, r.InBlock a i ∧ x = .block a ∧ r.Contributes dst i a B

variable {seen : List (FlowINS w)} {B x : BlockPtr w}

theorem mem_of_seen (h : r.instructions = seen ++ ins :: post) (hi : i ∈ seen) :
    i ∈ r.instructions := h ▸ List.mem_append_left _ hi

/-- The block of the next instruction is known: the block before is to be a predecessor of it if it
goes on into it. -/
theorem recorded_dst (h : r.instructions = (pre ++ [p]) ++ ins :: post) (ha : r.InBlock a p) :
    r.Recorded (pre ++ [p]) (pre ++ [p] ++ [ins]) B x ↔ r.Recorded (pre ++ [p]) (pre ++ [p]) B x ∨
      (¬ r.Ends p ∧ r.Leader ins) ∧ x = .block a ∧ B = .block ins.address := by
  have hsplit : r.instructions = pre ++ p :: ins :: post := by simpa using h
  constructor
  · rintro ⟨i, hi, b, hb, rfl, hc | ⟨he, rfl, j, hj, hji, hl⟩⟩
    · exact .inl ⟨i, hi, b, hb, rfl, .inl hc⟩
    · rcases List.mem_append.1 hj with hj | hj
      · exact .inl ⟨i, hi, b, hb, rfl, .inr ⟨he, rfl, j, hj, hji, hl⟩⟩
      · obtain rfl : j = ins := List.mem_singleton.1 hj
        obtain rfl : i = p := eq_of_next hsplit (mem_of_seen h hi) hji.symm
        exact .inr ⟨⟨he, hl⟩, congrArg _ (hb.unique ha), congrArg _ hji.symm⟩
  · rintro (⟨i, hi, b, hb, rfl, hc | ⟨he, rfl, j, hj, hji, hl⟩⟩ | ⟨⟨he, hl⟩, rfl, rfl⟩)
    · exact ⟨i, hi, b, hb, rfl, .inl hc⟩
    · exact ⟨i, hi, b, hb, rfl, .inr ⟨he, rfl, j, List.mem_append_left _ hj, hji, hl⟩⟩
    · have hnext := next_of_split hsplit
      exact ⟨p, by simp, a, ha, rfl, .inr ⟨he, congrArg _ hnext.symm, ins, by simp, hnext.symm, hl⟩⟩

/-- The instruction itself. Its next instruction has not been seen. -/
theorem recorded_src (h : r.instructions = seen ++ ins :: post) (hb : r.InBlock b ins) :
    r.Recorded (seen ++ [ins]) (seen ++ [ins]) B x ↔ r.Recorded seen (seen ++ [ins]) B x ∨
      x = .block b ∧ r.Ends ins ∧ ∃ nextIns, r.Next ins nextIns ∧ ins.Enters nextIns b B := by
  have hins : ins ∈ r.instructions := h ▸ by simp
  have hunseen : ∀ j ∈ seen ++ [ins], j.address ≠ ins.nextAddress := by
    intro j hj he
    have hlt : ins.address < j.address := he ▸ r.forward ins hins
    rcases List.mem_append.1 hj with hj | hj
    · exact BitVec.lt_irrefl _ (BitVec.lt_trans hlt (lt_of_mem_pre h hj))
    · rw [List.mem_singleton.1 hj] at hlt
      exact BitVec.lt_irrefl _ hlt
  constructor
  · rintro ⟨i, hi, a, ha, rfl, hc⟩
    rcases List.mem_append.1 hi with hi | hi
    · exact .inl ⟨i, hi, a, ha, rfl, hc⟩
    · obtain rfl : i = ins := List.mem_singleton.1 hi
      obtain rfl := ha.unique hb
      rcases hc with hc | ⟨-, -, j, hj, hji, -⟩
      · exact .inr ⟨rfl, hc⟩
      · exact absurd hji (hunseen j hj)
  · rintro (⟨i, hi, a, ha, rfl, hc⟩ | ⟨rfl, hc⟩)
    · exact ⟨i, List.mem_append_left _ hi, a, ha, rfl, hc⟩
    · exact ⟨ins, by simp, b, hb, rfl, .inl hc⟩

end Routine

/-! ## The loop -/

/-- The blocks when the blocks of the instructions `dst` are known and the instructions `src` have
been dealt with. -/
structure Scan (r : Routine w) (src dst : List (FlowINS w)) (g : Blocks w) : Prop where
  returnBlock : g.addressMap 2 = some .returnBlock
  free : ∀ a, a ≠ 2 → (∀ i ∈ r.instructions, i.address = a → r.Leader i) → g.Free a
  addressMap : ∀ i ∈ dst, ∀ a, r.InBlock a i → g.addressMap i.address = some (.block a)
  starting : ∀ i ∈ dst, r.Leader i → (g.heap (.block i.address)).startingAddress = i.address
  preds : ∀ B, B.inRoutine → ∀ x, x ∈ (g.heap B).predecessors ↔ r.Recorded src dst B x

/-- The current block behind an instruction. -/
def Routine.Current (r : Routine w) (p : FlowINS w) (currentBlock : Option (BlockPtr w)) : Prop :=
  (r.Ends p ∧ currentBlock = none) ∨ (¬ r.Ends p ∧ ∃ a, r.InBlock a p ∧ currentBlock = some (.block a))

namespace Scan

open Blocks

variable {r : Routine w} {g g' : Blocks w} {p ins : FlowINS w} {a b : ADDRINT w}
  {pre post seen src src' dst : List (FlowINS w)} {D : BlockPtr w → Prop} {c : BlockPtr w}

theorem mapped (h : g.Adds g' c D) {B : BlockPtr w} (hs : g.addressMap a = some B) :
    g'.addressMap a = some B := by
  rcases h.addressMap a with he | ⟨hn, -⟩
  · exact he.trans hs
  · rw [hs] at hn
    cases hn

/-- Predecessors added where they have to be. -/
theorem adds (h : Scan r src dst g) (hadds : g.Adds g' c D)
    (hD : ∀ B, B.inRoutine → ∀ x, r.Recorded src' dst B x ↔ r.Recorded src dst B x ∨ x = c ∧ D B) :
    Scan r src' dst g' where
  returnBlock := mapped hadds h.returnBlock
  free a ha hl := hadds.free (h.free a ha hl)
  addressMap i hi a ha := mapped hadds (h.addressMap i hi a ha)
  starting i hi hl := (hadds.starting _).trans (h.starting i hi hl)
  preds B hB x := by rw [hadds.preds B hB, h.preds B hB, hD B hB]

/-- A block begins at the next instruction. -/
theorem start (h : Scan r seen seen g) (hsplit : r.instructions = seen ++ ins :: post)
    (hl : r.Leader ins) (hadds : g.Adds g' c D)
    (hmap : g'.addressMap ins.address = some (.block ins.address))
    (hD : ∀ B, B.inRoutine → ∀ x,
      r.Recorded seen (seen ++ [ins]) B x ↔ r.Recorded seen seen B x ∨ x = c ∧ D B) :
    Scan r seen (seen ++ [ins]) (g'.modify (.block ins.address) (·.setStarting ins.address)) where
  returnBlock := mapped hadds h.returnBlock
  free a ha hl := hadds.free (h.free a ha hl)
  addressMap i hi a ha := by
    rcases List.mem_append.1 hi with hi | hi
    · exact mapped hadds (h.addressMap i hi a ha)
    · obtain rfl := List.mem_singleton.1 hi
      rw [ha.eq_of_leader (hsplit ▸ by simp) hl]
      exact hmap
  starting i hi hil := by
    by_cases he : i.address = ins.address
    · rw [he, heap_modify, Heap.modify_same]
      rfl
    · have hne : BlockPtr.block i.address ≠ .block ins.address := fun hb => he (BlockPtr.block.inj hb)
      have hi : i ∈ seen := (List.mem_append.1 hi).resolve_right fun hi =>
        he (congrArg _ (List.mem_singleton.1 hi))
      rw [heap_modify, Heap.modify_of_ne _ _ hne]
      exact (hadds.starting _).trans (h.starting i hi hil)
  preds B hB x := by
    rw [heap_modify, Heap.modify_field BasicBlock.predecessors (by intro _; rfl), hadds.preds B hB,
      h.preds B hB, hD B hB]

/-- The block goes on with the next instruction. -/
theorem goOn (h : Scan r (pre ++ [p]) (pre ++ [p]) g)
    (hsplit : r.instructions = (pre ++ [p]) ++ ins :: post) (hl : ¬ r.Leader ins)
    (ha : r.InBlock a p) :
    Scan r (pre ++ [p]) (pre ++ [p] ++ [ins]) (g.setAddress ins.address (.block a)) where
  returnBlock := by
    have hne : ins.address ≠ 2 := r.instructions_ne_two (hsplit ▸ by simp)
    exact (Function.update_of_ne hne.symm ..).trans h.returnBlock
  free b hb hbl := by
    have hne : b ≠ ins.address := fun he => hl (hbl ins (hsplit ▸ by simp) he.symm)
    have hsame : (g.setAddress ins.address (.block a)).addressMap b = g.addressMap b :=
      Function.update_of_ne hne ..
    rw [Free, hsame]
    exact h.free b hb hbl
  addressMap i hi b hb := by
    rcases List.mem_append.1 hi with hi | hi
    · have hne : i.address ≠ ins.address := fun he =>
        BitVec.lt_irrefl _ (he ▸ Routine.lt_of_mem_pre hsplit hi)
      exact (Function.update_of_ne hne ..).trans (h.addressMap i hi b hb)
    · obtain rfl := List.mem_singleton.1 hi
      have hsplit' : r.instructions = pre ++ p :: i :: post := by simpa using hsplit
      rw [((Routine.inBlock_next hsplit' hl).1 hb).unique ha]
      exact Function.update_self ..
  starting i hi hil := by
    rcases List.mem_append.1 hi with hi | hi
    · exact h.starting i hi hil
    · exact absurd (List.mem_singleton.1 hi ▸ hil) hl
  preds B hB x := by
    rw [Routine.recorded_dst hsplit ha]
    simp only [hl, and_false, false_and, or_false]
    exact h.preds B hB x

theorem branchSet_eq_nil : ins.branchSet = [] ↔ ins.kind.isTransfer = false := by
  have hnext : ∀ a, ins.withNext a ≠ [] := by
    intro a
    unfold FlowINS.withNext
    split_ifs <;> simp
  unfold FlowINS.branchSet
  cases ins.kind with
  | call fall | indirectCall fall => cases fall <;> simp [FlowKind.isTransfer, hnext]
  | _ => simp [FlowKind.isTransfer, hnext]

theorem marks_cases (h : ins.Marks a) : a ∈ ins.kind.target? ∨ a = ins.nextAddress := by
  unfold FlowINS.Marks at h
  cases hk : ins.kind with
  | conditionalBranch target =>
    rw [hk] at h
    rcases h with rfl | rfl
    · exact .inl rfl
    · exact .inr rfl
  | jump target =>
    rw [hk] at h
    obtain rfl := h
    exact .inl rfl
  | call fall | indirectCall fall =>
    rw [hk] at h
    cases fall
    · exact h.elim
    · exact .inr h
  | _ =>
    rw [hk] at h
    exact h.elim

/-- An instruction that does not end the block. -/
theorem plain (h : Scan r seen (seen ++ [ins]) g) (hsplit : r.instructions = seen ++ ins :: post)
    (he : ¬ r.Ends ins) (hb : r.InBlock b ins) : Scan r (seen ++ [ins]) (seen ++ [ins]) g where
  returnBlock := h.returnBlock
  free := h.free
  addressMap := h.addressMap
  starting := h.starting
  preds B hB x := by
    rw [Routine.recorded_src hsplit hb]
    simp only [he, false_and, and_false, or_false]
    exact h.preds B hB x

/-- An instruction that does. -/
theorem transfer (h : Scan r seen (seen ++ [ins]) g) (hsplit : r.instructions = seen ++ ins :: post)
    (he : r.Ends ins) (hb : r.InBlock b ins) :
    ∃ g', g.branchIns r.maps.branches ins.address (headAddress r.invalid post) (.block b) = some g' ∧
      Scan r (seen ++ [ins]) (seen ++ [ins]) g' := by
  have hins : ins ∈ r.instructions := Routine.rest_subset he.1
  have hnext : r.Next ins (headAddress r.invalid post) := ⟨seen, post, hsplit, rfl⟩
  obtain ⟨⟨first, hfirst, rfl, hl⟩, hle, -⟩ := id hb
  have hseen : first ∈ seen ++ [ins] := by
    rcases Routine.cases_of_split hsplit hfirst with ⟨hmem, -⟩ | rfl | ⟨-, hlt⟩
    · exact List.mem_append_left _ hmem
    · simp
    · rw [BitVec.le_def] at hle
      rw [BitVec.lt_def] at hlt
      omega
  have hstart := h.starting first hseen hl
  have hforward := r.forward ins hins
  have hpos := (r.possible ins hins).1
  rw [BitVec.lt_def] at hforward hpos
  rw [BitVec.le_def] at hle
  have hfree : ∀ i ∈ r.instructions, r.Leader i → g.Free i.address := fun i hi hil =>
    h.free _ (r.instructions_ne_two hi) fun j hj hji => Routine.eq_of_address hj hi hji ▸ hil
  have hfreeNext : g.Free (headAddress r.invalid post) := by
    rcases hnext.cases with ⟨hn, j, hj, hji⟩ | ⟨hn, -⟩
    · rw [hn, ← hji]
      exact hfree j hj (Routine.leader_of_transfer he.1 he.2 hji.symm)
    · rw [hn]
      exact h.free _ r.invalid_ne.1 fun i hi hii => absurd hii (r.invalid_ne.2 i hi)
  have hne : ins.nextAddress ≠ (g.heap (.block first.address)).startingAddress := by
    rw [hstart]
    intro hf
    rw [hf] at hforward
    omega
  have hmarks : ∀ a, ins.Marks a → g.Free a := by
    intro a ha
    have ha2 : 5 < a := by
      rcases marks_cases ha with ht | rfl
      · exact (r.possible ins hins).2 a ht
      · rw [BitVec.lt_def]
        omega
    exact h.free a (not_flag r.width ha2).2.1 fun i hi hii => .inr (.inl ⟨ins, hins, hii ▸ ha⟩)
  obtain ⟨g', hg', hadds⟩ := branchIns_adds r.width (h.addressMap ins (by simp) _ hb) h.returnBlock
    (Routine.branches_eq hins) he.2 (r.possible ins hins).2 (by rw [BitVec.lt_def]; omega) hne hmarks
    hfreeNext
  rw [hstart] at hadds
  refine ⟨g', hg', h.adds hadds fun B hB x => ?_⟩
  rw [Routine.recorded_src hsplit hb]
  have henters : (∃ nextIns, r.Next ins nextIns ∧ ins.Enters nextIns first.address B) ↔
      ins.Enters (headAddress r.invalid post) first.address B :=
    ⟨fun ⟨n, hn, hB⟩ => hn.unique hnext ▸ hB, fun hB => ⟨_, hnext, hB⟩⟩
  rw [henters]
  simp only [he, true_and]

/-- `BranchIns` maps the instruction to the current block. -/
theorem branchIns_setAddress (branches : AddressSets w) (addr nextIns : ADDRINT w) :
    (g.setAddress addr c).branchIns branches addr nextIns c =
      g.branchIns branches addr nextIns c := by
  have hset : ((g.setAddress addr c).modify c (·.setEnding addr)).setAddress addr c =
      (g.modify c (·.setEnding addr)).setAddress addr c := by
    simp [Blocks.setAddress, Blocks.modify]
  unfold branchIns
  rw [hset]

/-- What a turn of the loop leaves, from the blocks `g'` in which the instruction is in its block. -/
theorem buildIns_close (h : Scan r seen (seen ++ [ins]) g')
    (hsplit : r.instructions = seen ++ ins :: post) (hins : ins ∈ r.rest) (hb : r.InBlock b ins)
    {result : Option (Option (BlockPtr w) × Blocks w)}
    (hplain : r.maps.branches ins.address = [] → result = some (some (.block b), g'))
    (htransfer : ∀ a l, r.maps.branches ins.address = a :: l → result =
      (g'.branchIns r.maps.branches ins.address (headAddress r.invalid post) (.block b)).bind
        fun g => some (none, g)) :
    ∃ currentBlock g'', result = some (currentBlock, g'') ∧ r.Current ins currentBlock ∧
      Scan r (seen ++ [ins]) (seen ++ [ins]) g'' := by
  have hbranches := Routine.branches_eq (Routine.rest_subset hins)
  cases hset : r.maps.branches ins.address with
  | nil =>
    have he : ¬ r.Ends ins := fun he => by
      rw [hset, eq_comm, branchSet_eq_nil, he.2] at hbranches
      cases hbranches
    exact ⟨_, g', hplain hset, .inr ⟨he, b, hb, rfl⟩, h.plain hsplit he hb⟩
  | cons a l =>
    have he : r.Ends ins := by
      refine ⟨hins, ?_⟩
      by_contra hk
      rw [Bool.not_eq_true, ← branchSet_eq_nil, ← hbranches, hset] at hk
      cases hk
    obtain ⟨g'', hg'', hscan⟩ := h.transfer hsplit he hb
    refine ⟨none, g'', ?_, .inl ⟨he, rfl⟩, hscan⟩
    rw [htransfer a l hset, hg'']
    rfl

/-- A turn of the loop. -/
theorem buildIns (h : Scan r (pre ++ [p]) (pre ++ [p]) g)
    (hsplit : r.instructions = (pre ++ [p]) ++ ins :: post) {currentBlock : Option (BlockPtr w)}
    (hcurrent : r.Current p currentBlock) :
    ∃ currentBlock' g', g.buildIns r.maps p.address ins.address (headAddress r.invalid post)
        currentBlock = some (currentBlock', g') ∧ r.Current ins currentBlock' ∧
      Scan r (pre ++ [p] ++ [ins]) (pre ++ [p] ++ [ins]) g' := by
  have hsplit' : r.instructions = pre ++ p :: ins :: post := by simpa using hsplit
  have hins : ins ∈ r.rest := by
    refine Routine.mem_rest_of_ne (hsplit ▸ by simp) fun he => ?_
    refine Routine.not_lt_first (r := r) (i := p) (hsplit' ▸ by simp) (he ▸ ?_)
    exact Routine.lt_of_mem_pre hsplit (by simp)
  have hinsMem : ins ∈ r.instructions := Routine.rest_subset hins
  have hleader := Routine.leader_next hsplit'
  have hfree : r.Leader ins → g.Free ins.address := fun hl =>
    h.free _ (r.instructions_ne_two hinsMem) fun j hj hji => Routine.eq_of_address hj hinsMem hji ▸ hl
  rcases hcurrent with ⟨he, rfl⟩ | ⟨he, a, ha, rfl⟩
  · have hl : r.Leader ins := hleader.2 (.inl he)
    have hscan := h.start (c := .returnBlock) hsplit hl (.setAddress (hfree hl))
      (Function.update_self ..) fun B _ x => by
        obtain ⟨a, ha⟩ := Routine.exists_inBlock (r := r) (i := p) (hsplit' ▸ by simp)
        rw [Routine.recorded_dst hsplit ha]
        simp [he]
    refine buildIns_close hscan hsplit hins (Routine.inBlock_self hinsMem hl) ?_ ?_
    · intro hset
      simp only [Blocks.buildIns, getBasicBlockAt_spec (hfree hl), hset]
    · intro b l hset
      simp only [Blocks.buildIns, getBasicBlockAt_spec (hfree hl), hset]
      rfl
  · by_cases ht : r.Targeted ins.address
    · have hl : r.Leader ins := hleader.2 (.inr ht)
      have htargets : (r.maps.targets ins.address).isEmpty = false := Routine.targets_isEmpty.2 ht
      have hend : g.Adds (g.modify (.block a) (·.setEnding p.address)) (.block a) fun _ => False :=
        .setEnding
      have hblock : (BlockPtr.block ins.address).inRoutine := trivial
      have hadds := ((hend.trans (.setAddress (hend.free (hfree hl)))).trans
        (.insertSuccs (B := .block a) (b := .block ins.address))).trans (.insertPreds hblock)
      have hscan := h.start hsplit hl hadds (Function.update_self ..) fun B _ x => by
        rw [Routine.recorded_dst hsplit ha]
        simp [he, hl]
      refine buildIns_close hscan hsplit hins (Routine.inBlock_self hinsMem hl) ?_ ?_
      · intro hset
        simp only [Blocks.buildIns, htargets, if_true,
          getBasicBlockAt_spec (hend.free (hfree hl)), hset]
      · intro b l hset
        simp only [Blocks.buildIns, htargets, if_true,
          getBasicBlockAt_spec (hend.free (hfree hl)), hset]
        rfl
    · have hl : ¬ r.Leader ins := fun hl => (hleader.1 hl).elim he ht
      have htargets : ¬ (r.maps.targets ins.address).isEmpty = false := fun hf =>
        ht (Routine.targets_isEmpty.1 hf)
      have hb : r.InBlock a ins := (Routine.inBlock_next hsplit' hl).2 ha
      refine buildIns_close (h.goOn hsplit hl ha) hsplit hins hb ?_ ?_
      · intro hset
        simp only [Blocks.buildIns, if_neg htargets, hset]
        rfl
      · intro b l hset
        simp only [Blocks.buildIns, if_neg htargets, branchIns_setAddress, hset, List.isEmpty_cons,
          if_true]
        rfl

theorem buildLoop (h : Scan r (pre ++ [p]) (pre ++ [p]) g)
    (hsplit : r.instructions = (pre ++ [p]) ++ post) {currentBlock : Option (BlockPtr w)}
    (hcurrent : r.Current p currentBlock) :
    ∃ g', g.buildLoop r.maps r.invalid p.address currentBlock post = some g' ∧
      Scan r r.instructions r.instructions g' := by
  induction post generalizing pre p g currentBlock with
  | nil =>
    rw [List.append_nil] at hsplit
    rw [hsplit]
    cases currentBlock with
    | none => exact ⟨g, rfl, h⟩
    | some B => exact ⟨_, rfl, h.adds (c := .returnBlock) .setEnding fun _ _ _ => by simp⟩
  | cons ins post ih =>
    obtain ⟨currentBlock', g₁, hg₁, hcurrent', hscan⟩ := h.buildIns hsplit hcurrent
    obtain ⟨g', hg', hfinal⟩ := ih hscan (by simpa using hsplit) hcurrent'
    refine ⟨g', ?_, hfinal⟩
    rw [Blocks.buildLoop, hg₁]
    exact hg'

/-- Before the loop: the entrance block and the return block. -/
theorem init (hmap : g.addressMap = Function.update (Function.update (fun _ => none)
      r.firstIns.address (some (.block r.firstIns.address))) 2 (some .returnBlock))
    (hpreds : ∀ B, (g.heap B).predecessors = [])
    (hstart : (g.heap (.block r.firstIns.address)).startingAddress = r.firstIns.address) :
    Scan r [r.firstIns] [r.firstIns] g where
  returnBlock := by rw [hmap, Function.update_self]
  free a ha _ := by
    rw [Free, hmap, Function.update_of_ne ha]
    by_cases he : a = r.firstIns.address
    · subst he
      exact .inr (Function.update_self ..)
    · exact .inl (Function.update_of_ne he ..)
  addressMap i hi a ha := by
    obtain rfl := List.mem_singleton.1 hi
    rw [hmap, Function.update_of_ne (r.instructions_ne_two Routine.first_mem), Function.update_self,
      ha.eq_of_leader Routine.first_mem Routine.leader_first]
  starting i hi _ := by
    obtain rfl := List.mem_singleton.1 hi
    exact hstart
  preds B _ x := by
    rw [hpreds]
    refine ⟨fun hx => absurd hx List.not_mem_nil, ?_⟩
    rintro ⟨i, hi, a, -, -, ⟨⟨hrest, -⟩, -⟩ | ⟨-, -, j, hj, he, -⟩⟩
    · exact absurd (List.mem_singleton.1 hi) (Routine.first_notMem_rest hrest)
    · obtain rfl := List.mem_singleton.1 hi
      obtain rfl := List.mem_singleton.1 hj
      have hforward := r.forward _ Routine.first_mem
      rw [← he] at hforward
      exact absurd hforward (BitVec.lt_irrefl _)

theorem routineBlocks (r : Routine w) :
    ∃ g, Dytan.routineBlocks r.invalid r.firstIns r.rest = some g ∧
      Scan r r.instructions r.instructions g := by
  have hfirst : ¬ r.Ends r.firstIns := fun he => Routine.first_notMem_rest he.1 rfl
  have hblock := Routine.inBlock_self (r := r) Routine.first_mem Routine.leader_first
  refine @buildLoop w r _ r.firstIns [] r.rest (init ?_ (fun B => ?_) ?_) rfl _
    (.inr ⟨hfirst, _, hblock, rfl⟩)
  · simp [Blocks.setAddress, Blocks.modify]
  · simp only [Blocks.setAddress, Blocks.modify]
    rw [Heap.modify_field BasicBlock.predecessors (by intro _; rfl),
      Heap.modify_field BasicBlock.predecessors (by intro _; rfl)]
    rfl
  · simp only [Blocks.setAddress, Blocks.modify]
    rw [Heap.modify_of_ne _ _ (by simp), Heap.modify_same]
    rfl

end Scan

end Dytan
