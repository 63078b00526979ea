import Dytan.Tool.Graph.Scan

/-!
# The edges of the control-flow graph are exact

`Routine.EdgesExact`: the predecessors of the blocks are those from which control can pass.
`edgesExact_iff`: it holds if and only if the routine is `Regular`: the first instruction, where it
is a block of its own, passes control to the next instruction and to no other and does not return,
and no jump but the last instruction goes to the beginning of its own block.
-/

namespace Dytan

variable {w : Nat}

namespace Routine

/-- The block holds the instruction. -/
def Holds (r : Routine w) (g : Blocks w) (A : BlockPtr w) (i : FlowINS w) : Prop :=
  i ∈ r.instructions ∧ g.addressMap i.address = some A

def FirstOf (r : Routine w) (g : Blocks w) (B : BlockPtr w) (i : FlowINS w) : Prop :=
  r.Holds g B i ∧ ∀ j, r.Holds g B j → i.address ≤ j.address

def LastOf (r : Routine w) (g : Blocks w) (A : BlockPtr w) (i : FlowINS w) : Prop :=
  r.Holds g A i ∧ ∀ j, r.Holds g A j → j.address ≤ i.address

/-- A block is a predecessor of those its last instruction can pass control to, and of the return
block if it returns. -/
def EdgesExact (r : Routine w) (g : Blocks w) : Prop :=
  ∀ A last, r.LastOf g A last →
    (∀ B first, r.FirstOf g B first →
      (A ∈ (g.heap B).predecessors ↔ last.Passes first.address)) ∧
    (A ∈ (g.heap .returnBlock).predecessors ↔ last.kind = .ret)

structure Regular (r : Routine w) : Prop where
  /-- The first instruction, where a block begins at the next or there is none. -/
  firstIns : (∀ j ∈ r.instructions, j.address = r.firstIns.nextAddress → r.Targeted j.address) →
    r.firstIns.kind ≠ .ret ∧
    ∀ j ∈ r.instructions, r.firstIns.Passes j.address ↔ j.address = r.firstIns.nextAddress
  /-- A jump to the beginning of its block has no next instruction. -/
  selfLoop : ∀ i ∈ r.rest, ∀ target, i.kind = .jump target → r.InBlock target i →
    ∀ j ∈ r.instructions, j.address ≠ i.nextAddress

/-! ## The instructions of a block -/

/-- A block ends at the instruction. -/
def Final (r : Routine w) (i : FlowINS w) : Prop :=
  ∀ j ∈ r.instructions, j.address = i.nextAddress → r.Leader j

variable {r : Routine w} {g : Blocks w} {i j l f : FlowINS w} {a b : ADDRINT w} {A B : BlockPtr w}

theorem le_of_final (hf : r.Final l) (hl : r.InBlock a l) (hlm : l ∈ r.instructions)
    (hj : r.InBlock a j) (hjm : j ∈ r.instructions) : j.address ≤ l.address := by
  obtain ⟨pre, post, hsplit⟩ := List.append_of_mem hlm
  rcases cases_of_split hsplit hjm with ⟨-, hlt⟩ | rfl | ⟨hmem, hlt⟩
  · exact BitVec.le_of_lt hlt
  · exact BitVec.le_refl _
  · cases post with
    | nil => cases hmem
    | cons k post =>
      have hnext : l.nextAddress = k.address := next_of_split hsplit
      have hk : k ∈ r.instructions := hsplit ▸ by simp
      have hlk : l.address < k.address := hnext ▸ r.forward l hlm
      have hkj : k.address ≤ j.address := by
        by_contra hjk
        have hle := le_of_lt_next hsplit hjm (BitVec.not_le.1 hjk)
        rw [BitVec.le_def] at hle
        rw [BitVec.lt_def] at hlt
        omega
      have hak : a < k.address := by
        have hal := hl.2.1
        rw [BitVec.le_def] at hal
        rw [BitVec.lt_def] at hlk ⊢
        omega
      exact absurd (hf k hk hnext.symm) (hj.2.2 k hk hak hkj)

theorem final_of_contributes (h : r.Contributes r.instructions i a B) : r.Final i := by
  intro j hj hji
  rcases h with ⟨he, -⟩ | ⟨-, -, k, hk, hki, hl⟩
  · exact leader_of_transfer he.1 he.2 hji.symm
  · exact eq_of_address hk hj (hki.trans hji.symm) ▸ hl

end Routine

namespace Scan

variable {r : Routine w} {g : Blocks w} {i j l f : FlowINS w} {a b : ADDRINT w} {A B : BlockPtr w}

theorem holds_iff (h : Scan r r.instructions r.instructions g) :
    r.Holds g A i ↔ i ∈ r.instructions ∧ ∃ a, r.InBlock a i ∧ A = .block a := by
  refine and_congr_right fun hi => ?_
  obtain ⟨a, ha⟩ := Routine.exists_inBlock hi
  rw [h.addressMap i hi a ha]
  constructor
  · rintro he
    exact ⟨a, ha, (Option.some.inj he).symm⟩
  · rintro ⟨b, hb, rfl⟩
    rw [ha.unique hb]

theorem firstOf_iff (h : Scan r r.instructions r.instructions g) :
    r.FirstOf g B f ↔ f ∈ r.instructions ∧ r.Leader f ∧ B = .block f.address := by
  constructor
  · rintro ⟨hf, hmin⟩
    obtain ⟨hfm, b, hb, rfl⟩ := h.holds_iff.1 hf
    obtain ⟨⟨x, hx, rfl, hl⟩, hle, -⟩ := id hb
    have hxf : f.address ≤ x.address :=
      hmin x (h.holds_iff.2 ⟨hx, _, Routine.inBlock_self hx hl, rfl⟩)
    obtain rfl : x = f := Routine.eq_of_address hx hfm (BitVec.le_antisymm hle hxf)
    exact ⟨hx, hl, rfl⟩
  · rintro ⟨hf, hl, rfl⟩
    refine ⟨h.holds_iff.2 ⟨hf, _, Routine.inBlock_self hf hl, rfl⟩, fun j hj => ?_⟩
    obtain ⟨-, b, hb, he⟩ := h.holds_iff.1 hj
    rw [BlockPtr.block.inj he]
    exact hb.2.1

theorem lastOf_iff (h : Scan r r.instructions r.instructions g) :
    r.LastOf g A l ↔ l ∈ r.instructions ∧ r.Final l ∧ ∃ a, r.InBlock a l ∧ A = .block a := by
  constructor
  · rintro ⟨hl, hmax⟩
    obtain ⟨hlm, a, ha, rfl⟩ := h.holds_iff.1 hl
    refine ⟨hlm, fun j hj hjl => ?_, a, ha, rfl⟩
    by_contra hlead
    obtain ⟨pre, post, hsplit⟩ := Routine.split_of_next hlm hj hjl.symm
    have hja : r.InBlock a j := (Routine.inBlock_next hsplit hlead).2 ha
    have hle := hmax j (h.holds_iff.2 ⟨hj, a, hja, rfl⟩)
    have hlt : l.address < j.address := hjl ▸ r.forward l hlm
    rw [BitVec.le_def] at hle
    rw [BitVec.lt_def] at hlt
    omega
  · rintro ⟨hl, hf, a, ha, rfl⟩
    refine ⟨h.holds_iff.2 ⟨hl, a, ha, rfl⟩, fun j hj => ?_⟩
    obtain ⟨hjm, b, hb, he⟩ := h.holds_iff.1 hj
    rw [← BlockPtr.block.inj he] at hb
    exact Routine.le_of_final hf ha hl hb hjm

/-- A block is a predecessor of what its last instruction contributes to. -/
theorem preds_last (h : Scan r r.instructions r.instructions g) (hl : l ∈ r.instructions)
    (hf : r.Final l) (ha : r.InBlock a l) (hB : B.inRoutine) :
    .block a ∈ (g.heap B).predecessors ↔ r.Contributes r.instructions l a B := by
  rw [h.preds B hB]
  constructor
  · rintro ⟨i, hi, b, hb, he, hc⟩
    rw [← BlockPtr.block.inj he] at hb hc
    have hil := Routine.le_of_final hf ha hl hb hi
    have hli := Routine.le_of_final (Routine.final_of_contributes hc) hb hi ha hl
    rwa [Routine.eq_of_address hl hi (BitVec.le_antisymm hli hil)]
  · exact fun hc => ⟨l, hl, a, ha, rfl, hc⟩

end Scan

/-! ## Exactness -/

namespace Routine

variable {r : Routine w} {l f : FlowINS w} {a : ADDRINT w}

/-- What the last instruction of a block contributes is what it can pass control to. -/
def ExactAt (r : Routine w) (l : FlowINS w) (a : ADDRINT w) : Prop :=
  (∀ f ∈ r.instructions, r.Leader f →
    (r.Contributes r.instructions l a (.block f.address) ↔ l.Passes f.address)) ∧
  (r.Contributes r.instructions l a .returnBlock ↔ l.kind = .ret)

/-- A transfer behind the first instruction. -/
theorem contributes_transfer {n : ADDRINT w} {B : BlockPtr w} (he : r.Ends l) (hn : r.Next l n) :
    r.Contributes r.instructions l a B ↔ l.Enters n a B := by
  constructor
  · rintro (⟨-, m, hm, hB⟩ | ⟨hne, -⟩)
    · exact hm.unique hn ▸ hB
    · exact absurd he hne
  · exact fun hB => .inl ⟨he, n, hn, hB⟩

/-- Any other instruction goes on to the next. -/
theorem contributes_plain (he : ¬ r.Ends l) (hf : f ∈ r.instructions) (hl : r.Leader f) :
    r.Contributes r.instructions l a (.block f.address) ↔ f.address = l.nextAddress := by
  constructor
  · rintro (⟨h, -⟩ | ⟨-, hB, -⟩)
    · exact absurd h he
    · exact BlockPtr.block.inj hB
  · exact fun h => .inr ⟨he, congrArg _ h, f, hf, h, hl⟩

theorem not_contributes_return (he : ¬ r.Ends l) :
    ¬ r.Contributes r.instructions l a .returnBlock := by
  rintro (⟨h, -⟩ | ⟨-, hB, -⟩)
  · exact he h
  · cases hB

/-- The last instruction is no call. -/
theorem Next.eq_nextAddress {n : ADDRINT w} (hn : r.Next l n) (hcall : l.kind.isCall) :
    n = l.nextAddress := by
  obtain ⟨pre, post, hsplit, rfl⟩ := hn
  cases post with
  | nil =>
    have hlast : r.instructions.getLast (List.cons_ne_nil _ _) = l := by
      simp only [hsplit, List.getLast_append_singleton]
    have hno := r.calls
    change (r.instructions.getLast _).kind.isCall = false at hno
    rw [hlast, hcall] at hno
    cases hno
  | cons k post => exact (next_of_split hsplit).symm

theorem exactAt_of_ne_jump (hl : l ∈ r.rest) (hk : ∀ target, l.kind ≠ .jump target) :
    r.ExactAt l a := by
  obtain ⟨n, hn⟩ := exists_next (rest_subset hl)
  have htransfer : l.kind.isTransfer → ∀ B, r.Contributes r.instructions l a B ↔ l.Enters n a B :=
    fun ht B => contributes_transfer ⟨hl, ht⟩ hn
  have hcall : l.kind.isCall → ∀ B, l.Enters n a B ↔ l.Enters l.nextAddress a B := fun hc B => by
    rw [hn.eq_nextAddress hc]
  unfold ExactAt FlowINS.Passes
  cases hkind : l.kind with
  | other =>
    have he : ¬ r.Ends l := fun he => by
      have ht := he.2
      rw [hkind] at ht
      cases ht
    refine ⟨fun f hf hfl => contributes_plain he hf hfl, ?_⟩
    simp [not_contributes_return he]
  | jump target => exact absurd hkind (hk target)
  | call fall | indirectCall fall =>
    rw [hkind] at htransfer hcall
    simp only [htransfer rfl, hcall rfl]
    simp [FlowINS.Enters, hkind]
  | conditionalBranch target | indirectJump | ret =>
    rw [hkind] at htransfer
    simp only [htransfer rfl]
    simp [FlowINS.Enters, hkind]

/-- A jump to the beginning of its block enters the next block, too. -/
theorem exactAt_jump {target : ADDRINT w} (hl : l ∈ r.rest) (hk : l.kind = .jump target)
    (ha : r.InBlock a l) :
    r.ExactAt l a ↔ (target = a → ∀ j ∈ r.instructions, j.address ≠ l.nextAddress) := by
  have hlm := rest_subset hl
  obtain ⟨n, hn⟩ := exists_next hlm
  have he : r.Ends l := ⟨hl, by rw [hk]; rfl⟩
  have hforward := r.forward l hlm
  have hle := ha.2.1
  rw [BitVec.lt_def] at hforward
  rw [BitVec.le_def] at hle
  unfold ExactAt FlowINS.Passes
  simp only [contributes_transfer he hn, FlowINS.Enters, hk]
  constructor
  · rintro ⟨hblocks, -⟩ rfl j hj hjl
    have hnext : n = j.address := by
      rcases hn.cases with ⟨hnl, -⟩ | ⟨-, hno⟩
      · exact hnl.trans hjl.symm
      · exact absurd hjl (hno j hj)
    have hjt := (hblocks j hj (leader_of_transfer hl he.2 hjl.symm)).1 (.inr ⟨rfl, hnext.symm⟩)
    rw [← hjl, hjt] at hforward
    omega
  · intro hself
    refine ⟨fun f hf _ => ⟨?_, .inl⟩, by simp⟩
    rintro (h | ⟨ht, hfn⟩)
    · exact h
    · have hno := hself ht
      rcases hn.cases with ⟨-, j, hj, hjl⟩ | ⟨hinv, -⟩
      · exact absurd hjl (hno j hj)
      · exact absurd (hfn.trans hinv) (r.invalid_ne.2 f hf)

theorem marks_of_passes (h : l.Passes a) : l.Marks a ∨ a = l.nextAddress := by
  unfold FlowINS.Passes at h
  unfold FlowINS.Marks
  cases hk : l.kind with
  | conditionalBranch target =>
    rw [hk] at h
    exact .inl h
  | jump target =>
    rw [hk] at h
    exact .inl h
  | indirectJump | ret =>
    rw [hk] at h
    exact h.elim
  | _ =>
    rw [hk] at h
    exact .inr h

/-- Control passes to the beginning of a block where one ends. -/
theorem leader_of_passes (hl : l ∈ r.instructions) (hf : r.Final l) (hj : f ∈ r.instructions)
    (hp : l.Passes f.address) : r.Leader f := by
  rcases marks_of_passes hp with hm | hn
  · exact .inr (.inl ⟨l, hl, hm⟩)
  · exact hf f hj hn

/-- The second pass does not look at the kind of the first instruction. -/
theorem exactAt_first (hf : r.Final r.firstIns) :
    r.ExactAt r.firstIns a ↔ r.firstIns.kind ≠ .ret ∧
      ∀ j ∈ r.instructions, r.firstIns.Passes j.address ↔ j.address = r.firstIns.nextAddress := by
  have he : ¬ r.Ends r.firstIns := fun he => first_notMem_rest he.1 rfl
  have hret : (r.Contributes r.instructions r.firstIns a .returnBlock ↔ r.firstIns.kind = .ret) ↔
      r.firstIns.kind ≠ .ret := by
    simp [not_contributes_return he]
  unfold ExactAt
  rw [hret, and_comm]
  refine and_congr_right fun _ => ⟨fun h j hj => ⟨fun hp => ?_, fun hn => ?_⟩, fun h j hj hl => ?_⟩
  · have hl := leader_of_passes first_mem hf hj hp
    exact (contributes_plain he hj hl).1 ((h j hj hl).2 hp)
  · exact (h j hj (hf j hj hn)).1 ((contributes_plain he hj (hf j hj hn)).2 hn)
  · rw [contributes_plain he hj hl, h j hj]

/-- The block of the first instruction ends there where the next instruction is a target. -/
theorem final_first : r.Final r.firstIns ↔
    ∀ j ∈ r.instructions, j.address = r.firstIns.nextAddress → r.Targeted j.address := by
  refine forall₂_congr fun j hj => ⟨fun h hn => ?_, fun h hn => .inr (.inl (h hn))⟩
  obtain ⟨pre, post, hsplit⟩ := split_of_next first_mem hj hn.symm
  exact ((leader_next hsplit).1 (h hn)).resolve_left fun he => first_notMem_rest he.1 rfl

/-- Exactness, block by block. -/
theorem regular_iff : r.Regular ↔
    ∀ l ∈ r.instructions, r.Final l → ∀ a, r.InBlock a l → r.ExactAt l a := by
  constructor
  · rintro ⟨hfirst, hself⟩ l hl hf a ha
    rcases List.mem_cons.1 hl with rfl | hl
    · exact (exactAt_first hf).2 (hfirst (final_first.1 hf))
    · by_cases hk : ∀ target, l.kind ≠ .jump target
      · exact exactAt_of_ne_jump hl hk
      · push Not at hk
        obtain ⟨target, hk⟩ := hk
        exact (exactAt_jump hl hk ha).2 fun ht => hself l hl target hk (ht ▸ ha)
  · intro h
    refine ⟨fun hfirst => ?_, fun l hl target hk ht => ?_⟩
    · have hf := final_first.2 hfirst
      exact (exactAt_first hf).1 (h _ first_mem hf _ (inBlock_self first_mem leader_first))
    · have hf : r.Final l := fun j _ hj => leader_of_transfer hl (by rw [hk]; rfl) hj.symm
      exact (exactAt_jump hl hk ht).1 (h l (rest_subset hl) hf _ ht) rfl

/-- A routine without jumps that begins with no transfer. -/
theorem Regular.of_plain (hfirst : r.firstIns.kind = .other)
    (hjump : ∀ i ∈ r.rest, ∀ target, i.kind ≠ .jump target) : r.Regular where
  firstIns _ := by
    refine ⟨by simp [hfirst], fun j hj => ?_⟩
    rw [FlowINS.Passes, hfirst]
  selfLoop i hi target hk := absurd hk (hjump i hi target)

end Routine

theorem Scan.exact_iff {r : Routine w} {g : Blocks w}
    (h : Scan r r.instructions r.instructions g) : r.EdgesExact g ↔ r.Regular := by
  rw [Routine.regular_iff]
  constructor
  · intro hexact l hl hf a ha
    obtain ⟨hblocks, hret⟩ := hexact _ l (h.lastOf_iff.2 ⟨hl, hf, a, ha, rfl⟩)
    refine ⟨fun f hfm hfl => ?_, ?_⟩
    · have hpreds := hblocks _ f (h.firstOf_iff.2 ⟨hfm, hfl, rfl⟩)
      rwa [h.preds_last (B := .block _) hl hf ha trivial] at hpreds
    · rwa [h.preds_last (B := .returnBlock) hl hf ha trivial] at hret
  · rintro hexact A l hlast
    obtain ⟨hl, hf, a, ha, rfl⟩ := h.lastOf_iff.1 hlast
    obtain ⟨hblocks, hret⟩ := hexact l hl hf a ha
    refine ⟨fun B f hfirst => ?_, ?_⟩
    · obtain ⟨hfm, hfl, rfl⟩ := h.firstOf_iff.1 hfirst
      rw [h.preds_last (B := .block _) hl hf ha trivial]
      exact hblocks f hfm hfl
    · rw [h.preds_last (B := .returnBlock) hl hf ha trivial]
      exact hret

/-- `BlockBuilder` finds the edges of a routine if and only if it is regular. -/
theorem edgesExact_iff (r : Routine w) : ∃ g,
    routineBlocks r.invalid r.firstIns r.rest = some g ∧ (r.EdgesExact g ↔ r.Regular) := by
  obtain ⟨g, hg, hscan⟩ := Scan.routineBlocks r
  exact ⟨g, hg, hscan.exact_iff⟩

/-- A loop that is entered at its condition: a jump to the conditional branch behind the body. -/
def whileLoop : Routine 32 where
  firstIns := ⟨0x100, 0x102, .jump 0x104⟩
  rest := [⟨0x102, 0x104, .other⟩, ⟨0x104, 0x106, .conditionalBranch 0x102⟩, ⟨0x106, 0x107, .ret⟩]
  invalid := 0
  width := by decide
  increasing := by decide
  contiguous := by decide
  forward := by decide
  possible := by
    simp only [List.forall_mem_cons, FlowKind.target?, Option.mem_def, Option.some.injEq,
      forall_eq', reduceCtorEq, false_implies, implies_true]
    decide
  calls := by decide
  invalid_ne := by decide

theorem routineBlocks_whileLoop :
    (routineBlocks whileLoop.invalid whileLoop.firstIns whileLoop.rest).map (fun g =>
      (whileLoop.instructions.map fun i => g.addressMap i.address,
        (g.heap (.block 0x104)).predecessors)) =
    some ([some (.block 0x100), some (.block 0x102), some (.block 0x104), some (.block 0x106)],
      [.block 0x102]) := by
  decide

/-- The entrance block is no predecessor of the condition. -/
theorem edgesExact_whileLoop : ∃ g,
    routineBlocks whileLoop.invalid whileLoop.firstIns whileLoop.rest = some g ∧
      ¬ whileLoop.EdgesExact g := by
  obtain ⟨g, hg, hvalues⟩ := Option.map_eq_some_iff.1 routineBlocks_whileLoop
  simp only [whileLoop, Routine.instructions, List.map_cons, List.map_nil, Prod.mk.injEq,
    List.cons.injEq, and_true] at hvalues
  obtain ⟨⟨h₀, h₁, h₂, h₃⟩, hpreds⟩ := hvalues
  -- every instruction is a block of its own
  have hholds : ∀ A i, whileLoop.Holds g A i → A = .block i.address := by
    rintro A i ⟨hi, ha⟩
    simp only [whileLoop, Routine.instructions, List.mem_cons, List.not_mem_nil, or_false] at hi
    rcases hi with rfl | rfl | rfl | rfl
    · exact Option.some.inj (ha.symm.trans h₀)
    · exact Option.some.inj (ha.symm.trans h₁)
    · exact Option.some.inj (ha.symm.trans h₂)
    · exact Option.some.inj (ha.symm.trans h₃)
  have hlast : whileLoop.LastOf g (.block 0x100) ⟨0x100, 0x102, .jump 0x104⟩ :=
    ⟨⟨List.mem_cons_self, h₀⟩, fun j hj =>
      BlockPtr.block.inj (hholds _ j hj) ▸ BitVec.le_refl _⟩
  have hfirst : whileLoop.FirstOf g (.block 0x104) ⟨0x104, 0x106, .conditionalBranch 0x102⟩ :=
    ⟨⟨by simp [Routine.instructions, whileLoop], h₂⟩, fun j hj =>
      BlockPtr.block.inj (hholds _ j hj) ▸ BitVec.le_refl _⟩
  refine ⟨g, hg, fun hexact => ?_⟩
  have hmem := ((hexact _ _ hlast).1 _ _ hfirst).2 rfl
  rw [hpreds] at hmem
  revert hmem
  decide

end Dytan
