import Dytan.Tool.Graph.Routine

/-!
# The edges `BranchIns` adds

`Blocks.Adds`: the blocks after an operation that makes a block a predecessor of others; only the
blocks of the routine and the return block count. `FlowINS.Enters` says of which blocks `BranchIns`
makes the current block a predecessor, and `branchIns_adds` that it does so.
-/

namespace Dytan

variable {w : Nat}

/-! ## What an operation adds -/

/-- A block of the routine or the return block. -/
def BlockPtr.inRoutine : BlockPtr w → Prop
  | .block _ | .returnBlock => True
  | .calledFunction _ | .indirectTarget _ => False

/-- The blocks a transfer becomes a predecessor of, in a block that begins at `start`. -/
def FlowINS.Enters (ins : FlowINS w) (nextIns start : ADDRINT w) : BlockPtr w → Prop
  | .block b =>
    match ins.kind with
    | .conditionalBranch target => b = target ∨ b = ins.nextAddress
    | .jump target => b = target ∨ target = start ∧ b = nextIns
    | .call _ | .indirectCall _ => b = nextIns
    | .indirectJump | .ret | .other => False
  | .returnBlock => ins.kind = .ret
  | _ => False

namespace Blocks

/-- A block allocated at `a` is that of `a`. -/
def Free (g : Blocks w) (a : ADDRINT w) : Prop :=
  g.addressMap a = none ∨ g.addressMap a = some (.block a)

/-- `g'` is `g` with `p` as a new predecessor of the blocks in `D`, and blocks allocated. -/
structure Adds (g g' : Blocks w) (p : BlockPtr w) (D : BlockPtr w → Prop) : Prop where
  preds : ∀ B, B.inRoutine → ∀ x,
    x ∈ (g'.heap B).predecessors ↔ x ∈ (g.heap B).predecessors ∨ x = p ∧ D B
  starting : ∀ a, (g'.heap (.block a)).startingAddress = (g.heap (.block a)).startingAddress
  addressMap : ∀ a, g'.addressMap a = g.addressMap a ∨
    g.addressMap a = none ∧ g'.addressMap a = some (.block a)

variable {g g' g'' : Blocks w} {p B : BlockPtr w} {D D' : BlockPtr w → Prop} {a : ADDRINT w}

@[simp] theorem heap_modify {f : BasicBlock (BlockPtr w) w → BasicBlock (BlockPtr w) w} :
    (g.modify B f).heap = g.heap.modify B f := rfl

@[simp] theorem addressMap_modify {f : BasicBlock (BlockPtr w) w → BasicBlock (BlockPtr w) w} :
    (g.modify B f).addressMap = g.addressMap := rfl

theorem Adds.free (h : Adds g g' p D) (hf : g.Free a) : g'.Free a := by
  rcases h.addressMap a with he | ⟨-, he⟩
  · rw [Free, he]
    exact hf
  · exact .inr he

theorem Adds.trans (h : Adds g g' p D) (h' : Adds g' g'' p D') :
    Adds g g'' p (fun B => D B ∨ D' B) where
  preds B hB x := by rw [h'.preds B hB, h.preds B hB, or_assoc, ← and_or_left]
  starting a := (h'.starting a).trans (h.starting a)
  addressMap a := by
    rcases h.addressMap a with he | ⟨hn, he⟩
    · rw [← he]
      exact h'.addressMap a
    · rcases h'.addressMap a with he' | ⟨hn', -⟩
      · exact .inr ⟨hn, he'.trans he⟩
      · rw [he] at hn'
        cases hn'

theorem Adds.congr (h : Adds g g' p D) (hD : ∀ B, B.inRoutine → (D B ↔ D' B)) :
    Adds g g' p D' where
  preds B hB x := by rw [h.preds B hB, hD B hB]
  starting := h.starting
  addressMap := h.addressMap

/-- A change to a block that leaves its predecessors and its beginning alone. -/
theorem Adds.modify {f : BasicBlock (BlockPtr w) w → BasicBlock (BlockPtr w) w}
    (hp : ∀ b, (f b).predecessors = b.predecessors)
    (hs : ∀ b, (f b).startingAddress = b.startingAddress) :
    Adds g (g.modify B f) p (fun _ => False) where
  preds B' _ x := by
    rw [heap_modify, Heap.modify_field BasicBlock.predecessors hp]
    simp
  starting _ := Heap.modify_field BasicBlock.startingAddress hs _ _ _
  addressMap _ := .inl rfl

theorem Adds.setEnding : Adds g (g.modify B (·.setEnding a)) p (fun _ => False) :=
  .modify (fun _ => rfl) fun _ => rfl

theorem Adds.insertSuccs {b : BlockPtr w} :
    Adds g (g.modify B (·.insertSuccs b)) p (fun _ => False) :=
  .modify (fun _ => rfl) fun _ => rfl

/-- A change to a block that stands for something outside the routine. -/
theorem Adds.outside {f : BasicBlock (BlockPtr w) w → BasicBlock (BlockPtr w) w}
    (hB : ¬ B.inRoutine) : Adds g (g.modify B f) p (fun _ => False) where
  preds B' hB' x := by
    have hne : B' ≠ B := fun he => hB (he ▸ hB')
    rw [heap_modify, Heap.modify_of_ne _ _ hne]
    simp
  starting a := by
    have hne : .block a ≠ B := fun he => hB (he ▸ trivial)
    rw [heap_modify, Heap.modify_of_ne _ _ hne]
  addressMap _ := .inl rfl

theorem Adds.insertPreds (hB : B.inRoutine) :
    Adds g (g.modify B (·.insertPreds p)) p (· = B) where
  preds B' _ x := by
    by_cases hne : B' = B
    · subst hne
      rw [heap_modify, Heap.modify_same]
      unfold BasicBlock.insertPreds
      dsimp only
      split
      · rename_i hp
        constructor
        · exact .inl
        · rintro (hx | ⟨rfl, -⟩)
          · exact hx
          · exact hp
      · simp
    · rw [heap_modify, Heap.modify_of_ne _ _ hne]
      simp [hne]
  starting _ := Heap.modify_field BasicBlock.startingAddress (by intro _; rfl) _ _ _
  addressMap _ := .inl rfl

/-- `Get_BasicBlock_At`. -/
theorem getBasicBlockAt_spec (hf : g.Free a) :
    g.getBasicBlockAt a = (.block a, g.setAddress a (.block a)) := by
  unfold getBasicBlockAt
  rcases hf with hn | hs
  · rw [hn]
  · have hsame : g.setAddress a (.block a) = g := by rw [setAddress, ← hs, Function.update_eq_self]
    rw [hs, hsame]

theorem Adds.setAddress (hf : g.Free a) :
    Adds g (g.setAddress a (.block a)) p (fun _ => False) where
  preds _ _ _ := by simp [Blocks.setAddress]
  starting _ := rfl
  addressMap b := by
    by_cases hb : b = a
    · subst hb
      rcases hf with hn | hs
      · exact .inr ⟨hn, Function.update_self ..⟩
      · exact .inl ((Function.update_self ..).trans hs.symm)
    · exact .inl (Function.update_of_ne hb ..)

theorem predecessorAt_spec (hf : g.Free a) :
    ∃ g', g.predecessorAt a p = (.block a, g') ∧ Adds g g' p (· = .block a) := by
  refine ⟨_, by rw [predecessorAt, getBasicBlockAt_spec hf], ?_⟩
  have hblock : (BlockPtr.block a).inRoutine := trivial
  exact ((Adds.setAddress hf).trans (.insertPreds hblock)).congr fun B _ => by simp

/-! ## A transfer -/

theorem toNat_flag (hw : 3 ≤ w) {n : Nat} (hn : n < 6) : (BitVec.ofNat w n).toNat = n := by
  have hpow : 2 ^ 3 ≤ 2 ^ w := Nat.pow_le_pow_right (by decide) hw
  rw [BitVec.toNat_ofNat, Nat.mod_eq_of_lt (by omega)]

theorem flag_ne (hw : 3 ≤ w) {m n : Nat} (hm : m < 6) (hn : n < 6) (h : m ≠ n) :
    BitVec.ofNat w m ≠ BitVec.ofNat w n := by
  intro he
  have hmn := congrArg BitVec.toNat he
  rw [toNat_flag hw hm, toNat_flag hw hn] at hmn
  exact h hmn

/-- An address is no flag. -/
theorem flag_lt (hw : 3 ≤ w) {n : Nat} (hn : n < 6) {a : ADDRINT w} (ha : 5 < a) :
    n < a.toNat ∧ a ≠ BitVec.ofNat w n := by
  have h5 : (5 : ADDRINT w).toNat = 5 := toNat_flag hw (by decide)
  have hlt : (5 : ADDRINT w).toNat < a.toNat := ha
  refine ⟨by omega, fun he => ?_⟩
  have hn' : a.toNat = n := he ▸ toNat_flag hw hn
  omega

theorem not_flag (hw : 3 ≤ w) {a : ADDRINT w} (ha : 5 < a) : a ≠ 1 ∧ a ≠ 2 ∧ a ≠ 4 ∧ a ≠ 5 :=
  ⟨(flag_lt hw (by decide) ha).2, (flag_lt hw (by decide) ha).2, (flag_lt hw (by decide) ha).2,
    (flag_lt hw (by decide) ha).2⟩

variable {ins : FlowINS w} {branches : AddressSets w} {nextIns : ADDRINT w} {c : BlockPtr w}

/-- A flag is in front of the next address. -/
theorem withNext_of_lt {flag : ADDRINT w} (h : flag < ins.nextAddress) :
    ins.withNext flag = [flag, ins.nextAddress] := by
  rw [BitVec.lt_def] at h
  have hne : ins.nextAddress ≠ flag := fun he => by rw [he] at h; omega
  have hle : ¬ ins.nextAddress ≤ flag := fun he => by rw [BitVec.le_def] at he; omega
  rw [FlowINS.withNext, if_neg hne, if_neg hle]

theorem setAddress_modify {f : BasicBlock (BlockPtr w) w → BasicBlock (BlockPtr w) w}
    (h : g.addressMap a = some c) : (g.modify B f).setAddress a c = g.modify B f := by
  rw [Blocks.setAddress, addressMap_modify, ← h, Function.update_eq_self]
  rfl

/-- The two cases that make blocks for what is called, which are no blocks of the routine. -/
theorem branchIns_call {flag : ADDRINT w} {l : List (ADDRINT w)} {addr : ADDRINT w}
    (hflag : flag = 1 ∨ flag = 4 ∧ (4 : ADDRINT w) ≠ 1 ∧ (4 : ADDRINT w) ≠ 2)
    (hb : branches addr = flag :: l) (hmap : g.addressMap addr = some c) (hnext : g.Free nextIns) :
    ∃ g', g.branchIns branches addr nextIns c = some g' ∧ Adds g g' c (· = .block nextIns) := by
  have hcall : ¬ (BlockPtr.calledFunction addr).inRoutine := id
  have hindirect : ¬ (BlockPtr.indirectTarget addr).inRoutine := id
  unfold branchIns
  simp only [setAddress_modify hmap, hb]
  rcases hflag with rfl | ⟨rfl, h1, h2⟩
  · have hout : Adds g ((((g.modify c (·.setEnding addr)).modify (.calledFunction addr) fun block =>
        (block.setStarting 1).setEnding 1).modify c (·.insertSuccs (.calledFunction addr))).modify
        (.calledFunction addr) (·.insertPreds c)) c (fun _ => False) :=
      (((Adds.setEnding.trans (.outside hcall)).trans .insertSuccs).trans (.outside hcall)).congr
        fun _ _ => by simp
    obtain ⟨g', hg', hadds⟩ := predecessorAt_spec (p := c) (hout.free hnext)
    rw [if_pos rfl, hg']
    exact ⟨_, rfl, ((hout.trans hadds).trans (.outside hcall)).congr fun _ _ => by simp⟩
  · have hout : Adds g ((((g.modify c (·.setEnding addr)).modify (.indirectTarget addr) fun block =>
        (block.setStarting 4).setEnding 4).modify (.indirectTarget addr) (·.insertPreds c)).modify
        c (·.insertSuccs (.indirectTarget addr))) c (fun _ => False) :=
      (((Adds.setEnding.trans (.outside hindirect)).trans (.outside hindirect)).trans
        .insertSuccs).congr fun _ _ => by simp
    obtain ⟨g', hg', hadds⟩ := predecessorAt_spec (p := c) (hout.free hnext)
    rw [if_neg h1, if_neg h2, if_pos rfl, hg']
    exact ⟨_, rfl, ((hout.trans hadds).trans (.outside hindirect)).congr fun _ _ => by simp⟩

theorem branchIns_ret (nextIns : ADDRINT w) {l : List (ADDRINT w)} {addr : ADDRINT w} (h21 : (2 : ADDRINT w) ≠ 1)
    (hb : branches addr = 2 :: l) (hmap : g.addressMap addr = some c)
    (hreturn : g.addressMap 2 = some .returnBlock) :
    ∃ g', g.branchIns branches addr nextIns c = some g' ∧ Adds g g' c (· = .returnBlock) := by
  unfold branchIns
  simp only [setAddress_modify hmap, hb, if_neg h21, addressMap_modify, hreturn]
  have hblock : (BlockPtr.returnBlock : BlockPtr w).inRoutine := trivial
  exact ⟨_, rfl, ((Adds.setEnding.trans (.insertPreds hblock)).trans .insertSuccs).congr
    fun _ _ => by simp⟩

theorem branchIns_indirect (nextIns : ADDRINT w) {l : List (ADDRINT w)} {addr : ADDRINT w}
    (h5 : (5 : ADDRINT w) ≠ 1 ∧ (5 : ADDRINT w) ≠ 2 ∧ (5 : ADDRINT w) ≠ 4)
    (hb : branches addr = 5 :: l) (hmap : g.addressMap addr = some c) :
    ∃ g', g.branchIns branches addr nextIns c = some g' ∧ Adds g g' c (fun _ => False) := by
  have hout : ¬ (BlockPtr.indirectTarget addr).inRoutine := id
  unfold branchIns
  simp only [setAddress_modify hmap, hb, if_neg h5.1, if_neg h5.2.1, if_neg h5.2.2]
  exact ⟨_, rfl, (((Adds.setEnding.trans (.outside hout)).trans (.outside hout)).trans
    .insertSuccs).congr fun _ _ => by simp⟩

/-- A branch with one address: if it goes to the beginning of its block, the next instruction is
taken for the other address. -/
theorem branchIns_one {target addr : ADDRINT w}
    (hflag : target ≠ 1 ∧ target ≠ 2 ∧ target ≠ 4 ∧ target ≠ 5)
    (hb : branches addr = [target]) (hmap : g.addressMap addr = some (.block a))
    (hf : g.Free target) (hnext : g.Free nextIns) :
    ∃ g', g.branchIns branches addr nextIns (.block a) = some g' ∧ Adds g g' (.block a) fun B =>
      B = .block target ∨ target = (g.heap (.block a)).startingAddress ∧ B = .block nextIns := by
  have hend : Adds g (g.modify (.block a) (·.setEnding addr)) (.block a) (fun _ => False) := .setEnding
  obtain ⟨g₁, hg₁, h₁⟩ := predecessorAt_spec (p := .block a) (hend.free hf)
  have hsucc : Adds g (g₁.modify (.block a) (·.insertSuccs (.block target))) (.block a)
      (· = .block target) := ((hend.trans h₁).trans .insertSuccs).congr fun _ _ => by simp
  obtain ⟨g₂, hg₂, h₂⟩ := predecessorAt_spec (p := .block a) (hsucc.free hnext)
  unfold branchIns
  simp only [setAddress_modify hmap, hb, if_neg hflag.1, if_neg hflag.2.1, if_neg hflag.2.2.1,
    if_neg hflag.2.2.2, hg₁, hsucc.starting a]
  split_ifs with hstart
  · rw [hg₂]
    exact ⟨_, rfl, ((hsucc.trans h₂).trans .insertSuccs).congr fun _ _ => by simp [← hstart]⟩
  · exact ⟨_, rfl, hsucc.congr fun _ _ => by simp [hstart]⟩

theorem branchIns_two (nextIns : ADDRINT w) {x y : ADDRINT w} {addr : ADDRINT w}
    (hflag : x ≠ 1 ∧ x ≠ 2 ∧ x ≠ 4 ∧ x ≠ 5) (hb : branches addr = [x, y])
    (hmap : g.addressMap addr = some c) (hx : g.Free x) (hy : g.Free y) :
    ∃ g', g.branchIns branches addr nextIns c = some g' ∧
      Adds g g' c fun B => B = .block x ∨ B = .block y := by
  have hend : Adds g (g.modify c (·.setEnding addr)) c (fun _ => False) := .setEnding
  obtain ⟨g₁, hg₁, h₁⟩ := predecessorAt_spec (p := c) (hend.free hx)
  have hsucc : Adds g (g₁.modify c (·.insertSuccs (.block x))) c (· = .block x) :=
    ((hend.trans h₁).trans .insertSuccs).congr fun _ _ => by simp
  obtain ⟨g₂, hg₂, h₂⟩ := predecessorAt_spec (p := c) (hsucc.free hy)
  unfold branchIns
  simp only [setAddress_modify hmap, hb, if_neg hflag.1, if_neg hflag.2.1, if_neg hflag.2.2.1,
    if_neg hflag.2.2.2, hg₁, hg₂]
  exact ⟨_, rfl, ((hsucc.trans h₂).trans .insertSuccs).congr fun _ _ => by simp⟩

/-- What `BranchIns` adds at a transfer. -/
theorem branchIns_adds (hw : 3 ≤ w) (hmap : g.addressMap ins.address = some (.block a))
    (hreturn : g.addressMap 2 = some .returnBlock)
    (hb : branches ins.address = ins.branchSet) (ht : ins.kind.isTransfer)
    (htarget : ∀ target ∈ ins.kind.target?, 5 < target) (hnextAddress : 5 < ins.nextAddress)
    (hforward : ins.nextAddress ≠ (g.heap (.block a)).startingAddress)
    (hmarks : ∀ a, ins.Marks a → g.Free a) (hnext : g.Free nextIns) :
    ∃ g', g.branchIns branches ins.address nextIns (.block a) = some g' ∧
      Adds g g' (.block a) (ins.Enters nextIns (g.heap (.block a)).startingAddress) := by
  -- it is enough to know the blocks entered
  have henters : ∀ D : BlockPtr w → Prop,
      (∃ g', g.branchIns branches ins.address nextIns (.block a) = some g' ∧
        Adds g g' (.block a) D) →
      (∀ b, D (.block b) ↔ ins.Enters nextIns (g.heap (.block a)).startingAddress (.block b)) →
      (D .returnBlock ↔ ins.kind = .ret) →
      ∃ g', g.branchIns branches ins.address nextIns (.block a) = some g' ∧
        Adds g g' (.block a) (ins.Enters nextIns (g.heap (.block a)).startingAddress) := by
    rintro D ⟨g', hg', h⟩ hblock hret
    refine ⟨g', hg', h.congr fun B hB => ?_⟩
    cases B with
    | block b => exact hblock b
    | returnBlock => exact hret
    | calledFunction | indirectTarget => exact hB.elim
  have hcall : ∀ flag, flag = 1 ∨ flag = 4 → (∃ l, branches ins.address = flag :: l) →
      ∃ g', g.branchIns branches ins.address nextIns (.block a) = some g' ∧
        Adds g g' (.block a) (· = .block nextIns) := by
    rintro flag hflag ⟨l, hl⟩
    refine branchIns_call (hflag.imp_right fun he => ⟨he, ?_, ?_⟩) hl hmap hnext
    · exact flag_ne hw (by decide) (by decide) (by decide)
    · exact flag_ne hw (by decide) (by decide) (by decide)
  have hfirst : ∀ n < 5, ins.withNext (BitVec.ofNat w n) = [BitVec.ofNat w n, ins.nextAddress] := by
    intro n hn
    refine withNext_of_lt ?_
    rw [BitVec.lt_def, toNat_flag hw (by omega)]
    exact (flag_lt hw (by omega) hnextAddress).1
  unfold FlowINS.branchSet at hb
  cases hk : ins.kind with
  | other =>
    rw [hk] at ht
    cases ht
  | conditionalBranch target =>
    rw [hk] at hb
    have htf := not_flag hw (htarget target (by rw [hk]; rfl))
    have hft : g.Free target := hmarks target (by rw [FlowINS.Marks, hk]; exact .inl rfl)
    have hfn : g.Free ins.nextAddress := hmarks _ (by rw [FlowINS.Marks, hk]; exact .inr rfl)
    have hset : ∀ b, (ins.Enters nextIns (g.heap (.block a)).startingAddress (.block b)) ↔
        b = target ∨ b = ins.nextAddress := fun b => by rw [FlowINS.Enters, hk]
    dsimp only at hb
    unfold FlowINS.withNext at hb
    split_ifs at hb with he hle
    · refine henters _ (branchIns_one htf hb hmap hft hnext) (fun b => ?_) (by simp [hk])
      rw [hset]
      simp [← he, hforward]
    · refine henters _ (branchIns_two nextIns (not_flag hw hnextAddress) hb hmap hfn hft)
        (fun b => ?_) (by simp [hk])
      rw [hset]
      simp [or_comm]
    · refine henters _ (branchIns_two nextIns htf hb hmap hft hfn) (fun b => ?_) (by simp [hk])
      rw [hset]
      simp
  | jump target =>
    rw [hk] at hb
    have htf := not_flag hw (htarget target (by rw [hk]; rfl))
    have hft : g.Free target := hmarks target (by rw [FlowINS.Marks, hk])
    refine henters _ (branchIns_one htf hb hmap hft hnext) (fun b => ?_) (by simp [hk])
    simp [FlowINS.Enters, hk]
  | indirectJump =>
    rw [hk] at hb
    refine henters _ (branchIns_indirect nextIns ⟨?_, ?_, ?_⟩ hb hmap) (fun b => ?_) (by simp [hk])
    · exact flag_ne hw (by decide) (by decide) (by decide)
    · exact flag_ne hw (by decide) (by decide) (by decide)
    · exact flag_ne hw (by decide) (by decide) (by decide)
    · simp [FlowINS.Enters, hk]
  | call fall =>
    rw [hk] at hb
    refine henters _ (hcall 1 (.inl rfl) ?_) (fun b => ?_) (by simp [hk])
    · cases fall
      · exact ⟨_, hb⟩
      · exact ⟨_, hb.trans (hfirst 1 (by decide))⟩
    · simp [FlowINS.Enters, hk]
  | indirectCall fall =>
    rw [hk] at hb
    refine henters _ (hcall 4 (.inr rfl) ?_) (fun b => ?_) (by simp [hk])
    · cases fall
      · exact ⟨_, hb⟩
      · exact ⟨_, hb.trans (hfirst 4 (by decide))⟩
    · simp [FlowINS.Enters, hk]
  | ret =>
    rw [hk] at hb
    refine henters _ (branchIns_ret nextIns ?_ hb hmap hreturn) (fun b => ?_) (by simp [hk])
    · exact flag_ne hw (by decide) (by decide) (by decide)
    · simp [FlowINS.Enters, hk]

end Blocks

end Dytan
