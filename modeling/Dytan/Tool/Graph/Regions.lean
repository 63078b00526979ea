import Dytan.Tool.Graph.Activations

/-!
# Control taint in the region of a branch

The region of a branch goes from the branch to its immediate post-dominator. `controlTaintMap` is
keyed by the address of the branch, so all activations of the routine share its entry.

`Region.keeps_taint`: the marks of `EFLAGS` at a branch are part of the control taint until an
activation, be it the one that executed the branch or another, comes to the end of the region.
`Region.recursion_releases`: an activation nested in the region can come there first.
-/

namespace Dytan

open Lib.PostDom Relation

variable {w : Nat}

/-- The region of the branch at `b` ends at the instruction. -/
def Instrumented.AtEnd (rtn : Instrumented w) (b : ADDRINT w) (i : FlowINS w) : Prop :=
  ∃ k A D, rtn.Branch k A D ∧ k.address = b ∧ rtn.routine.FirstOf rtn.graph D i

/-- No activation is at the end of the region of the branch at `b`. -/
def InRegion (b : ADDRINT w) (c : Running w) : Prop := ∀ f ∈ c.1.head?, ¬ f.rtn.AtEnd b f.ins

/-- The activation number `depth` has not come to the end of the region. -/
def Pending (depth : Nat) (b : ADDRINT w) (c : Running w) : Prop :=
  ∃ f ∈ c.1.reverse[depth]?, ¬ f.rtn.AtEnd b f.ins

namespace Instrumented

variable {rtn : Instrumented w} {i k : FlowINS w} {b : ADDRINT w} {A D : BlockPtr w}

/-- `PopControl` releases a branch at the end of its region only. -/
theorem atEnd_iff (hi : i ∈ rtn.routine.instructions) :
    rtn.AtEnd b i ↔ b ∈ rtn.controls i.address := by
  constructor
  · rintro ⟨k, A, D, h, rfl, hf⟩
    exact h.mem_controls hf
  · intro hb
    obtain ⟨k, hk, hc, rfl, A, D, hA, hD, hstart⟩ :=
      ((controlflow_spec rtn.inserted).2 _ _).1 hb
    exact ⟨k, A, D, ⟨⟨hk, hA⟩, hc, hD⟩, rfl, rtn.correct.ends A k D ⟨hk, hA⟩ hD i hi hstart⟩

/-- The region of a branch does not end at the branch. -/
theorem not_atEnd_self (hi : i ∈ rtn.routine.instructions) : ¬ rtn.AtEnd i.address i := by
  rintro ⟨k, A, D, h, he, hf⟩
  obtain rfl := Routine.eq_of_address h.holds.1 hi he
  exact h.not_first hf

end Instrumented

/-! ## The entry of the branch -/

/-- The entry of the branch at `b` has the marks `E`. -/
def Taint.Carries (t : Taint w) (b : ADDRINT w) (E : Set ℕ) : Prop :=
  ∃ S, t.control b = some S ∧ E ⊆ S

section
variable {t : Taint w} {a b : ADDRINT w} {E : Set ℕ}

theorem Taint.Carries.active (h : t.Carries b E) : E ⊆ t.active := by
  obtain ⟨S, hS, hE⟩ := h
  exact fun m hm => ⟨b, S, hS, hE hm⟩

/-- `PushControl` adds to an entry. -/
theorem Taint.Carries.pushControl (h : t.Carries b E) : (t.pushControl a).Carries b E := by
  obtain ⟨S, hS, hE⟩ := h
  unfold Taint.pushControl
  split_ifs
  · exact ⟨S, hS, hE⟩
  · by_cases hb : b = a
    · subst hb
      refine ⟨_, Function.update_self .., hE.trans ?_⟩
      rw [hS]
      exact Set.subset_union_left
    · exact ⟨S, (Function.update_of_ne hb _ _).trans hS, hE⟩

theorem Taint.active_subset_setReg {dest : REG} {S : Set ℕ} (hesp : dest ≠ .ESP)
    (hebp : dest ≠ .EBP) : t.active ⊆ (t.setReg dest S).regMarks dest := by
  simp [Taint.setReg, Taint.regMarks, hesp, hebp]

theorem Taint.active_subset_setMem {addrs : List (ADDRINT w)} {S : Set ℕ} (ha : a ∈ addrs) :
    t.active ⊆ (t.setMem addrs S).memMarks a := by
  simp [Taint.setMem, Taint.memMarks, ha]

theorem Taint.carries_pushControl (hne : (t.regMarks .EFLAGS).Nonempty) :
    (t.pushControl a).Carries a (t.regMarks .EFLAGS) := by
  unfold Taint.pushControl
  rw [if_neg hne.ne_empty]
  exact ⟨_, Function.update_self .., Set.subset_union_right⟩

end

section
variable {n : Nat} {b : ADDRINT w} {E : Set ℕ} {st st' : TaintState w} {i : FlowINS w}

theorem pushBefore_gives (hok : st.WidthOk n) (h : st.pushBefore i = some st') :
    st'.WidthOk n ∧ st'.taint =
      if i.kind.isConditional then st.taint.pushControl i.address else st.taint := by
  unfold TaintState.pushBefore at h
  split_ifs at h ⊢
  · obtain ⟨st₁, hst, hok₁, ht⟩ := TaintState.pushControl_gives hok i.address
    obtain rfl := Option.some.inj (h.symm.trans hst)
    exact ⟨hok₁, ht⟩
  · obtain rfl := Option.some.inj h
    exact ⟨hok, rfl⟩

/-- The calls before an instruction that is not at the end of the region. -/
theorem controlBefore_carries {rtn : Instrumented w} (hi : i ∈ rtn.routine.instructions)
    (hok : st.WidthOk n) (h : st.controlBefore rtn.controls i = some st')
    (hend : ¬ rtn.AtEnd b i)
    (hentry : st.taint.Carries b E ∨ i.kind.isConditional ∧ i.address = b ∧ E.Nonempty ∧
      E = st.taint.regMarks .EFLAGS) : st'.WidthOk n ∧ st'.taint.Carries b E := by
  obtain ⟨st₁, hpush, hpop⟩ := Option.bind_eq_some_iff.1 h
  obtain rfl := Option.some.inj hpop
  obtain ⟨hok₁, ht₁⟩ := pushBefore_gives hok hpush
  have hcarries : st₁.taint.Carries b E := by
    rw [ht₁]
    rcases hentry with hentry | ⟨hc, rfl, hne, rfl⟩
    · split_ifs
      · exact hentry.pushControl
      · exact hentry
    · rw [if_pos hc]
      exact Taint.carries_pushControl hne
  have hb : b ∉ rtn.controls i.address := fun hb => hend ((Instrumented.atEnd_iff hi).2 hb)
  split_ifs
  · exact ⟨hok₁, hcarries⟩
  · obtain ⟨st₂, hst, hok₂, -⟩ := TaintState.popControl_gives hok₁ (rtn.controls i.address)
    obtain rfl := Option.some.inj hst
    obtain ⟨S, hS, hE⟩ := hcarries
    refine ⟨hok₂, S, ?_, hE⟩
    rw [TaintState.taint_control, TaintState.popControl_of_notMem hb]
    exact hS

end

/-! ## The routine with a call under a branch -/

theorem taintedFlags_ok : taintedFlags.WidthOk 1 := by
  have hok : Bitset.Ok 1 ⟨[1], 1⟩ := (Bitset.single_spec (by decide) (by decide)).1
  refine ⟨fun r s hs => ?_, nofun, fun a s hs => ?_, fun _ => Bitset.init_ok 1, rfl⟩
  · by_cases hr : r = .EFLAGS
    · subst hr
      obtain rfl := Option.some.inj hs
      exact hok
    · simp [taintedFlags, Function.update_of_ne hr] at hs
  · simp [taintedFlags] at hs

/-- The branch at 11 has its entry, but `EFLAGS` is no longer tainted. -/
def untaintedFlags : TaintState 32 := { taintedBranch with regTaintMap := fun _ => none }

theorem untaintedFlags_ok : untaintedFlags.WidthOk 1 := by
  obtain ⟨st, hst, hok, -⟩ := TaintState.pushControl_gives taintedFlags_ok 0x11
  obtain rfl : taintedBranch = st := Option.some.inj hst
  exact ⟨nofun, hok.mem, hok.control, hok.scratch, hok.marks⟩

theorem popControl_untaintedFlags (a : ADDRINT 32) :
    (untaintedFlags.popControl [0x11]).controlTaintMap[a]? = none := by
  have hmem : (0x11 : ADDRINT 32) ∈ untaintedFlags.controlTaintMap := by
    simp [untaintedFlags, taintedBranch, TaintState.withControl]
  rw [TaintState.popControl_cons hmem]
  simp only [TaintState.popControl, getElem?_erase_eq, untaintedFlags, taintedBranch,
    TaintState.withControl, getElem?_insert_eq]
  split_ifs
  · rfl
  · rfl

/-! ## Runs in the region -/

namespace Region

variable {n : Nat} {b : ADDRINT w} {E : Set ℕ} {c c' : Running w}

/-- What a step in the region keeps. -/
theorem step (hok : c.2.WidthOk n) (h : c.2.taint.Carries b E)
    (hstep : StepsWhile n (InRegion b) c c') : c'.2.WidthOk n ∧ c'.2.taint.Carries b E := by
  rcases hstep with ⟨-, hmap, hok'⟩ | ⟨hin, hex⟩
  · refine ⟨hok', ?_⟩
    unfold Taint.Carries
    rw [TaintState.taint_control, hmap]
    exact h
  · obtain ⟨f, hf, hst⟩ := hex.taint
    exact controlBefore_carries f.mem hok hst (hin f hf) (.inl h)

/-- In the region the marks are control taint, which goes to every destination but `ESP` and `EBP`. -/
theorem keeps_taint {f : Frame w} {rest : List (Frame w)} {st : TaintState w} {c₁ c : Running w}
    (hok : st.WidthOk n) (hcond : f.ins.kind.isConditional)
    (hE : (st.taint.regMarks .EFLAGS).Nonempty) (hex : Executes (f :: rest, st) c₁)
    (hrun : ReflTransGen (StepsWhile n (InRegion f.ins.address)) c₁ c) :
    st.taint.regMarks .EFLAGS ⊆ c.2.taint.active ∧
    (∀ dest args, dest ≠ .ESP → dest ≠ .EBP → (∀ s ∈ args, Bitset.Ok n s) →
      ∃ st', c.2.setTaintForRegister dest args = some st' ∧
        st.taint.regMarks .EFLAGS ⊆ st'.taint.regMarks dest) ∧
    ∀ start size args, (∀ s ∈ args, Bitset.Ok n s) →
      ∃ st', c.2.setTaintForMemory start size args = some st' ∧
        ∀ a ∈ addrRange start (start + size),
          st.taint.regMarks .EFLAGS ⊆ st'.taint.memMarks a := by
  have hfirst : c₁.2.WidthOk n ∧
      c₁.2.taint.Carries f.ins.address (st.taint.regMarks .EFLAGS) := by
    obtain ⟨f', hf, hst⟩ := hex.taint
    obtain rfl := Option.some.inj hf
    exact controlBefore_carries f.mem hok hst (f.rtn.not_atEnd_self f.mem)
      (.inr ⟨hcond, rfl, hE, rfl⟩)
  have hlast : c.2.WidthOk n ∧ c.2.taint.Carries f.ins.address (st.taint.regMarks .EFLAGS) := by
    induction hrun with
    | refl => exact hfirst
    | tail _ hstep ih => exact step ih.1 ih.2 hstep
  obtain ⟨hok', hcarries⟩ := hlast
  have hactive := hcarries.active
  refine ⟨hactive, fun dest args hesp hebp ha => ?_, fun start size args ha => ?_⟩
  · obtain ⟨st', hst, -, ht⟩ := TaintState.setTaintForRegister_gives hok' dest ha
    refine ⟨st', hst, ?_⟩
    rw [ht]
    exact hactive.trans (Taint.active_subset_setReg hesp hebp)
  · obtain ⟨st', hst, -, ht⟩ := TaintState.setTaintForMemory_gives hok' start size ha
    refine ⟨st', hst, fun a haddr => ?_⟩
    rw [ht]
    exact hactive.trans (Taint.active_subset_setMem haddr)

/-- The callee is not instrumented. -/
theorem keeps_taint_called : ∃ (f : Frame 32) (c₁ c : Running 32), f.ins.address = 0x11 ∧
    Executes ([f], taintedFlags) c₁ ∧ ReflTransGen (StepsWhile 1 (InRegion 0x11)) c₁ c ∧
    taintedFlags.taint.regMarks .EFLAGS ⊆ c.2.taint.active := by
  obtain ⟨rtn, hr, -, hcontrols⟩ := instrumented_callUnderBranch
  have hmem : ∀ i ∈ callUnderBranch.instructions, i ∈ rtn.routine.instructions :=
    fun i hi => rtn.mem_of_routine hr hi
  have h11 := hmem ⟨0x11, 0x13, .conditionalBranch 0x15⟩ (by decide)
  have h13 := hmem ⟨0x13, 0x14, .call true⟩ (by decide)
  have h14 := hmem ⟨0x14, 0x15, .other⟩ (by decide)
  have hc11 : rtn.controls 0x11 = [] :=
    hcontrols ⟨0x11, 0x13, .conditionalBranch 0x15⟩ (by decide)
  have hc13 : rtn.controls 0x13 = [] := hcontrols ⟨0x13, 0x14, .call true⟩ (by decide)
  have hbranch : Executes ([⟨rtn, _, h11⟩], taintedFlags) ([⟨rtn, _, h13⟩], taintedBranch) :=
    @Executes.pass 32 ⟨rtn, _, h11⟩ [] _ _ _ h13 (TaintState.controlBefore_of_nil rfl hc11)
      (.inr rfl)
  have hin : InRegion 0x11 ([⟨rtn, _, h13⟩], taintedBranch) := by
    intro f hf hend
    obtain rfl := Option.some.inj hf
    exact absurd ((Instrumented.atEnd_iff h13).1 hend) (hc13 ▸ List.not_mem_nil)
  have hrun : ReflTransGen (StepsWhile 1 (InRegion 0x11)) ([⟨rtn, _, h13⟩], taintedBranch)
      ([⟨rtn, _, h14⟩], taintedBranch) :=
    .single (.pass h13 h14 hin (TaintState.controlBefore_of_nil rfl hc13) rfl)
  have hE : (taintedFlags.taint.regMarks .EFLAGS).Nonempty := ⟨0, rfl⟩
  exact ⟨_, _, _, rfl, hbranch, hrun, (keeps_taint taintedFlags_ok rfl hE hbranch hrun).1⟩

/-- The routine calls itself under the branch, and the inner activation, with `EFLAGS` not tainted
any more, comes to the end of the region first. -/
theorem recursion_releases : ∃ (rtn : Instrumented 32) (f : Frame 32) (c₁ c : Running 32),
    rtn.routine = callUnderBranch ∧ routineGraph 6 6 callUnderBranch = some rtn.graph ∧
    ReflTransGen (StepsWhile 1 fun _ => True) ([rtn.enter], taintedFlags) ([f], taintedFlags) ∧
    f.ins.kind.isConditional ∧ (taintedFlags.taint.regMarks .EFLAGS).Nonempty ∧
    Executes ([f], taintedFlags) c₁ ∧
    ReflTransGen (StepsWhile 1 (Pending 0 f.ins.address)) c₁ c ∧ Pending 0 f.ins.address c ∧
    ¬ taintedFlags.taint.regMarks .EFLAGS ⊆ c.2.taint.active := by
  obtain ⟨rtn, hr, hgraph, hcontrols⟩ := instrumented_callUnderBranch
  have hmem : ∀ i ∈ callUnderBranch.instructions, i ∈ rtn.routine.instructions :=
    fun i hi => rtn.mem_of_routine hr hi
  have h10 := hmem ⟨0x10, 0x11, .other⟩ (by decide)
  have h11 := hmem ⟨0x11, 0x13, .conditionalBranch 0x15⟩ (by decide)
  have h13 := hmem ⟨0x13, 0x14, .call true⟩ (by decide)
  have h14 := hmem ⟨0x14, 0x15, .other⟩ (by decide)
  have h15 := hmem ⟨0x15, 0x16, .ret⟩ (by decide)
  have hc10 : rtn.controls 0x10 = [] := hcontrols ⟨0x10, 0x11, .other⟩ (by decide)
  have hc11 : rtn.controls 0x11 = [] :=
    hcontrols ⟨0x11, 0x13, .conditionalBranch 0x15⟩ (by decide)
  have hc13 : rtn.controls 0x13 = [] := hcontrols ⟨0x13, 0x14, .call true⟩ (by decide)
  have hc14 : rtn.controls 0x14 = [] := hcontrols ⟨0x14, 0x15, .other⟩ (by decide)
  have hc15 : rtn.controls 0x15 = [0x11] := hcontrols ⟨0x15, 0x16, .ret⟩ (by decide)
  have henter : rtn.enter = ⟨rtn, _, h10⟩ := by simp [Instrumented.enter, hr, callUnderBranch]
  have hbranch : Executes ([⟨rtn, _, h11⟩], taintedFlags) ([⟨rtn, _, h13⟩], taintedBranch) :=
    @Executes.pass 32 ⟨rtn, _, h11⟩ [] _ _ _ h13 (TaintState.controlBefore_of_nil rfl hc11)
      (.inr rfl)
  -- the outer activation is at the call or behind it
  have hcall : ∀ st, Pending 0 0x11 ([⟨rtn, _, h13⟩], st) := fun st =>
    ⟨_, rfl, fun hend => absurd ((Instrumented.atEnd_iff h13).1 hend) (hc13 ▸ List.not_mem_nil)⟩
  have hbehind : ∀ fs st, Pending 0 0x11 (fs ++ [⟨rtn, _, h14⟩], st) := fun fs st => by
    refine ⟨⟨rtn, _, h14⟩, by simp, fun hend => ?_⟩
    exact absurd ((Instrumented.atEnd_iff h14).1 hend) (hc14 ▸ List.not_mem_nil)
  have hpush : untaintedFlags.controlBefore rtn.controls ⟨0x11, 0x13, .conditionalBranch 0x15⟩ =
      some untaintedFlags := TaintState.controlBefore_of_nil rfl hc11
  have hpop : untaintedFlags.controlBefore rtn.controls ⟨0x15, 0x16, .ret⟩ =
      some (untaintedFlags.popControl [0x11]) := TaintState.controlBefore_of_cons rfl hc15
  have hcleared : StepsWhile 1 (Pending 0 0x11)
      ([⟨rtn, _, h10⟩, ⟨rtn, _, h14⟩], taintedBranch)
      ([⟨rtn, _, h10⟩, ⟨rtn, _, h14⟩], untaintedFlags) := .inl ⟨rfl, rfl, untaintedFlags_ok⟩
  have hrun : ReflTransGen (StepsWhile 1 (Pending 0 0x11)) ([⟨rtn, _, h13⟩], taintedBranch)
      ([⟨rtn, _, h14⟩], untaintedFlags.popControl [0x11]) := by
    refine .trans (.single (.call h13 h14 rtn (hcall _)
      (TaintState.controlBefore_of_nil rfl hc13) rfl rfl)) ?_
    rw [henter]
    refine .trans (.single hcleared) ?_
    refine .trans (.single (.pass h10 h11 (hbehind [_] _)
      (TaintState.controlBefore_of_nil rfl hc10) rfl)) ?_
    refine .trans (.single (.pass h11 h15 (hbehind [_] _) hpush (.inl rfl))) ?_
    exact .single (.ret h15 (hbehind [_] _) hpop rfl)
  refine ⟨rtn, ⟨rtn, _, h11⟩, _, _, hr, hgraph, ?_, rfl, ⟨0, rfl⟩, hbranch, hrun, hbehind [] _, ?_⟩
  · rw [henter]
    exact .single (.pass h10 h11 trivial (TaintState.controlBefore_of_nil rfl hc10) rfl)
  · intro hsub
    obtain ⟨a, S, hS, -⟩ := hsub (show 0 ∈ taintedFlags.taint.regMarks .EFLAGS from rfl)
    rw [TaintState.taint_control, popControl_untaintedFlags] at hS
    cases hS

end Region

end Dytan
