import Dytan.Taint.Marks

/-!
# Registers and the registers they contain

`SetTaintForRegister` and `ClearTaintForRegister` also update the registers contained in the one
they are called for, but never one that contains it. `SubregistersIncluded`: what a contained
register carries, the containing one carries too. `runRegs_included_iff`: along a sequence of
calls this holds in every state reached exactly when no call gives a register marks that a
containing register, left as it is, lacks (`RegCall.KeepsInclusion`).
-/

namespace Dytan

open TaintState

variable {w : Nat}

/-- A call to one of the two functions, with the control taint at that moment. -/
inductive RegCall (w : Nat)
  | set (control : Std.ExtTreeMap (ADDRINT w) Bitset) (dest : REG) (args : List Bitset)
  | clear (control : Std.ExtTreeMap (ADDRINT w) Bitset) (reg : REG)

namespace RegCall

def control : RegCall w → Std.ExtTreeMap (ADDRINT w) Bitset
  | .set control _ _ => control
  | .clear control _ => control

def run (st : TaintState w) : RegCall w → Option (TaintState w)
  | .set control dest args =>
    { st with controlTaintMap := control }.setTaintForRegister dest args
  | .clear control reg => { st with controlTaintMap := control }.clearTaintForRegister reg

/-- Every set the call passes or finds in the control taint map has width `n`. -/
structure WidthOk (n : Nat) (c : RegCall w) : Prop where
  control : ∀ (a : ADDRINT w) (s : Bitset), c.control[a]? = some s → s.Ok n
  args : ∀ control dest args, c = .set control dest args → ∀ s ∈ args, Bitset.Ok n s

end RegCall

def runRegs (st : TaintState w) (calls : List (RegCall w)) : Option (TaintState w) :=
  calls.foldlM RegCall.run st

/-- What a contained register carries, the containing register carries. -/
def SubregistersIncluded (t : Taint w) : Prop :=
  ∀ r, ∀ d ∈ containedRegs r, t.regMarks d ⊆ t.regMarks r

/-- The marks of all sets in a control taint map. -/
def controlMarks (control : Std.ExtTreeMap (ADDRINT w) Bitset) : Set ℕ :=
  {m | ∃ (a : ADDRINT w) (s : Bitset), control[a]? = some s ∧ m ∈ s.marks}

/-- The call gives no register marks that a containing register, which it does not update,
lacks. -/
def RegCall.KeepsInclusion (t : Taint w) : RegCall w → Prop
  | .set control dest args =>
    ∀ r, dest ∈ containedRegs r →
      {m | ∃ s ∈ args, m ∈ s.marks} ∪ controlMarks control ⊆ t.regMarks r
  | .clear control reg =>
    ∀ x ∈ containedRegs reg ++ [reg], (t.reg x).isSome → ∀ r, x ∈ containedRegs r →
      ¬ (r ∈ containedRegs reg ++ [reg] ∧ (t.reg r).isSome) → controlMarks control ⊆ t.regMarks r

/-! ## Containment -/

theorem mem_updated (r : REG) : r ∈ containedRegs r ++ [r] :=
  List.mem_append_right _ (List.mem_singleton_self _)

theorem containedRegs_trans {r d x : REG} (hd : d ∈ containedRegs r) (hx : x ∈ containedRegs d) :
    x ∈ containedRegs r := by
  cases r <;> simp only [containedRegs, List.mem_cons, List.not_mem_nil, or_false] at hd ⊢ <;>
    rcases hd with rfl | rfl | rfl <;> simp_all [containedRegs]

theorem not_contained_self {r : REG} : r ∉ containedRegs r := by
  cases r <;> simp [containedRegs]

/-- Two registers that contain a third are the same, or one contains the other. -/
theorem containedRegs_laminar {r d x : REG} (hr : x ∈ containedRegs r) (hd : x ∈ containedRegs d) :
    r ∈ containedRegs d ∨ r = d ∨ d ∈ containedRegs r := by
  cases r <;> simp only [containedRegs, List.mem_cons, List.not_mem_nil, or_false] at hr <;>
    rcases hr with rfl | rfl | rfl <;> cases d <;> simp_all [containedRegs]

theorem containedRegs_ne {r d : REG} (h : d ∈ containedRegs r) : d ≠ .ESP ∧ d ≠ .EBP := by
  cases r <;> simp only [containedRegs, List.mem_cons, List.not_mem_nil, or_false] at h <;>
    rcases h with rfl | rfl | rfl <;> decide

/-! ## One call -/

section
variable {t : Taint w} {d : REG} {S : Set ℕ}

theorem reg_setReg (h : ¬ (d = .ESP ∨ d = .EBP)) (r : REG) :
    (t.setReg d S).reg r = if r ∈ containedRegs d ++ [d] then some (S ∪ t.active) else t.reg r := by
  rw [Taint.setReg, if_neg h]

theorem regMarks_setReg (h : ¬ (d = .ESP ∨ d = .EBP)) (r : REG) :
    (t.setReg d S).regMarks r =
      if r ∈ containedRegs d ++ [d] then S ∪ t.active else t.regMarks r := by
  simp only [Taint.setReg, if_neg h, Taint.regMarks]
  split <;> simp_all

open Classical in
theorem regMarks_clearReg (r : REG) :
    (t.clearReg d).regMarks r =
      if r ∈ containedRegs d ++ [d] ∧ (t.reg r).isSome then t.active else t.regMarks r := by
  simp only [Taint.clearReg, Taint.regMarks]
  split <;> simp_all

/-- A register that contains `d` is not updated with it. -/
theorem not_updated_of_contains {r : REG} (h : d ∈ containedRegs r) :
    r ∉ containedRegs d ++ [d] := by
  rw [List.mem_append, List.mem_singleton, not_or]
  refine ⟨fun hr => not_contained_self (containedRegs_trans h hr), fun he => ?_⟩
  rw [he] at h
  exact not_contained_self h

/-- What is contained in an updated register is updated. -/
theorem updated_of_contained {r x : REG} (hr : r ∈ containedRegs d ++ [d])
    (hx : x ∈ containedRegs r) : x ∈ containedRegs d ++ [d] := by
  rcases List.mem_append.1 hr with hr | hr
  · exact List.mem_append_left _ (containedRegs_trans hr hx)
  · rw [List.mem_singleton.1 hr] at hx
    exact List.mem_append_left _ hx

/-- A register that contains an updated one is updated or contains `d`. -/
theorem contains_of_updated {r x : REG} (hx : x ∈ containedRegs d ++ [d])
    (hr : x ∈ containedRegs r) : r ∈ containedRegs d ++ [d] ∨ d ∈ containedRegs r := by
  rw [List.mem_append, List.mem_singleton] at hx ⊢
  rcases hx with hx | rfl
  · rcases containedRegs_laminar hr hx with h | h | h
    · exact .inl (.inl h)
    · exact .inl (.inr h)
    · exact .inr h
  · exact .inr hr

theorem setReg_included_iff (h : SubregistersIncluded t) :
    SubregistersIncluded (t.setReg d S) ↔
      ∀ r, d ∈ containedRegs r → S ∪ t.active ⊆ t.regMarks r := by
  by_cases hd : d = .ESP ∨ d = .EBP
  · rw [Taint.setReg, if_pos hd]
    refine ⟨fun _ r hr => ?_, fun _ => h⟩
    obtain ⟨h1, h2⟩ := containedRegs_ne hr
    exact absurd hd (not_or.2 ⟨h1, h2⟩)
  constructor
  · intro hi r hr
    have := hi r d hr
    rwa [regMarks_setReg hd, regMarks_setReg hd, if_neg (not_updated_of_contains hr),
      if_pos (List.mem_append_right _ (List.mem_singleton_self _))] at this
  · intro hk r x hx
    rw [regMarks_setReg hd, regMarks_setReg hd]
    by_cases hxu : x ∈ containedRegs d ++ [d]
    · rw [if_pos hxu]
      rcases contains_of_updated hxu hx with hr | hr
      · rw [if_pos hr]
      · rw [if_neg (not_updated_of_contains hr)]
        exact hk r hr
    · rw [if_neg hxu, if_neg fun hr => hxu (updated_of_contained hr hx)]
      exact h r x hx

theorem clearReg_included_iff (h : SubregistersIncluded t) :
    SubregistersIncluded (t.clearReg d) ↔
      ∀ x ∈ containedRegs d ++ [d], (t.reg x).isSome → ∀ r, x ∈ containedRegs r →
        ¬ (r ∈ containedRegs d ++ [d] ∧ (t.reg r).isSome) → t.active ⊆ t.regMarks r := by
  classical
  constructor
  · intro hi x hxu hx r hr hru
    have := hi r x hr
    rwa [regMarks_clearReg, regMarks_clearReg, if_neg hru, if_pos ⟨hxu, hx⟩] at this
  · intro hk r x hx
    rw [regMarks_clearReg, regMarks_clearReg]
    by_cases hru : r ∈ containedRegs d ++ [d] ∧ (t.reg r).isSome
    · rw [if_pos hru]
      by_cases hxs : (t.reg x).isSome
      · rw [if_pos ⟨updated_of_contained hru.1 hx, hxs⟩]
      · rw [if_neg fun hc => hxs hc.2]
        have hnone : t.reg x = none := by simpa using hxs
        simp [Taint.regMarks, hnone]
    · rw [if_neg hru]
      split
      · rename_i hxu
        exact hk x hxu.1 hxu.2 r hx hru
      · exact h r x hx

end

/-- The state of the analysis with another control taint map. -/
theorem taint_setControl (st : TaintState w) (control : Std.ExtTreeMap (ADDRINT w) Bitset) :
    ({ st with controlTaintMap := control }).taint.active = controlMarks control := by
  ext m
  simp only [Taint.active, taint_control, Option.map_eq_some_iff, controlMarks, Set.mem_ofPred_eq]
  constructor
  · rintro ⟨a, _, ⟨s, hs, rfl⟩, hm⟩
    exact ⟨a, s, hs, hm⟩
  · rintro ⟨a, s, hs, hm⟩
    exact ⟨a, _, ⟨s, hs, rfl⟩, hm⟩

/-- One call keeps the width, and keeps the inclusion exactly when it gives no contained register
more than the containing one has. -/
theorem RegCall.run_included {n : Nat} {st : TaintState w} (h : st.WidthOk n) {c : RegCall w}
    (hc : c.WidthOk n) : ∃ st', c.run st = some st' ∧ st'.WidthOk n ∧
      (SubregistersIncluded st.taint →
        (SubregistersIncluded st'.taint ↔ c.KeepsInclusion st.taint)) := by
  have hctl : ({ st with controlTaintMap := c.control }).WidthOk n :=
    ⟨h.reg, h.mem, hc.control, h.scratch, h.marks⟩
  cases c with
  | set control dest args =>
    obtain ⟨st', hst', hok, ht⟩ :=
      setTaintForRegister_gives hctl dest (hc.args control dest args rfl)
    refine ⟨st', hst', hok, fun hi => ?_⟩
    have hi' : SubregistersIncluded ({ st with controlTaintMap := control }).taint := hi
    have := setReg_included_iff (d := dest) (S := {m | ∃ s ∈ args, m ∈ s.marks}) hi'
    rw [taint_setControl] at this
    exact ht ▸ this
  | clear control reg =>
    obtain ⟨st', hst', hok, ht⟩ := clearTaintForRegister_gives hctl reg
    refine ⟨st', hst', hok, fun hi => ?_⟩
    have hi' : SubregistersIncluded ({ st with controlTaintMap := control }).taint := hi
    have := clearReg_included_iff (d := reg) hi'
    rw [taint_setControl] at this
    exact ht ▸ this

/-! ## Runs -/

/-- No call fails. -/
theorem runRegs_ok {n : Nat} {st : TaintState w} (h : st.WidthOk n) {calls : List (RegCall w)}
    (hc : ∀ c ∈ calls, c.WidthOk n) : ∃ st', runRegs st calls = some st' := by
  induction calls generalizing st with
  | nil => exact ⟨st, rfl⟩
  | cons c calls ih =>
    obtain ⟨hc, hcalls⟩ := List.forall_mem_cons.1 hc
    obtain ⟨st₁, hrun, hok, -⟩ := RegCall.run_included h hc
    obtain ⟨st', hst'⟩ := ih hok hcalls
    exact ⟨st', by simpa [runRegs, hrun] using hst'⟩

theorem runRegs_included_iff_aux {n : Nat} : ∀ {calls : List (RegCall w)} {st : TaintState w},
    st.WidthOk n → (∀ c ∈ calls, c.WidthOk n) → SubregistersIncluded st.taint →
    ((∀ pre, pre <+: calls → ∃ st', runRegs st pre = some st' ∧ SubregistersIncluded st'.taint) ↔
      ∀ pre c, pre ++ [c] <+: calls →
        ∃ st', runRegs st pre = some st' ∧ c.KeepsInclusion st'.taint) := by
  intro calls
  induction calls with
  | nil =>
    intro st _ _ hi
    constructor
    · intro _ pre c hp
      simp at hp
    · intro _ pre hp
      rw [List.prefix_nil.1 hp]
      exact ⟨st, rfl, hi⟩
  | cons c calls ih =>
    intro st h hc hi
    obtain ⟨st₁, hrun, hok, hiff⟩ := RegCall.run_included h (hc c (by simp))
    have hcons : ∀ pre, runRegs st (c :: pre) = runRegs st₁ pre := fun pre => by
      simp [runRegs, hrun]
    constructor
    · intro hall
      have hi₁ : SubregistersIncluded st₁.taint := by
        obtain ⟨st', hst', hi'⟩ := hall [c] (by simp)
        rw [hcons] at hst'
        cases hst'
        exact hi'
      intro pre c' hp
      cases pre with
      | nil =>
        obtain rfl : c' = c := by simpa using hp
        exact ⟨st, rfl, (hiff hi).1 hi₁⟩
      | cons c'' pre =>
        rw [List.cons_append, List.cons_prefix_cons] at hp
        obtain ⟨rfl, hp⟩ := hp
        rw [hcons]
        refine (ih hok (fun c hm => hc c (by simp [hm])) hi₁).1 (fun pre' hp' => ?_) pre c' hp
        rw [← hcons]
        exact hall _ (List.cons_prefix_cons.2 ⟨rfl, hp'⟩)
    · intro hall
      have hi₁ : SubregistersIncluded st₁.taint := by
        obtain ⟨st', hst', hk⟩ := hall [] c (by simp)
        cases hst'
        exact (hiff hi).2 hk
      intro pre hp
      cases pre with
      | nil => exact ⟨st, rfl, hi⟩
      | cons c' pre =>
        rw [List.cons_prefix_cons] at hp
        obtain ⟨rfl, hp⟩ := hp
        rw [hcons]
        refine (ih hok (fun c hm => hc c (by simp [hm])) hi₁).2 (fun pre' c'' hp' => ?_) pre hp
        rw [← hcons]
        exact hall _ c'' (List.cons_prefix_cons.2 ⟨rfl, hp'⟩)

/-- From an empty register map no call fails, and the inclusion holds in every state reached exactly
when each call keeps it. -/
theorem runRegs_included_iff {n : Nat} {st : TaintState w} (h : st.WidthOk n)
    (hempty : st.regTaintMap = fun _ => none) {calls : List (RegCall w)}
    (hc : ∀ c ∈ calls, c.WidthOk n) :
    (∃ st', runRegs st calls = some st') ∧
      ((∀ pre, pre <+: calls → ∃ st', runRegs st pre = some st' ∧ SubregistersIncluded st'.taint) ↔
        ∀ pre c, pre ++ [c] <+: calls →
          ∃ st', runRegs st pre = some st' ∧ c.KeepsInclusion st'.taint) := by
  refine ⟨runRegs_ok h hc, runRegs_included_iff_aux h hc fun r d _ => ?_⟩
  simp [Taint.regMarks, hempty]

/-- `EAX` gets the mark 0, then `AL` does, then `EAX` is cleared under a branch with the mark 0. -/
def regCalls : List (RegCall w) :=
  [.set ∅ .EAX [⟨[1], 2⟩], .set ∅ .AL [⟨[1], 2⟩],
    .clear ((∅ : Std.ExtTreeMap (ADDRINT w) Bitset).insert 0x20 ⟨[1], 2⟩) .EAX]

theorem runRegs_included_iff_clear :
    (∃ st', runRegs (initial 2 : TaintState 32) regCalls = some st') ∧
      ((∀ pre, pre <+: regCalls →
          ∃ st', runRegs (initial 2 : TaintState 32) pre = some st' ∧ SubregistersIncluded st'.taint) ↔
        ∀ pre c, pre ++ [c] <+: regCalls →
          ∃ st', runRegs (initial 2 : TaintState 32) pre = some st' ∧ c.KeepsInclusion st'.taint) := by
  refine runRegs_included_iff (initial_ok 2) rfl fun c hc => ?_
  have hargs : ∀ s ∈ [(⟨[1], 2⟩ : Bitset)], s.Ok 2 :=
    fun s hs => List.mem_singleton.1 hs ▸ Bitset.single_ok
  simp only [regCalls, List.mem_cons, List.not_mem_nil, or_false] at hc
  rcases hc with rfl | rfl | rfl
  · refine ⟨fun a s hs => by simp [RegCall.control] at hs, fun control dest args he => ?_⟩
    cases he
    exact hargs
  · refine ⟨fun a s hs => by simp [RegCall.control] at hs, fun control dest args he => ?_⟩
    cases he
    exact hargs
  · refine ⟨fun a s hs => ?_, nofun⟩
    rw [RegCall.control, getElem?_insert_eq, Std.ExtTreeMap.getElem?_empty] at hs
    obtain ⟨-, hs⟩ := Option.ite_none_right_eq_some.1 hs
    exact Option.some.inj hs ▸ Bitset.single_ok

/-- A mark set for `AL` does not reach `AX`. -/
theorem set_AL_not_included :
    ¬ ∀ (calls : List (RegCall 32)) (st : TaintState 32), (∀ c ∈ calls, c.WidthOk 2) →
      runRegs (initial 2) calls = some st → SubregistersIncluded st.taint := by
  intro hclaim
  obtain ⟨s, hs, hsm⟩ := Bitset.exists_single
  have hc : (RegCall.set (w := 32) ∅ .AL [s]).WidthOk 2 := by
    refine ⟨fun a s hs => by simp [RegCall.control] at hs, fun control dest args he r hr => ?_⟩
    cases he
    exact List.mem_singleton.1 hr ▸ hs
  obtain ⟨st, hst, -, hiff⟩ := RegCall.run_included (initial_ok 2) hc
  have hi := hclaim [.set ∅ .AL [s]] st (by simpa using hc) (by simpa [runRegs] using hst)
  have h0 : SubregistersIncluded (initial 2 : TaintState 32).taint := fun r d _ => by
    simp [Taint.regMarks, initial]
  have hsub := (hiff h0).1 hi .AX (by decide)
  have hmem : 0 ∈ (initial 2 : TaintState 32).taint.regMarks .AX :=
    hsub (.inl ⟨s, by simp, hsm ▸ rfl⟩)
  simp [Taint.regMarks, initial] at hmem

end Dytan
