import Dytan.Taint.State

/-!
# What `PopControl` removes

`PopControl` gets the addresses of all branches that end at an instruction; a branch whose `EFLAGS`
were not tainted has no entry. The loop returns at the first address without an entry.
`popControl_removes_iff`: the arguments lose their entries and no other key does, exactly when no
such address comes before one that still has its entry (`Interrupted`).
-/

namespace Dytan

namespace TaintState

variable {w : Nat}

/-- No argument is a key any more, and every other key keeps its set. -/
def Removes (st : TaintState w) (addrs : List (ADDRINT w)) : Prop :=
  ∀ a, (a ∈ addrs → (st.popControl addrs).controlTaintMap[a]? = none) ∧
    (a ∉ addrs → (st.popControl addrs).controlTaintMap[a]? = st.controlTaintMap[a]?)

/-- Some argument has no entry when the loop reaches it (`addr`), and a later one has its entry. -/
def Interrupted (map : Std.ExtTreeMap (ADDRINT w) Bitset) (addrs : List (ADDRINT w)) : Prop :=
  ∃ before addr after, addrs = before ++ addr :: after ∧ (addr ∉ map ∨ addr ∈ before) ∧
    ∃ a ∈ after, a ∈ map ∧ a ∉ before

variable {st : TaintState w} {map : Std.ExtTreeMap (ADDRINT w) Bitset} {addr : ADDRINT w}
  {addrs : List (ADDRINT w)}

theorem popControl_cons (h : addr ∈ st.controlTaintMap) :
    st.popControl (addr :: addrs) =
      popControl { st with controlTaintMap := st.controlTaintMap.erase addr } addrs :=
  if_pos (Std.ExtTreeMap.contains_iff_mem.2 h)

theorem popControl_cons_absent (h : addr ∉ st.controlTaintMap) :
    st.popControl (addr :: addrs) = st :=
  if_neg fun hc => h (Std.ExtTreeMap.contains_iff_mem.1 hc)

theorem mem_erase {a : ADDRINT w} : a ∈ map.erase addr ↔ a ≠ addr ∧ a ∈ map := by
  rw [Std.ExtTreeMap.mem_erase, ne_eq, Std.compare_eq_iff_eq, eq_comm]

theorem getElem?_eq_none_iff {a : ADDRINT w} : map[a]? = none ↔ a ∉ map := by
  rw [← Std.ExtTreeMap.isSome_getElem?_iff_mem, Option.not_isSome_iff_eq_none]

/-- One round of the loop. -/
theorem removes_cons (h : addr ∈ st.controlTaintMap) :
    Removes st (addr :: addrs) ↔
      Removes { st with controlTaintMap := st.controlTaintMap.erase addr } addrs := by
  unfold Removes
  rw [popControl_cons h]
  refine forall_congr' fun a => ?_
  rw [getElem?_erase_eq]
  by_cases ha : a = addr
  · subst ha
    by_cases hin : a ∈ addrs <;> simp [hin]
  · simp only [List.mem_cons, ha, false_or, if_false]

theorem interrupted_cons (h : addr ∈ map) :
    Interrupted map (addr :: addrs) ↔ Interrupted (map.erase addr) addrs := by
  constructor
  · rintro ⟨before, x, after, he, hx, a, ha, hmem, hnot⟩
    cases before with
    | nil =>
      -- the first argument has an entry
      obtain ⟨rfl, rfl⟩ := List.cons.inj he
      exact absurd h (hx.resolve_right List.not_mem_nil)
    | cons y before =>
      obtain ⟨rfl, rfl⟩ := List.cons.inj he
      rw [List.mem_cons, not_or] at hnot
      refine ⟨before, x, after, rfl, ?_, a, ha, mem_erase.2 ⟨hnot.1, hmem⟩, hnot.2⟩
      rcases hx with hx | hx
      · exact .inl fun hc => hx (mem_erase.1 hc).2
      · rcases List.mem_cons.1 hx with rfl | hx
        · exact .inl fun hc => (mem_erase.1 hc).1 rfl
        · exact .inr hx
  · rintro ⟨before, x, after, rfl, hx, a, ha, hmem, hnot⟩
    obtain ⟨hne, hmem⟩ := mem_erase.1 hmem
    refine ⟨addr :: before, x, after, rfl, ?_, a, ha, hmem, ?_⟩
    · by_cases hxe : x = addr
      · exact .inr (hxe ▸ List.mem_cons_self)
      · rcases hx with hx | hx
        · exact .inl fun hc => hx (mem_erase.2 ⟨hxe, hc⟩)
        · exact .inr (List.mem_cons_of_mem _ hx)
    · rw [List.mem_cons, not_or]
      exact ⟨hne, hnot⟩

theorem Interrupted.two_le_length (h : Interrupted map addrs) : 2 ≤ addrs.length := by
  obtain ⟨before, x, after, rfl, -, a, ha, -⟩ := h
  have := List.length_pos_of_mem ha
  rw [List.length_append, List.length_cons]
  omega

/-- Nothing is removed; that is right if no argument has an entry. -/
theorem removes_cons_absent (h : addr ∉ st.controlTaintMap) :
    Removes st (addr :: addrs) ↔ ∀ a ∈ addrs, a ∉ st.controlTaintMap := by
  unfold Removes
  rw [popControl_cons_absent h]
  constructor
  · intro hr a ha
    exact getElem?_eq_none_iff.1 ((hr a).1 (List.mem_cons_of_mem _ ha))
  · intro hr a
    refine ⟨fun ha => ?_, fun _ => rfl⟩
    rcases List.mem_cons.1 ha with rfl | ha
    · exact getElem?_eq_none_iff.2 h
    · exact getElem?_eq_none_iff.2 (hr a ha)

theorem interrupted_cons_absent (h : addr ∉ map) :
    Interrupted map (addr :: addrs) ↔ ∃ a ∈ addrs, a ∈ map := by
  constructor
  · rintro ⟨before, x, after, he, -, a, ha, hmem, -⟩
    have : a ∈ addr :: addrs := he ▸ List.mem_append_right _ (List.mem_cons_of_mem _ ha)
    rcases List.mem_cons.1 this with rfl | hin
    · exact absurd hmem h
    · exact ⟨a, hin, hmem⟩
  · rintro ⟨a, ha, hmem⟩
    exact ⟨[], addr, addrs, rfl, .inl h, a, ha, hmem, List.not_mem_nil⟩

theorem removes_of_not_interrupted (h : ¬ Interrupted st.controlTaintMap addrs) :
    Removes st addrs := by
  induction addrs generalizing st with
  | nil => exact fun a => ⟨fun ha => absurd ha List.not_mem_nil, fun _ => rfl⟩
  | cons addr addrs ih =>
    by_cases hmem : addr ∈ st.controlTaintMap
    · exact (removes_cons hmem).2 (ih fun hi => h ((interrupted_cons hmem).2 hi))
    · refine (removes_cons_absent hmem).2 fun a ha hain => h ?_
      exact (interrupted_cons_absent hmem).2 ⟨a, ha, hain⟩

theorem not_interrupted_of_removes (h : Removes st addrs) :
    ¬ Interrupted st.controlTaintMap addrs := by
  induction addrs generalizing st with
  | nil =>
    rintro ⟨before, x, after, he, -⟩
    exact absurd he (by simp)
  | cons addr addrs ih =>
    by_cases hmem : addr ∈ st.controlTaintMap
    · exact fun hi => ih ((removes_cons hmem).1 h) ((interrupted_cons hmem).1 hi)
    · intro hi
      obtain ⟨a, ha, hain⟩ := (interrupted_cons_absent hmem).1 hi
      exact (removes_cons_absent hmem).1 h a ha hain

theorem popControl_removes_iff (st : TaintState w) (addrs : List (ADDRINT w)) :
    Removes st addrs ↔ ¬ Interrupted st.controlTaintMap addrs := by
  constructor
  · exact not_interrupted_of_removes
  · exact removes_of_not_interrupted

/-- The branch at `0x10` was not tainted, the one at `0x20` was, and both end here. -/
theorem popControl_keeps_tainted_branch :
    ¬ ∀ (st : TaintState 32) (addrs : List (ADDRINT 32)), Removes st addrs := by
  intro h
  let map : Std.ExtTreeMap (ADDRINT 32) Bitset := Std.ExtTreeMap.empty.insert 0x20 ⟨[1], 4⟩
  have h20 := (h { initial 4 with controlTaintMap := map } [0x10, 0x20] 0x20).1 (by simp)
  rw [popControl_cons_absent (by simp [map])] at h20
  simp [map] at h20

/-! ## What `PushControl` and `PopControl` leave alone -/

theorem popControl_of_notMem {a : ADDRINT w} (ha : a ∉ addrs) :
    (st.popControl addrs).controlTaintMap[a]? = st.controlTaintMap[a]? := by
  induction addrs generalizing st with
  | nil => rfl
  | cons addr addrs ih =>
    rw [List.mem_cons, not_or] at ha
    by_cases h : addr ∈ st.controlTaintMap
    · rw [popControl_cons h, ih ha.2, getElem?_erase_eq, if_neg ha.1]
    · rw [popControl_cons_absent h]

theorem popControl_of_none {a : ADDRINT w} (ha : st.controlTaintMap[a]? = none) :
    (st.popControl addrs).controlTaintMap[a]? = none := by
  induction addrs generalizing st with
  | nil => exact ha
  | cons addr addrs ih =>
    by_cases h : addr ∈ st.controlTaintMap
    · rw [popControl_cons h]
      refine ih ?_
      rw [getElem?_erase_eq, ha, ite_self]
    · rw [popControl_cons_absent h]
      exact ha

/-- `EFLAGS` carries a mark. -/
def flagsTainted (st : TaintState w) : Prop :=
  ∃ eflags, st.regTaintMap .EFLAGS = some eflags ∧ eflags.isEmpty = false

theorem pushControl_of_ne {st' : TaintState w} {a : ADDRINT w} (h : st.pushControl addr = some st')
    (ha : a ≠ addr ∨ ¬ st.flagsTainted) : st'.controlTaintMap[a]? = st.controlTaintMap[a]? := by
  unfold pushControl at h
  split at h
  · rw [Option.some.inj h]
  · rename_i eflags he
    split_ifs at h with hempty
    · rw [Option.some.inj h]
    · obtain ⟨set, -, h⟩ := Option.bind_eq_some_iff.1 h
      obtain rfl := Option.some.inj h
      have hne := ha.resolve_right fun hn => hn ⟨eflags, he, Bool.not_eq_true _ ▸ hempty⟩
      rw [getElem?_insert_eq, if_neg hne]

end TaintState

end Dytan
