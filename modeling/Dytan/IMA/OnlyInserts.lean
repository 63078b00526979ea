import Dytan.IMA.Loop
import Dytan.IMA.FailedAllocations

/-!
# The pass only inserts

`OnlyInserts symbols src`: the pass comes to its end, each call of the source is instrumented once and
nothing else is, every block has the instructions of the source as they were, and the pass says that it
changed nothing only if it did not.

`CalleesFound symbols f i`: where the pass inserts calls for `i`, what it calls are functions.
`visit_some_iff`: otherwise it crashes.

`Loop.onlyInserts_iff`: the pass only inserts if and only if the callees are found at every call it comes
to, and the name `ima_tag_count` is free or stands for a global variable, or the function frees, or it
has no call of `realloc` that is followed. Where the variable is missing, `instrumentRealloc` has
inserted a call of `DYTAN_free` when it returns false.
-/

namespace Dytan.IMA

namespace Loop

section
variable {symbols : String → Option Symbol} {src : SourceFunction} {f : IMA.Function}
  {name : String} {frees : Bool} {second : Second} {i u : Instruction} {is : List Instruction}
  {r : Instrumented} {p p' : Pass}

/-- What the pass leaves in the module with these names. -/
def OnlyInserts (symbols : String → Option Symbol) (src : SourceFunction) : Prop :=
  ∃ n s', Lib.run (step (doInitialization symbols)) (start src.toFunction) (List.replicate n ()) =
      some s' ∧
    Finished s' ∧
    Lib.emitted (step (doInitialization symbols)) processed (start src.toFunction)
      (List.replicate n ()) = src.instructions.filter (·.opcode.handled) ∧
    s'.pass.function.sources = src.blocks ∧
    (s'.return_value = false → s'.pass.function = src.toFunction)

/-- A call of the allocation function `name` whose result is stored as the pass wants it. -/
def Followed (name : String) (f : IMA.Function) (ci : Instruction) : Prop :=
  ci.opcode = .CallInst (some name) ∧ ∃ stores, storeinst_vector f name ci = .ok stores

/-- The pass finds the functions it calls for `i`. -/
@[mk_iff]
structure CalleesFound (symbols : String → Option Symbol) (f : IMA.Function) (i : Instruction) :
    Prop where
  free : i.opcode = .CallInst (some "free") ∨ Followed "realloc" f i →
    getOrInsertFunction symbols "DYTAN_free" freeType = true
  tags : getGlobalVariable symbols "ima_tag_count" = true →
    Followed "malloc" f i ∨ Followed "realloc" f i ∨ Followed "calloc" f i →
    getOrInsertFunction symbols "DYTAN_tag_pointer" tagType = true ∧
      getOrInsertFunction symbols "DYTAN_tag_memory" tagType = true

theorem getGlobalVariable_iff :
    getGlobalVariable (doInitialization symbols) "ima_tag_count" = true ↔
      ∀ symbol, symbols "ima_tag_count" = some symbol → symbol.value = .GlobalVariable := by
  unfold getGlobalVariable doInitialization
  cases h : symbols "ima_tag_count" with
  | none => simp
  | some symbol => simp [h]

/-! ## What a visit does -/

theorem insertFree_eq : insertFree symbols f i =
    if getOrInsertFunction symbols "DYTAN_free" freeType then some (f.insertAfter i.id [tagFree i])
    else none := rfl

/-- What a function that instruments an allocation does. -/
theorem instrumentAllocation_cases (h : instrumentAllocation symbols name frees second f i = some r) :
    (∃ message, storeinst_vector f name i = .error message ∧ r = ⟨f, false, [message]⟩) ∨
    ∃ stores f', storeinst_vector f name i = .ok stores ∧ freePrevious symbols frees f i = some f' ∧
      (getGlobalVariable symbols "ima_tag_count" = true ∧ r.returns = true ∨
        getGlobalVariable symbols "ima_tag_count" = false ∧ r.returns = false ∧ r.function = f') := by
  unfold instrumentAllocation at h
  cases hs : storeinst_vector f name i with
  | error message =>
    rw [hs] at h
    exact .inl ⟨message, rfl, (Option.some.inj h).symm⟩
  | ok stores =>
    rw [hs] at h
    obtain ⟨f', hf', h⟩ := Option.bind_eq_some_iff.1 h
    refine .inr ⟨stores, f', rfl, hf', ?_⟩
    split at h
    · rename_i hfound
      split at h
      · obtain rfl := Option.some.inj h
        exact .inl ⟨hfound, rfl⟩
      · cases h
    · rename_i hmissing
      obtain rfl := Option.some.inj h
      exact .inr ⟨Bool.eq_false_of_not_eq_true hmissing, rfl, rfl⟩

/-- When it does not crash. -/
theorem instrumentAllocation_some_iff (hop : i.opcode = .CallInst (some name)) :
    (∃ r, instrumentAllocation symbols name frees second f i = some r) ↔
      (frees = true → Followed name f i →
        getOrInsertFunction symbols "DYTAN_free" freeType = true) ∧
      (getGlobalVariable symbols "ima_tag_count" = true → Followed name f i →
        getOrInsertFunction symbols "DYTAN_tag_pointer" tagType = true ∧
          getOrInsertFunction symbols "DYTAN_tag_memory" tagType = true) := by
  unfold Followed instrumentAllocation freePrevious
  cases hs : storeinst_vector f name i with
  | error message => simp
  | ok stores =>
    rw [insertFree_eq]
    cases frees <;> cases getOrInsertFunction symbols "DYTAN_free" freeType <;>
      cases getGlobalVariable symbols "ima_tag_count" <;> simp [hop, Bool.and_eq_true]

theorem Followed.name_eq (h : Followed name f i) {name' : String}
    (hop : i.opcode = .CallInst (some name')) : name = name' :=
  Option.some.inj (Opcode.CallInst.inj (h.1.symm.trans hop))

/-- A visit is possible when the callees are found. -/
theorem visit_some_iff : (∃ p', visit symbols p i = some p') ↔ CalleesFound symbols p.function i := by
  have hvisit : (∃ p', visit symbols p i = some p') ↔ ∃ r, instrument symbols p.function i = some r := by
    simp [visit]
  rw [hvisit, calleesFound_iff]
  unfold instrument
  split
  · rename_i name hop
    have hnot : ∀ name', name' ≠ name → ¬ Followed name' p.function i :=
      fun name' hne hf => hne (hf.name_eq hop)
    split_ifs with hmalloc hrealloc hcalloc hfree
    · subst hmalloc
      rw [instrumentMalloc, instrumentAllocation_some_iff hop]
      simp [hop, hnot "realloc" (by decide), hnot "calloc" (by decide)]
    · subst hrealloc
      rw [instrumentRealloc, instrumentAllocation_some_iff hop]
      simp [hop, hnot "malloc" (by decide), hnot "calloc" (by decide)]
    · subst hcalloc
      rw [instrumentCalloc, instrumentAllocation_some_iff hop]
      simp [hop, hnot "malloc" (by decide), hnot "realloc" (by decide)]
    · subst hfree
      cases hfound : getOrInsertFunction symbols "DYTAN_free" freeType <;>
        simp [instrumentFree, insertFree_eq, hop, hfound, hnot "malloc" (by decide),
          hnot "realloc" (by decide), hnot "calloc" (by decide)]
    · simp [hop, hfree, hnot "malloc" (Ne.symm hmalloc), hnot "realloc" (Ne.symm hrealloc),
        hnot "calloc" (Ne.symm hcalloc)]
  · rename_i hop
    have hnot : ∀ name, ¬ Followed name p.function i := fun name hf => hop name hf.1
    have hfree : i.opcode ≠ .CallInst (some "free") := hop "free"
    simp [hfree, hnot]

theorem visit_eq_some (h : visit symbols p i = some p') :
    ∃ r, instrument symbols p.function i = some r ∧ p'.function = r.function ∧
      p'.return_value = (p.return_value || r.returns) := by
  obtain ⟨r, hr, rfl⟩ := Option.map_eq_some_iff.1 h
  exact ⟨r, hr, rfl, rfl⟩

theorem visit_expands (h : visit symbols p i = some p') :
    ∃ g, Expands g ∧ p'.function.blocks = p.function.blocks.map (List.flatMap g) := by
  obtain ⟨r, hr, hfunction, -⟩ := visit_eq_some h
  rcases instrument_only symbols i p.function.uses with hnone | ⟨change, returns, errs, hchange, hrun⟩
  · cases hr.symm.trans (hnone p.function.blocks)
  · obtain ⟨g, uses', hg, hblocks⟩ := hchange p.function.uses
    obtain rfl := Option.some.inj (hr.symm.trans (hrun p.function.blocks))
    refine ⟨g, hg, ?_⟩
    rw [hfunction, hblocks]

theorem visit_sources (h : visit symbols p i = some p') :
    p'.function.sources = p.function.sources := by
  obtain ⟨g, hg, hblocks⟩ := visit_expands h
  unfold IMA.Function.sources
  rw [hblocks, List.map_map]
  exact List.map_congr_left fun b _ => hg.filter

theorem visits_sources (h : Lib.run (visit symbols) p is = some p') :
    p'.function.sources = p.function.sources :=
  Lib.run_invariant (I := fun q => q.function.sources = p.function.sources)
    (fun _ _ _ hq hv => (visit_sources hv).trans hq) rfl h

theorem visit_mem (h : visit symbols p i = some p') (hu : u ∈ p.function.instructions) :
    u ∈ p'.function.instructions := by
  obtain ⟨g, hg, hblocks⟩ := visit_expands h
  obtain ⟨b, hb, hu⟩ := List.mem_flatten.1 hu
  obtain ⟨news, hgu, -⟩ := hg u
  refine List.mem_flatten.2 ⟨b.flatMap g, ?_, List.mem_flatMap.2 ⟨u, hu, ?_⟩⟩
  · rw [hblocks]
    exact List.mem_map_of_mem hb
  · rw [hgu]
    exact List.mem_cons_self

/-- What is in a function stays in it. -/
theorem visits_mem (h : Lib.run (visit symbols) p is = some p') (hu : u ∈ p.function.instructions) :
    u ∈ p'.function.instructions :=
  Lib.run_invariant (I := fun q => u ∈ q.function.instructions)
    (fun _ _ _ hq hv => visit_mem hv hq) hu h

/-! ## What a visit returns -/

/-- With the variable, nothing is changed when `false` is returned. -/
theorem instrument_found (h : getGlobalVariable symbols "ima_tag_count" = true)
    (hi : instrument symbols f i = some r) (hr : r.returns = false) : r.function = f := by
  have hallocation : ∀ name frees second,
      instrumentAllocation symbols name frees second f i = some r → r.function = f := by
    intro name frees second hi
    rcases instrumentAllocation_cases hi with ⟨message, -, rfl⟩ |
      ⟨stores, f', -, -, ⟨-, htrue⟩ | ⟨hmissing, -⟩⟩
    · rfl
    · cases hr.symm.trans htrue
    · cases h.symm.trans hmissing
  unfold instrument at hi
  split at hi
  · split_ifs at hi
    · exact hallocation _ _ _ hi
    · exact hallocation _ _ _ hi
    · exact hallocation _ _ _ hi
    · obtain ⟨f', -, hi⟩ := Option.bind_eq_some_iff.1 hi
      obtain rfl := Option.some.inj hi
      cases hr
    · obtain rfl := Option.some.inj hi
      rfl
  · obtain rfl := Option.some.inj hi
    rfl

/-- Without the variable, `false` is returned but for `free`, and only a call of `realloc` that is
followed is instrumented all the same. -/
theorem instrument_missing (h : getGlobalVariable symbols "ima_tag_count" = false)
    (hfree : i.opcode ≠ .CallInst (some "free")) (hi : instrument symbols f i = some r) :
    r.returns = false ∧ (¬ Followed "realloc" f i → r.function = f) ∧
      (Followed "realloc" f i → r.function = f.insertAfter i.id [tagFree i]) := by
  have hallocation : ∀ {name second}, i.opcode = .CallInst (some name) → name ≠ "realloc" →
      instrumentAllocation symbols name false second f i = some r →
      r.returns = false ∧ (¬ Followed "realloc" f i → r.function = f) ∧
        (Followed "realloc" f i → r.function = f.insertAfter i.id [tagFree i]) := by
    intro name second hop hne hi
    have hnot : ¬ Followed "realloc" f i := fun hf => hne (hf.name_eq hop).symm
    rcases instrumentAllocation_cases hi with ⟨message, -, rfl⟩ |
      ⟨stores, f', -, hf', ⟨hfound, -⟩ | ⟨-, hreturns, hfunction⟩⟩
    · exact ⟨rfl, fun _ => rfl, fun hf => absurd hf hnot⟩
    · cases h.symm.trans hfound
    · exact ⟨hreturns, fun _ => hfunction.trans (Option.some.inj hf').symm, fun hf => absurd hf hnot⟩
  have hnothing : (¬ Followed "realloc" f i) → some (⟨f, false, []⟩ : Instrumented) = some r →
      r.returns = false ∧ (¬ Followed "realloc" f i → r.function = f) ∧
        (Followed "realloc" f i → r.function = f.insertAfter i.id [tagFree i]) := by
    intro hnot hi
    obtain rfl := Option.some.inj hi
    exact ⟨rfl, fun _ => rfl, fun hf => absurd hf hnot⟩
  unfold instrument at hi
  split at hi
  · rename_i name hop
    split_ifs at hi with hmalloc hrealloc hcalloc hfree'
    · subst hmalloc
      exact hallocation hop (by decide) hi
    · subst hrealloc
      rcases instrumentAllocation_cases hi with ⟨message, hs, rfl⟩ |
        ⟨stores, f', hs, hf', ⟨hfound, -⟩ | ⟨-, hreturns, hfunction⟩⟩
      · refine ⟨rfl, fun _ => rfl, fun hf => ?_⟩
        obtain ⟨-, stores, hok⟩ := hf
        cases hs.symm.trans hok
      · cases h.symm.trans hfound
      · refine ⟨hreturns, fun hnot => absurd ⟨hop, stores, hs⟩ hnot, fun _ => ?_⟩
        rw [freePrevious, if_pos rfl, insertFree_eq] at hf'
        split at hf'
        · rw [hfunction, Option.some.inj hf']
        · cases hf'
    · subst hcalloc
      exact hallocation hop (by decide) hi
    · exact absurd (hop.trans (by rw [hfree'])) hfree
    · exact hnothing (fun hf => hrealloc (hf.name_eq hop).symm) hi
  · rename_i hop
    exact hnothing (fun hf => hop _ hf.1) hi

/-- Once `true` was returned, that is the result. -/
theorem visits_returned (h : Lib.run (visit symbols) p is = some p') (hp : p.return_value = true) :
    p'.return_value = true := by
  refine Lib.run_invariant (I := fun q => q.return_value = true) (fun q i q' hq hv => ?_) hp h
  obtain ⟨r, -, -, hreturn⟩ := visit_eq_some hv
  rw [hreturn, hq, Bool.true_or]

theorem visits_found (hfound : getGlobalVariable symbols "ima_tag_count" = true)
    (h : Lib.run (visit symbols) p is = some p') (hr : p'.return_value = false) :
    p'.function = p.function := by
  induction is generalizing p with
  | nil =>
    cases h
    rfl
  | cons i is ih =>
    rw [Lib.run_cons, Option.bind_eq_some_iff] at h
    obtain ⟨p₁, hp₁, h⟩ := h
    obtain ⟨r, hi, hfunction, hreturn⟩ := visit_eq_some hp₁
    have hnot : p₁.return_value = false := by
      by_contra hne
      cases hr.symm.trans (visits_returned h (Bool.eq_true_of_not_eq_false hne))
    rw [hnot] at hreturn
    have hreturns : r.returns = false := (Bool.or_eq_false_iff.1 hreturn.symm).2
    exact (ih h).trans (hfunction.trans (instrument_found hfound hi hreturns))

/-- The result is `true` when the function frees. -/
theorem visits_free (h : Lib.run (visit symbols) p is = some p') (hi : i ∈ is)
    (hop : i.opcode = .CallInst (some "free")) : p'.return_value = true := by
  induction is generalizing p with
  | nil => cases hi
  | cons j is ih =>
    rw [Lib.run_cons, Option.bind_eq_some_iff] at h
    obtain ⟨p₁, hp₁, h⟩ := h
    rcases List.mem_cons.1 hi with rfl | hi
    · obtain ⟨r, hr, -, hreturn⟩ := visit_eq_some hp₁
      refine visits_returned h ?_
      have hinstrument : instrument symbols p.function i = instrumentFree symbols p.function i := by
        unfold instrument
        rw [hop]
        rfl
      rw [hinstrument] at hr
      obtain ⟨f', -, hr⟩ := Option.bind_eq_some_iff.1 hr
      obtain rfl := Option.some.inj hr
      rw [hreturn, Bool.or_true]
    · exact ih h hi

/-- Without the variable, when the function does not free: it is said that nothing is changed, and so it
is if and only if no call of `realloc` is followed. -/
theorem visits_missing (hmissing : getGlobalVariable symbols "ima_tag_count" = false)
    (hfree : ∀ i ∈ is, i.opcode ≠ .CallInst (some "free"))
    (hmem : ∀ i ∈ is, i ∈ p.function.instructions) (h : Lib.run (visit symbols) p is = some p') :
    p'.return_value = p.return_value ∧
      ((∀ i ∈ is, ¬ Followed "realloc" p.function i) → p'.function = p.function) ∧
      ((∃ i ∈ is, Followed "realloc" p.function i) →
        ∃ ci, tagFree ci ∈ p'.function.instructions) := by
  induction is generalizing p with
  | nil =>
    cases h
    exact ⟨rfl, fun _ => rfl, fun ⟨_, hi, _⟩ => absurd hi List.not_mem_nil⟩
  | cons i is ih =>
    rw [Lib.run_cons, Option.bind_eq_some_iff] at h
    obtain ⟨p₁, hp₁, h⟩ := h
    obtain ⟨hi, hmem⟩ := List.forall_mem_cons.1 hmem
    obtain ⟨hifree, hfree⟩ := List.forall_mem_cons.1 hfree
    obtain ⟨r, hr, hfunction, hreturn⟩ := visit_eq_some hp₁
    obtain ⟨hreturns, hsame, hinsert⟩ := instrument_missing hmissing hifree hr
    rw [hreturns, Bool.or_false] at hreturn
    rw [← hfunction] at hsame hinsert
    obtain ⟨hreturns, hkeeps, hinserts⟩ := ih hfree (fun j hj => visit_mem hp₁ (hmem j hj)) h
    refine ⟨hreturns.trans hreturn, fun hnone => ?_, fun hsome => ?_⟩
    · obtain ⟨hnot, hnone⟩ := List.forall_mem_cons.1 hnone
      rw [hsame hnot] at hkeeps
      exact hkeeps hnone
    · by_cases hf : Followed "realloc" p.function i
      · refine ⟨i, visits_mem h ?_⟩
        rw [hinsert hf]
        obtain ⟨b, hb, hi⟩ := List.mem_flatten.1 hi
        refine List.mem_flatten.2 ⟨_, List.mem_map_of_mem hb, List.mem_flatMap.2 ⟨i, hi, ?_⟩⟩
        simp
      · rw [hsame hf] at hinserts
        obtain ⟨j, hj, hfj⟩ := hsome
        rcases List.mem_cons.1 hj with rfl | hj
        · exact absurd hfj hf
        · exact hinserts ⟨j, hj, hfj⟩

/-! ## The pass -/

/-- The pass comes to its end when the callees are found at each visit. -/
theorem visits_some_iff (symbols : String → Option Symbol) (src : SourceFunction) :
    (∃ p, visits symbols src = some p) ↔
      Lib.Along (visit symbols) (fun p i => CalleesFound symbols p.function i)
        ⟨src.toFunction, false, []⟩ src.instructions := by
  unfold visits
  rw [Lib.run_some_iff]
  simp only [visit_some_iff]

/-- At its end it only inserted if what is said of a change is true. -/
theorem onlyInserts_iff_visits : OnlyInserts symbols src ↔
    ∃ p, visits (doInitialization symbols) src = some p ∧
      (p.return_value = false → p.function = src.toFunction) := by
  constructor
  · rintro ⟨n, s', hrun, hend, -, -, hreturn⟩
    exact ⟨s'.pass, (end_spec hrun hend).2, hreturn⟩
  · rintro ⟨p, hp, hreturn⟩
    obtain ⟨n, s', hrun, hend⟩ := (finishes_iff (doInitialization symbols) src).2 ⟨p, hp⟩
    obtain ⟨hprocessed, hpass⟩ := end_spec hrun hend
    obtain rfl := Option.some.inj (hp.symm.trans hpass)
    exact ⟨n, s', hrun, hend, hprocessed, (visits_sources hp).trans src.sources_eq, hreturn⟩

/-- The pass comes to its end, instruments each call of the source once and nothing else, leaves the
instructions of the source in every block as they were, and returns `false` only if it changed nothing,
if and only if it finds the functions to call at each instruction it comes to, and what has the name
`ima_tag_count` can only be a global variable, or the function calls `free`, or none of its calls of
`realloc` is followed. -/
theorem onlyInserts_iff (symbols : String → Option Symbol) (src : SourceFunction) :
    OnlyInserts symbols src ↔
      Lib.Along (visit (doInitialization symbols))
        (fun p i => CalleesFound (doInitialization symbols) p.function i)
        ⟨src.toFunction, false, []⟩ src.instructions ∧
      ((∀ symbol, symbols "ima_tag_count" = some symbol → symbol.value = .GlobalVariable) ∨
        (∃ i ∈ src.instructions, i.opcode = .CallInst (some "free")) ∨
        ∀ i ∈ src.instructions, ¬ Followed "realloc" src.toFunction i) := by
  rw [onlyInserts_iff_visits, ← visits_some_iff, ← getGlobalVariable_iff]
  refine ⟨fun ⟨p, hp, hreturn⟩ => ⟨⟨p, hp⟩, ?_⟩, fun ⟨⟨p, hp⟩, h⟩ => ⟨p, hp, fun hr => ?_⟩⟩
  · cases hfound : getGlobalVariable (doInitialization symbols) "ima_tag_count" with
    | true => exact .inl rfl
    | false =>
      refine .inr (or_iff_not_imp_left.2 fun hfree i hi hf => ?_)
      have hnofree : ∀ i ∈ src.instructions, i.opcode ≠ .CallInst (some "free") :=
        fun i hi hop => hfree ⟨i, hi, hop⟩
      obtain ⟨hreturns, -, hinserts⟩ := visits_missing hfound hnofree (fun i hi => hi) hp
      obtain ⟨ci, hci⟩ := hinserts ⟨i, hi, hf⟩
      rw [hreturn hreturns] at hci
      cases (src.given _ hci).1
  · rcases h with hfound | ⟨i, hi, hop⟩ | hnone
    · exact visits_found hfound hp hr
    · cases hr.symm.trans (visits_free hp hi hop)
    · cases hfound : getGlobalVariable (doInitialization symbols) "ima_tag_count" with
      | true => exact visits_found hfound hp hr
      | false =>
        by_cases hfree : ∃ i ∈ src.instructions, i.opcode = .CallInst (some "free")
        · obtain ⟨i, hi, hop⟩ := hfree
          cases hr.symm.trans (visits_free hp hi hop)
        · have hnofree : ∀ i ∈ src.instructions, i.opcode ≠ .CallInst (some "free") :=
            fun i hi hop => hfree ⟨i, hi, hop⟩
          obtain ⟨-, hkeeps, -⟩ := visits_missing hfound hnofree (fun i hi => hi) hp
          exact hkeeps hnone

end

/-- The name `ima_tag_count` is that of a function of the module. -/
def functionNamed (name : String) : Option Symbol :=
  if name = "ima_tag_count" then some ⟨.Function ⟨.int32, [], false⟩, false⟩ else none

def growFunction : SourceFunction :=
  .straight Monitored.grow Monitored.grow_given Monitored.grow_nodup

/-- The pass returns `false` for a function that stores what `realloc` returns, and has inserted a call
of `DYTAN_free`. -/
theorem realloc_changed : ¬ OnlyInserts functionNamed growFunction := by
  rintro ⟨n, s', hrun, hend, -, -, hreturn⟩
  have hvisits := (end_spec hrun hend).2
  have hresult : (visits (doInitialization functionNamed) growFunction).map
      (fun p => (p.return_value, decide (p.function.blocks = growFunction.blocks))) =
      some (false, false) := by decide
  rw [hvisits] at hresult
  obtain ⟨hr, hblocks⟩ := Prod.mk.inj (Option.some.inj hresult)
  exact absurd (congrArg IMA.Function.blocks (hreturn hr)) (of_decide_eq_false hblocks)

end Loop

end Dytan.IMA
