import Dytan.IMA.InstrumentIMA
import Mathlib.Data.Set.Insert

/-!
# Where the inserted instructions end up

`Grouped loaded b`: the instructions of `b` are those of the source, each with what is inserted
after it: the load right after each call in `loaded`, an increment only after the tags of its call.

`runOnFunction_grouped`: the pass leaves every block so. `Inserting` is what each insertion keeps.
-/

namespace Dytan.IMA

/-- An instruction that is neither a call in `loaded` nor one of those that touch the counter; a tag
passes what was loaded for its call. -/
structure Instruction.Plain (loaded : Set InstId) (i : Instruction) : Prop where
  counter : ima_tag_count ∉ i.operands
  notLoaded : i.id ∉ loaded
  kind : match i.id with
    | .tag_pointer ci si => i = tagPointer ci si
    | .tag_memory ci si => ∃ second, i = tagMemory ci si second
    | .load_ima_tag_count _ | .inc_ima_tag_count _ | .store_ima_tag_count _ => False
    | _ => True

/-- The instructions of a block or of its rest: after a call in `loaded` comes the load, and only
after a last tag the increment. -/
inductive Grouped (loaded : Set InstId) : List Instruction → Prop
  | nil : Grouped loaded []
  | plain {i : Instruction} {rest : List Instruction} :
      i.Plain loaded → Grouped loaded rest → Grouped loaded (i :: rest)
  | allocation {i : Instruction} {rest : List Instruction} :
      i.id ∈ loaded → i.fromSource → i.opcode.allocates → Grouped loaded rest →
      Grouped loaded (i :: loadCounter i.id :: rest)
  | last {ci si : InstId} {second : Value} {rest : List Instruction} :
      Grouped loaded rest →
      Grouped loaded (tagMemory ci si second :: incCounter ci :: storeCounter ci :: rest)

variable {loaded : Set InstId} {src : SourceFunction} {f f' : Function} {second : Second}
  {name : String} {i ci si user : Instruction} {is stores news : List Instruction}
  {b rest : List Instruction} {v : Value}

theorem mem_users : user ∈ users v is ↔ user ∈ is ∧ v ∈ user.operands := by
  simp only [users, List.mem_flatMap, List.mem_map, List.mem_filter, decide_eq_true_eq]
  constructor
  · rintro ⟨i, hi, w, ⟨hw, rfl⟩, rfl⟩
    exact ⟨hi, hw⟩
  · rintro ⟨hi, hv⟩
    exact ⟨user, hi, v, ⟨hv, rfl⟩, rfl⟩

theorem fromSource_iff : i.fromSource ↔ ∃ n, i.id = .source n := by
  unfold Instruction.fromSource
  split
  · rename_i n hn
    exact iff_of_true rfl ⟨n, hn⟩
  · rename_i hn
    exact iff_of_false Bool.false_ne_true fun ⟨n, h⟩ => hn n h

theorem SourceFunction.source (src : SourceFunction) (i : Instruction) (hi : i ∈ src.instructions) :
    (∃ n, i.id = .source n) ∧ ima_tag_count ∉ i.operands := by
  rw [← fromSource_iff]
  exact src.given i hi

theorem SourceFunction.eq_of_id (hi : i ∈ src.instructions) (hu : user ∈ src.instructions)
    (h : i.id = user.id) : i = user := List.inj_on_of_nodup_map src.nodup hi hu h

theorem mem_insertAfter {x : InstId} (h : i ∈ (f.insertAfter x news).instructions) :
    i ∈ f.instructions ∨ i ∈ news := by
  simp only [Function.instructions, Function.insertAfter, List.mem_flatten, List.mem_map] at h ⊢
  obtain ⟨_, ⟨b, hb, rfl⟩, hi⟩ := h
  obtain ⟨j, hj, hi⟩ := List.mem_flatMap.1 hi
  split at hi
  · rcases List.mem_cons.1 hi with rfl | hi
    · exact .inl ⟨b, hb, hj⟩
    · exact .inr hi
  · obtain rfl := List.mem_singleton.1 hi
    exact .inl ⟨b, hb, hj⟩

/-! ### The stores of a pointer -/

theorem bitcastStores_mem (h : bitcastStores name is stores = .ok news) :
    ∀ s ∈ news, s ∈ stores ∨ s ∈ is ∧ s.opcode = .StoreInst := by
  induction is generalizing stores with
  | nil =>
    cases h
    exact fun s hs => .inl hs
  | cons user is ih =>
    intro s hs
    unfold bitcastStores at h
    split at h
    · rename_i hop
      rcases ih h s hs with hs | ⟨hs, hsop⟩
      · rcases List.mem_cons.1 hs with rfl | hs
        · exact .inr ⟨List.mem_cons_self, hop⟩
        · exact .inl hs
      · exact .inr ⟨List.mem_cons_of_mem _ hs, hsop⟩
    · rcases ih h s hs with hs | ⟨hs, hsop⟩
      · exact .inl hs
      · exact .inr ⟨List.mem_cons_of_mem _ hs, hsop⟩
    · cases h

/-- A store the loop finds has the pointer, or a bitcast of it, as an operand. -/
theorem pointerStores_mem (h : pointerStores f name is stores = .ok news) :
    ∀ s ∈ news, s ∈ stores ∨ s.opcode = .StoreInst ∧
      (s ∈ is ∨ ∃ u ∈ is, u.opcode = .BitCastInst ∧ s ∈ f.uses (.instruction u.id)) := by
  induction is generalizing stores with
  | nil =>
    cases h
    exact fun s hs => .inl hs
  | cons user is ih =>
    -- what is found among the later users is found among all
    have hlater : ∀ s, (s.opcode = .StoreInst ∧
        (s ∈ is ∨ ∃ u ∈ is, u.opcode = .BitCastInst ∧ s ∈ f.uses (.instruction u.id))) →
        s.opcode = .StoreInst ∧ (s ∈ user :: is ∨
          ∃ u ∈ user :: is, u.opcode = .BitCastInst ∧ s ∈ f.uses (.instruction u.id)) := by
      rintro s ⟨hop, hs | ⟨u, hu, hs⟩⟩
      · exact ⟨hop, .inl (List.mem_cons_of_mem _ hs)⟩
      · exact ⟨hop, .inr ⟨u, List.mem_cons_of_mem _ hu, hs⟩⟩
    intro s hs
    unfold pointerStores at h
    split at h
    · rename_i hop
      rcases ih h s hs with hs | hs
      · rcases List.mem_cons.1 hs with rfl | hs
        · exact .inr ⟨hop, .inl List.mem_cons_self⟩
        · exact .inl hs
      · exact .inr (hlater s hs)
    · rename_i hop
      cases hb : bitcastStores name (f.uses (.instruction user.id)) stores with
      | error message => rw [hb] at h; cases h
      | ok stores' =>
        rw [hb] at h
        rcases ih h s hs with hs | hs
        · rcases bitcastStores_mem hb s hs with hs | ⟨hs, hsop⟩
          · exact .inl hs
          · exact .inr ⟨hsop, .inr ⟨user, List.mem_cons_self, hop, hs⟩⟩
        · exact .inr (hlater s hs)
    · cases h
    · cases h

theorem storeinst_vector_ok (h : storeinst_vector f name ci = .ok stores) :
    pointerStores f name (f.uses (.instruction ci.id)) [] = .ok stores := by
  unfold storeinst_vector at h
  split_ifs at h
  cases hp : pointerStores f name (f.uses (.instruction ci.id)) [] with
  | error message => rw [hp] at h; cases h
  | ok found =>
    rw [hp] at h
    dsimp only [bind, Except.bind] at h
    split_ifs at h
    exact h

/-! ### Insertions -/

/-- The stores and the bitcasts among the inserted instructions. -/
structure Instruction.Inserted (u : Instruction) : Prop where
  id : ∀ n, u.id ≠ .source n
  store : u.opcode = .StoreInst → ∃ ci, u = storeCounter ci
  bitcast : u.opcode = .BitCastInst → ∃ ci si, u.id = .bitcast_inst ci si

/-- The function at work, when the calls in `loaded` are instrumented. -/
structure Inserting (src : SourceFunction) (loaded : Set InstId) (f : Function) : Prop where
  grouped : ∀ b ∈ f.blocks, Grouped loaded b
  source : ∀ i ∈ f.instructions, ∀ n, i.id = .source n → i ∈ src.instructions
  uses : ∀ v, ∀ u ∈ f.uses v, v ∈ u.operands ∧ (u ∈ src.instructions ∨ u.Inserted)
  loaded : ∀ c ∈ loaded, ∃ i ∈ src.instructions, i.id = c ∧ i.opcode.allocates

theorem Inserting.init : Inserting src ∅ src.toFunction where
  grouped b hb := by
    have hplain : ∀ i ∈ b, i.Plain ∅ := by
      intro i hi
      obtain ⟨⟨n, hn⟩, hcounter⟩ := src.source i (List.mem_flatten.2 ⟨b, hb, hi⟩)
      exact ⟨hcounter, Set.notMem_empty _, by rw [hn]; trivial⟩
    clear hb
    induction b with
    | nil => exact .nil
    | cons i b ih =>
      obtain ⟨hi, hb⟩ := List.forall_mem_cons.1 hplain
      exact .plain hi (ih hb)
  source _ hi _ _ := hi
  uses v u hu := by
    obtain ⟨hmem, hv⟩ := mem_users.1 ((src.uses_perm v).mem_iff.1 hu)
    exact ⟨hv, .inl hmem⟩
  loaded _ h := absurd h (Set.notMem_empty _)

theorem Inserting.eq_of_id (h : Inserting src loaded f) (hi : i ∈ f.instructions)
    (hu : user ∈ src.instructions) (hid : i.id = user.id) : i = user := by
  obtain ⟨⟨n, hn⟩, -⟩ := src.source user hu
  exact src.eq_of_id (h.source i hi n (hid.trans hn)) hu hid

/-- Nothing but stores of the source is found. -/
theorem Inserting.mem_stores (h : Inserting src loaded f) (hci : ci ∈ src.instructions)
    (hs : storeinst_vector f name ci = .ok stores) :
    ∀ s ∈ stores, s ∈ src.instructions ∧ s.opcode = .StoreInst := by
  obtain ⟨⟨n, hn⟩, -⟩ := src.source ci hci
  -- an inserted store uses only what is added to the counter and the counter
  have hstore : ∀ (id : InstId) (s : Instruction), (∀ c, id ≠ .inc_ima_tag_count c) →
      s ∈ f.uses (.instruction id) → s.opcode = .StoreInst → s ∈ src.instructions := by
    intro id s hid hs hop
    obtain ⟨hv, hs | hs⟩ := h.uses _ s hs
    · exact hs
    · obtain ⟨c, rfl⟩ := hs.store hop
      simp only [storeCounter, ima_tag_count, List.mem_cons, Value.instruction.injEq, reduceCtorEq,
        List.not_mem_nil, or_false] at hv
      exact absurd hv (hid c)
  have hbitcast : ∀ u, u ∈ f.uses (.instruction ci.id) → u.opcode = .BitCastInst →
      ∀ c, u.id ≠ .inc_ima_tag_count c := by
    intro u hu hop c
    obtain ⟨-, hu | hu⟩ := h.uses _ u hu
    · obtain ⟨⟨m, hm⟩, -⟩ := src.source u hu
      rw [hm]
      exact InstId.noConfusion
    · obtain ⟨c', s', hid⟩ := hu.bitcast hop
      rw [hid]
      exact InstId.noConfusion
  intro s hmem
  rcases pointerStores_mem (storeinst_vector_ok hs) s hmem with hs | ⟨hop, hs | ⟨u, hu, huop, hs⟩⟩
  · cases hs
  · exact ⟨hstore ci.id s (fun c => hn ▸ InstId.noConfusion) hs hop, hop⟩
  · exact ⟨hstore u.id s (hbitcast u hu huop) hs hop, hop⟩

/-- Whole groups after an instruction of the source that is not in `loaded`. -/
theorem Grouped.insertAfter (h : Grouped loaded b) {n : Nat} (hn : .source n ∉ loaded)
    (hnews : ∀ rest, Grouped loaded rest → Grouped loaded (news ++ rest)) :
    Grouped loaded (b.flatMap fun j => if j.id = .source n then j :: news else [j]) := by
  induction h with
  | nil => exact .nil
  | @plain i rest hi _ ih =>
    rw [List.flatMap_cons]
    split
    · exact .plain hi (hnews _ ih)
    · exact .plain hi ih
  | @allocation i rest hi hs hop _ ih =>
    have hne : i.id ≠ .source n := fun he => hn (he ▸ hi)
    rw [List.flatMap_cons, if_neg hne, List.flatMap_cons, if_neg InstId.noConfusion]
    exact .allocation hi hs hop ih
  | @last ci si second rest _ ih =>
    simp only [List.flatMap_cons, tagMemory, incCounter, storeCounter, reduceCtorEq, if_false,
      List.singleton_append]
    exact .last ih

/-- The load after a call. -/
theorem Grouped.insertLoad (h : Grouped loaded b) {n : Nat} (hn : .source n ∉ loaded)
    (hop : ∀ j ∈ b, j.id = .source n → j.opcode.allocates) :
    Grouped (insert (.source n) loaded)
      (b.flatMap fun j => if j.id = .source n then [j, loadCounter (.source n)] else [j]) := by
  induction h with
  | nil => exact .nil
  | @plain i rest hi _ ih =>
    obtain ⟨hop, hrest⟩ := List.forall_mem_cons.1 hop
    rw [List.flatMap_cons]
    split
    · rename_i hid
      have hal : Grouped (insert (.source n) loaded) (i :: loadCounter i.id :: _) :=
        .allocation (hid ▸ Set.mem_insert _ _) (fromSource_iff.2 ⟨n, hid⟩) (hop hid) (ih hrest)
      rwa [hid] at hal
    · rename_i hid
      refine .plain ⟨hi.counter, ?_, hi.kind⟩ (ih hrest)
      rintro (he | he)
      · exact hid he
      · exact hi.notLoaded he
  | @allocation i rest hi hs hal _ ih =>
    have hne : i.id ≠ .source n := fun he => hn (he ▸ hi)
    rw [List.flatMap_cons, if_neg hne, List.flatMap_cons, if_neg InstId.noConfusion]
    exact .allocation (Set.mem_insert_of_mem _ hi) hs hal (ih fun j hj => hop j (by simp [hj]))
  | @last ci si second rest _ ih =>
    simp only [List.flatMap_cons, tagMemory, incCounter, storeCounter, reduceCtorEq, if_false,
      List.singleton_append]
    exact .last (ih fun j hj => hop j (by simp [hj]))

theorem getOperand_ne (h : ima_tag_count ∉ i.operands) (n : Nat) :
    i.getOperand n ≠ ima_tag_count ∧ i.getArgOperand n ≠ ima_tag_count := by
  have hne : i.operands.getD n .undefValue ≠ ima_tag_count := by
    rw [List.getD_eq_getElem?_getD]
    cases hv : i.operands[n]? with
    | none => exact Value.noConfusion
    | some v => exact fun he => h (he ▸ List.mem_of_getElem? hv)
  exact ⟨hne, hne⟩

/-- The size does not involve the counter. -/
def Second.Free (second : Second) (ci : Instruction) : Prop :=
  ∀ si, (second ci si).2 ≠ ima_tag_count ∧
    ∀ j ∈ (second ci si).1, j.id = .second ci.id si ∧ j.opcode = .Mul ∧ ima_tag_count ∉ j.operands

theorem plain_of_id (hloaded : ∀ c ∈ loaded, ∃ n, c = .source n) (hc : ima_tag_count ∉ i.operands)
    (hid : ∀ n, i.id ≠ .source n)
    (hkind : match i.id with
      | .tag_pointer ci si => i = tagPointer ci si
      | .tag_memory ci si => ∃ second, i = tagMemory ci si second
      | .load_ima_tag_count _ | .inc_ima_tag_count _ | .store_ima_tag_count _ => False
      | _ => True) : i.Plain loaded := by
  refine ⟨hc, fun hi => ?_, hkind⟩
  obtain ⟨n, hn⟩ := hloaded _ hi
  exact hid n hn

theorem Grouped.tagFree (hloaded : ∀ c ∈ loaded, ∃ n, c = .source n)
    (hci : ima_tag_count ∉ ci.operands) (h : Grouped loaded rest) :
    Grouped loaded ([tagFree ci] ++ rest) := by
  refine .plain (plain_of_id hloaded ?_ (fun n => InstId.noConfusion) trivial) h
  simp [IMA.tagFree, ((getOperand_ne hci 0).2).symm]

theorem Grouped.tagStore (hloaded : ∀ c ∈ loaded, ∃ n, c = .source n)
    (hsi : ima_tag_count ∉ si.operands) (hsecond : second.Free ci) (last : Bool)
    (h : Grouped loaded rest) : Grouped loaded (tagStore second ci si last ++ rest) := by
  obtain ⟨hvalue, hmul⟩ := hsecond si.id
  -- the last tag, with what follows it
  have hmemory : Grouped loaded (tagMemory ci.id si.id (second ci si.id).2 ::
      ((if last then [incCounter ci.id, storeCounter ci.id] else []) ++ rest)) := by
    cases last with
    | true => exact .last h
    | false =>
      refine .plain (plain_of_id hloaded ?_ (fun n => InstId.noConfusion) ⟨_, rfl⟩) h
      simpa [tagMemory, ima_tag_count] using hvalue.symm
  have hsize : Grouped loaded ((second ci si.id).1 ++
      (tagMemory ci.id si.id (second ci si.id).2 ::
        ((if last then [incCounter ci.id, storeCounter ci.id] else []) ++ rest))) := by
    generalize (second ci si.id).1 = muls at hmul
    induction muls with
    | nil => exact hmemory
    | cons j muls ih =>
      obtain ⟨⟨hid, -, hc⟩, hmuls⟩ := List.forall_mem_cons.1 hmul
      refine .plain (plain_of_id hloaded hc ?_ ?_) (ih hmuls)
      · exact fun n => hid ▸ InstId.noConfusion
      · rw [hid]
        trivial
  have hpointer : (tagPointer ci.id si.id).Plain loaded :=
    plain_of_id hloaded (by simp [tagPointer, ima_tag_count]) (fun n => InstId.noConfusion) rfl
  have hcast : Instruction.Plain loaded
      ⟨.bitcast_inst ci.id si.id, .BitCastInst, [si.getOperand 1]⟩ :=
    plain_of_id hloaded (by simp [((getOperand_ne hsi 1).1).symm])
      (fun n => InstId.noConfusion) trivial
  have htags := Grouped.plain hcast (.plain hpointer hsize)
  simpa only [IMA.tagStore, List.append_assoc, List.cons_append, List.nil_append] using htags

theorem Second.Free.inserted (h : second.Free ci) (last : Bool) :
    ∀ u ∈ tagStore second ci si last, u.Inserted := by
  intro u hu
  simp only [tagStore, List.append_assoc, List.mem_append, List.mem_cons, List.not_mem_nil,
    or_false] at hu
  rcases hu with (rfl | rfl) | hu | rfl | hu
  · exact ⟨fun n => InstId.noConfusion, Opcode.noConfusion, fun _ => ⟨_, _, rfl⟩⟩
  · exact ⟨fun n => InstId.noConfusion, Opcode.noConfusion, Opcode.noConfusion⟩
  · obtain ⟨hid, hop, -⟩ := (h si.id).2 u hu
    refine ⟨fun n => hid ▸ InstId.noConfusion, fun he => ?_, fun he => ?_⟩
    · cases hop.symm.trans he
    · cases hop.symm.trans he
  · exact ⟨fun n => InstId.noConfusion, Opcode.noConfusion, Opcode.noConfusion⟩
  · split_ifs at hu
    · simp only [List.mem_cons, List.not_mem_nil, or_false] at hu
      rcases hu with rfl | rfl
      · exact ⟨fun n => InstId.noConfusion, Opcode.noConfusion, Opcode.noConfusion⟩
      · exact ⟨fun n => InstId.noConfusion, fun _ => ⟨_, rfl⟩, Opcode.noConfusion⟩
    · cases hu

theorem tagFree_inserted : (tagFree ci).Inserted :=
  ⟨fun _ => InstId.noConfusion, Opcode.noConfusion, Opcode.noConfusion⟩

theorem loadCounter_inserted {c : InstId} : (loadCounter c).Inserted :=
  ⟨fun _ => InstId.noConfusion, Opcode.noConfusion, Opcode.noConfusion⟩

theorem Inserting.loaded_source (h : Inserting src loaded f) : ∀ c ∈ loaded, ∃ n, c = .source n := by
  intro c hc
  obtain ⟨i, hi, rfl, -⟩ := h.loaded c hc
  exact (src.source i hi).1

/-- What an insertion keeps beside the order of instructions. -/
theorem Inserting.insertAfter {loaded' : Set InstId} (h : Inserting src loaded f) {x : InstId}
    (hnews : ∀ u ∈ news, u.Inserted)
    (hgrouped : ∀ b ∈ f.blocks, Grouped loaded' (b.flatMap fun j => if j.id = x then j :: news else [j]))
    (hloaded : ∀ c ∈ loaded', ∃ i ∈ src.instructions, i.id = c ∧ i.opcode.allocates) :
    Inserting src loaded' (f.insertAfter x news) where
  grouped b hb := by
    obtain ⟨b', hb', rfl⟩ := List.mem_map.1 hb
    exact hgrouped b' hb'
  source i hi n hn := by
    rcases mem_insertAfter hi with hi | hi
    · exact h.source i hi n hn
    · exact absurd hn ((hnews i hi).id n)
  uses v u hu := by
    rcases List.mem_append.1 hu with hu | hu
    · obtain ⟨hu, hv⟩ := mem_users.1 (List.mem_reverse.1 hu)
      exact ⟨hv, .inr (hnews u hu)⟩
    · exact h.uses v u hu
  loaded := hloaded

/-- Whole groups after an instruction that is no instrumented call. -/
theorem Inserting.insertGroups (h : Inserting src loaded f) (hsi : si ∈ src.instructions)
    (hout : si.id ∉ loaded) (hnews : ∀ u ∈ news, u.Inserted)
    (hgrouped : ∀ rest, Grouped loaded rest → Grouped loaded (news ++ rest)) :
    Inserting src loaded (f.insertAfter si.id news) := by
  obtain ⟨⟨n, hn⟩, -⟩ := src.source si hsi
  refine h.insertAfter hnews (fun b hb => ?_) h.loaded
  rw [hn] at hout ⊢
  exact (h.grouped b hb).insertAfter hout hgrouped

theorem Inserting.insertLoad (h : Inserting src loaded f) (hci : ci ∈ src.instructions)
    (hop : ci.opcode.allocates) (hout : ci.id ∉ loaded) :
    Inserting src (insert ci.id loaded) (f.insertAfter ci.id [loadCounter ci.id]) := by
  obtain ⟨⟨n, hn⟩, -⟩ := src.source ci hci
  refine h.insertAfter ?_ (fun b hb => ?_) ?_
  · intro u hu
    obtain rfl := List.mem_singleton.1 hu
    exact loadCounter_inserted
  · rw [hn] at hout ⊢
    refine (h.grouped b hb).insertLoad hout fun j hj hid => ?_
    rwa [h.eq_of_id (List.mem_flatten.2 ⟨b, hb, hj⟩) hci (hid.trans hn.symm)]
  · rintro c (rfl | hc)
    · exact ⟨ci, hci, rfl, hop⟩
    · exact h.loaded c hc

/-- A store is no instrumented call. -/
theorem Inserting.store_notMem (h : Inserting src loaded f) (hsi : si ∈ src.instructions)
    (hop : si.opcode = .StoreInst) : si.id ∉ loaded := by
  intro hc
  obtain ⟨i, hi, hid, hal⟩ := h.loaded _ hc
  rw [src.eq_of_id hi hsi hid, hop] at hal
  cases hal

theorem Inserting.tagStores (h : Inserting src loaded f) (hsecond : second.Free ci)
    (hstores : ∀ s ∈ stores, s ∈ src.instructions ∧ s.opcode = .StoreInst) :
    Inserting src loaded (tagStores second ci stores f) := by
  induction stores generalizing f with
  | nil => exact h
  | cons si stores ih =>
    obtain ⟨⟨hsi, hop⟩, hstores⟩ := List.forall_mem_cons.1 hstores
    refine ih (h.insertGroups hsi (h.store_notMem hsi hop) (hsecond.inserted _) ?_) hstores
    exact fun rest => Grouped.tagStore h.loaded_source (src.source si hsi).2 hsecond _

theorem Inserting.instrumentAllocation (h : Inserting src loaded f) {frees : Bool}
    (hci : ci ∈ src.instructions) (hop : ci.opcode.allocates) (hout : ci.id ∉ loaded)
    (hsecond : second.Free ci) (hf : instrumentAllocation name frees second f ci = .ok f') :
    Inserting src (insert ci.id loaded) f' := by
  unfold IMA.instrumentAllocation at hf
  cases hs : storeinst_vector f name ci with
  | error message => rw [hs] at hf; cases hf
  | ok stores =>
    rw [hs] at hf
    obtain rfl := Except.ok.inj hf
    have hfree : Inserting src loaded (if frees then f.insertAfter ci.id [tagFree ci] else f) := by
      split_ifs
      · refine h.insertGroups hci hout ?_ fun rest => ?_
        · intro u hu
          obtain rfl := List.mem_singleton.1 hu
          exact tagFree_inserted
        · exact Grouped.tagFree h.loaded_source (src.source ci hci).2
      · exact h
    exact (hfree.insertLoad hci hop hout).tagStores hsecond (h.mem_stores hci hs)

/-! ### The pass -/

theorem Pass.instrumented_spec {p : Pass} {r : Except String Function}
    (h : Inserting src loaded p.function)
    (hr : ∀ f, r = .ok f → Inserting src (insert i.id loaded) f) :
    ∃ loaded' ⊆ insert i.id loaded, Inserting src loaded' (p.instrumented r).function := by
  cases r with
  | ok f => exact ⟨_, subset_rfl, hr f rfl⟩
  | error message => exact ⟨loaded, Set.subset_insert _ _, h⟩

theorem Pass.visit_spec {p : Pass} (h : Inserting src loaded p.function) (hi : i ∈ src.instructions)
    (hout : i.id ∉ loaded) :
    ∃ loaded' ⊆ insert i.id loaded, Inserting src loaded' (p.visit i).function := by
  have harg := fun n => (getOperand_ne (src.source i hi).2 n).2
  unfold Pass.visit
  split
  · rename_i name hop
    split_ifs with hmalloc hrealloc hcalloc hfree
    · refine Pass.instrumented_spec h fun f => ?_
      refine h.instrumentAllocation hi (by simp [hop, Opcode.allocates, hmalloc]) hout ?_
      exact fun _ => ⟨harg 0, fun j hj => absurd hj List.not_mem_nil⟩
    · refine Pass.instrumented_spec h fun f => ?_
      refine h.instrumentAllocation hi (by simp [hop, Opcode.allocates, hrealloc]) hout ?_
      exact fun _ => ⟨harg 1, fun j hj => absurd hj List.not_mem_nil⟩
    · refine Pass.instrumented_spec h fun f => ?_
      refine h.instrumentAllocation hi (by simp [hop, Opcode.allocates, hcalloc]) hout fun si => ?_
      refine ⟨Value.noConfusion, fun j hj => ?_⟩
      obtain rfl := List.mem_singleton.1 hj
      exact ⟨rfl, rfl, by simp [(harg 0).symm, (harg 1).symm]⟩
    · refine ⟨loaded, Set.subset_insert _ _, h.insertGroups hi hout ?_ fun rest => ?_⟩
      · intro u hu
        obtain rfl := List.mem_singleton.1 hu
        exact tagFree_inserted
      · exact Grouped.tagFree h.loaded_source (src.source i hi).2
    · exact ⟨loaded, Set.subset_insert _ _, h⟩
  · exact ⟨loaded, Set.subset_insert _ _, h⟩

/-- What the pass keeps, at its end. -/
theorem runOnFunction_inserting (src : SourceFunction) :
    ∃ loaded : Set InstId, Inserting src loaded (runOnFunction src.toFunction).function := by
  -- the loop, over the instructions not visited yet
  have hloop : ∀ (is : List Instruction) (p : Pass) (loaded : Set InstId),
      Inserting src loaded p.function → (∀ i ∈ is, i ∈ src.instructions ∧ i.id ∉ loaded) →
      (is.map Instruction.id).Nodup →
      ∃ loaded', Inserting src loaded' (is.foldl Pass.visit p).function := by
    intro is
    induction is with
    | nil => exact fun p loaded h _ _ => ⟨loaded, h⟩
    | cons i is ih =>
      intro p loaded h his hnodup
      obtain ⟨⟨hi, hout⟩, his⟩ := List.forall_mem_cons.1 his
      obtain ⟨hid, hnodup⟩ := List.nodup_cons.1 hnodup
      obtain ⟨loaded', hsub, h'⟩ := Pass.visit_spec h hi hout
      refine ih _ loaded' h' (fun j hj => ⟨(his j hj).1, fun hj' => ?_⟩) hnodup
      rcases hsub hj' with he | hj'
      · exact hid (he ▸ List.mem_map_of_mem hj)
      · exact (his j hj).2 hj'
  exact hloop src.instructions ⟨src.toFunction, false, []⟩ ∅ Inserting.init
    (fun i hi => ⟨hi, Set.notMem_empty _⟩) src.nodup

/-- The blocks the pass leaves. -/
theorem runOnFunction_grouped (src : SourceFunction) :
    ∃ loaded : Set InstId,
      ∀ b ∈ (runOnFunction src.toFunction).function.blocks, Grouped loaded b := by
  obtain ⟨loaded, h⟩ := runOnFunction_inserting src
  exact ⟨loaded, h.grouped⟩

end Dytan.IMA
