import Dytan.IMA.Attached
import Dytan.Lib.Run

/-!
# The loops of the pass

`Loop.step`: the loop over blocks and the loop over the instructions of a block, which insert into the
lists they go over. The block at work is cut before the instruction that the iterator is at: what is
inserted before the cut is not visited any more, what is inserted after the instruction is visited next.

The pass asks the module for the variable `ima_tag_count`, and gets none when `doInitialization` could
not give its variable this name, because it stands for something else. It also asks for the functions
that it calls. When it gets something other than a function it crashes: the cast gives `NULL`, and the
call is created without a look at it. The calls of the source are taken to have the arguments that C
gives them, and the types of values, which LLVM checks by assertions, are left out.

`Loop.terminates`: the loops come to an end, or crash, for every function. `Loop.end_spec`: at the end
they have called the functions that instrument for the calls of the source, for each once, in their
order, and what they leave is what a run over the instructions of the source leaves (`Loop.visit`).
`Loop.finishes_iff`: they come to the end if and only if this run does. It is `runOnFunction` when the
variable and the functions are there (`Loop.end_runOnFunction`).
-/

namespace Dytan.IMA

/-- The types in the signatures that the pass asks for, and any other. -/
inductive Ty
  | void
  | int32
  | int8Ptr
  | other (n : Nat)
deriving DecidableEq

structure FunctionType where
  result : Ty
  params : List Ty
  isVarArg : Bool
deriving DecidableEq

inductive GlobalValue
  | GlobalVariable
  | Function (type : FunctionType)
  | GlobalAlias
deriving DecidableEq

/-- What a name of the module stands for. -/
structure Symbol where
  value : GlobalValue
  hasLocalLinkage : Bool
deriving DecidableEq

namespace Loop

/-- The new variable gets another name if this one is taken. -/
def doInitialization (symbols : String → Option Symbol) : String → Option Symbol :=
  if symbols "ima_tag_count" = none then
    Function.update symbols "ima_tag_count" (some ⟨.GlobalVariable, false⟩)
  else symbols

/-- Whether there is a global variable with the name, be it internal. -/
def getGlobalVariable (symbols : String → Option Symbol) (name : String) : Bool :=
  match symbols name with
  | some symbol => symbol.value = .GlobalVariable
  | none => false

/-- Whether what `getOrInsertFunction` returns is a function: a new one when the name is free, or when
what has it is internal and gives it up, and else what has it, cast if the type is another. -/
def getOrInsertFunction (symbols : String → Option Symbol) (name : String) (type : FunctionType) :
    Bool :=
  match symbols name with
  | none => true
  | some symbol => symbol.hasLocalLinkage || symbol.value = .Function type

def freeType : FunctionType := ⟨.void, [.int8Ptr], false⟩

def tagType : FunctionType := ⟨.void, [.int8Ptr, .int32, .int32], false⟩

/-- What a function that instruments a call leaves: the function at work, what it returns, and its
messages. -/
structure Instrumented where
  function : IMA.Function
  returns : Bool
  errs : List String

section
variable (symbols : String → Option Symbol)

/-- The call of `DYTAN_free`. -/
def insertFree (f : IMA.Function) (ci : Instruction) : Option IMA.Function :=
  if getOrInsertFunction symbols "DYTAN_free" freeType then
    some (f.insertAfter ci.id [tagFree ci])
  else none

def freePrevious (frees : Bool) (f : IMA.Function) (ci : Instruction) : Option IMA.Function :=
  if frees then insertFree symbols f ci else some f

/-- What the three functions share; the memory that the call frees is untagged before the variable is
asked for. -/
def instrumentAllocation (name : String) (frees : Bool) (second : Second) (f : IMA.Function)
    (ci : Instruction) : Option Instrumented :=
  match storeinst_vector f name ci with
  | .error message => some ⟨f, false, [message]⟩
  | .ok stores => do
    let f ← freePrevious symbols frees f ci
    if getGlobalVariable symbols "ima_tag_count" then
      -- there is a store, and the first asks for both already
      if getOrInsertFunction symbols "DYTAN_tag_pointer" tagType &&
          getOrInsertFunction symbols "DYTAN_tag_memory" tagType then
        some ⟨tagStores second ci stores (f.insertAfter ci.id [loadCounter ci.id]), true, []⟩
      else none
    else some ⟨f, false, ["Could not get global tag count for IMA"]⟩

def instrumentMalloc : IMA.Function → Instruction → Option Instrumented :=
  instrumentAllocation symbols "malloc" false fun ci _ => ([], ci.getArgOperand 0)

def instrumentRealloc : IMA.Function → Instruction → Option Instrumented :=
  instrumentAllocation symbols "realloc" true fun ci _ => ([], ci.getArgOperand 1)

def instrumentCalloc : IMA.Function → Instruction → Option Instrumented :=
  instrumentAllocation symbols "calloc" false fun ci si =>
    ([⟨.second ci.id si, .Mul, [ci.getArgOperand 0, ci.getArgOperand 1]⟩],
      .instruction (.second ci.id si))

def instrumentFree (f : IMA.Function) (ci : Instruction) : Option Instrumented := do
  let f ← insertFree symbols f ci
  some ⟨f, true, []⟩

/-- What is called for an instruction; there is no result when the pass crashes. -/
def instrument (f : IMA.Function) (i : Instruction) : Option Instrumented :=
  match i.opcode with
  | .CallInst (some name) =>
    if name = "malloc" then instrumentMalloc symbols f i
    else if name = "realloc" then instrumentRealloc symbols f i
    else if name = "calloc" then instrumentCalloc symbols f i
    else if name = "free" then instrumentFree symbols f i
    else some ⟨f, false, []⟩
  | _ => some ⟨f, false, []⟩

/-- Where the iterators are: before the first of the blocks `later`, or before the first of the
instructions `after` in the block after `visited`. -/
inductive Cursor
  | blocks (visited later : List (List Instruction))
  | instructions (visited : List (List Instruction)) (before after : List Instruction)
      (later : List (List Instruction))

structure State where
  cursor : Cursor
  uses : Value → List Instruction
  return_value : Bool
  errs : List String

def start (f : IMA.Function) : State := ⟨.blocks [] f.blocks, f.uses, false, []⟩

/-- One turn of a loop, unless the last block was visited or the pass crashes. -/
def step (s : State) (_ : Unit) : Option State :=
  match s.cursor with
  | .blocks _ [] => none
  | .blocks visited (bb :: later) => some { s with cursor := .instructions visited [] bb later }
  | .instructions visited before [] later =>
    some { s with cursor := .blocks (visited ++ [before]) later }
  | .instructions visited before (i :: after) later => do
    let r ← instrument symbols ⟨visited ++ before :: (i :: after) :: later, s.uses⟩ i
    let bs := r.function.blocks
    let n := visited.length
    some ⟨.instructions (bs.take n) (bs.getD n [] ++ [i]) (bs.getD (n + 1) []).tail
      (bs.drop (n + 2)), r.function.uses, s.return_value || r.returns, s.errs ++ r.errs⟩

end

/-- The last block was visited. -/
def Finished (s : State) : Prop := ∃ visited, s.cursor = .blocks visited []

/-- The call that a turn of the loop is for. -/
def processed (s : State) (_ : Unit) : List Instruction :=
  match s.cursor with
  | .instructions _ _ (i :: _) _ => if i.opcode.handled then [i] else []
  | _ => []

def Cursor.all : Cursor → List (List Instruction)
  | .blocks visited later => visited ++ later
  | .instructions visited before after later => visited ++ (before ++ after) :: later

/-- The instructions that are not visited yet. -/
def Cursor.ahead : Cursor → List Instruction
  | .blocks _ later => later.flatten
  | .instructions _ _ after later => after ++ later.flatten

/-- The function, the result and the messages so far. -/
def State.pass (s : State) : Pass := ⟨⟨s.cursor.all, s.uses⟩, s.return_value, s.errs⟩

def Instrumented.onto (r : Instrumented) (p : Pass) : Pass :=
  ⟨r.function, p.return_value || r.returns, p.errs ++ r.errs⟩

/-- The loop's body, for a function that is not cut. -/
def visit (symbols : String → Option Symbol) (p : Pass) (i : Instruction) : Option Pass :=
  (instrument symbols p.function i).map (·.onto p)

/-! ## What is inserted -/

/-- A change of a function that inserts, and otherwise looks at uses only. -/
def Inserts (change : IMA.Function → IMA.Function) : Prop :=
  ∀ uses, ∃ g uses', Expands g ∧
    ∀ blocks, change ⟨blocks, uses⟩ = ⟨blocks.map (List.flatMap g), uses'⟩

variable {symbols : String → Option Symbol} {f : IMA.Function} {second : Second} {name : String}
  {i ci : Instruction} {stores news : List Instruction} {s s' : State} {p : Pass}

theorem expands_comp {g g' : Instruction → List Instruction} (hg : Expands g) (hg' : Expands g') :
    Expands fun j => (g j).flatMap g' := by
  intro j
  obtain ⟨news, hj, hnews⟩ := hg j
  obtain ⟨news', hj', hnews'⟩ := hg' j
  refine ⟨news' ++ news.flatMap g', by simp [hj, hj'], fun u hu => ?_⟩
  rcases List.mem_append.1 hu with hu | hu
  · exact hnews' u hu
  · obtain ⟨v, hv, hu⟩ := List.mem_flatMap.1 hu
    obtain ⟨newer, hv', hnewer⟩ := hg' v
    rw [hv'] at hu
    rcases List.mem_cons.1 hu with rfl | hu
    · exact hnews u hv
    · exact hnewer u hu

theorem Inserts.refl : Inserts id := by
  intro uses
  refine ⟨fun j => [j], uses, fun j => ⟨[], rfl, fun u hu => absurd hu List.not_mem_nil⟩, ?_⟩
  intro blocks
  rw [List.map_congr_left fun b _ => List.flatMap_singleton' b, List.map_id', id_eq]

theorem Inserts.comp {change change' : IMA.Function → IMA.Function} (h : Inserts change)
    (h' : Inserts change') : Inserts (change' ∘ change) := by
  intro uses
  obtain ⟨g, uses₁, hg, hchange⟩ := h uses
  obtain ⟨g', uses₂, hg', hchange'⟩ := h' uses₁
  refine ⟨_, uses₂, expands_comp hg hg', fun blocks => ?_⟩
  simp only [Function.comp_apply, hchange, hchange', List.map_map]
  congr 2
  funext b
  exact List.flatMap_assoc

theorem inserts_insertAfter {id : InstId} (hnews : ∀ u ∈ news, u.Added) :
    Inserts (IMA.Function.insertAfter · id news) :=
  fun uses => ⟨_, fun v => (users v news).reverse ++ uses v, expands_insert hnews, fun _ => rfl⟩

theorem inserts_tagStores (hsecond : ∀ si, ∀ u ∈ (second ci si).1, u.Added) :
    Inserts (tagStores second ci stores) := by
  induction stores with
  | nil => exact Inserts.refl
  | cons si stores ih =>
    exact (inserts_insertAfter (tagStore_added hsecond stores.isEmpty)).comp ih

theorem pointerStores_congr {f f' : IMA.Function} (h : f.uses = f'.uses)
    (users stores : List Instruction) :
    pointerStores f name users stores = pointerStores f' name users stores := by
  induction users generalizing stores with
  | nil => rfl
  | cons user users ih =>
    unfold pointerStores
    simp only [ih, h]

theorem storeinst_vector_congr {f f' : IMA.Function} (h : f.uses = f'.uses) :
    storeinst_vector f name ci = storeinst_vector f' name ci := by
  unfold storeinst_vector
  simp only [h, pointerStores_congr h]

/-- What is called for an instruction only inserts, and otherwise looks at uses only; they also decide
whether it crashes. -/
def Only (run : IMA.Function → Option Instrumented) : Prop :=
  ∀ uses, (∀ blocks, run ⟨blocks, uses⟩ = none) ∨
    ∃ change r errs, Inserts change ∧
      ∀ blocks, run ⟨blocks, uses⟩ = some ⟨change ⟨blocks, uses⟩, r, errs⟩

theorem Inserts.only {change : IMA.Function → IMA.Function} (h : Inserts change) (r : Bool)
    (errs : List String) : Only fun f => some ⟨change f, r, errs⟩ :=
  fun _ => .inr ⟨change, r, errs, h, fun _ => rfl⟩

theorem inserts_tagFree : Inserts (IMA.Function.insertAfter · ci.id [tagFree ci]) :=
  inserts_insertAfter (List.forall_mem_singleton.2 tagFree_added)

/-- Nothing of the function but its uses decides whether the call of `DYTAN_free` can be inserted. -/
theorem freePrevious_cases (symbols : String → Option Symbol) (ci : Instruction) (frees : Bool) :
    (∀ f, freePrevious symbols frees f ci = none) ∨
      ∃ change, Inserts change ∧ ∀ f, freePrevious symbols frees f ci = some (change f) := by
  unfold freePrevious insertFree
  cases frees with
  | false => exact .inr ⟨id, Inserts.refl, fun _ => rfl⟩
  | true =>
    cases getOrInsertFunction symbols "DYTAN_free" freeType with
    | false => exact .inl fun _ => rfl
    | true => exact .inr ⟨_, inserts_tagFree, fun _ => rfl⟩

theorem instrumentAllocation_only (frees : Bool)
    (hsecond : ∀ si, ∀ u ∈ (second ci si).1, u.Added) :
    Only (instrumentAllocation symbols name frees second · ci) := by
  intro uses
  have hload : Inserts (IMA.Function.insertAfter · ci.id [loadCounter ci.id]) :=
    inserts_insertAfter (List.forall_mem_singleton.2 loadCounter_added)
  have hvector : ∀ blocks, storeinst_vector ⟨blocks, uses⟩ name ci =
      storeinst_vector ⟨[], uses⟩ name ci := fun _ => storeinst_vector_congr rfl
  unfold instrumentAllocation
  simp only [hvector]
  cases storeinst_vector ⟨[], uses⟩ name ci with
  | error message => exact .inr ⟨id, false, [message], Inserts.refl, fun _ => rfl⟩
  | ok stores =>
    rcases freePrevious_cases symbols ci frees with hnone | ⟨change, hfree, hchange⟩
    · simp only [hnone]
      exact .inl fun _ => rfl
    · simp only [hchange, Option.bind_eq_bind, Option.bind_some]
      cases getGlobalVariable symbols "ima_tag_count" with
      | true =>
        cases getOrInsertFunction symbols "DYTAN_tag_pointer" tagType &&
            getOrInsertFunction symbols "DYTAN_tag_memory" tagType with
        | true =>
          exact .inr ⟨_, true, [], (hfree.comp hload).comp (inserts_tagStores hsecond), fun _ => rfl⟩
        | false => exact .inl fun _ => rfl
      | false => exact .inr ⟨_, false, _, hfree, fun _ => rfl⟩

theorem instrumentFree_only : Only (instrumentFree symbols · ci) := by
  intro uses
  unfold instrumentFree insertFree
  cases getOrInsertFunction symbols "DYTAN_free" freeType with
  | false => exact .inl fun _ => rfl
  | true => exact inserts_tagFree.only true [] uses

theorem instrument_only (symbols : String → Option Symbol) (i : Instruction) :
    Only (instrument symbols · i) := by
  have hnothing : ∀ (u : Instruction), u ∈ ([] : List Instruction) → u.Added :=
    fun u hu => absurd hu List.not_mem_nil
  unfold instrument
  split
  · split_ifs
    · exact instrumentAllocation_only false fun _ => hnothing
    · exact instrumentAllocation_only true fun _ => hnothing
    · exact instrumentAllocation_only false fun _ => List.forall_mem_singleton.2 ⟨rfl, rfl⟩
    · exact instrumentFree_only
    · exact Inserts.refl.only false []
  · exact Inserts.refl.only false []

/-- An instruction that is none of the calls. -/
theorem instrument_of_not_handled (symbols : String → Option Symbol) (f : IMA.Function)
    (h : i.opcode.handled = false) :
    instrument symbols f i = some ⟨f, false, []⟩ := by
  unfold instrument
  split
  · rename_i name hop
    rw [hop] at h
    simp only [Opcode.handled, Bool.or_eq_false_iff, decide_eq_false_iff_not] at h
    obtain ⟨⟨⟨hmalloc, hrealloc⟩, hcalloc⟩, hfree⟩ := h
    rw [if_neg hmalloc, if_neg hrealloc, if_neg hcalloc, if_neg hfree]
  · rfl

theorem visit_of_not_handled (symbols : String → Option Symbol) (p : Pass)
    (h : i.opcode.handled = false) : visit symbols p i = some p := by
  simp [visit, instrument_of_not_handled symbols p.function h, Instrumented.onto]

/-! ## A turn of the loop -/

/-- What a turn does for an instruction, in terms of the lists it goes over. -/
theorem step_instruction {visited : List (List Instruction)} {before after : List Instruction}
    {later : List (List Instruction)} {uses : Value → List Instruction} {return_value : Bool}
    {errs : List String}
    (hs : step symbols ⟨.instructions visited before (i :: after) later, uses, return_value, errs⟩ () =
      some s') :
    ∃ g uses' r errs' news, Expands g ∧ g i = i :: news ∧ (∀ u ∈ news, u.Added) ∧
      s' = ⟨.instructions (visited.map (List.flatMap g)) (before.flatMap g ++ [i])
          (news ++ after.flatMap g) (later.map (List.flatMap g)), uses', return_value || r,
          errs ++ errs'⟩ ∧
      ∀ blocks, instrument symbols ⟨blocks, uses⟩ i =
        some ⟨⟨blocks.map (List.flatMap g), uses'⟩, r, errs'⟩ := by
  rcases instrument_only symbols i uses with hnone | ⟨change, r, errs', hchange, hrun⟩
  · simp [step, hnone] at hs
  · obtain ⟨g, uses', hg, hblocks⟩ := hchange uses
    obtain ⟨news, hi, hnews⟩ := hg i
    have hinstrument : ∀ blocks, instrument symbols ⟨blocks, uses⟩ i =
        some ⟨⟨blocks.map (List.flatMap g), uses'⟩, r, errs'⟩ := by
      intro blocks
      rw [← hblocks]
      exact hrun blocks
    refine ⟨g, uses', r, errs', news, hg, hi, hnews, ?_, hinstrument⟩
    simp only [step, hinstrument, List.map_append, List.map_cons, List.flatMap_cons, hi] at hs
    obtain rfl := Option.some.inj hs
    simp [List.drop_append]

/-- When a turn crashes, so does what is called for the instruction. -/
theorem step_crashes {visited : List (List Instruction)} {before after : List Instruction}
    {later : List (List Instruction)} {uses : Value → List Instruction} {return_value : Bool}
    {errs : List String}
    (hs : step symbols ⟨.instructions visited before (i :: after) later, uses, return_value, errs⟩ () =
      none) (blocks : List (List Instruction)) : instrument symbols ⟨blocks, uses⟩ i = none := by
  rcases instrument_only symbols i uses with hnone | ⟨change, r, errs', -, hrun⟩
  · exact hnone blocks
  · simp [step, hrun] at hs

theorem flatten_expand (g : Instruction → List Instruction) (later : List (List Instruction)) :
    (later.map (List.flatMap g)).flatten = later.flatten.flatMap g := by
  rw [List.flatten_eq_flatMap, List.flatMap_map, List.flatten_eq_flatMap, List.flatMap_assoc]
  rfl

/-- The instructions of the source ahead are those that were ahead. -/
theorem filter_ahead {g : Instruction → List Instruction} (hg : Expands g)
    (hnews : ∀ u ∈ news, u.Added) (after : List Instruction) (later : List (List Instruction)) :
    ((news ++ after.flatMap g) ++ (later.map (List.flatMap g)).flatten).filter
      Instruction.fromSource = (after ++ later.flatten).filter Instruction.fromSource := by
  have hnil : news.filter Instruction.fromSource = [] :=
    List.filter_eq_nil_iff.2 fun u hu => by simp [(hnews u hu).1]
  rw [flatten_expand, List.append_assoc, ← List.flatMap_append, List.filter_append, hnil, hg.filter,
    List.nil_append]

/-- What holds of a state of the loops after the calls in `before`, when `all` are the instructions of
the source and visiting them gives `result`. -/
structure Invariant (symbols : String → Option Symbol) (all : List Instruction)
    (result : Option Pass) (before : List Instruction) (s : State) : Prop where
  processed : before ++ (s.cursor.ahead.filter Instruction.fromSource).filter (·.opcode.handled) =
    all.filter (·.opcode.handled)
  result : Lib.run (visit symbols) s.pass (s.cursor.ahead.filter Instruction.fromSource) = result
  added : ∀ i ∈ s.cursor.ahead, i.fromSource = false → i.opcode.handled = false

variable {all before : List Instruction} {result : Option Pass}

theorem Invariant.step_instruction {visited : List (List Instruction)}
    {passed after : List Instruction} {later : List (List Instruction)}
    {uses : Value → List Instruction} {return_value : Bool} {errs : List String}
    (h : Invariant symbols all result before
      ⟨.instructions visited passed (i :: after) later, uses, return_value, errs⟩)
    (hs : step symbols ⟨.instructions visited passed (i :: after) later, uses, return_value, errs⟩ () =
      some s') :
    Invariant symbols all result (before ++ if i.opcode.handled then [i] else []) s' := by
  obtain ⟨g, uses', r, errs', news, hg, hi, hnews, rfl, hinstrument⟩ := Loop.step_instruction hs
  obtain ⟨hprocessed, hresult, hadded⟩ := h
  have hflatten := flatten_expand g later
  have hahead := filter_ahead hg hnews after later
  have hpass : visit symbols
      (State.pass ⟨.instructions visited passed (i :: after) later, uses, return_value, errs⟩) i =
      some (State.pass ⟨.instructions (visited.map (List.flatMap g)) (passed.flatMap g ++ [i])
        (news ++ after.flatMap g) (later.map (List.flatMap g)), uses', return_value || r,
        errs ++ errs'⟩) := by
    simp [State.pass, visit, Instrumented.onto, Cursor.all, hinstrument, hi]
  -- whether the instruction is from the source or was inserted
  have hfilter : (i :: after ++ later.flatten).filter Instruction.fromSource =
      (if i.fromSource then [i] else []) ++ (after ++ later.flatten).filter Instruction.fromSource := by
    rw [List.cons_append, List.filter_cons]
    split <;> rfl
  have hfirst : (if i.fromSource then [i] else []).filter (·.opcode.handled) =
      if i.opcode.handled then [i] else [] := by
    cases hsource : i.fromSource with
    | true => simp [List.filter_cons]
    | false => simp [hadded i List.mem_cons_self hsource]
  constructor
  · rw [← hprocessed]
    simp only [Cursor.ahead]
    rw [hahead, hfilter]
    generalize (after ++ later.flatten).filter Instruction.fromSource = rest
    rw [List.filter_append, hfirst, List.append_assoc]
  · rw [← hresult]
    simp only [Cursor.ahead, hahead, hfilter]
    cases hsource : i.fromSource with
    | true => exact (Lib.run_cons_of hpass).symm
    | false =>
      have hsame := visit_of_not_handled symbols
        (State.pass ⟨.instructions visited passed (i :: after) later, uses, return_value, errs⟩)
        (hadded i List.mem_cons_self hsource)
      rw [Option.some.inj (hpass.symm.trans hsame)]
      rfl
  · intro u hu hsource
    have hold : ∀ v ∈ after ++ later.flatten, ∀ u ∈ g v, u.fromSource = false →
        u.opcode.handled = false := by
      intro v hv u hu hsource
      obtain ⟨newer, hv', hnewer⟩ := hg v
      rw [hv'] at hu
      rcases List.mem_cons.1 hu with rfl | hu
      · exact hadded u (List.mem_cons_of_mem _ hv) hsource
      · exact (hnewer u hu).2
    simp only [Cursor.ahead, hflatten, List.append_assoc, ← List.flatMap_append] at hu
    rcases List.mem_append.1 hu with hu | hu
    · exact (hnews u hu).2
    · obtain ⟨v, hv, hu⟩ := List.mem_flatMap.1 hu
      exact hold v hv u hu hsource

theorem Invariant.step (h : Invariant symbols all result before s) {u : Unit}
    (hs : step symbols s u = some s') :
    Invariant symbols all result (before ++ Loop.processed s u) s' := by
  obtain ⟨cursor, uses, return_value, errs⟩ := s
  match cursor with
  | .blocks _ [] => cases hs
  | .blocks visited (bb :: later) =>
    obtain rfl := Option.some.inj hs
    exact ⟨(congrArg (· ++ _) (List.append_nil before)).trans h.processed, h.result, h.added⟩
  | .instructions visited passed [] later =>
    obtain rfl := Option.some.inj hs
    refine ⟨(congrArg (· ++ _) (List.append_nil before)).trans h.processed, ?_, h.added⟩
    have hresult := h.result
    simp only [Cursor.ahead, State.pass, Cursor.all, List.nil_append, List.append_nil,
      List.append_assoc, List.singleton_append] at hresult ⊢
    exact hresult
  | .instructions visited passed (i :: after) later => exact h.step_instruction hs

/-- The instructions of the source that are not visited yet, the blocks, and the instructions of the
block at work. -/
def State.measure (s : State) : ℕ × ℕ × ℕ :=
  ((s.cursor.ahead.filter Instruction.fromSource).length,
    match s.cursor with
    | .blocks _ later => (2 * later.length, 0)
    | .instructions _ _ after later => (2 * later.length + 1, after.length))

/-- Every turn makes it less: it visits an instruction of the source, and may insert some, or visits one
that was inserted, or is done with a block. -/
theorem step_measure (h : Invariant symbols all result before s) {u : Unit}
    (hs : step symbols s u = some s') :
    Prod.Lex (· < ·) (Prod.Lex (· < ·) (· < ·)) s'.measure s.measure := by
  obtain ⟨cursor, uses, return_value, errs⟩ := s
  match cursor with
  | .blocks _ [] => cases hs
  | .blocks visited (bb :: later) =>
    obtain rfl := Option.some.inj hs
    refine .right _ (.left _ _ ?_)
    simp only [List.length_cons]
    omega
  | .instructions visited passed [] later =>
    obtain rfl := Option.some.inj hs
    exact .right _ (.left _ _ (Nat.lt_succ_self _))
  | .instructions visited passed (i :: after) later =>
    cases hsource : i.fromSource with
    | true =>
      obtain ⟨g, uses', r, errs', news, hg, -, hnews, rfl, -⟩ := step_instruction hs
      refine .left _ _ ?_
      simp only [Cursor.ahead]
      rw [filter_ahead hg hnews, List.cons_append, List.filter_cons, hsource, if_pos rfl]
      exact Nat.lt_succ_self _
    | false =>
      have hsame : step symbols ⟨.instructions visited passed (i :: after) later, uses, return_value,
          errs⟩ u = some ⟨.instructions visited (passed ++ [i]) after later, uses,
          return_value || false, errs ++ []⟩ := by
        simp [step, instrument_of_not_handled symbols _ (h.added i List.mem_cons_self hsource),
          List.drop_append]
      obtain rfl := Option.some.inj (hsame.symm.trans hs)
      have hahead : (i :: after ++ later.flatten).filter Instruction.fromSource =
          (after ++ later.flatten).filter Instruction.fromSource := by
        rw [List.cons_append, List.filter_cons, hsource, if_neg Bool.false_ne_true]
      unfold State.measure
      simp only [Cursor.ahead]
      rw [hahead]
      exact .right _ (.right _ (Nat.lt_succ_self _))

/-! ## The whole loop -/

/-- What visiting the instructions of the source leaves. -/
def visits (symbols : String → Option Symbol) (src : SourceFunction) : Option Pass :=
  Lib.run (visit symbols) ⟨src.toFunction, false, []⟩ src.instructions

theorem start_invariant (symbols : String → Option Symbol) (src : SourceFunction) :
    Invariant symbols src.instructions (visits symbols src) [] (start src.toFunction) := by
  have hsource : src.instructions.filter Instruction.fromSource = src.instructions :=
    List.filter_eq_self.2 fun i hi => (src.given i hi).1
  refine ⟨congrArg (List.filter _) hsource, congrArg (Lib.run (visit symbols) _) hsource,
    fun i hi hs => ?_⟩
  rw [(src.given i hi).1] at hs
  cases hs

theorem run_invariant {src : SourceFunction} {n : Nat}
    (hrun : Lib.run (step symbols) (start src.toFunction) (List.replicate n ()) = some s') :
    Invariant symbols src.instructions (visits symbols src)
      (Lib.emitted (step symbols) processed (start src.toFunction) (List.replicate n ())) s' :=
  Lib.emitted_invariant (I := Invariant symbols src.instructions (visits symbols src))
    (fun _ _ _ _ h hs => h.step hs) (start_invariant symbols src) hrun

/-- The loops come to an end, or crash, for every function. -/
theorem terminates (symbols : String → Option Symbol) (src : SourceFunction) :
    ∃ n s', Lib.run (step symbols) (start src.toFunction) (List.replicate n ()) = some s' ∧
      step symbols s' () = none :=
  Lib.exists_end
    (WellFounded.prod_lex Nat.lt_wfRel.wf (WellFounded.prod_lex Nat.lt_wfRel.wf Nat.lt_wfRel.wf))
    State.measure
    (I := fun s => ∃ before, Invariant symbols src.instructions (visits symbols src) before s)
    (fun _ _ ⟨_, h⟩ (hs : step symbols _ () = _) => ⟨_, h.step hs⟩)
    (fun _ _ ⟨_, h⟩ hs => step_measure h hs) ⟨[], start_invariant symbols src⟩

/-- When the loops are at their end, they have called the functions that instrument for the calls of
the source, for each once and in their order, and leave what visiting the instructions of the source
leaves. -/
theorem end_spec {src : SourceFunction} {n : Nat}
    (hrun : Lib.run (step symbols) (start src.toFunction) (List.replicate n ()) = some s')
    (hend : Finished s') :
    Lib.emitted (step symbols) processed (start src.toFunction) (List.replicate n ()) =
        src.instructions.filter (·.opcode.handled) ∧
      visits symbols src = some s'.pass := by
  have hlast := run_invariant hrun
  obtain ⟨visited, hcursor⟩ := hend
  have hahead : s'.cursor.ahead = [] := by
    rw [hcursor]
    rfl
  constructor
  · have hprocessed := hlast.processed
    simpa [hahead] using hprocessed
  · have hresult := hlast.result
    simpa [hahead] using hresult.symm

/-- A state without another turn is the end, or the visit of an instruction of the source crashes. -/
theorem Invariant.finished (h : Invariant symbols all result before s)
    (hend : Loop.step symbols s () = none) (hresult : result ≠ none) : Finished s := by
  obtain ⟨cursor, uses, return_value, errs⟩ := s
  match cursor with
  | .blocks visited [] => exact ⟨visited, rfl⟩
  | .blocks _ (_ :: _) => cases hend
  | .instructions _ _ [] _ => cases hend
  | .instructions visited passed (i :: after) later =>
    have hnone := step_crashes hend
    cases hsource : i.fromSource with
    | true =>
      refine absurd ?_ hresult
      rw [← h.result]
      simp only [Cursor.ahead, List.cons_append]
      rw [List.filter_cons, hsource, if_pos rfl, Lib.run_cons]
      simp [visit, State.pass, hnone]
    | false =>
      have hsome := instrument_of_not_handled symbols ⟨[], uses⟩
        (h.added i List.mem_cons_self hsource)
      cases (hnone []).symm.trans hsome

/-- The loops come to their end if and only if no visit of an instruction of the source crashes. -/
theorem finishes_iff (symbols : String → Option Symbol) (src : SourceFunction) :
    (∃ n s', Lib.run (step symbols) (start src.toFunction) (List.replicate n ()) = some s' ∧
      Finished s') ↔ ∃ p, visits symbols src = some p := by
  constructor
  · rintro ⟨n, s', hrun, hend⟩
    exact ⟨s'.pass, (end_spec hrun hend).2⟩
  · rintro ⟨p, hp⟩
    obtain ⟨n, s', hrun, hend⟩ := terminates symbols src
    refine ⟨n, s', hrun, (run_invariant hrun).finished hend ?_⟩
    rw [hp]
    exact Option.some_ne_none p

/-- What the pass asks the module for is there. -/
structure Complete (symbols : String → Option Symbol) : Prop where
  ima_tag_count : getGlobalVariable symbols "ima_tag_count" = true
  free : getOrInsertFunction symbols "DYTAN_free" freeType = true
  tag_pointer : getOrInsertFunction symbols "DYTAN_tag_pointer" tagType = true
  tag_memory : getOrInsertFunction symbols "DYTAN_tag_memory" tagType = true

/-- Then the loops do what `runOnFunction` does. -/
theorem visit_eq (h : Complete symbols) (p : Pass) (i : Instruction) :
    visit symbols p i = some (p.visit i) := by
  have hfree : ∀ f, insertFree symbols f i = some (f.insertAfter i.id [tagFree i]) :=
    fun f => if_pos h.free
  have hallocation : ∀ name frees second,
      (instrumentAllocation symbols name frees second p.function i).map (·.onto p) =
        some (p.instrumented (IMA.instrumentAllocation name frees second p.function i)) := by
    intro name frees second
    unfold instrumentAllocation IMA.instrumentAllocation
    cases storeinst_vector p.function name i with
    | error message =>
      simp [Instrumented.onto, Pass.instrumented, bind, Except.bind]
    | ok stores =>
      have hprevious : freePrevious symbols frees p.function i =
          some (if frees then p.function.insertAfter i.id [tagFree i] else p.function) := by
        cases frees with
        | true => exact hfree p.function
        | false => rfl
      simp [hprevious, h.ima_tag_count, h.tag_pointer, h.tag_memory, Instrumented.onto,
        Pass.instrumented, bind, Except.bind]
  have hnothing : Option.map (Instrumented.onto · p) (some ⟨p.function, false, []⟩) = some p := by
    simp [Instrumented.onto]
  unfold visit instrument Pass.visit
  cases i.opcode with
  | CallInst calledFunction =>
    cases calledFunction with
    | none => exact hnothing
    | some name =>
      dsimp only
      split_ifs
      · exact hallocation ..
      · exact hallocation ..
      · exact hallocation ..
      · simp [Instrumented.onto, Pass.instrumented, instrumentFree, hfree, IMA.instrumentFree]
      · exact hnothing
  | _ => exact hnothing

/-- With a complete module the loops come to their end, and leave what `runOnFunction` does. -/
theorem end_runOnFunction (h : Complete symbols) (src : SourceFunction) :
    ∃ n s', Lib.run (step symbols) (start src.toFunction) (List.replicate n ()) = some s' ∧
      Finished s' ∧ s'.pass = runOnFunction src.toFunction := by
  have hvisits : visits symbols src = some (runOnFunction src.toFunction) := by
    have hstep : ∀ p i p', visit symbols p i = some p' ↔ True ∧ Pass.visit p i = p' := by
      intro p i p'
      rw [visit_eq h, Option.some_inj, true_and]
    exact (Lib.run_guarded_iff hstep).2 ⟨fun _ _ => trivial, rfl⟩
  obtain ⟨n, s', hrun, hend⟩ := (finishes_iff symbols src).2 ⟨_, hvisits⟩
  exact ⟨n, s', hrun, hend, Option.some.inj ((end_spec hrun hend).2.symm.trans hvisits)⟩

end Loop

end Dytan.IMA
