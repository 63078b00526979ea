import Dytan.Taint.Range
import Dytan.Tool.Sources

/-!
# The marks the sources give to memory

`g.mark k` is the mark the generator hands out at the `k`-th call of `nextTaintMark` from now,
`g.after k` the generator then; `Op.asks` counts the calls an operation makes.

`Gave tool addrs mark tool'`: the addresses in `addrs` got sets with the one mark `mark i`, in the
order of the list, and nothing else of the taint state changed. This is what each source does:
`taintPerByte_gave`, `taintPerRead_gave`, `setNewTaintForMemory_gave`, `assignTag_gave` and, for all
of them, `step_gave`.
-/

namespace Dytan

namespace TaintGenerator

/-- The generator after `k` calls of `nextTaintMark`. -/
def after (g : TaintGenerator) (k : Nat) : TaintGenerator := (fun g => g.nextTaintMark.2)^[k] g

/-- The mark of the `k`-th call from `g` on. -/
def mark (g : TaintGenerator) (k : Nat) : Nat := (g.after k).nextTaintMark.1

variable {g : TaintGenerator}

@[simp] theorem after_zero : g.after 0 = g := rfl

theorem after_succ (k : Nat) : g.after (k + 1) = g.nextTaintMark.2.after k := rfl

theorem after_add (j k : Nat) : g.after (j + k) = (g.after j).after k := by
  unfold after
  rw [Nat.add_comm, Function.iterate_add_apply]

theorem mark_after (j k : Nat) : (g.after j).mark k = g.mark (j + k) := by
  rw [mark, mark, after_add]

theorem mark_zero : g.mark 0 = g.nextTaintMark.1 := rfl

theorem Below.after {n : Nat} (h : g.Below n) (k : Nat) : (g.after k).Below n := by
  induction k generalizing g with
  | zero => exact h
  | succ k ih => exact ih h.next

end TaintGenerator

namespace Tool

variable {w : Nat}

/-- What a source did (module doc). -/
structure Gave (tool : Tool w) (addrs : List (ADDRINT w)) (mark : Nat → Nat) (tool' : Tool w) :
    Prop where
  taint : tool'.taint = { tool.taint with memTaintMap := tool'.taint.memTaintMap }
  inside : ∀ i (hi : i < addrs.length), ∃ s : Bitset,
    tool'.taint.memTaintMap addrs[i] = some s ∧ s.marks = {mark i}
  outside : ∀ a ∉ addrs, tool'.taint.memTaintMap a = tool.taint.memTaintMap a

theorem Gave.nil (tool : Tool w) (mark : Nat → Nat) : Gave tool [] mark tool :=
  ⟨rfl, fun i hi => absurd hi (Nat.not_lt_zero i), fun _ _ => rfl⟩

/-- Every address of the list gets a set with one of the marks. -/
theorem Gave.mem {tool tool' : Tool w} {addrs : List (ADDRINT w)} {mark : Nat → Nat}
    (h : Gave tool addrs mark tool') {a : ADDRINT w} (ha : a ∈ addrs) :
    ∃ i < addrs.length, ∃ s : Bitset,
      tool'.taint.memTaintMap a = some s ∧ s.marks = {mark i} := by
  obtain ⟨i, hi, rfl⟩ := List.getElem_of_mem ha
  exact ⟨i, hi, h.inside i hi⟩

theorem nextTaintMark_eq {tool : Tool w} {g : TaintGenerator} (hg : tool.taintGen = some g) :
    tool.nextTaintMark = some (g.mark 0, { tool with taintGen := some (g.after 1) }) := by
  rw [nextTaintMark, hg]
  rfl

/-- One address more, which the rest of the list does not hold. -/
theorem Gave.cons {tool tool₁ tool' : Tool w} {addr : ADDRINT w} {addrs : List (ADDRINT w)}
    {mark : Nat → Nat} {s : Bitset} (hn : addr ∉ addrs) (hs : s.marks = {mark 0})
    (h₁ : tool₁.taint = { tool.taint with
      memTaintMap := Function.update tool.taint.memTaintMap addr (some s) })
    (h : Gave tool₁ addrs (fun i => mark (i + 1)) tool') : Gave tool (addr :: addrs) mark tool' := by
  refine ⟨?_, fun i hi => ?_, fun a ha => ?_⟩
  · rw [h.taint, h₁]
  · cases i with
    | zero => exact ⟨s, by rw [List.getElem_cons_zero, h.outside addr hn, h₁]; simp, hs⟩
    | succ i => exact h.inside i (Nat.lt_of_succ_lt_succ hi)
  · rw [List.mem_cons, not_or] at ha
    rw [h.outside a ha.2, h₁]
    exact Function.update_of_ne ha.1 ..

section
variable {n : Nat} {tool : Tool w} (h : tool.MarksOk n)
include h

theorem markSet_marks {mark : Nat} (hm : mark < n) :
    ∃ s, tool.markSet mark = some s ∧ s.Ok n ∧ s.marks = {mark} := by
  obtain ⟨s, hs, hok, hmarks⟩ := h.width.init_ok.setBit_spec hm
  exact ⟨s, hs, hok, by rw [hmarks, Bitset.marks_init, insert_empty_eq]⟩

/-- One set, with one mark, at `addrs`. -/
theorem putMark_gave {mark : Nat} (hm : mark < n) (addrs : List (ADDRINT w)) :
    ∃ tool', (do let s ← tool.markSet mark; return addrs.foldl (putMemory · s) tool) = some tool' ∧
      Gave tool addrs (fun _ => mark) tool' ∧ tool'.taintGen = tool.taintGen ∧
      tool'.tagMap = tool.tagMap := by
  obtain ⟨s, hs, hok, hmarks⟩ := markSet_marks h hm
  refine ⟨_, by rw [hs]; rfl, ?_⟩
  rw [putMemories_eq, hok.copy_eq]
  refine ⟨⟨rfl, fun i hi => ⟨s, ?_, hmarks⟩, fun a ha => ?_⟩, rfl, rfl⟩
  · exact if_pos (List.getElem_mem hi)
  · exact if_neg ha

/-- `PerRead`: one mark for the range. -/
theorem taintPerRead_gave {g : TaintGenerator} (hg : tool.taintGen = some g)
    (start stop : ADDRINT w) :
    ∃ tool', tool.taintPerRead start stop = some tool' ∧
      Gave tool (addrRange start stop) (fun _ => g.mark 0) tool' ∧
      tool'.taintGen = some (g.after 1) ∧ tool'.tagMap = tool.tagMap := by
  obtain ⟨g', hg', hb⟩ := h.gen
  obtain rfl : g = g' := Option.some.inj (hg ▸ hg')
  have h' : ({ tool with taintGen := some (g.after 1) } : Tool w).MarksOk n :=
    ⟨h.width, ⟨_, rfl, hb.after 1⟩, h.tags⟩
  obtain ⟨tool', hput, hgave, hgen, htags⟩ := putMark_gave h' hb.next_lt (addrRange start stop)
  refine ⟨tool', ?_, ⟨hgave.taint, hgave.inside, hgave.outside⟩, hgen, htags⟩
  rw [taintPerRead, nextTaintMark_eq hg]
  exact hput

/-- `PerByte`: the next mark for each byte. -/
theorem taintPerByte_gave {g : TaintGenerator} (hg : tool.taintGen = some g)
    (start stop : ADDRINT w) :
    ∃ tool', tool.taintPerByte start stop = some tool' ∧
      Gave tool (addrRange start stop) g.mark tool' ∧
      tool'.taintGen = some (g.after (addrRange start stop).length) ∧
      tool'.tagMap = tool.tagMap := by
  have hnodup := addrRange_nodup start stop
  unfold taintPerByte
  rw [h.width.marks]
  generalize addrRange start stop = addrs at hnodup ⊢
  induction addrs generalizing tool g with
  | nil => exact ⟨tool, rfl, Gave.nil tool _, hg, rfl⟩
  | cons addr addrs ih =>
    rw [List.nodup_cons] at hnodup
    obtain ⟨g', hg', hb⟩ := h.gen
    obtain rfl : g = g' := Option.some.inj (hg ▸ hg')
    obtain ⟨s, hs, hok, hmarks⟩ := (Bitset.init_ok n).setBit_spec hb.next_lt
    have h' : ({ tool with taintGen := some (g.after 1) } : Tool w).MarksOk n :=
      ⟨h.width, ⟨_, rfl, hb.after 1⟩, h.tags⟩
    obtain ⟨tool', hr, hgave, hgen, htags⟩ :=
      ih (putMemory_marks h' hok addr) (rfl : _ = some (g.after 1)) hnodup.2
    have hset : s.marks = {g.mark 0} := by rw [hmarks, Bitset.marks_init, insert_empty_eq]; rfl
    refine ⟨tool', ?_, Gave.cons hnodup.1 hset ?_ hgave, ?_, htags⟩
    · simp only [List.foldlM_cons, nextTaintMark_eq hg, TaintGenerator.mark_zero, hs, hok.reset_eq,
        Option.bind_eq_bind, Option.bind_some, Option.pure_def]
      exact hr
    · rw [putMemory, hok.copy_eq]
    · rw [hgen, ← TaintGenerator.after_add, Nat.add_comm, List.length_cons]

theorem setNewTaintForMemory_gave {g : TaintGenerator} (hg : tool.taintGen = some g)
    (addr size : ADDRINT w) :
    ∃ tool', tool.setNewTaintForMemory addr size = some tool' ∧
      Gave tool (addrRange addr (addr + size)) (fun _ => g.mark 0) tool' ∧
      tool'.taintGen = some (g.after 1) ∧ tool'.tagMap = tool.tagMap := by
  -- the body of `taintPerRead`
  rw [show tool.setNewTaintForMemory addr size = tool.taintPerRead addr (addr + size) from rfl]
  exact taintPerRead_gave h hg addr (addr + size)

/-- A tag: the mark of its name, which is the next one when the name is new. -/
theorem assignTag_gave {g : TaintGenerator} (hg : tool.taintGen = some g)
    (start size : ADDRINT w) (id : Nat) :
    ∃ tool', tool.assignTag start size id = some tool' ∧
      Gave tool (addrRange start (start + size))
        (fun _ => (tool.tagMap (toString id)).getD (g.mark 0)) tool' ∧
      tool'.taintGen = some (g.after (if (tool.tagMap (toString id)).isSome then 0 else 1)) ∧
      tool'.tagMap = Function.update tool.tagMap (toString id)
        (some ((tool.tagMap (toString id)).getD (g.mark 0))) := by
  obtain ⟨g', hg', hb⟩ := h.gen
  obtain rfl : g = g' := Option.some.inj (hg ▸ hg')
  cases ht : tool.tagMap (toString id) with
  | some mark =>
    obtain ⟨tool', hput, hgave, hgen, htags⟩ :=
      putMark_gave h (h.tags _ _ ht) (addrRange start (start + size))
    refine ⟨tool', ?_, hgave, hgen.trans hg, ?_⟩
    · simp only [assignTag, tagMark, hg, ht]
      exact hput
    · rw [htags, Option.getD_some, ← ht, Function.update_eq_self]
  | none =>
    have h' : ({ tool with
        taintGen := some (g.after 1)
        tagMap := Function.update tool.tagMap (toString id) (some (g.mark 0)) } :
        Tool w).MarksOk n := by
      refine ⟨h.width, ⟨_, rfl, hb.after 1⟩, fun name mark hm => ?_⟩
      by_cases hname : name = toString id
      · simp only [hname, Function.update_self, Option.some.injEq] at hm
        exact hm ▸ hb.next_lt
      · simp only [Function.update_of_ne hname] at hm
        exact h.tags name mark hm
    obtain ⟨tool', hput, hgave, hgen, htags⟩ :=
      putMark_gave h' hb.next_lt (addrRange start (start + size))
    refine ⟨tool', ?_, ⟨hgave.taint, hgave.inside, hgave.outside⟩, hgen, htags⟩
    simp only [assignTag, tagMark, hg, ht, nextTaintMark_eq hg]
    exact hput

end

end Tool

/-! ## The operations that give marks -/

namespace Op

variable {w : Nat}

/-- The range and the id of a tag. -/
def tag? : Op w → Option (ADDRINT w × ADDRINT w × Nat)
  | .assignTagToByteRange start size id | .assignPointerTagToByteRange start size id
  | .assignMemoryTagToByteRange start size id => some (start, size, id)
  | _ => none

/-- A tag, or a source that gives new marks. -/
def gives : Op w → Bool
  | .setNewTaintForMemory _ _ | .assignTagToByteRange _ _ _ | .assignPointerTagToByteRange _ _ _
  | .assignMemoryTagToByteRange _ _ _ | .pathSourceRead _ _ | .networkRead _ _ _ => true
  | _ => false

/-- The addresses the loop of a tag or a source visits. -/
def visits : Op w → List (ADDRINT w)
  | .setNewTaintForMemory start size | .assignTagToByteRange start size _
  | .assignPointerTagToByteRange start size _ | .assignMemoryTagToByteRange start size _
  | .networkRead _ start size => addrRange start (start + size)
  | .pathSourceRead _ args =>
    if toInt args.ret ≤ 0 then []
    else addrRange args.arg1 (args.arg1 + BitVec.ofInt w (toInt args.ret))
  | _ => []

/-- The calls of `nextTaintMark`. -/
def asks (tool : Tool w) : Op w → Nat
  | .setNewTaintForMemory _ _ | .networkRead .PerRead _ _ => 1
  | .assignTagToByteRange _ _ id | .assignPointerTagToByteRange _ _ id
  | .assignMemoryTagToByteRange _ _ id => if (tool.tagMap (toString id)).isSome then 0 else 1
  | .networkRead .PerByte start size => (visits (.networkRead .PerByte start size)).length
  | .pathSourceRead .PerByte args => (visits (.pathSourceRead .PerByte args)).length
  | .pathSourceRead .PerRead args => if toInt args.ret ≤ 0 then 0 else 1
  | _ => 0

/-- The mark for the `i`-th address. -/
def given (tool : Tool w) (g : TaintGenerator) : Op w → Nat → Nat
  | .assignTagToByteRange _ _ id | .assignPointerTagToByteRange _ _ id
  | .assignMemoryTagToByteRange _ _ id => fun _ => (tool.tagMap (toString id)).getD (g.mark 0)
  | .pathSourceRead .PerByte _ | .networkRead .PerByte _ _ => g.mark
  | _ => fun _ => g.mark 0

/-- The marks of the names after the operation. -/
def tagsAfter (tool : Tool w) (g : TaintGenerator) (op : Op w) : String → Option Nat :=
  match op.tag? with
  | some (_, _, id) => Function.update tool.tagMap (toString id)
      (some ((tool.tagMap (toString id)).getD (g.mark 0)))
  | none => tool.tagMap

end Op

namespace Tool

variable {w n : Nat} {tool : Tool w}

/-- What a tag or a source does to the tool. -/
theorem step_gave (h : tool.MarksOk n) {g : TaintGenerator} (hg : tool.taintGen = some g)
    {op : Op w} (hop : op.gives = true) :
    ∃ tool', tool.step op = some tool' ∧ Gave tool op.visits (op.given tool g) tool' ∧
      tool'.taintGen = some (g.after (op.asks tool)) ∧ tool'.tagMap = op.tagsAfter tool g := by
  cases op with
  | setNewTaintForMemory addr size => exact setNewTaintForMemory_gave h hg addr size
  | assignTagToByteRange start size id => exact assignTag_gave h hg start size id
  | assignPointerTagToByteRange start size id => exact assignTag_gave h hg start size id
  | assignMemoryTagToByteRange start size id => exact assignTag_gave h hg start size id
  | networkRead range start length =>
    cases range with
    | PerByte =>
      simp only [step, networkReadCallbackPerByte, hg]
      exact taintPerByte_gave h hg start (start + length)
    | PerRead => exact taintPerRead_gave h hg start (start + length)
  | pathSourceRead range args =>
    by_cases hret : toInt args.ret ≤ 0
    · refine ⟨tool, ?_, ?_, ?_, rfl⟩
      · cases range <;>
          simp [step, pathSourceReadCallbackPerByte, pathSourceReadCallbackPerRead, hret]
      · rw [Op.visits, if_pos hret]
        exact Gave.nil tool _
      · cases range <;> simp [Op.asks, Op.visits, hret, hg]
    · cases range with
      | PerByte =>
        simp only [step, pathSourceReadCallbackPerByte, if_neg hret, hg, Op.visits, Op.asks]
        exact taintPerByte_gave h hg _ _
      | PerRead =>
        simp only [step, pathSourceReadCallbackPerRead, if_neg hret, Op.visits, Op.asks]
        exact taintPerRead_gave h hg _ _
  | _ => cases hop

end Tool

end Dytan
