import Dytan.IMA.Trace
import Dytan.Tool.TagIds

/-!
# The marks of allocations

`Tagging`: an execution of an instrumented module with the tool, which runs its own functions in
place of those the pass calls. Between two instructions the sources give marks to memory and the
analysis functions are called.

An allocation has its number, the tag calls for it pass what was loaded from the counter, and the
tool has a mark for each of these ids. `Tagging.marks_iff`: the marks tell allocations apart, and
allocations from what the sources have tainted, if and only if the allocations are in order.
-/

namespace Dytan

theorem Op.gives_of_tag {w : Nat} {op : Op w} (h : op.tag?.isSome = true) : op.gives = true := by
  cases op <;> first | rfl | cases h

namespace Tool

variable {w n max c : Nat} {tool tool' : Tool w} {op : Op w} {us : List Use}

/-- An operation that gives no marks and does not move the start. -/
theorem step_silent (hop : op.gives = false) (hne : op ≠ .setNewTaintStart)
    (hs : tool.step op = some tool') :
    tool'.taintGen = tool.taintGen ∧ tool'.tagMap = tool.tagMap ∧ op.asks tool = 0 := by
  have htaint : ∀ r, tool.withTaint r = some tool' →
      tool'.taintGen = tool.taintGen ∧ tool'.tagMap = tool.tagMap := by
    intro r hr
    obtain ⟨taint, -, rfl⟩ := Option.map_eq_some_iff.1 hr
    exact ⟨rfl, rfl⟩
  cases op with
  | setNewTaintStart => exact absurd rfl hne
  | setNewTaintForMemory | assignTagToByteRange | assignPointerTagToByteRange
  | assignMemoryTagToByteRange | pathSourceRead | networkRead => cases hop
  | _ => exact ⟨(htaint _ hs).1, (htaint _ hs).2, rfl⟩

theorem Ids.of_eq (h : tool.Ids max c us) (hgen : tool'.taintGen = tool.taintGen)
    (htags : tool'.tagMap = tool.tagMap) : tool'.Ids max c us := by
  refine ⟨hgen.trans h.gen, fun id m ht => htags ▸ h.tags id m ht, fun hc => ?_⟩
  obtain ⟨htag, hread, hinj, hunread⟩ := h.fresh hc
  exact ⟨fun name m ht => htag name m (htags ▸ ht), hread,
    fun name name' m ht ht' => hinj name name' m (htags ▸ ht) (htags ▸ ht'),
    fun name m ht => hunread name m (htags ▸ ht)⟩

theorem clearTagsForByteRange_marks (h : tool.MarksOk n) (start : ADDRINT w) :
    (tool.clearTagsForByteRange start).MarksOk n := by
  refine ⟨⟨h.width.reg, fun a s hs => ?_, h.width.control, h.width.scratch, h.width.marks⟩, h.gen,
    h.tags⟩
  change clearLoop (2 ^ w) tool.taint.memTaintMap start a = some s at hs
  rw [clearLoop_apply] at hs
  split_ifs at hs
  exact h.width.mem a s hs

end Tool

namespace IMA

open Lib.Ticket (NoWrap InOrder Unique)

/-- An execution of a module, and the tool. -/
structure Tagging where
  state : State
  tool : Tool 32

inductive Tagging.Event
  | execute (choice : Choice)
  /-- An operation of the tool that is not inserted by the pass. -/
  | other (op : Op 32)

/-- The tag that a call of an inserted instruction puts, and the allocation that it is for. -/
def Frame.tagged (address : String → BitVec 32) (fr : Frame) (i : Instruction) :
    Option (Nat × Op 32) :=
  match i.id with
  | .tag_pointer ci _ => do
    let n ← fr.allocation ci
    some (n, .assignPointerTagToByteRange (← fr.passed address i 0) (← fr.passed address i 1)
      (← fr.passed address i 2).toNat)
  | .tag_memory ci _ => do
    let n ← fr.allocation ci
    some (n, .assignMemoryTagToByteRange (← fr.passed address i 0) (← fr.passed address i 1)
      (← fr.passed address i 2).toNat)
  | _ => none

namespace Tagging

def step (m : Module) (address : String → BitVec 32) (t : Tagging) : Event → Option Tagging
  | .execute choice => do
    let (fr, i) ← t.state.next
    let tool ← fr.replaced address i t.tool
    let state ← t.state.step m choice
    some ⟨state, tool⟩
  | .other op => do
    let tool ← t.tool.step op
    some { t with tool := tool }

/-- The tag put in a step, with its allocation. -/
def tag (address : String → BitVec 32) (t : Tagging) : Event → Option (Nat × Op 32)
  | .execute _ => do
    let (fr, i) ← t.state.next
    fr.tagged address i
  | .other _ => none

/-- What a step does with the counter `ima_tag_count`. -/
def tickets (t : Tagging) : Event → List (Lib.Ticket.Event 32)
  | .execute choice => t.state.out choice
  | .other _ => []

/-- The operation of the tool in a step, if it can give marks. -/
def operation (address : String → BitVec 32) (t : Tagging) : Event → Option (Op 32)
  | .execute choice => (t.tag address (.execute choice)).map Prod.snd
  | .other op => some op

/-- What the marks given in a step went to. -/
def uses (address : String → BitVec 32) (t : Tagging) (event : Event) : List Use :=
  match t.operation address event, t.tool.taintGen with
  | some op, some g => op.uses t.tool g
  | _, _ => []

/-- The marks that `nextTaintMark` returned in a step. -/
def drawn (address : String → BitVec 32) (t : Tagging) (event : Event) : List Nat :=
  match t.operation address event, t.tool.taintGen with
  | some op, some g => (List.range (op.asks t.tool)).map g.mark
  | _, _ => []

/-- The allocation and the mark of a tag. -/
def marked (address : String → BitVec 32) (t : Tagging) (event : Event) : List (Nat × Nat) :=
  match t.tag address event, t.tool.taintGen with
  | some (n, op), some g => [(n, op.given t.tool g 0)]
  | _, _ => []

end Tagging

/-! ## A step -/

section
variable {m : Module} {address : String → BitVec 32} {fr : Frame} {i : Instruction}
  {counter c : BitVec 32} {tool tool' : Tool 32} {new tickets : List (Lib.Ticket.Event 32)}

/-- What is called for an instruction: a tag, which uses a ticket, or nothing that gives marks. -/
theorem Frame.replaced_cases (hevents : fr.events counter i = some new)
    (hr : fr.replaced address i tool = some tool') :
    (∃ n id op, fr.tagged address i = some (n, op) ∧
      (∃ start size, op.tag? = some (start, size, id.toNat)) ∧ op.gives = true ∧
      tool.step op = some tool' ∧ new = [.use n id]) ∨
    (fr.tagged address i = none ∧ (∀ n id, .use n id ∉ new) ∧
      (tool' = tool ∨ ∃ start, tool' = tool.clearTagsForByteRange start)) := by
  unfold Frame.events at hevents
  unfold Frame.replaced at hr
  unfold Frame.tagged
  -- the arguments of a tag
  have hargs : ∀ id, fr.eval (i.getArgOperand 2) = some id →
      ∀ call : BitVec 32 → BitVec 32 → Nat → Option (Tool 32), (do
        let a ← fr.passed address i 0
        let size ← fr.passed address i 1
        let id ← fr.passed address i 2
        call a size id.toNat) = some tool' →
      ∃ a size, fr.passed address i 0 = some a ∧ fr.passed address i 1 = some size ∧
        call a size id.toNat = some tool' := by
    intro id heval call hcall
    rw [passed_of_eval heval] at hcall
    obtain ⟨a, ha, hcall⟩ := Option.bind_eq_some_iff.1 hcall
    obtain ⟨size, hsize, hcall⟩ := Option.bind_eq_some_iff.1 hcall
    exact ⟨a, size, ha, hsize, hcall⟩
  cases hid : i.id with
  | tag_pointer ci si =>
    simp only [hid] at hevents hr
    obtain ⟨n, hn, hevents⟩ := Option.bind_eq_some_iff.1 hevents
    obtain ⟨id, heval, hnew⟩ := Option.bind_eq_some_iff.1 hevents
    obtain ⟨a, size, ha, hsize, hr⟩ := hargs id heval (@Tool.assignPointerTagToByteRange 32 tool) hr
    refine .inl ⟨n, id, .assignPointerTagToByteRange a size id.toNat, ?_, ⟨a, size, rfl⟩, rfl, hr,
      (Option.some.inj hnew).symm⟩
    simp [hn, ha, hsize, passed_of_eval heval]
  | tag_memory ci si =>
    simp only [hid] at hevents hr
    obtain ⟨n, hn, hevents⟩ := Option.bind_eq_some_iff.1 hevents
    obtain ⟨id, heval, hnew⟩ := Option.bind_eq_some_iff.1 hevents
    obtain ⟨a, size, ha, hsize, hr⟩ := hargs id heval (@Tool.assignMemoryTagToByteRange 32 tool) hr
    refine .inl ⟨n, id, .assignMemoryTagToByteRange a size id.toNat, ?_, ⟨a, size, rfl⟩, rfl, hr,
      (Option.some.inj hnew).symm⟩
    simp [hn, ha, hsize, passed_of_eval heval]
  | tag_free ci =>
    simp only [hid] at hevents hr
    obtain ⟨start, -, hr⟩ := Option.bind_eq_some_iff.1 hr
    cases hevents
    exact .inr ⟨rfl, fun n id => List.not_mem_nil, .inr ⟨start, (Option.some.inj hr).symm⟩⟩
  | load_ima_tag_count ci =>
    simp only [hid] at hevents hr
    obtain ⟨n, -, hnew⟩ := Option.bind_eq_some_iff.1 hevents
    refine .inr ⟨rfl, fun k id => ?_, .inl (Option.some.inj hr).symm⟩
    simp [← Option.some.inj hnew]
  | store_ima_tag_count ci =>
    simp only [hid] at hevents hr
    obtain ⟨n, -, hevents⟩ := Option.bind_eq_some_iff.1 hevents
    obtain ⟨next, -, hnew⟩ := Option.bind_eq_some_iff.1 hevents
    refine .inr ⟨rfl, fun k id => ?_, .inl (Option.some.inj hr).symm⟩
    simp [← Option.some.inj hnew]
  | _ =>
    simp only [hid] at hevents hr
    cases hevents
    exact .inr ⟨rfl, fun n id => List.not_mem_nil, .inl (Option.some.inj hr).symm⟩

end

namespace Tagging

/-- What an execution has done so far. -/
structure Consistent (c : BitVec 32) (n max : Nat) (tickets : List (Lib.Ticket.Event 32))
    (uses : List Use) (drawn : List Nat) (marked : List (Nat × Nat)) (t : Tagging) : Prop where
  state : t.state.Invariant c tickets
  marks : t.tool.MarksOk n
  ids : t.tool.Ids max drawn.length uses
  ticket : ∀ a id, .use a id ∈ tickets → ∃ mark, (a, mark) ∈ marked ∧ .tag id.toNat mark ∈ uses
  mark : ∀ a mark, (a, mark) ∈ marked → ∃ id, .use a id ∈ tickets ∧ .tag id.toNat mark ∈ uses

/-- An event whose operation, if it is no tag that the pass inserted, is no tag at all and does not
move the start of the generator. -/
def Event.Untagged : Event → Prop
  | .execute _ => True
  | .other op => op.tag? = none ∧ op ≠ .setNewTaintStart

variable {m : Module} {address : String → BitVec 32} {t t' : Tagging} {c : BitVec 32} {n max : Nat}
  {tickets : List (Lib.Ticket.Event 32)} {uses : List Use} {drawn : List Nat}
  {marked : List (Nat × Nat)} {event : Event} {events : List Event}

theorem Consistent.other (h : t.Consistent c n max tickets uses drawn marked) (hm : 0 < max)
    {op : Op 32} (hne : op ≠ .setNewTaintStart) {tool' : Tool 32}
    (hs : t.tool.step op = some tool') :
    tool'.MarksOk n ∧ tool'.Ids max (drawn ++ t.drawn address (.other op)).length
      (uses ++ t.uses address (.other op)) := by
  obtain ⟨tool₁, hs₁, hok⟩ := Tool.step_keeps h.marks op
  obtain rfl : tool₁ = tool' := Option.some.inj (hs₁.symm.trans hs)
  refine ⟨hok, ?_⟩
  simp only [Tagging.drawn, Tagging.uses, operation, h.ids.gen, List.length_append, List.length_map,
    List.length_range]
  cases hop : op.gives with
  | true => exact h.ids.step hm h.marks hop hs
  | false =>
    obtain ⟨hgen, htags, hasks⟩ := Tool.step_silent hop hne hs
    have huses : op.uses t.tool (.sequential 0 (drawn.length % max) max) = [] := by
      unfold Op.uses
      cases htag : op.tag? with
      | none => simp [hasks]
      | some tag => cases hop.symm.trans (Op.gives_of_tag (htag ▸ rfl))
    rw [hasks, huses, Nat.add_zero, List.append_nil]
    exact h.ids.of_eq hgen htags

theorem Consistent.step (h : t.Consistent c n max tickets uses drawn marked) (hm : 0 < max)
    (hevent : event.Untagged) (hs : t.step m address event = some t') :
    t'.Consistent c n max (tickets ++ t.tickets event) (uses ++ t.uses address event)
      (drawn ++ t.drawn address event) (marked ++ t.marked address event) := by
  cases event with
  | other op =>
    obtain ⟨tool', hop, hs⟩ := Option.bind_eq_some_iff.1 hs
    obtain rfl := Option.some.inj hs
    obtain ⟨hok, hids⟩ := h.other hm hevent.2 hop
    refine ⟨?_, hok, hids, fun a id hu => ?_, fun a mark hmark => ?_⟩
    · simpa [Tagging.tickets] using h.state
    · obtain ⟨mark, hmark, htag⟩ := h.ticket a id (by simpa [Tagging.tickets] using hu)
      exact ⟨mark, List.mem_append_left _ hmark, List.mem_append_left _ htag⟩
    · obtain ⟨id, hu, htag⟩ := h.mark a mark (by simpa [Tagging.marked, tag] using hmark)
      exact ⟨id, List.mem_append_left _ hu, List.mem_append_left _ htag⟩
  | execute choice =>
    obtain ⟨⟨fr, i⟩, hnext, hs⟩ := Option.bind_eq_some_iff.1 hs
    obtain ⟨tool', hreplaced, hs⟩ := Option.bind_eq_some_iff.1 hs
    obtain ⟨state', hstate, hs⟩ := Option.bind_eq_some_iff.1 hs
    obtain rfl := Option.some.inj hs
    obtain ⟨fr', i', frames, rest, new, hnext', hf, hr, hnew, -⟩ := State.step_next hstate
    obtain ⟨rfl, rfl⟩ := Prod.mk.inj (Option.some.inj (hnext'.symm.trans hnext))
    have hout : t.tickets (.execute choice) = new := by
      simp only [Tagging.tickets, State.out, hf, hr, hnew, Option.getD_some]
    have htag : t.tag address (.execute choice) = fr'.tagged address i' := by
      unfold tag
      rw [hnext]
      rfl
    have hinvariant := State.step_invariant h.state hstate
    have hgen := h.ids.gen
    rw [show t.state.out choice = new from hout] at hinvariant
    rw [hout]
    rcases Frame.replaced_cases hnew hreplaced with
      ⟨a, id, op, htagged, ⟨start, size, hop⟩, hgives, hstep, rfl⟩ | ⟨htagged, hnone, htool⟩
    · -- a tag
      obtain ⟨tool₁, hs₁, hok⟩ := Tool.step_keeps h.marks op
      obtain rfl : tool₁ = tool' := Option.some.inj (hs₁.symm.trans hstep)
      have hids := h.ids.step hm h.marks hgives hstep
      have huses : t.uses address (.execute choice) = [.tag id.toNat
          (op.given t.tool (.sequential 0 (drawn.length % max) max) 0)] := by
        simp only [Tagging.uses, operation, htag, htagged, hgen, Option.map_some, Op.uses, hop]
      have hmarked : t.marked address (.execute choice) =
          [(a, op.given t.tool (.sequential 0 (drawn.length % max) max) 0)] := by
        simp only [Tagging.marked, htag, htagged, hgen]
      refine ⟨hinvariant, hok, ?_, fun b id' hu => ?_, fun b mark hmark => ?_⟩
      · have hop' : t.operation address (.execute choice) = some op := by
          rw [operation, htag, htagged]
          rfl
        simpa only [Tagging.drawn, Tagging.uses, hop', hgen, List.length_append, List.length_map,
          List.length_range] using hids
      · rw [huses, hmarked]
        rcases List.mem_append.1 hu with hu | hu
        · obtain ⟨mark, hmark, htag⟩ := h.ticket b id' hu
          exact ⟨mark, List.mem_append_left _ hmark, List.mem_append_left _ htag⟩
        · obtain ⟨rfl, rfl⟩ := Lib.Ticket.Event.use.inj (List.mem_singleton.1 hu)
          exact ⟨_, List.mem_append_right _ (List.mem_singleton_self _),
            List.mem_append_right _ (List.mem_singleton_self _)⟩
      · rw [huses]
        rw [hmarked] at hmark
        rcases List.mem_append.1 hmark with hmark | hmark
        · obtain ⟨id', hu, htag⟩ := h.mark b mark hmark
          exact ⟨id', List.mem_append_left _ hu, List.mem_append_left _ htag⟩
        · obtain ⟨rfl, rfl⟩ := Prod.mk.inj (List.mem_singleton.1 hmark)
          exact ⟨id, List.mem_append_right _ (List.mem_singleton_self _),
            List.mem_append_right _ (List.mem_singleton_self _)⟩
    · -- no marks are given
      have huses : t.uses address (.execute choice) = [] := by
        simp only [Tagging.uses, operation, htag, htagged, Option.map_none]
      have hdrawn : t.drawn address (.execute choice) = [] := by
        simp only [Tagging.drawn, operation, htag, htagged, Option.map_none]
      have hmarked : t.marked address (.execute choice) = [] := by
        simp only [Tagging.marked, htag, htagged]
      rw [huses, hdrawn, hmarked, List.append_nil, List.append_nil, List.append_nil]
      refine ⟨hinvariant, ?_, ?_, fun b id hu => ?_, fun b mark hmark => ?_⟩
      · rcases htool with rfl | ⟨start, rfl⟩
        · exact h.marks
        · exact Tool.clearTagsForByteRange_marks h.marks start
      · rcases htool with rfl | ⟨start, rfl⟩
        · exact h.ids
        · exact h.ids.of_eq rfl rfl
      · rcases List.mem_append.1 hu with hu | hu
        · exact h.ticket b id hu
        · exact absurd hu (hnone b id)
      · obtain ⟨id, hu, htag⟩ := h.mark b mark hmark
        exact ⟨id, List.mem_append_left _ hu, htag⟩

/-! ## Runs -/

theorem Consistent.run (h : t.Consistent c n max tickets uses drawn marked) (hm : 0 < max)
    (hevents : ∀ event ∈ events, event.Untagged)
    (hr : Lib.run (Tagging.step m address) t events = some t') :
    t'.Consistent c n max
      (tickets ++ Lib.emitted (Tagging.step m address) Tagging.tickets t events)
      (uses ++ Lib.emitted (Tagging.step m address) (Tagging.uses address) t events)
      (drawn ++ Lib.emitted (Tagging.step m address) (Tagging.drawn address) t events)
      (marked ++ Lib.emitted (Tagging.step m address) (Tagging.marked address) t events) := by
  induction events generalizing t tickets uses drawn marked with
  | nil =>
    cases hr
    simpa only [Lib.emitted, List.append_nil] using h
  | cons event events ih =>
    obtain ⟨hevent, hevents⟩ := List.forall_mem_cons.1 hevents
    rw [Lib.run_cons] at hr
    obtain ⟨t₁, hs, hr⟩ := Option.bind_eq_some_iff.1 hr
    rw [Lib.emitted_cons_of hs, Lib.emitted_cons_of hs, Lib.emitted_cons_of hs,
      Lib.emitted_cons_of hs, ← List.append_assoc, ← List.append_assoc, ← List.append_assoc,
      ← List.append_assoc]
    exact ih (h.step hm hevent hs) hevents hr

theorem Consistent.start (h : t.state.Starts m) (hb : t.tool.Begins n max) :
    t.Consistent t.state.ima_tag_count n max [] [] [] [] := by
  refine ⟨h.invariant, hb.marks, ⟨?_, fun id m ht => (nomatch ht), fun _ => ⟨?_, ?_, ?_, ?_⟩⟩,
    fun a id hu => (nomatch hu), fun a mark hm => (nomatch hm)⟩
  · rw [hb.gen, List.length_nil, Nat.zero_mod]
  · intro name m ht
    rw [hb.tags] at ht
    cases ht
  · exact fun m hr => (nomatch hr)
  · intro name _ m ht
    rw [hb.tags] at ht
    cases ht
  · intro name m ht
    rw [hb.tags] at ht
    cases ht

/-- The tags have one mark for each allocation, and none that a source has given. -/
structure TellsApart (marked : List (Nat × Nat)) (uses : List Use) : Prop where
  allocations : ∀ a a' mark mark', (a, mark) ∈ marked → (a', mark') ∈ marked →
    (a = a' ↔ mark = mark')
  sources : ∀ a mark, (a, mark) ∈ marked → .read mark ∉ uses

/-- In every execution of an instrumented module with the tool in which the counter does not wrap and
at most `max` marks are drawn: the tags of an allocation have a mark of their own if and only if the
allocations are in order. -/
theorem marks_iff (h : t.state.Starts m) (hb : t.tool.Begins n max)
    (hevents : ∀ event ∈ events, event.Untagged)
    (hr : Lib.run (step m address) t events = some t')
    (hw : NoWrap (Lib.emitted (step m address) Tagging.tickets t events))
    (hdrawn : (Lib.emitted (step m address) (Tagging.drawn address) t events).length ≤ max) :
    TellsApart (Lib.emitted (step m address) (Tagging.marked address) t events)
        (Lib.emitted (step m address) (Tagging.uses address) t events) ↔
      InOrder (Lib.emitted (step m address) Tagging.tickets t events) := by
  obtain ⟨g, hg, hbelow⟩ := hb.marks.gen
  obtain rfl := Option.some.inj (hg.symm.trans hb.gen)
  have hend := (Consistent.start h hb).run hbelow.1 hevents hr
  simp only [List.nil_append] at hend
  generalize Lib.emitted (step m address) Tagging.tickets t events = tickets at *
  generalize Lib.emitted (step m address) (Tagging.uses address) t events = uses at *
  generalize Lib.emitted (step m address) (Tagging.marked address) t events = marked at *
  have hfresh := hend.ids.fresh hdrawn
  have hhistory := hend.state.history
  rw [← Lib.Ticket.unique_iff_inOrder hhistory hw]
  constructor
  · intro hown a a' id hu hu'
    obtain ⟨mark, hmark, htag⟩ := hend.ticket a id hu
    obtain ⟨mark', hmark', htag'⟩ := hend.ticket a' id hu'
    refine (hown.allocations a a' mark mark' hmark hmark').2 ?_
    exact Option.some.inj ((hend.ids.tags _ _ htag).symm.trans (hend.ids.tags _ _ htag'))
  · intro hunique
    refine ⟨fun a a' mark mark' hmark hmark' => ?_, fun a mark hmark hread => ?_⟩
    · obtain ⟨id, hu, htag⟩ := hend.mark a mark hmark
      obtain ⟨id', hu', htag'⟩ := hend.mark a' mark' hmark'
      constructor
      · rintro rfl
        obtain rfl : id = id' := hhistory.stable a id id' hu hu'
        exact Option.some.inj ((hend.ids.tags _ _ htag).symm.trans (hend.ids.tags _ _ htag'))
      · rintro rfl
        have hname := hfresh.tag_inj _ _ mark (hend.ids.tags _ _ htag) (hend.ids.tags _ _ htag')
        obtain rfl : id = id' := BitVec.eq_of_toNat_eq (toString_inj hname)
        exact hunique a a' id hu hu'
    · obtain ⟨id, -, htag⟩ := hend.mark a mark hmark
      exact hfresh.unread _ mark (hend.ids.tags _ _ htag) hread

/-- Two allocations, and two bytes that are read in between. -/
def twoMallocsRead : List Event :=
  (twoMallocsRun.take 8).map .execute ++ .other (.networkRead .PerByte 0x2000 2) ::
    (twoMallocsRun.drop 8).map .execute

def twoMallocsTagging : Tagging := ⟨twoMallocsStart "stored", Tool.sixteen⟩

theorem twoMallocs_tickets : Lib.emitted (step twoMallocsModule fun _ => 0) Tagging.tickets
    twoMallocsTagging twoMallocsRead = [.draw 0 0, .use 0 0, .use 0 0, .advance 0 1, .draw 1 1,
      .use 1 1, .use 1 1, .advance 1 2] := by decide

theorem marks_iff_stored : TellsApart
    (Lib.emitted (step twoMallocsModule fun _ => 0) (Tagging.marked fun _ => 0) twoMallocsTagging
      twoMallocsRead)
    (Lib.emitted (step twoMallocsModule fun _ => 0) (Tagging.uses fun _ => 0) twoMallocsTagging
      twoMallocsRead) := by
  have hr : (Lib.run (step twoMallocsModule fun _ => 0) twoMallocsTagging
      twoMallocsRead).isSome := by decide
  obtain ⟨t', ht'⟩ := Option.isSome_iff_exists.1 hr
  refine (marks_iff ⟨"stored", [0x100, 0x200], _, rfl, rfl⟩ Tool.sixteen_begins ?_ ht' ?_ ?_).2 ?_
  · refine List.forall_mem_append.2 ⟨List.forall_mem_map.2 fun _ _ => trivial,
      List.forall_mem_cons.2 ⟨⟨rfl, nofun⟩, List.forall_mem_map.2 fun _ _ => trivial⟩⟩
  · rw [twoMallocs_tickets]
    intro user next hadvance
    simp only [List.mem_cons, reduceCtorEq, Lib.Ticket.Event.advance.injEq, List.not_mem_nil,
      or_false, false_or] at hadvance
    rcases hadvance with ⟨-, rfl⟩ | ⟨-, rfl⟩ <;> decide
  · decide
  · rw [twoMallocs_tickets]
    intro pre v ticket post he hv u huv hu
    simp only [List.cons_eq_append_iff, List.cons.injEq, Lib.Ticket.Event.draw.injEq, reduceCtorEq,
      false_and, and_false, false_or, List.nil_eq_append_iff, exists_false, or_false] at he
    rcases he with ⟨-, ⟨rfl, -⟩, -⟩ | ⟨_, rfl, _, rfl, _, rfl, _, rfl, rfl, ⟨rfl, -⟩, -⟩
    · omega
    · exact ⟨0, rfl, by omega⟩

end Tagging

end IMA

end Dytan
