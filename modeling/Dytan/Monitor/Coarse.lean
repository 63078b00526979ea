import Dytan.Instrument.Renaming
import Dytan.Lib.Simulation
import Dytan.Monitor.Provenance

/-!
# One mark for a read in place of one for each byte

`op.coarse` is the operation with `PerRead` for `PerByte`. A tool that runs the coarse operations
follows the one that runs the others: with `f` sending each mark of a byte to the mark of its read,
every set of the coarse tool is the image of the other's (`Coarsens`).

That needs the marks of the bytes to be told apart: `Fresh` says that no mark is drawn twice, or
both drawn and passed by a caller.
-/

namespace Dytan

open TaintState

variable {w n : Nat}

/-! ## Marks that are drawn once -/

def Origin.drawn? : Origin → Option ℕ
  | .drawn mark => some mark
  | .passed _ => none

/-- No mark is drawn twice, or both drawn and passed. -/
def Fresh (origins : List Origin) : Prop :=
  (origins.filterMap Origin.drawn?).Nodup ∧ ∀ m, .drawn m ∈ origins → .passed m ∉ origins

theorem mem_drawn {origins : List Origin} {m : ℕ} :
    m ∈ origins.filterMap Origin.drawn? ↔ .drawn m ∈ origins := by
  rw [List.mem_filterMap]
  constructor
  · rintro ⟨_ | _, ho, hm⟩
    · obtain rfl := Option.some.inj hm
      exact ho
    · cases hm
  · intro hm
    exact ⟨_, hm, rfl⟩

theorem Fresh.left {origins origins' : List Origin} (h : Fresh (origins ++ origins')) :
    Fresh origins := by
  rw [Fresh, List.filterMap_append] at h
  exact ⟨h.1.of_append_left, fun m hm hp => h.2 m (List.mem_append_left _ hm)
    (List.mem_append_left _ hp)⟩

/-- A mark that is drawn was not there before. -/
theorem Fresh.not_known {before drawn : List Origin} (h : Fresh (before ++ drawn)) {m : ℕ}
    (hm : .drawn m ∈ drawn) : m ∉ known before := by
  obtain ⟨hnodup, hpassed⟩ := h
  rw [List.filterMap_append] at hnodup
  rintro (hb | hb)
  · exact List.disjoint_of_nodup_append hnodup (mem_drawn.2 hb) (mem_drawn.2 hm)
  · exact hpassed m (List.mem_append_right _ hm) (List.mem_append_left _ hb)

/-! ## Renamings by a function -/

theorem EntriesWithin.image_congr {α : Type} {K : Set ℕ} {f f' : ℕ → ℕ}
    {map map' : α → Option (Set ℕ)} (hf : Set.EqOn f f' K) (hK : EntriesWithin K map)
    (h : EntriesImage f.graph map map') : EntriesImage f'.graph map map' := by
  intro a
  rw [h a]
  cases ha : map a with
  | none => rfl
  | some S =>
    rw [Option.map_some, Option.map_some, ← Set.image_eq, ← Set.image_eq,
      Set.image_congr fun m hm => hf (hK a S ha hm)]

theorem Renamed.congr {K : Set ℕ} {f f' : ℕ → ℕ} {L : Set Scratch} {t t' : Taint w}
    (h : Renamed f.graph L t t') (hK : t.Within K) (hf : Set.EqOn f f' K) :
    Renamed f'.graph L t t' := by
  refine ⟨hK.reg.image_congr hf h.reg, hK.mem.image_congr hf h.mem, fun a => ?_, fun s hs => ?_⟩
  · rw [h.control a, ← Set.image_eq, ← Set.image_eq,
      Set.image_congr fun m hm => hf (hK.control.getD a hm)]
  · rw [h.scratch s hs, ← Set.image_eq, ← Set.image_eq,
      Set.image_congr fun m hm => hf (hK.scratch s hm)]

theorem graph_dom (f : ℕ → ℕ) : f.graph.dom = Set.univ :=
  Set.eq_univ_of_forall fun m => ⟨f m, rfl⟩

/-! ## The coarse operations -/

/-- The operation with `PerRead` for `PerByte`. -/
def Op.coarse : Op w → Op w
  | .pathSourceRead _ args => .pathSourceRead .PerRead args
  | .networkRead _ start length => .networkRead .PerRead start length
  | op => op

/-- What the two tools keep (module doc); marks that were not drawn keep their number. -/
structure Coarsens (n : Nat) (before : List Origin) (f : ℕ → ℕ) (tool tool' : Tool w) : Prop where
  ok : tool.MarksOk n
  ok' : tool'.MarksOk n
  within : tool.Within n (known before)
  renamed : Renamed f.graph Set.univ tool.taint.taint tool'.taint.taint
  branches : SameBranches tool.taint.taint tool'.taint.taint
  tags : ∀ name, tool'.tagMap name = (tool.tagMap name).map f
  fixed : ∀ m, .drawn m ∉ before → f m = m

namespace Op

variable {tool tool' : Tool w} {g g' : TaintGenerator} {f : ℕ → ℕ} {op : Op w}

theorem coarse_visits (op : Op w) : op.coarse.visits = op.visits := by
  cases op <;> rfl

theorem coarse_gives (op : Op w) : op.coarse.gives = op.gives := by
  cases op <;> rfl

section
variable (hnew : ∀ k < op.asks tool, f (g.mark k) = g'.mark 0)
  (htags : ∀ name, tool'.tagMap name = (tool.tagMap name).map f)
include hnew htags

/-- A name that has a mark keeps it; a new one gets the next mark in both tools. -/
theorem tagMark_coarse {start size : ADDRINT w} {id : Nat}
    (htag : op.tag? = some (start, size, id)) :
    (tool'.tagMap (toString id)).getD (g'.mark 0) =
      f ((tool.tagMap (toString id)).getD (g.mark 0)) := by
  rw [htags]
  cases ht : tool.tagMap (toString id) with
  | some mark => rfl
  | none =>
    refine (hnew 0 ?_).symm
    cases op with
    | assignTagToByteRange _ _ id' | assignPointerTagToByteRange _ _ id'
    | assignMemoryTagToByteRange _ _ id' =>
      obtain ⟨-, -, rfl⟩ : _ = start ∧ _ = size ∧ id' = id := by simpa [tag?] using htag
      simp only [asks, ht, Option.isSome_none, Bool.false_eq_true, if_false, Nat.one_pos]
    | _ => cases htag

/-- The mark of an address in the coarse tool. -/
theorem given_coarse (hop : op.gives = true) {i : Nat} (hi : i < op.visits.length) :
    op.coarse.given tool' g' i = f (op.given tool g i) := by
  cases op with
  | setNewTaintForMemory addr size => exact (hnew 0 Nat.one_pos).symm
  | assignTagToByteRange start size id => exact tagMark_coarse hnew htags rfl
  | assignPointerTagToByteRange start size id => exact tagMark_coarse hnew htags rfl
  | assignMemoryTagToByteRange start size id => exact tagMark_coarse hnew htags rfl
  | pathSourceRead range args =>
    by_cases hret : toInt args.ret ≤ 0
    · simp [visits, hret] at hi
    · cases range with
      | PerByte => exact (hnew i hi).symm
      | PerRead => exact (hnew 0 (by simp [asks, hret])).symm
  | networkRead range start length =>
    cases range with
    | PerByte => exact (hnew i hi).symm
    | PerRead => exact (hnew 0 Nat.one_pos).symm
  | _ => cases hop

/-- The marks of the names in the coarse tool. -/
theorem tagsAfter_coarse (name : String) :
    op.coarse.tagsAfter tool' g' name = (op.tagsAfter tool g name).map f := by
  have htag : (op.coarse).tag? = op.tag? := by cases op <;> rfl
  unfold tagsAfter
  rw [htag]
  cases ht : op.tag? with
  | none => exact htags name
  | some t =>
    obtain ⟨start, size, id⟩ := t
    by_cases hn : name = toString id
    · simp only [hn, Function.update_self, Option.map_some, tagMark_coarse hnew htags ht]
    · simp only [Function.update_of_ne hn]
      exact htags name

end

end Op

/-! ## The coarse tool follows the other -/

namespace Coarsens

variable {before : List Origin} {f f' : ℕ → ℕ} {tool tool' tool₁ tool₁' : Tool w}

/-- What an operation leaves to prove: the sets and the tags. -/
theorem after (h : Coarsens n before f tool tool') {op : Op w} (hr : tool.step op = some tool₁)
    (hr' : tool'.step op.coarse = some tool₁')
    (hren : Renamed f'.graph Set.univ tool₁.taint.taint tool₁'.taint.taint)
    (hbranches : SameBranches tool₁.taint.taint tool₁'.taint.taint)
    (htags : ∀ name, tool₁'.tagMap name = (tool₁.tagMap name).map f')
    (hfixed : ∀ m, .drawn m ∉ before ++ op.draws tool → f' m = m) :
    Coarsens n (before ++ op.draws tool) f' tool₁ tool₁' := by
  obtain ⟨next, hs, hok⟩ := Tool.step_keeps h.ok op
  obtain rfl := Option.some.inj (hr.symm.trans hs)
  obtain ⟨next', hs', hok'⟩ := Tool.step_keeps h.ok' op.coarse
  obtain rfl := Option.some.inj (hr'.symm.trans hs')
  refine ⟨hok, hok', ?_, hren, hbranches, htags, hfixed⟩
  rw [known_append]
  exact (h.within.mono Set.subset_union_left).step hr Set.subset_union_right

/-- An operation on the taint state alone, which draws nothing. -/
theorem withTaint (h : Coarsens n before f tool tool') {op : Op w} {r r' : Option (TaintState w)}
    {t t' : Taint w} (hr : tool.step op = tool.withTaint r)
    (hr' : tool'.step op.coarse = tool'.withTaint r') (hg : Gives n r t) (hg' : Gives n r' t')
    (hren : Renamed f.graph Set.univ t t') (hbranches : SameBranches t t') :
    ∃ f' tool₁ tool₁', tool.step op = some tool₁ ∧ tool'.step op.coarse = some tool₁' ∧
      Coarsens n (before ++ op.draws tool) f' tool₁ tool₁' := by
  obtain ⟨st, rfl, -, rfl⟩ := hg
  obtain ⟨st', rfl, -, rfl⟩ := hg'
  exact ⟨f, _, _, hr, hr', h.after hr hr' hren hbranches h.tags fun m hm =>
    h.fixed m fun hb => hm (List.mem_append_left _ hb)⟩

/-- What an operation gives to memory: the image of its marks, and nothing else changes. -/
theorem renamed_gave {addrs : List (ADDRINT w)} {mark mark' : Nat → Nat} {K : Set ℕ}
    (hren : Renamed f.graph Set.univ tool.taint.taint tool'.taint.taint)
    (hK : tool.taint.taint.Within K) (hf : Set.EqOn f f' K)
    (hgave : Tool.Gave tool addrs mark tool₁) (hgave' : Tool.Gave tool' addrs mark' tool₁')
    (hmark : ∀ i < addrs.length, mark' i = f' (mark i)) :
    Renamed f'.graph Set.univ tool₁.taint.taint tool₁'.taint.taint := by
  have hbase := hren.congr hK hf
  have hreg : ∀ {tl tl₁ : Tool w} {mk}, Tool.Gave tl addrs mk tl₁ →
      tl₁.taint.taint.reg = tl.taint.taint.reg ∧ tl₁.taint.taint.control = tl.taint.taint.control ∧
      tl₁.taint.taint.scratch = tl.taint.taint.scratch := by
    intro tl tl₁ mk hg
    rw [hg.taint]
    exact ⟨rfl, rfl, rfl⟩
  obtain ⟨hr, hc, hs⟩ := hreg hgave
  obtain ⟨hr', hc', hs'⟩ := hreg hgave'
  refine ⟨by rw [hr, hr']; exact hbase.reg, fun a => ?_, by rw [hc, hc']; exact hbase.control,
    by rw [hs, hs']; exact hbase.scratch⟩
  by_cases ha : a ∈ addrs
  · obtain ⟨i, hi, rfl⟩ := List.getElem_of_mem ha
    obtain ⟨s, hs, hm⟩ := hgave.inside i hi
    obtain ⟨s', hs', hm'⟩ := hgave'.inside i hi
    simp only [taint_mem, hs, hs', Option.map_some, hm, hm', hmark i hi, ← Set.image_eq,
      Set.image_singleton]
  · simp only [taint_mem, hgave.outside a ha, hgave'.outside a ha]
    exact hbase.mem a

theorem sameBranches_gave {addrs : List (ADDRINT w)} {mark mark' : Nat → Nat}
    (h : SameBranches tool.taint.taint tool'.taint.taint)
    (hgave : Tool.Gave tool addrs mark tool₁)
    (hgave' : Tool.Gave tool' addrs mark' tool₁') :
    SameBranches tool₁.taint.taint tool₁'.taint.taint := by
  rw [hgave.taint, hgave'.taint]
  exact h

/-- An operation that gives marks: what it draws is sent to the next mark of the coarse tool. -/
theorem gives (h : Coarsens n before f tool tool') {op : Op w} (hop : op.gives = true)
    (hfresh : Fresh (before ++ op.draws tool)) :
    ∃ f' tool₁ tool₁', tool.step op = some tool₁ ∧ tool'.step op.coarse = some tool₁' ∧
      Coarsens n (before ++ op.draws tool) f' tool₁ tool₁' := by
  obtain ⟨g, hg, -⟩ := h.ok.gen
  obtain ⟨g', hg', -⟩ := h.ok'.gen
  obtain ⟨tool₁, hr, hgave, -, htags⟩ := Tool.step_gave h.ok hg hop
  obtain ⟨tool₁', hr', hgave', -, htags'⟩ :=
    Tool.step_gave h.ok' hg' ((Op.coarse_gives op).trans hop)
  rw [Op.coarse_visits] at hgave'
  classical
  let f' : ℕ → ℕ := fun m => if .drawn m ∈ op.draws tool then g'.mark 0 else f m
  have hnew : ∀ k < op.asks tool, f' (g.mark k) = g'.mark 0 := by
    intro k hk
    refine if_pos ?_
    rw [Op.draws, hg]
    exact List.mem_map.2 ⟨k, List.mem_range.2 hk, rfl⟩
  have hold : Set.EqOn f f' (known before) := by
    intro m hm
    exact (if_neg fun hd => hfresh.not_known hd hm).symm
  have hnames : ∀ name, tool'.tagMap name = (tool.tagMap name).map f' := by
    intro name
    rw [h.tags name]
    cases ht : tool.tagMap name with
    | none => rfl
    | some mark => rw [Option.map_some, Option.map_some, hold (h.within.tags name mark ht)]
  refine ⟨f', tool₁, tool₁', hr, hr', h.after hr hr' ?_ ?_ ?_ ?_⟩
  · exact renamed_gave h.renamed h.within.marks hold hgave hgave' fun i hi =>
      Op.given_coarse hnew hnames hop hi
  · exact sameBranches_gave h.branches hgave hgave'
  · intro name
    rw [htags, htags']
    exact Op.tagsAfter_coarse hnew hnames name
  · intro m hm
    rw [List.mem_append, not_or] at hm
    exact (if_neg hm.2).trans (h.fixed m hm.1)

theorem step (h : Coarsens n before f tool tool') {op : Op w}
    (hfresh : Fresh (before ++ op.draws tool)) :
    ∃ f' tool₁ tool₁', tool.step op = some tool₁ ∧ tool'.step op.coarse = some tool₁' ∧
      Coarsens n (before ++ op.draws tool) f' tool₁ tool₁' := by
  have hw := h.ok.width
  have hw' := h.ok'.width
  have hr := h.renamed
  have hb := h.branches
  have hall : ∀ {args : List Scratch}, ∀ s ∈ args, s ∈ Set.univ := fun s _ => Set.mem_univ s
  cases op with
  | clearTaintSet set =>
    refine h.withTaint rfl rfl (clearTaintSet_gives hw set) (clearTaintSet_gives hw' set) ?_ hb
    exact (hr.load set SetRel.image_empty_right.symm).mono (Set.subset_insert _ _)
  | taintForRegister reg set =>
    refine h.withTaint rfl rfl (taintForRegister_gives hw reg set)
      (taintForRegister_gives hw' reg set) ?_ hb
    exact (hr.load set (hr.regMarks reg)).mono (Set.subset_insert _ _)
  | taintForMemory start size baseReg indexReg set =>
    refine h.withTaint rfl rfl (taintForMemory_gives hw start size baseReg indexReg set)
      (taintForMemory_gives hw' start size baseReg indexReg set) ?_ hb
    exact (hr.load set (hr.readMarks _ baseReg indexReg)).mono (Set.subset_insert _ _)
  | setTaintForRegister dest args =>
    refine h.withTaint rfl rfl (setTaintForRegister_gives hw dest (args_ok hw args))
      (setTaintForRegister_gives hw' dest (args_ok hw' args)) ?_ ?_
    · rw [args_marks, args_marks]
      exact hr.setReg dest (hr.scratchMarks hall)
    · intro a
      simpa using hb a
  | clearTaintForRegister reg =>
    exact h.withTaint rfl rfl (clearTaintForRegister_gives hw reg)
      (clearTaintForRegister_gives hw' reg) (hr.clearReg reg) hb
  | setTaintForMemory start size args =>
    refine h.withTaint rfl rfl (setTaintForMemory_gives hw start size (args_ok hw args))
      (setTaintForMemory_gives hw' start size (args_ok hw' args)) ?_ hb
    rw [args_marks, args_marks]
    exact hr.setMem _ (hr.scratchMarks hall)
  | clearTaintForMemory start size =>
    exact h.withTaint rfl rfl (clearTaintForMemory_gives hw start size)
      (clearTaintForMemory_gives hw' start size) (hr.clearMem _) hb
  | pushControl addr =>
    exact h.withTaint rfl rfl (pushControl_gives hw addr) (pushControl_gives hw' addr)
      (hr.pushControl addr) (hb.pushControl (graph_dom f) hr addr)
  | popControl addrs =>
    exact h.withTaint rfl rfl (popControl_gives hw addrs) (popControl_gives hw' addrs)
      (hb.popControl hr addrs).2 (hb.popControl hr addrs).1
  | setNewTaintStart =>
    obtain ⟨g, hg, -⟩ := h.ok.gen
    obtain ⟨g', hg', -⟩ := h.ok'.gen
    have hs : ∀ {tl : Tool w} {gen}, tl.taintGen = some gen → tl.step .setNewTaintStart =
        some { tl with taintGen := some gen.setNewTaintStart } := by
      intro tl gen hgen
      simp only [Tool.step, Tool.setNewTaintStart, hgen]
      rfl
    exact ⟨f, _, _, hs hg, hs hg', h.after (hs hg) (hs hg') hr hb h.tags fun m hm =>
      h.fixed m fun hbefore => hm (List.mem_append_left _ hbefore)⟩
  | setNewTaintForMemory addr size => exact h.gives rfl hfresh
  | assignTagToByteRange start size id => exact h.gives rfl hfresh
  | assignPointerTagToByteRange start size id => exact h.gives rfl hfresh
  | assignMemoryTagToByteRange start size id => exact h.gives rfl hfresh
  | pathSourceRead range args => exact h.gives rfl hfresh
  | networkRead range start length => exact h.gives rfl hfresh

/-- A run of operations. -/
theorem run (h : Coarsens n before f tool tool') {ops : List (Op w)}
    (hr : tool.run ops = some tool₁)
    (hfresh : Fresh (before ++ Lib.emitted Tool.step Op.draws tool ops)) :
    ∃ f' tool₁', tool'.run (ops.map Op.coarse) = some tool₁' ∧
      Coarsens n (before ++ Lib.emitted Tool.step Op.draws tool ops) f' tool₁ tool₁' := by
  have hstep : ∀ before (tool tool' : Tool w) op tool₁, (∃ f, Coarsens n before f tool tool') →
      tool.step op = some tool₁ → Fresh (before ++ op.draws tool) →
      ∃ tool₁', tool'.step op.coarse = some tool₁' ∧
        ∃ f, Coarsens n (before ++ op.draws tool) f tool₁ tool₁' := by
    rintro before tool tool' op tool₁ ⟨f, h⟩ hs hf
    obtain ⟨f', next, tool₁', hr, hr', h'⟩ := h.step hf
    obtain rfl := Option.some.inj (hs.symm.trans hr)
    exact ⟨tool₁', hr', f', h'⟩
  obtain ⟨tool₁', hr', f', h'⟩ :=
    Lib.emitted_simulation (fun _ _ => Fresh.left) hstep ⟨f, h⟩ hr hfresh
  exact ⟨f', tool₁', hr', h'⟩

end Coarsens

end Dytan
