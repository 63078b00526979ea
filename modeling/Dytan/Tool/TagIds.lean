import Dytan.Lib.Run
import Dytan.Tool.MarkGenerator

/-!
# Tags with ids (`replace_functions.cpp`)

A run of `AssignTag` calls and source reads that share one generator `TaintGenerator(0, max)`. `uses`
lists what the marks went to: the tag of an id or a read. `TagApi`: an id always has the same mark;
as long as no more than `max` marks were handed out, different ids have different marks and none of a
read; and after a tag exactly its range carries its mark.

`tagApi_iff`: this holds of a run if and only if no tagged range reaches the last byte of memory. The
marks themselves are right in every run (`Ids.step`).
-/

namespace Dytan

variable {w : Nat}

/-- A tag of `id` put sets with `mark`, or a read was given `mark`. -/
inductive Use
  | tag (id mark : Nat)
  | read (mark : Nat)
deriving DecidableEq, Repr

def Op.uses (tool : Tool w) (g : TaintGenerator) (op : Op w) : List Use :=
  match op.tag? with
  | some (_, _, id) => [.tag id (op.given tool g 0)]
  | none => (List.range (op.asks tool)).map fun k => .read (g.mark k)

namespace Tool

/-- The uses of a run, and how many marks the generator handed out. -/
def history (tool : Tool w) : List (Op w) → List Use × Nat
  | [] => ([], 0)
  | op :: ops =>
    match tool.taintGen, tool.step op with
    | some g, some tool' =>
      let (us, calls) := history tool' ops
      (op.uses tool g ++ us, op.asks tool + calls)
    | _, _ => ([], 0)

/-- After a tag exactly the addresses of its range map to the set of its mark; the others are
unchanged. -/
def RangeExact (tool : Tool w) (op : Op w) : Prop :=
  ∀ start size id g tool', op.tag? = some (start, size, id) → tool.taintGen = some g →
    tool.step op = some tool' → ∀ a,
      (a ∈ bytesAt start size → ∃ s : Bitset,
        tool'.taint.memTaintMap a = some s ∧ s.marks = {op.given tool g 0}) ∧
      (a ∉ bytesAt start size → tool'.taint.memTaintMap a = tool.taint.memTaintMap a)

/-- What the tags of a run promise (module doc). -/
structure TagApi (max : Nat) (tool : Tool w) (ops : List (Op w)) : Prop where
  same : ∀ id m m', .tag id m ∈ (tool.history ops).1 → .tag id m' ∈ (tool.history ops).1 → m = m'
  distinct : (tool.history ops).2 ≤ max → ∀ id id' m m', .tag id m ∈ (tool.history ops).1 →
    .tag id' m' ∈ (tool.history ops).1 → id ≠ id' → m ≠ m'
  unread : (tool.history ops).2 ≤ max → ∀ id m m', .tag id m ∈ (tool.history ops).1 →
    .read m' ∈ (tool.history ops).1 → m ≠ m'
  ranges : Lib.Along step RangeExact tool ops

/-- The maps are empty and the generator is `TaintGenerator(0, max)`. -/
structure Begins (n max : Nat) (tool : Tool w) : Prop where
  marks : tool.MarksOk n
  mem : ∀ a, tool.taint.memTaintMap a = none
  gen : tool.taintGen = some (.sequential 0 0 max)
  tags : ∀ name, tool.tagMap name = none

end Tool

/-! ## The marks of the generator -/

namespace TaintGenerator

variable {max : Nat}

theorem sequential_after (hm : 0 < max) (c k : Nat) :
    (sequential 0 (c % max) max).after k = .sequential 0 ((c + k) % max) max := by
  simpa only [Nat.sub_zero, Nat.zero_add] using cycle_after hm c k

theorem sequential_mark (hm : 0 < max) (c k : Nat) :
    (sequential 0 (c % max) max).mark k = (c + k) % max := by
  rw [mark, sequential_after hm]
  rfl

end TaintGenerator

/-- Different ids have different names. -/
theorem toString_inj {id id' : Nat} (h : toString id = toString id') : id = id' := by
  have hdigits : Nat.toDigits 10 id = Nat.toDigits 10 id' := by
    simpa using congrArg String.toList h
  rw [← Nat.ofDigitChars_ten_toDigits (n := id), hdigits, Nat.ofDigitChars_ten_toDigits]

namespace Tool

/-! ## The invariant -/

/-- Up to `max` marks: the tags have different marks below `c`, and so do the reads. -/
structure Fresh (c : Nat) (us : List Use) (tool : Tool w) : Prop where
  tag_lt : ∀ name m, tool.tagMap name = some m → m < c
  read_lt : ∀ m, .read m ∈ us → m < c
  tag_inj : ∀ name name' m, tool.tagMap name = some m → tool.tagMap name' = some m → name = name'
  unread : ∀ name m, tool.tagMap name = some m → .read m ∉ us

/-- After `c` marks and the uses `us`. -/
structure Ids (max c : Nat) (us : List Use) (tool : Tool w) : Prop where
  gen : tool.taintGen = some (.sequential 0 (c % max) max)
  tags : ∀ id m, .tag id m ∈ us → tool.tagMap (toString id) = some m
  fresh : c ≤ max → tool.Fresh c us

section
variable {max c n : Nat} {us : List Use} {tool tool' : Tool w} {op : Op w}

/-- The name of a tag. -/
theorem tag_spec (tool : Tool w) {start size : ADDRINT w} {id : Nat} (h : op.tag? = some (start, size, id)) :
    (∀ g i, op.given tool g i = (tool.tagMap (toString id)).getD (g.mark 0)) ∧
    op.asks tool = (if (tool.tagMap (toString id)).isSome then 0 else 1) ∧
    op.visits = addrRange start (start + size) := by
  cases op <;> simp only [Op.tag?, Option.some.injEq, Prod.mk.injEq, reduceCtorEq] at h
  all_goals
    obtain ⟨rfl, rfl, rfl⟩ := h
    exact ⟨fun _ _ => rfl, rfl, rfl⟩

/-- A read of `k` marks. -/
theorem Fresh.read (h : tool.Fresh c us) {k : Nat} (hm : 0 < max) (hk : c + k ≤ max)
    (htags : tool'.tagMap = tool.tagMap) :
    tool'.Fresh (c + k) (us ++ (List.range k).map fun j =>
      .read ((TaintGenerator.sequential 0 (c % max) max).mark j)) := by
  -- the new marks are `c .. c + k - 1`
  have hnew : ∀ m, .read m ∈ (List.range k).map (fun j =>
      Use.read ((TaintGenerator.sequential 0 (c % max) max).mark j)) → c ≤ m ∧ m < c + k := by
    intro m hmem
    obtain ⟨j, hj, he⟩ := List.mem_map.1 hmem
    rw [List.mem_range] at hj
    rw [TaintGenerator.sequential_mark hm, Nat.mod_eq_of_lt (by omega), Use.read.injEq] at he
    omega
  refine ⟨fun name m ht => ?_, fun m hr => ?_, fun name name' m ht ht' => ?_, fun name m ht hr => ?_⟩
  · rw [htags] at ht
    exact Nat.lt_add_right k (h.tag_lt name m ht)
  · rcases List.mem_append.1 hr with hr | hr
    · exact Nat.lt_add_right k (h.read_lt m hr)
    · exact (hnew m hr).2
  · rw [htags] at ht ht'
    exact h.tag_inj name name' m ht ht'
  · rw [htags] at ht
    rcases List.mem_append.1 hr with hr | hr
    · exact h.unread name m ht hr
    · exact absurd (h.tag_lt name m ht) (Nat.not_lt.2 (hnew m hr).1)

/-- A tag with a new name. -/
theorem Fresh.tag (h : tool.Fresh c us) {id : Nat} {name : String}
    (hn : tool'.tagMap = Function.update tool.tagMap name (some c)) :
    tool'.Fresh (c + 1) (us ++ [.tag id c]) := by
  have hcases : ∀ name' m, tool'.tagMap name' = some m →
      name' = name ∧ m = c ∨ tool.tagMap name' = some m := by
    intro name' m ht
    rw [hn] at ht
    by_cases he : name' = name
    · rw [he, Function.update_self] at ht
      exact .inl ⟨he, (Option.some.inj ht).symm⟩
    · rw [Function.update_of_ne he] at ht
      exact .inr ht
  have hread : ∀ m, .read m ∈ us ++ [.tag id c] → .read m ∈ us := by
    intro m hr
    simpa using hr
  refine ⟨fun name' m ht => ?_, fun m hr => ?_, fun n₁ n₂ m h₁ h₂ => ?_, fun name' m ht hr => ?_⟩
  · obtain ⟨-, rfl⟩ | ht := hcases name' m ht
    · exact Nat.lt_succ_self m
    · exact Nat.lt_succ_of_lt (h.tag_lt name' m ht)
  · exact Nat.lt_succ_of_lt (h.read_lt m (hread m hr))
  · obtain ⟨rfl, rfl⟩ | h₁ := hcases n₁ m h₁
    · obtain ⟨rfl, -⟩ | h₂ := hcases n₂ m h₂
      · rfl
      · exact absurd (h.tag_lt n₂ m h₂) (Nat.lt_irrefl m)
    · obtain ⟨-, rfl⟩ | h₂ := hcases n₂ m h₂
      · exact absurd (h.tag_lt n₁ m h₁) (Nat.lt_irrefl m)
      · exact h.tag_inj n₁ n₂ m h₁ h₂
  · obtain ⟨-, rfl⟩ | ht := hcases name' m ht
    · exact absurd (h.read_lt m (hread m hr)) (Nat.lt_irrefl m)
    · exact h.unread name' m ht (hread m hr)

/-- A tag with a name that has a mark. -/
theorem Fresh.again (h : tool.Fresh c us) {id m : Nat} (htags : tool'.tagMap = tool.tagMap) :
    tool'.Fresh c (us ++ [.tag id m]) := by
  have hread : ∀ m', .read m' ∈ us ++ [.tag id m] → .read m' ∈ us := by
    intro m' hr
    simpa using hr
  exact ⟨fun name m ht => h.tag_lt name m (htags ▸ ht), fun m hr => h.read_lt m (hread m hr),
    fun name name' m ht ht' => h.tag_inj name name' m (htags ▸ ht) (htags ▸ ht'),
    fun name m ht hr => h.unread name m (htags ▸ ht) (hread m hr)⟩

/-- One tag or read. -/
theorem Ids.step (h : tool.Ids max c us) (hm : 0 < max) (hok : tool.MarksOk n)
    (hop : op.gives = true) (hs : tool.step op = some tool') :
    tool'.Ids max (c + op.asks tool)
      (us ++ op.uses tool (.sequential 0 (c % max) max)) := by
  obtain ⟨tool₁, hs₁, -, hgen, htags⟩ := step_gave hok h.gen hop
  obtain rfl : tool₁ = tool' := Option.some.inj (hs₁.symm.trans hs)
  have hgen' := hgen.trans (congrArg some (TaintGenerator.sequential_after hm c (op.asks tool)))
  cases htag : op.tag? with
  | none =>
    have htags' : tool₁.tagMap = tool.tagMap := by rw [htags, Op.tagsAfter, htag]
    simp only [Op.uses, htag]
    refine ⟨hgen', fun id m ht => ?_, fun hc => ?_⟩
    · rw [htags']
      exact h.tags id m (by simpa using ht)
    · exact (h.fresh (by omega)).read hm hc htags'
  | some tag =>
    obtain ⟨start, size, id⟩ := tag
    obtain ⟨hgiven, hasks, -⟩ := tag_spec tool htag
    simp only [Op.tagsAfter, htag] at htags
    simp only [Op.uses, htag, hgiven]
    cases hname : tool.tagMap (toString id) with
    | some mark =>
      have htags' : tool₁.tagMap = tool.tagMap := by
        rw [htags, hname, Option.getD_some, ← hname, Function.update_eq_self]
      rw [hasks, hname] at hgen' ⊢
      refine ⟨hgen', fun id' m ht => ?_, fun hc => (h.fresh hc).again htags'⟩
      rw [htags']
      rcases List.mem_append.1 ht with ht | ht
      · exact h.tags id' m ht
      · simp only [Option.getD_some, List.mem_singleton, Use.tag.injEq] at ht
        rw [ht.1, ht.2, hname]
    | none =>
      rw [hname, Option.getD_none, TaintGenerator.sequential_mark hm] at htags
      rw [hasks, hname] at hgen' ⊢
      rw [Option.getD_none, TaintGenerator.sequential_mark hm]
      refine ⟨hgen', fun id' m ht => ?_, fun hc => ?_⟩
      · rcases List.mem_append.1 ht with ht | ht
        · have hold := h.tags id' m ht
          have hne : toString id' ≠ toString id := fun he => by rw [he, hname] at hold; cases hold
          rw [htags, Function.update_of_ne hne]
          exact hold
        · simp only [List.mem_singleton, Use.tag.injEq] at ht
          rw [htags, ht.1, ht.2, Function.update_self]
      · simp only [Option.isSome_none, Bool.false_eq_true, if_false] at hc
        rw [Nat.add_zero, Nat.mod_eq_of_lt (by omega)] at htags ⊢
        exact (h.fresh (by omega)).tag htags

theorem Ids.history (h : tool.Ids max c us) (hm : 0 < max) (hok : tool.MarksOk n)
    {ops : List (Op w)} (hops : ∀ op ∈ ops, op.gives = true) :
    ∃ tool' : Tool w, tool'.Ids max (c + (tool.history ops).2) (us ++ (tool.history ops).1) := by
  induction ops generalizing tool c us with
  | nil => exact ⟨tool, by simpa [Tool.history] using h⟩
  | cons op ops ih =>
    obtain ⟨tool', hs, hok'⟩ := step_keeps hok op
    have h' := h.step hm hok (hops op List.mem_cons_self) hs
    obtain ⟨last, hlast⟩ := ih h' hok' fun op hop => hops op (List.mem_cons_of_mem _ hop)
    refine ⟨last, ?_⟩
    simp only [Tool.history, h.gen, hs]
    rwa [Nat.add_assoc, List.append_assoc] at hlast

/-! ## The ranges -/

end

end Tool

/-- The range of a tag ends before the last byte of memory. -/
def Op.Fits (op : Op w) : Prop :=
  ∀ start size id, op.tag? = some (start, size, id) → ¬ RangeWraps start size

namespace Tool

variable {max n : Nat} {tool tool' : Tool w} {op : Op w}

/-- No loop visits the last byte. -/
theorem last_not_visited (op : Op w) : BitVec.allOnes w ∉ op.visits := by
  have hrange : ∀ start stop : ADDRINT w, BitVec.allOnes w ∉ addrRange start stop := by
    intro start stop hmem
    have hlt := (mem_addrRange.1 hmem).2
    rw [BitVec.lt_def, BitVec.toNat_allOnes] at hlt
    have := stop.isLt
    omega
  cases op with
  | pathSourceRead range args =>
    show _ ∉ if toInt args.ret ≤ 0 then [] else addrRange _ _
    split
    · exact List.not_mem_nil
    · exact hrange _ _
  | setNewTaintForMemory => exact hrange _ _
  | assignTagToByteRange => exact hrange _ _
  | assignPointerTagToByteRange => exact hrange _ _
  | assignMemoryTagToByteRange => exact hrange _ _
  | networkRead => exact hrange _ _
  | _ => exact List.not_mem_nil

theorem last_mem_bytesAt {start size : ADDRINT w} (h : RangeWraps start size) :
    BitVec.allOnes w ∈ bytesAt start size := by
  have hs := start.isLt
  have hle : start ≤ BitVec.allOnes w := by
    rw [BitVec.le_def, BitVec.toNat_allOnes]
    omega
  rw [mem_bytesAt, BitVec.toNat_sub_of_le hle, BitVec.toNat_allOnes]
  have := h.2
  omega

/-- Only a range that reaches the last byte goes wrong: the loop then visits nothing. -/
theorem rangeExact_iff_fits (hok : tool.MarksOk n)
    (hlast : tool.taint.memTaintMap (BitVec.allOnes w) = none) (hop : op.gives = true) :
    tool.RangeExact op ↔ op.Fits := by
  obtain ⟨g, hg, -⟩ := hok.gen
  obtain ⟨tool', hs, hgave, -, -⟩ := step_gave hok hg hop
  constructor
  · intro hexact start size id htag hwrap
    obtain ⟨-, -, hvisits⟩ := tag_spec tool htag
    obtain ⟨s, hsome, -⟩ := (hexact start size id g tool' htag hg hs (BitVec.allOnes w)).1
      (last_mem_bytesAt hwrap)
    rw [hgave.outside _ (last_not_visited op), hlast] at hsome
    cases hsome
  · intro hfits start size id g' tool₁ htag hg' hs₁ a
    obtain rfl : g = g' := Option.some.inj (hg.symm.trans hg')
    obtain rfl : tool' = tool₁ := Option.some.inj (hs.symm.trans hs₁)
    obtain ⟨hgiven, -, hvisits⟩ := tag_spec tool htag
    have hmem : a ∈ op.visits ↔ a ∈ bytesAt start size := by
      rw [hvisits]
      exact mem_addrRange_bytes (hfits start size id htag)
    refine ⟨fun ha => ?_, fun ha => hgave.outside a (mt hmem.1 ha)⟩
    obtain ⟨i, -, s, hsome, hmarks⟩ := hgave.mem (hmem.2 ha)
    exact ⟨s, hsome, by rw [hmarks, hgiven, hgiven]⟩

/-- The last byte never gets an entry. -/
theorem last_kept (hok : tool.MarksOk n)
    (hlast : tool.taint.memTaintMap (BitVec.allOnes w) = none) (hop : op.gives = true)
    (hs : tool.step op = some tool') : tool'.taint.memTaintMap (BitVec.allOnes w) = none := by
  obtain ⟨g, hg, -⟩ := hok.gen
  obtain ⟨tool₁, hs₁, hgave, -, -⟩ := step_gave hok hg hop
  obtain rfl : tool₁ = tool' := Option.some.inj (hs₁.symm.trans hs)
  rw [hgave.outside _ (last_not_visited op), hlast]

/-- A run of tags and reads keeps what the tags promise if and only if no tagged range reaches the
last byte of memory. -/
theorem tagApi_iff (hb : tool.Begins n max) {ops : List (Op w)}
    (hops : ∀ op ∈ ops, op.gives = true) :
    tool.TagApi max ops ↔ ∀ op ∈ ops, op.Fits := by
  obtain ⟨g, hg, hbelow⟩ := hb.marks.gen
  obtain rfl := Option.some.inj (hg.symm.trans hb.gen)
  have hm : 0 < max := hbelow.1
  have hstart : tool.Ids max 0 [] := by
    refine ⟨by rw [hb.gen, Nat.zero_mod], fun id m ht => (nomatch ht), fun _ => ?_⟩
    refine ⟨fun name m ht => ?_, fun m hr => (nomatch hr), fun name _ m ht => ?_, fun name m ht => ?_⟩
      <;> rw [hb.tags] at ht <;> cases ht
  obtain ⟨last, hlast⟩ := hstart.history hm hb.marks hops
  rw [Nat.zero_add, List.nil_append] at hlast
  obtain ⟨final, hrun, -⟩ := run_keeps hb.marks ops
  have hgives : Lib.Along step (fun _ op => op.gives = true) tool ops :=
    (Lib.along_forall hrun).2 hops
  have hranges : Lib.Along step RangeExact tool ops ↔ ∀ op ∈ ops, op.Fits := by
    have hforall : Lib.Along step (fun _ op => op.Fits) tool ops ↔ _ := Lib.along_forall hrun
    rw [← hforall]
    refine Lib.along_iff_along
      (I := fun t => t.MarksOk n ∧ t.taint.memTaintMap (BitVec.allOnes w) = none)
      ?_ ?_ ⟨hb.marks, hb.mem _⟩ hgives hrun
    · intro t op t' ht hop _ hs
      obtain ⟨t₁, hs₁, hok⟩ := step_keeps ht.1 op
      obtain rfl := Option.some.inj (hs₁.symm.trans hs)
      exact ⟨hok, last_kept ht.1 ht.2 hop hs⟩
    · intro t op t' ht hop _
      exact rangeExact_iff_fits ht.1 ht.2 hop
  constructor
  · intro hapi
    exact hranges.1 hapi.ranges
  · intro hfits
    refine ⟨fun id m m' h h' => ?_, fun hc id id' m m' h h' hne he => ?_,
      fun hc id m m' h hr he => ?_, hranges.2 hfits⟩
    · exact Option.some.inj ((hlast.tags id m h).symm.trans (hlast.tags id m' h'))
    · subst he
      exact hne (toString_inj ((hlast.fresh hc).tag_inj _ _ m (hlast.tags id m h)
        (hlast.tags id' m h')))
    · subst he
      exact (hlast.fresh hc).unread _ m (hlast.tags id m h) hr

/-- Sixteen marks. -/
def sixteen : Tool 32 := ⟨.initial 16, some (.sequential 0 0 16), fun _ => none⟩

theorem sixteen_begins : sixteen.Begins 16 16 :=
  ⟨⟨TaintState.initial_ok 16, ⟨_, rfl, by decide, by decide, le_rfl⟩, fun _ _ h => (nomatch h)⟩,
    fun _ => rfl, rfl, fun _ => rfl⟩

/-- Two tags with the id 7 and a read between them. -/
theorem tagApi_iff_twice :
    sixteen.TagApi 16 [.assignTagToByteRange 0x1000 4 7, .networkRead .PerByte 0x2000 2,
      .assignPointerTagToByteRange 0x3000 4 7] ↔
    ∀ op ∈ [(.assignTagToByteRange 0x1000 4 7 : Op 32), .networkRead .PerByte 0x2000 2,
      .assignPointerTagToByteRange 0x3000 4 7], op.Fits :=
  tagApi_iff sixteen_begins (by decide)

/-- The last four bytes of memory get no entry. -/
theorem tag_last_bytes : ¬ sixteen.TagApi 16 [.assignMemoryTagToByteRange 0xfffffffc 4 1] := by
  intro h
  have hexact := h.ranges [] _ [] rfl sixteen rfl
  rw [rangeExact_iff_fits sixteen_begins.marks (sixteen_begins.mem _) rfl] at hexact
  exact hexact 0xfffffffc 4 1 rfl (by decide)

end Tool

end Dytan
