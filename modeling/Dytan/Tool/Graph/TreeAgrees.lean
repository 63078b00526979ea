import Dytan.Tool.Graph.PassRun

/-!
# The three representations of the post-dominance tree

A block has a post-dominator, `postDominated` and `immediatelyPostDominated`. When a block moves to
another post-dominator, `addPredecessorAsPostDominated` erases it from `immediatelyPostDominated` of
the current block, and not of the post-dominator it had: there it stays for good
(`Recorded.persists`).

So the three agree exactly if no block ever moves (`agrees_iff`): if every block that leads to the
return has an edge to its immediate post-dominator, and no two have the same starting address.
-/

namespace Dytan

open Relation Lib.PostDom

variable {P : Type} {w : Nat}

/-- The representations agree on `nodes`. -/
structure FullHeap.Agrees (f : FullHeap P w) (nodes : Finset P) : Prop where
  immediate : ∀ X ∈ nodes, ∀ Y ∈ nodes, (∃ key, f.immediatelyPostDominated X key = some Y) ↔
    (f.blocks Y).postDominator = some X
  below : ∀ X ∈ nodes, ∀ Y ∈ nodes, (∃ key, f.blocks.Entry X key Y) ↔
    TransGen (fun a b => (f.blocks a).postDominator = some b) Y X

/-- Every block that leads to the return has an edge to its immediate post-dominator. -/
def EdgeToImmediate (h : Heap P w) (root : P) : Prop :=
  ∀ b, Reaches h.Flows root b → b ≠ root → ∃ p, h.Flows b p ∧ Immediate h.Flows root p b

namespace PassState

variable {h : Heap P w} {root a b t y : P} {nodes : Finset P} {s s' f : PassState P w} {depth : Nat}
  {key : ADDRINT w}

/-! ## Where the pass has ended -/

theorem Sane.reaches_iff (hs : Sane h root nodes s) (hdone : s.Done) :
    b ∈ s.met ↔ Reaches h.Flows root b := by
  refine ⟨fun hb => (hs.inside b hb).2, ?_⟩
  rintro ⟨p, hp⟩
  induction hp with
  | exit => exact mem_met_of_visited hs.root_visited
  | @cons a b p hab _ ih =>
    have hb : b ∈ s.visited := by
      rw [met, hdone.2, List.append_nil] at ih
      exact ih
    by_cases hc : b = s.current
    · obtain ⟨pre, hpre, hseen⟩ := hs.todo
      rw [hdone.1, List.append_nil] at hpre
      refine hseen a ?_
      rw [← hpre, ← hc]
      exact hab
    · exact hs.processed b hb hc a hab

theorem Sane.pointer_mem (hs : Sane h root nodes s) (hp : (s.heap a).postDominator = some b) :
    a ∈ s.met ∧ a ≠ root ∧ b ∈ s.visited := by
  have hroot : a ≠ root := by
    rintro rfl
    rw [hs.root_top] at hp
    cases hp
  have hm : a ∈ s.met := by
    by_contra hm
    rw [(hs.fresh a hm).1] at hp
    cases hp
  obtain ⟨-, p, hv, hap⟩ := hs.attached a hm hroot
  exact ⟨hm, hroot, Option.some.inj (hap.symm.trans hp) ▸ hv⟩

/-- Where the representations agree, nothing points to itself in the end. -/
theorem Sane.acyclic (hs : Sane h root nodes s) (ha : s.full.Agrees nodes) :
    ¬ TransGen (fun a b => (s.heap a).postDominator = some b) b b := by
  intro hc
  have hb : b ∈ nodes := by
    obtain ⟨c, hbc, -⟩ := TransGen.head'_iff.1 hc
    exact (hs.inside b (hs.pointer_mem hbc).1).1
  obtain ⟨key, he⟩ := (ha.below b hb b hb).2 hc
  exact (hs.entries b key b he).2.2 rfl

theorem Sane.climbs_of_agrees (hs : Sane h root nodes s) (ha : s.full.Agrees nodes)
    (hb : b ∈ s.met) : s.heap.Climbs b root := by
  let above : nodes → nodes → Prop := fun a b =>
    TransGen (fun a b => (s.heap a).postDominator = some b) b a
  have htrans : IsTrans nodes above := ⟨fun a b c hab hbc => hbc.trans hab⟩
  have hirrefl : Std.Irrefl above := ⟨fun a => hs.acyclic ha⟩
  have hwf : WellFounded above := Finite.wellFounded_of_trans_of_irrefl above
  have hall : ∀ x : nodes, x.1 ∈ s.met → s.heap.Climbs x.1 root := by
    intro x
    induction x using hwf.induction with
    | _ x ih =>
      intro hx
      by_cases hroot : x.1 = root
      · rw [hroot]
        exact .refl
      · obtain ⟨-, p, hp, hpd⟩ := hs.attached x.1 hx hroot
        have hpm := mem_met_of_visited hp
        exact ReflTransGen.head hpd (ih ⟨p, (hs.inside p hpm).1⟩ (TransGen.single hpd) hpm)
  exact hall ⟨b, (hs.inside b hb).1⟩ hb

/-- The return block has one entry for an address. -/
theorem Sane.distinctStarts (hg : BlockGraph h root nodes) (hs : Sane h root nodes s)
    (hdone : s.Done) (ha : s.full.Agrees nodes) : DistinctStarts h root := by
  have hstart : ∀ a, a ∈ s.met → (h a).startingAddress = (h root).startingAddress → a = root := by
    intro a hm he
    rw [(hg.root_start root hg.root_mem).2 rfl] at he
    exact (hg.root_start a (hs.inside a hm).1).1 he
  have hentry : ∀ a, a ∈ s.met → a ≠ root → s.heap.Entry root (h a).startingAddress a := by
    intro a hm hne
    have hclimbs : TransGen (fun a b => (s.heap a).postDominator = some b) a root :=
      (reflTransGen_iff_eq_or_transGen.1 (hs.climbs_of_agrees ha hm)).resolve_left hne.symm
    obtain ⟨key, he⟩ := (ha.below root hg.root_mem a (hs.inside a hm).1).2 hclimbs
    obtain ⟨hkey, -, -⟩ := hs.entries root key a he
    exact hkey ▸ he
  intro a b hra hrb hab
  have hma := (hs.reaches_iff hdone).2 hra
  have hmb := (hs.reaches_iff hdone).2 hrb
  by_cases hna : a = root
  · rw [hna] at hab ⊢
    exact (hstart b hmb hab.symm).symm
  by_cases hnb : b = root
  · rw [hnb] at hab ⊢
    exact hstart a hma hab
  have hea := hentry a hma hna
  rw [hab] at hea
  exact Option.some.inj (Option.some.inj (hea.symm.trans (hentry b hmb hnb)))

/-! ## What stays in `immediatelyPostDominated` -/

/-- The blocks are recorded where they point to, and for those that are still to be visited nothing
is recorded in the current block. -/
structure Recorded (h : Heap P w) (s : PassState P w) : Prop where
  key : ∀ b key y, s.full.immediatelyPostDominated b key = some y →
    b ∈ s.visited ∧ key = (h y).startingAddress ∧ y ∈ s.met
  todo : ∀ t ∈ s.todo, s.full.immediatelyPostDominated s.current (h t).startingAddress = none
  pointer : ∀ b p, (s.heap b).postDominator = some p →
    s.full.immediatelyPostDominated p (h b).startingAddress = some b

variable [DecidableEq P]

/-- `immediatelyPostDominated` after a call for `t` in the block `c`, which makes `t` point to
`new`. -/
def Records (h : Heap P w) (s : PassState P w) (full : FullHeap P w) (t new : P) : Prop :=
  ∀ b key, full.immediatelyPostDominated b key =
    if b = new ∧ key = (h t).startingAddress then some t
    else if b = s.current ∧ key = (h t).startingAddress then none
    else s.full.immediatelyPostDominated b key

theorem Sane.records_attach (hs : Sane h root nodes s) {full : FullHeap P w}
    (ha : s.full.Attaches full s.current t) : Records h s full t s.current := by
  intro b key
  have hstart : (s.full.blocks t).startingAddress = (h t).startingAddress := hs.starting t
  rw [ha.immediate, FullHeap.addImmediatePostDominator, FullHeap.setImmediate, hstart]
  by_cases hb : b = s.current
  · subst hb
    by_cases hk : key = (h t).startingAddress
    · subst hk
      simp
    · simp [hk]
  · simp [hb]

theorem Sane.records_move (hs : Sane h root nodes s) {full : FullHeap P w} {competing new : P}
    (hm : s.full.Moves full s.current t competing new) : Records h s full t new := by
  intro b key
  have hstart : (s.full.blocks t).startingAddress = (h t).startingAddress := hs.starting t
  rw [hm.immediate, FullHeap.addImmediatePostDominator, FullHeap.setImmediate,
    FullHeap.setImmediate, hstart]
  by_cases hk : key = (h t).startingAddress
  · subst hk
    by_cases hb : b = new
    · subst hb
      simp
    · by_cases hc : b = s.current
      · subst hc
        simp [hb]
      · simp [hb, hc]
  · by_cases hb : b = new
    · subst hb
      by_cases hc : b = s.current
      · subst hc
        simp [hk]
      · simp [hk, hc]
    · by_cases hc : b = s.current
      · subst hc
        simp [hk, hb]
      · simp [hb, hc]

/-- What is recorded stays. -/
theorem Recorded.persists_records (hg : BlockGraph h root nodes) (hd : DistinctStarts h root)
    (hs : Sane h root nodes s) (hr : s.Recorded h) {todo : List P} {full : FullHeap P w} {new : P}
    (ht : s.todo = t :: todo) (hrec : Records h s full t new)
    (he : s.full.immediatelyPostDominated b key = some y) :
    full.immediatelyPostDominated b key = some y := by
  rw [hrec]
  obtain ⟨-, hkey, hy⟩ := hr.key b key y he
  split_ifs with hnew hcurrent
  · have hty : y = t := by
      refine hd y t (hs.inside y hy).2 (hs.target hg ht).2.2.2.1 ?_
      rw [← hkey, hnew.2]
    rw [hty]
  · rw [hcurrent.1, hcurrent.2, hr.todo t (by simp [ht])] at he
    cases he
  · exact he

/-- A call for `t` that makes it point to `new`. -/
theorem Recorded.call (hg : BlockGraph h root nodes) (hd : DistinctStarts h root)
    (hs : Sane h root nodes s) (hr : s.Recorded h) {todo queue : List P} {full : FullHeap P w}
    {new : P} (ht : s.todo = t :: todo) (hrec : Records h s full t new) (hnew : new ∈ s.visited)
    (hsource : (full.blocks t).postDominator = some new)
    (hothers : ∀ b, b ≠ t → (full.blocks b).postDominator = (s.heap b).postDominator)
    (hmet : ∀ b, b ∈ s.visited ++ queue ↔ b ∈ s.met ∨ b = t) :
    Recorded h { s with full, todo, queue } := by
  obtain ⟨-, -, -, hreach, -⟩ := hs.target hg ht
  refine ⟨fun b key y he => ?_, fun x hx => ?_, fun b p hp => ?_⟩
  · change full.immediatelyPostDominated b key = some y at he
    rw [hrec] at he
    split_ifs at he with hb hc
    · cases he
      exact ⟨hb.1 ▸ hnew, hb.2, (hmet t).2 (.inr rfl)⟩
    · obtain ⟨hbv, hkey, hy⟩ := hr.key b key y he
      exact ⟨hbv, hkey, (hmet y).2 (.inl hy)⟩
  · change full.immediatelyPostDominated s.current (h x).startingAddress = none
    obtain ⟨pre, hpre, -⟩ := hs.todo
    have hnodup := hg.nodup _ (hs.inside _ (mem_met_of_visited hs.current)).1
    rw [hpre, ht] at hnodup
    have hxt : x ≠ t := by
      rintro rfl
      exact (List.nodup_cons.1 (List.nodup_append.1 hnodup).2.1).1 hx
    have hxs : x ∈ s.todo := by
      rw [ht]
      exact List.mem_cons_of_mem _ hx
    have hxreach : Reaches h.Flows root x := by
      refine (hs.inside _ (mem_met_of_visited hs.current)).2.step ?_
      rw [Heap.Flows, hpre]
      exact List.mem_append_right _ hxs
    have hkey : (h x).startingAddress ≠ (h t).startingAddress :=
      fun he => hxt (hd x t hxreach hreach he)
    rw [hrec, if_neg fun hc => hkey hc.2, if_neg fun hc => hkey hc.2]
    exact hr.todo x hxs
  · change full.immediatelyPostDominated p (h b).startingAddress = some b
    by_cases hbt : b = t
    · subst hbt
      obtain rfl : new = p := Option.some.inj (hsource.symm.trans hp)
      rw [hrec, if_pos ⟨rfl, rfl⟩]
    · exact hr.persists_records hg hd hs ht hrec (hr.pointer b p ((hothers b hbt).symm.trans hp))

omit [DecidableEq P] in
theorem start_recorded (hg : BlockGraph h root nodes) : (start h root).Recorded h := by
  refine ⟨fun b key y he => ?_, fun t _ => rfl, fun b p hp => ?_⟩
  · cases he
  · rw [show ((start h root).heap b).postDominator = none from (hg.fresh b).1] at hp
    cases hp

/-- What a step does to the pointers and to `immediatelyPostDominated`. -/
theorem Sane.step_pointers (hg : BlockGraph h root nodes) (hs : Sane h root nodes s)
    (hstep : s.step depth = some s') :
    (∃ t todo full queue new, s.todo = t :: todo ∧ s' = { s with full, todo, queue } ∧
      s.heap.Climbs s.current new ∧ Records h s full t new ∧
      (full.blocks t).postDominator = some new ∧
      (∀ b, b ≠ t → (full.blocks b).postDominator = (s.heap b).postDominator) ∧
      (∀ b, b ∈ s.visited ++ queue ↔ b ∈ s.met ∨ b = t) ∧
      (t ∉ s.met → new = s.current)) ∨
    ∃ next queue, s.todo = [] ∧ s.queue = next :: queue ∧
      s' = ⟨s.full, next, (s.heap next).predecessors, queue, s.visited ++ [next]⟩ := by
  rcases step_cases hstep with ⟨t, todo, full, queue, ht, hadd, rfl⟩ | hnext
  · left
    rcases hs.call hg ht hadd with ⟨hmet, rfl, ha⟩ | ⟨hmet, rfl, competing, new, hm⟩
    · refine ⟨t, todo, full, _, s.current, ht, rfl, .refl, hs.records_attach ha, ha.source.1,
        fun b hb => (ha.others b hb).1, fun b => ?_, fun _ => rfl⟩
      rw [← List.append_assoc, List.mem_append, List.mem_singleton]
      rfl
    · refine ⟨t, todo, full, _, new, ht, rfl, hm.climbs, hs.records_move hm, hm.source.1,
        fun b hb => (hm.others b hb).1, fun b => ?_, fun hn => absurd hmet hn⟩
      exact ⟨.inl, fun hb => hb.elim id fun he => he ▸ hmet⟩
  · exact .inr hnext

theorem Recorded.step (hg : BlockGraph h root nodes) (hd : DistinctStarts h root)
    (hs : Sane h root nodes s) (hr : s.Recorded h) (hstep : s.step depth = some s') :
    s'.Recorded h ∧ ∀ b key y, s.full.immediatelyPostDominated b key = some y →
      s'.full.immediatelyPostDominated b key = some y := by
  rcases hs.step_pointers hg hstep with
    ⟨t, todo, full, queue, new, ht, rfl, hclimbs, hrec, hsource, hothers, hmet, -⟩ |
      ⟨next, queue, ht, hq, rfl⟩
  · exact ⟨hr.call hg hd hs ht hrec (hs.climbs hs.current hclimbs) hsource hothers hmet,
      fun b key y he => hr.persists_records hg hd hs ht hrec he⟩
  · refine ⟨⟨fun b key y he => ?_, fun t _ => ?_, hr.pointer⟩, fun _ _ _ => id⟩
    · obtain ⟨hb, hkey, hy⟩ := hr.key b key y he
      have hmet : (s.visited ++ [next]) ++ queue = s.met := by
        rw [met, hq]
        simp
      refine ⟨List.mem_append_left _ hb, hkey, ?_⟩
      change y ∈ (s.visited ++ [next]) ++ queue
      rw [hmet]
      exact hy
    · -- the next block has not been current
      have hnext : next ∉ s.visited := by
        intro hv
        have hnodup := hs.nodup
        rw [met, hq] at hnodup
        exact (List.nodup_append.1 hnodup).2.2 next hv next List.mem_cons_self rfl
      by_contra hn
      obtain ⟨y, hy⟩ := Option.ne_none_iff_exists'.1 hn
      exact hnext (hr.key next _ y hy).1

theorem Recorded.steps (hg : BlockGraph h root nodes) (hd : DistinctStarts h root)
    (hs : Sane h root nodes s) (hr : s.Recorded h) (hsteps : Steps depth s s') :
    s'.Recorded h ∧ ∀ b key y, s.full.immediatelyPostDominated b key = some y →
      s'.full.immediatelyPostDominated b key = some y := by
  induction hsteps with
  | refl => exact ⟨hr, fun _ _ _ => id⟩
  | tail hfirst hstep ih =>
    obtain ⟨hr', hkeep⟩ := ih
    obtain ⟨hr'', hkeep'⟩ := hr'.step hg hd (hs.steps hg hfirst) hstep
    exact ⟨hr'', fun b key y he => hkeep' b key y (hkeep b key y he)⟩

/-! ## Where the representations agree, no block has moved -/

/-- Of the edges visited: their source points, in the end, to a block that the target leads up to; and
a block that has been met has an edge to what it points to in the end. -/
structure Unmoved (h : Heap P w) (root : P) (s f : PassState P w) : Prop where
  edge : ∀ b ∈ s.visited, ∀ a, h.Flows a b → (b = s.current → a ∉ s.todo) →
    ∃ p, (f.heap a).postDominator = some p ∧ f.heap.Climbs b p
  parent : ∀ b ∈ s.met, b ≠ root → ∃ p, (f.heap b).postDominator = some p ∧ h.Flows b p

omit [DecidableEq P] in
/-- What a block points to at some time it points to in the end. -/
theorem Recorded.final (hr : s.Recorded h) (hs : Sane h root nodes s)
    (hkeep : ∀ b key y, s.full.immediatelyPostDominated b key = some y →
      f.full.immediatelyPostDominated b key = some y)
    (ha : f.full.Agrees nodes) (hp : (s.heap a).postDominator = some b) :
    (f.heap a).postDominator = some b := by
  obtain ⟨ham, -, hb⟩ := hs.pointer_mem hp
  exact (ha.immediate b (hs.inside b (mem_met_of_visited hb)).1 a (hs.inside a ham).1).1
    ⟨_, hkeep b _ a (hr.pointer a b hp)⟩

theorem Unmoved.step (hg : BlockGraph h root nodes) (hs : Sane h root nodes s)
    (hu : Unmoved h root s f) (hstep : s.step depth = some s')
    (hfinal : ∀ a b, (s.heap a).postDominator = some b → (f.heap a).postDominator = some b)
    (hfinal' : ∀ a b, (s'.heap a).postDominator = some b → (f.heap a).postDominator = some b) :
    Unmoved h root s' f := by
  rcases hs.step_pointers hg hstep with
    ⟨t, todo, full, queue, new, ht, rfl, hclimbs, -, hsource, -, hmet, hnew⟩ |
      ⟨next, queue, ht, hq, rfl⟩
  · obtain ⟨hflow, -, -, -, -⟩ := hs.target hg ht
    have hpt : (f.heap t).postDominator = some new := hfinal' t new hsource
    refine ⟨fun b hb a hab htodo => ?_, fun b hb hbr => ?_⟩
    · by_cases hat : b = s.current ∧ a = t
      · obtain ⟨rfl, rfl⟩ := hat
        exact ⟨new, hpt, ReflTransGen.mono (fun a b he => hfinal a b he) _ _ hclimbs⟩
      · refine hu.edge b hb a hab fun hbc hin => ?_
        rw [ht] at hin
        rcases List.mem_cons.1 hin with rfl | hin
        · exact hat ⟨hbc, rfl⟩
        · exact htodo hbc hin
    · rcases (hmet b).1 hb with hb | rfl
      · exact hu.parent b hb hbr
      · by_cases hbm : b ∈ s.met
        · exact hu.parent b hbm hbr
        · exact ⟨new, hpt, hnew hbm ▸ hflow⟩
  · refine ⟨fun b hb a hab htodo => ?_, fun b hb hbr => ?_⟩
    · rcases List.mem_append.1 hb with hb | hb
      · refine hu.edge b hb a hab fun _ hin => ?_
        rw [ht] at hin
        cases hin
      · refine absurd ?_ (htodo (List.mem_singleton.1 hb))
        change a ∈ (s.heap next).predecessors
        rw [hs.predecessors, ← List.mem_singleton.1 hb]
        exact hab
    · refine hu.parent b ?_ hbr
      rw [met, hq]
      change b ∈ (s.visited ++ [next]) ++ queue at hb
      simpa using hb

theorem Sane.unmoved (hg : BlockGraph h root nodes) (hd : DistinctStarts h root)
    (hs : Sane h root nodes s) (hr : s.Recorded h) (hu : Unmoved h root s f)
    (hsteps : Steps depth s f) (ha : f.full.Agrees nodes) : Unmoved h root f f := by
  induction hsteps using ReflTransGen.head_induction_on with
  | refl => exact hu
  | @head s s₁ hstep hrest ih =>
    have hs₁ := hs.step hg hstep
    obtain ⟨hr₁, hkeep⟩ := hr.step hg hd hs hstep
    obtain ⟨-, hkeep₁⟩ := hr₁.steps hg hd hs₁ hrest
    refine ih hs₁ hr₁ (hu.step hg hs hstep (fun a b hp => ?_) fun a b hp => ?_)
    · exact hr.final hs (fun b key y he => hkeep₁ b key y (hkeep b key y he)) ha hp
    · exact hr₁.final hs₁ hkeep₁ ha hp

omit [DecidableEq P] in
/-- What every target leads up to is on every path. -/
theorem mem_path (htop : (f.heap root).postDominator = none)
    (hedge : ∀ a b, h.Flows a b → Reaches h.Flows root b →
      ∃ p, (f.heap a).postDominator = some p ∧ f.heap.Climbs b p)
    {path : List P} (hpath : Path h.Flows root a path) (hc : f.heap.Climbs a b) : b ∈ path := by
  induction hpath with
  | exit =>
    rw [hc.eq_of_top htop]
    exact List.mem_singleton_self root
  | @cons a c path hac hpath ih =>
    obtain ⟨p, hp, hcp⟩ := hedge a c hac ⟨path, hpath⟩
    rcases hc.cases hp with rfl | hpb
    · exact List.mem_cons_self
    · exact List.mem_cons_of_mem _ (ih (hcp.trans hpb))

theorem Sane.edgeToImmediate (hs : Sane h root nodes f) (hr : f.Ranked) (hdone : f.Done)
    (hu : Unmoved h root f f) : EdgeToImmediate h root := by
  have hedge : ∀ a b, h.Flows a b → Reaches h.Flows root b →
      ∃ p, (f.heap a).postDominator = some p ∧ f.heap.Climbs b p := by
    intro a b hab hb
    have hv : b ∈ f.visited := by
      have hm := (hs.reaches_iff hdone).2 hb
      rw [met, hdone.2, List.append_nil] at hm
      exact hm
    refine hu.edge b hv a hab fun _ hin => ?_
    rw [hdone.1] at hin
    cases hin
  intro b hb hbr
  obtain ⟨p, hp, hbp⟩ := hu.parent b ((hs.reaches_iff hdone).2 hb) hbr
  have hne : p ≠ b := by
    rintro rfl
    exact Nat.lt_irrefl _ (hr.pointer p p hp)
  have hmem : ∀ path, Path h.Flows root b path → p ∈ path := fun path hpath =>
    mem_path hs.root_top hedge hpath (.single hp)
  refine ⟨p, hbp, ⟨⟨hne, hmem⟩, fun d hd path hpath => ?_⟩⟩
  rcases List.mem_cons.1 (hd.2 _ (.cons hbp hpath)) with he | hin
  · exact absurd he hd.1
  · exact hin

/-! ## Where no block has to move -/

/-- The representations are those of the post-dominator tree, of the blocks met so far. -/
structure Exact (h : Heap P w) (root : P) (s : PassState P w) : Prop where
  pointer : ∀ b p, (s.heap b).postDominator = some p → Immediate h.Flows root p b
  entry : ∀ b, ∀ y ∈ s.met, s.heap.Entry b (h y).startingAddress y ↔ Strict h.Flows root b y
  immediate : ∀ b key y, s.full.immediatelyPostDominated b key = some y ↔
    key = (h y).startingAddress ∧ (s.heap y).postDominator = some b

omit [DecidableEq P] in
theorem start_exact (hg : BlockGraph h root nodes) : (start h root).Exact h root := by
  refine ⟨fun b p hp => ?_, fun b y hy => ?_, fun b key y => ?_⟩
  · rw [show ((start h root).heap b).postDominator = none from (hg.fresh b).1] at hp
    cases hp
  · obtain rfl := List.mem_singleton.1 hy
    refine iff_of_false (fun he => ?_) not_strict_exit
    change (h b).postDominated _ = _ at he
    rw [(hg.fresh b).2.2] at he
    cases he
  · refine iff_of_false (fun he => by cases he) fun hp => ?_
    rw [show ((start h root).heap y).postDominator = none from (hg.fresh y).1] at hp
    cases hp.2

/-- The blocks above a block are its post-dominators. -/
theorem Exact.climbs_iff (hx : s.Exact h root) (hs : Sane h root nodes s) (hr : s.Ranked)
    (hb : b ∈ s.met) : s.heap.Climbs b a ↔ PostDominates h.Flows root a b := by
  constructor
  · intro hc
    induction hc using ReflTransGen.head_induction_on with
    | refl => exact .refl
    | @head b p hp hpa ih =>
      obtain ⟨-, -, hv⟩ := hs.pointer_mem hp
      exact ((hx.pointer b p hp).postDominates_iff (hs.inside b hb).2).2
        (.inr (ih (mem_met_of_visited hv)))
  · intro hpd
    have hclimbs := hs.climbs_root hr hb
    induction hclimbs using ReflTransGen.head_induction_on with
    | refl => exact postDominates_exit_iff.1 hpd ▸ .refl
    | @head b p hp hpa ih =>
      obtain ⟨-, -, hv⟩ := hs.pointer_mem hp
      rcases ((hx.pointer b p hp).postDominates_iff (hs.inside b hb).2).1 hpd with rfl | hpd
      · exact .refl
      · exact ReflTransGen.head hp (ih (mem_met_of_visited hv) hpd)

/-- The immediate post-dominator of a source is above the target. -/
theorem Exact.climbs_immediate (hx : s.Exact h root) (hs : Sane h root nodes s) (hr : s.Ranked)
    (hb : b ∈ s.met) (htb : h.Flows t b) (hp : Immediate h.Flows root a t) : s.heap.Climbs b a := by
  refine (hx.climbs_iff hs hr hb).2 fun path hpath => ?_
  rcases List.mem_cons.1 (hp.strict.2 _ (.cons htb hpath)) with he | hin
  · exact absurd he hp.strict.1
  · exact hin

/-- A new block is attached to its immediate post-dominator. -/
theorem Exact.current_immediate (hg : BlockGraph h root nodes) (hedge : EdgeToImmediate h root)
    (hx : s.Exact h root) (hs : Sane h root nodes s) (hr : s.Ranked) {todo : List P}
    (ht : s.todo = t :: todo) (hmet : t ∉ s.met) : Immediate h.Flows root s.current t := by
  obtain ⟨hflow, -, hne, hreach, -⟩ := hs.target hg ht
  obtain ⟨p, hp, himm⟩ := hedge t hreach hne
  have hclimbs := hx.climbs_immediate hs hr (mem_met_of_visited hs.current) hflow himm
  by_cases hpc : p = s.current
  · exact hpc ▸ himm
  · -- all the predecessors of `p` have been met
    exact absurd (hs.processed p (hs.climbs hs.current hclimbs) hpc t hp) hmet

theorem Exact.attach (hg : BlockGraph h root nodes) (hd : DistinctStarts h root)
    (hedge : EdgeToImmediate h root) (hx : s.Exact h root) (hs : Sane h root nodes s)
    (hr : s.Ranked) {todo : List P} {full : FullHeap P w} (ht : s.todo = t :: todo)
    (hmet : t ∉ s.met) (ha : s.full.Attaches full s.current t) :
    Exact h root { s with full, todo, queue := s.queue ++ [t] } := by
  obtain ⟨hflow, -, hne, hreach, -⟩ := hs.target hg ht
  have himm := hx.current_immediate hg hedge hs hr ht hmet
  have hup : ∀ b, full.blocks.Climbs s.current b ↔ Strict h.Flows root b t := by
    intro b
    rw [himm.strict_iff hreach, ← hx.climbs_iff hs hr (mem_met_of_visited hs.current)]
    refine ⟨fun hc => (hs.climbs_attached ha hmet hc).2, fun hc => ?_⟩
    induction hc with
    | refl => exact .refl
    | @tail c d hc hcd ih =>
      have hct : c ≠ t := fun he => hmet (he ▸ mem_met_of_visited (hs.climbs hs.current hc))
      exact ih.tail ((ha.others c hct).1.trans hcd)
  have hstart : (s.full.blocks t).startingAddress = (h t).startingAddress := hs.starting t
  refine ⟨fun b p hp => ?_, fun b y hy => ?_, fun b key y => ?_⟩
  · by_cases hbt : b = t
    · subst hbt
      exact Option.some.inj (ha.source.1.symm.trans hp) ▸ himm
    · exact hx.pointer b p ((ha.others b hbt).1.symm.trans hp)
  · change (full.blocks b).postDominated (h y).startingAddress = some (some y) ↔ _
    have hmem : y ∈ s.met ∨ y = t := by
      change y ∈ s.visited ++ (s.queue ++ [t]) at hy
      rwa [← List.append_assoc, List.mem_append, List.mem_singleton] at hy
    by_cases hbt : full.blocks.Climbs s.current b
    · rw [ha.passed b hbt, hstart]
      rcases hmem with hy | rfl
      · have hkey : (h y).startingAddress ≠ (h t).startingAddress :=
          fun he => hmet (hd y t (hs.inside y hy).2 hreach he ▸ hy)
        rw [Function.update_of_ne hkey]
        exact hx.entry b y hy
      · rw [Function.update_self]
        exact iff_of_true rfl ((hup b).1 hbt)
    · rw [ha.kept b hbt]
      rcases hmem with hy | rfl
      · exact hx.entry b y hy
      · refine iff_of_false (fun he => ?_) fun hst => hbt ((hup b).2 hst)
        exact hmet (hs.entries b _ y he).2.1
  · change full.immediatelyPostDominated b key = some y ↔
      key = (h y).startingAddress ∧ (full.blocks y).postDominator = some b
    rw [hs.records_attach ha b key]
    split_ifs with hnew
    · obtain ⟨rfl, rfl⟩ := hnew
      constructor
      · rintro h
        obtain rfl := Option.some.inj h
        exact ⟨rfl, ha.source.1⟩
      · rintro ⟨hkey, hp⟩
        by_cases hyt : y = t
        · rw [hyt]
        · rw [(ha.others y hyt).1] at hp
          have hy := (hs.pointer_mem hp).1
          exact absurd (hd y t (hs.inside y hy).2 hreach hkey.symm) hyt
    · rw [hx.immediate b key y]
      refine and_congr_right fun hkey => ?_
      by_cases hyt : y = t
      · subst hyt
        rw [ha.source.1]
        refine iff_of_false (fun hp => hmet (hs.pointer_mem hp).1) fun hp => ?_
        exact hnew ⟨(Option.some.inj hp).symm, hkey⟩
      · rw [(ha.others y hyt).1]
        rfl

/-- A block that has its post-dominator keeps it. -/
theorem Exact.stays (hg : BlockGraph h root nodes) (hd : DistinctStarts h root)
    (hx : s.Exact h root) (hs : Sane h root nodes s) (hr : s.Ranked) {todo : List P}
    {full : FullHeap P w} {competing new : P} (ht : s.todo = t :: todo) (hmet : t ∈ s.met)
    (hm : s.full.Moves full s.current t competing new) : new = competing := by
  obtain ⟨hflow, -, -, hreach, -⟩ := hs.target hg ht
  have hcurrent := mem_met_of_visited hs.current
  have himm := hx.pointer t competing hm.pointer
  have hstart : (s.full.blocks t).startingAddress = (h t).startingAddress := hs.starting t
  have hclimbs := hx.climbs_immediate hs hr hcurrent hflow himm
  have hbelow : s.heap.Climbs new competing := by
    by_contra hn
    refine hm.first competing hclimbs hn t ?_
    rw [hstart]
    exact (hx.entry competing t hmet).2 himm.strict
  rcases hm.stop with h2 | ⟨y, he⟩
  · exact (hbelow.eq_of_top (hs.top hg h2)).symm
  · have hnew := mem_met_of_visited (hs.climbs hs.current hm.climbs)
    obtain ⟨hkey, hy, -⟩ := hs.entries new _ y he
    obtain rfl : y = t := hd y t (hs.inside y hy).2 hreach (hkey.symm.trans hstart)
    rw [hstart] at he
    refine PostDominates.antisymm ?_ ((hx.climbs_iff hs hr hnew).1 hbelow) ?_
    · exact himm.least new ((hx.entry new y hmet).1 he)
    · exact himm.strict.reaches hreach

theorem Exact.move (hg : BlockGraph h root nodes) (hd : DistinctStarts h root)
    (hx : s.Exact h root) (hs : Sane h root nodes s) (hr : s.Ranked) {todo : List P}
    {full : FullHeap P w} {competing new : P} (ht : s.todo = t :: todo) (hmet : t ∈ s.met)
    (hm : s.full.Moves full s.current t competing new) : Exact h root { s with full, todo } := by
  obtain ⟨-, -, -, hreach, -⟩ := hs.target hg ht
  obtain rfl := hx.stays hg hd hs hr ht hmet hm
  have hpointer : ∀ b, (full.blocks b).postDominator = (s.heap b).postDominator := by
    intro b
    by_cases hbt : b = t
    · subst hbt
      exact hm.source.1.trans hm.pointer.symm
    · exact (hm.others b hbt).1
  refine ⟨fun b p hp => hx.pointer b p ((hpointer b).symm.trans hp), fun b y hy => ?_,
    fun b key y => ?_⟩
  · refine ⟨fun he => (hx.entry b y hy).1 (hm.entries b _ y he), fun hst => ?_⟩
    exact hm.kept rfl b _ y ((hx.entry b y hy).2 hst)
  · change full.immediatelyPostDominated b key = some y ↔
      key = (h y).startingAddress ∧ (full.blocks y).postDominator = some b
    have hone : ∀ y c, (h t).startingAddress = (h y).startingAddress →
        (s.heap y).postDominator = some c → y = t := fun y c hkey hp =>
      hd y t (hs.inside y (hs.pointer_mem hp).1).2 hreach hkey.symm
    rw [hs.records_move hm b key, hpointer]
    split_ifs with hnew hcurrent
    · obtain ⟨rfl, rfl⟩ := hnew
      constructor
      · rintro h
        obtain rfl := Option.some.inj h
        exact ⟨rfl, hm.pointer⟩
      · rintro ⟨hkey, hp⟩
        rw [hone y _ hkey hp]
    · obtain ⟨rfl, rfl⟩ := hcurrent
      refine iff_of_false (fun he => by cases he) fun hp => hnew ⟨?_, rfl⟩
      rw [hone y _ hp.1 hp.2] at hp
      exact Option.some.inj (hp.2.symm.trans hm.pointer)
    · exact hx.immediate b key y

theorem Exact.step (hg : BlockGraph h root nodes) (hd : DistinctStarts h root)
    (hedge : EdgeToImmediate h root) (hx : s.Exact h root) (hs : Sane h root nodes s)
    (hr : s.Ranked) (hstep : s.step depth = some s') : s'.Exact h root := by
  rcases step_cases hstep with ⟨t, todo, full, queue, ht, hadd, rfl⟩ | ⟨next, queue, ht, hq, rfl⟩
  · rcases hs.call hg ht hadd with ⟨hmet, rfl, ha⟩ | ⟨hmet, rfl, competing, new, hm⟩
    · exact hx.attach hg hd hedge hs hr ht hmet ha
    · exact hx.move hg hd hs hr ht hmet hm
  · refine ⟨hx.pointer, fun b y hy => hx.entry b y ?_, hx.immediate⟩
    rw [met, hq]
    change y ∈ (s.visited ++ [next]) ++ queue at hy
    simpa using hy

theorem Exact.steps (hg : BlockGraph h root nodes) (hd : DistinctStarts h root)
    (hedge : EdgeToImmediate h root) (hx : s.Exact h root) (hs : Sane h root nodes s)
    (hr : s.Ranked) (hsteps : Steps depth s s') : s'.Exact h root := by
  induction hsteps with
  | refl => exact hx
  | tail hfirst hstep ih =>
    exact ih.step hg hd hedge (hs.steps hg hfirst) (hr.steps hg hd hs hfirst) hstep

omit [DecidableEq P] in
theorem Exact.agrees [DecidableEq P] (hx : s.Exact h root) (hs : Sane h root nodes s)
    (hr : s.Ranked) : s.full.Agrees nodes := by
  refine ⟨fun X _ Y _ => ?_, fun X _ Y _ => ⟨?_, fun hc => ?_⟩⟩
  · constructor
    · rintro ⟨key, he⟩
      exact ((hx.immediate X key Y).1 he).2
    · exact fun hp => ⟨_, (hx.immediate X _ Y).2 ⟨rfl, hp⟩⟩
  · rintro ⟨key, he⟩
    obtain ⟨hkey, hY, -⟩ := hs.entries X key Y he
    rw [hkey] at he
    have hst := (hx.entry X Y hY).1 he
    have hclimbs := (hx.climbs_iff hs hr hY).2 hst.2
    exact (reflTransGen_iff_eq_or_transGen.1 hclimbs).resolve_left hst.1
  · obtain ⟨p, hp, hpX⟩ := TransGen.head'_iff.1 hc
    have hY := (hs.pointer_mem hp).1
    refine ⟨_, (hx.entry X Y hY).2 ⟨?_, (hx.climbs_iff hs hr hY).1 hc.to_reflTransGen⟩⟩
    rintro rfl
    exact absurd (hr.climbs hpX) (Nat.not_le.2 (hr.pointer _ _ hp))

/-! ## Exactly when -/

/-- Where the pass returns, the representations agree exactly if no block had to move and no two
blocks have the same starting address; in that case it does return. -/
theorem agrees_iff (hg : BlockGraph h root nodes) :
    (∀ depth fuel f, FullHeap.buildPostDominanceTree depth fuel ⟨h, fun _ _ => none⟩ root [] =
      some f → (f.Agrees nodes ↔ DistinctStarts h root ∧ EdgeToImmediate h root)) ∧
    (DistinctStarts h root → ∃ depth fuel f,
      FullHeap.buildPostDominanceTree depth fuel ⟨h, fun _ _ => none⟩ root [] = some f) := by
  have hstart := start_sane hg
  have hranked := start_ranked hg
  refine ⟨fun depth fuel f hbuild => ?_, fun hd => ?_⟩
  · obtain ⟨s, hsteps, hdone, rfl⟩ := steps_of_build [root] hbuild
    have hs := hstart.steps hg hsteps
    constructor
    · intro ha
      have hd := hs.distinctStarts hg hdone ha
      have hu : Unmoved h root (start h root) s := by
        refine ⟨fun b hb a hab htodo => ?_, fun b hb hbr => ?_⟩
        · exact absurd (List.mem_singleton.1 hb ▸ hab) (htodo (List.mem_singleton.1 hb))
        · exact absurd (List.mem_singleton.1 hb) hbr
      exact ⟨hd, hs.edgeToImmediate (hranked.steps hg hd hstart hsteps) hdone
        (hstart.unmoved hg hd (start_recorded hg) hu hsteps ha)⟩
    · rintro ⟨hd, hedge⟩
      exact ((start_exact hg).steps hg hd hedge hstart hranked hsteps).agrees hs
        (hranked.steps hg hd hstart hsteps)
  · obtain ⟨s, hsteps, hdone⟩ := hstart.ends hg hd hranked (Nat.le_refl _)
    refine ⟨nodes.card, s.visited.length + 1, s.full, ?_⟩
    exact build_of_steps hsteps hdone (Nat.le_add_left _ _)

theorem agrees_iff_diamond :
    (∀ depth fuel f, FullHeap.buildPostDominanceTree depth fuel ⟨Heap.diamond, fun _ _ => none⟩
      .root [] = some f → (f.Agrees {.root, .left, .right, .top} ↔
        DistinctStarts Heap.diamond .root ∧ EdgeToImmediate Heap.diamond .root)) ∧
    (DistinctStarts Heap.diamond .root → ∃ depth fuel f,
      FullHeap.buildPostDominanceTree depth fuel ⟨Heap.diamond, fun _ _ => none⟩ .root [] =
        some f) :=
  agrees_iff diamond_blockGraph

/-- The block `top` moves to the return block, and stays recorded in the first of the two blocks
between. -/
theorem diamond_disagrees :
    ∃ f, FullHeap.buildPostDominanceTree 4 4 ⟨Heap.diamond, fun _ _ => none⟩ .root [] = some f ∧
      (f.blocks .top).postDominator = some .root ∧
      (∃ key, f.immediatelyPostDominated .left key = some .top) ∧
      ¬ f.Agrees {.root, .left, .right, .top} := by
  refine ⟨_, rfl, rfl, ⟨0x10, rfl⟩, fun ha => ?_⟩
  have htop := (ha.immediate .left (by decide) .top (by decide)).1 ⟨0x10, rfl⟩
  exact absurd htop (by decide)

end PassState

end Dytan
