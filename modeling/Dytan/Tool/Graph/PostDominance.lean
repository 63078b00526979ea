import Dytan.Tool.Graph.BasicBlock
import Dytan.Lib.PostDom

/-!
# What the post-dominance tree holds

`Tree h root nodes E`: the blocks hold the post-dominators of the edges `E` seen so far. The
pointers are the immediate post-dominators (`Pointers`), and `postDominated` has an entry for
exactly the blocks that are strictly post-dominated, besides `NULL` entries, which only blocks have
that lead to this one without passing its post-dominators (`null`).

The three walks along the pointers are described by `getCommonPostDominator_spec`,
`passDownPostDominanceInfo_spec` and `deleteDownPostDominanceInfo_spec`. With them
`addPredecessorAsPostDominated` keeps `Tree` for one more edge that is `Stable`
(`addPredecessorAsPostDominated_tree`).
-/

namespace Dytan

open Lib.PostDom

namespace Heap

variable {P : Type} {w : Nat}

/-- The pointers are the immediate post-dominators. -/
structure Pointers (h : Heap P w) (root : P) (nodes : Finset P) (E : P → P → Prop) : Prop where
  root_mem : root ∈ nodes
  root_start : (h root).startingAddress = 2
  starts : ∀ a ∈ nodes, ∀ b ∈ nodes, (h a).startingAddress = (h b).startingAddress → a = b
  inside : ∀ a b, E a b → a ∈ nodes ∧ a ≠ root ∧ Reaches E root b
  found : ∀ b, Reaches E root b → b ≠ root →
    ∃ p, (h b).postDominator = some p ∧ Immediate E root p b

/-- The blocks hold the post-dominators of `E`. -/
structure Tree (h : Heap P w) (root : P) (nodes : Finset P) (E : P → P → Prop) : Prop
    extends Pointers h root nodes E where
  marked : ∀ b, Reaches E root b → b ≠ root → (h b).isPostDominated = true
  fresh : ∀ b ∈ nodes, ¬ Reaches E root b → (h b).postDominator = none ∧
    (h b).isPostDominated = false ∧ (h b).postDominated = fun _ => none
  below : ∀ b y, Reaches E root y → Strict E root b y →
    (h b).postDominated (h y).startingAddress = some (some y)
  entry : ∀ b ∈ nodes, ∀ a y, (h b).postDominated a = some (some y) →
    Reaches E root y ∧ a = (h y).startingAddress ∧ Strict E root b y
  null : ∀ b ∈ nodes, ∀ a, (h b).postDominated a = some none → ∃ y, Reaches E root y ∧
    a = (h y).startingAddress ∧ ∀ q, Strict E root q b → q ≠ y → Avoids E q b y

variable {h h' : Heap P w} {root this t s b c new : P} {nodes : Finset P} {E : P → P → Prop}
  {fuel : Nat}

/-! ## Pointers -/

theorem Pointers.mem (hp : Pointers h root nodes E) (hb : Reaches E root b) : b ∈ nodes := by
  rcases hb.cases with rfl | ⟨c, he, -⟩
  · exact hp.root_mem
  · exact (hp.inside b c he).1

theorem Pointers.congr (hp : Pointers h root nodes E)
    (hs : ∀ b, (h' b).startingAddress = (h b).startingAddress)
    (hd : ∀ b, Reaches E root b → (h' b).postDominator = (h b).postDominator) :
    Pointers h' root nodes E := by
  refine ⟨hp.root_mem, by rw [hs, hp.root_start], fun a ha b hb hab => ?_, hp.inside,
    fun b hb hne => ?_⟩
  · rw [hs, hs] at hab
    exact hp.starts a ha b hb hab
  · rw [hd b hb]
    exact hp.found b hb hne

theorem Pointers.start_iff (hp : Pointers h root nodes E) (hb : Reaches E root b)
    (hc : Reaches E root c) : (h b).startingAddress = (h c).startingAddress ↔ b = c := by
  constructor
  · exact hp.starts b (hp.mem hb) c (hp.mem hc)
  · intro he
    rw [he]

theorem Pointers.start_two (hp : Pointers h root nodes E) (hb : Reaches E root b) :
    (h b).startingAddress = 2 ↔ b = root := by
  rw [← hp.root_start]
  exact hp.start_iff hb .refl

/-! ## One more edge -/

/-- An entry of a block, `NULL` or not, is of a block that leads to it without passing its strict
post-dominators. -/
theorem Tree.key (ht : Tree h root nodes E) {a : ADDRINT w} (hb : Reaches E root b)
    (ha : ((h b).postDominated a).isSome) : ∃ y, Reaches E root y ∧ a = (h y).startingAddress ∧
      ∀ q, Strict E root q b → q ≠ y → Avoids E q b y := by
  obtain ⟨entry, he⟩ := Option.isSome_iff_exists.1 ha
  cases entry with
  | none => exact ht.null b (ht.mem hb) a he
  | some y =>
    obtain ⟨hy, hay, hst⟩ := ht.entry b (ht.mem hb) a y he
    exact ⟨y, hy, hay, fun q hq _ => hq.avoids_before hst hb hy⟩

/-- A block whose post-dominator moves to `new`. The blocks that post-dominated it and no longer do
lose its entry and those of all the blocks it has entries for. -/
structure Moved (h h' : Heap P w) (root s t new : P) (E : P → P → Prop) : Prop where
  start : ∀ b, (h' b).startingAddress = (h b).startingAddress
  preds : ∀ b, (h' b).predecessors = (h b).predecessors
  pointer_source : (h' t).postDominator = some new
  pointer : ∀ b, b ≠ t → (h' b).postDominator = (h b).postDominator
  marked : ∀ b, (h' b).isPostDominated = (h b).isPostDominated
  kept : ∀ b, (Strict E root b t ↔ PostDominates E root b s) →
    (h' b).postDominated = (h b).postDominated
  erased : ∀ b, Strict E root b t → ¬ PostDominates E root b s → ∀ a, (h' b).postDominated a =
    if a = (h t).startingAddress ∨ ((h t).postDominated a).isSome then none
    else (h b).postDominated a
  null : ∀ b, ¬ Strict E root b t → PostDominates E root b s → (h' b).postDominated =
    Function.update (h b).postDominated (h t).startingAddress (some none)

/-- A block whose post-dominator is now `s`. -/
structure Added (h h' : Heap P w) (root s t : P) (E : P → P → Prop) : Prop where
  source : h' t = (h t).setPostDominator s
  passed : ∀ b, PostDominates E root b s →
    h' b = (h b).setEntry (h t).startingAddress (some t)
  kept : ∀ b, ¬ PostDominates E root b s → b ≠ t → h' b = h b

theorem Added.start (hm : Added h h' root s t E) (b : P) :
    (h' b).startingAddress = (h b).startingAddress := by
  by_cases hbs : PostDominates E root b s
  · rw [hm.passed b hbs]; rfl
  by_cases hbt : b = t
  · rw [hbt, hm.source]; rfl
  · rw [hm.kept b hbs hbt]

/-- The fields of a block other than `t`. -/
theorem Added.field {α : Type} (hm : Added h h' root s t E) (field : BasicBlock P w → α)
    (hf : ∀ block entry, field (block.setEntry (h t).startingAddress entry) = field block)
    (hbt : b ≠ t) : field (h' b) = field (h b) := by
  by_cases hbs : PostDominates E root b s
  · rw [hm.passed b hbs, hf]
  · rw [hm.kept b hbs hbt]

section
variable (ht : Tree h root nodes E)
include ht

theorem Tree.reaches_addEdge_iff (hs : Reaches E root s) :
    Reaches (addEdge E t s) root b ↔ Reaches E root b ∨ b = t :=
  Lib.PostDom.reaches_addEdge_iff (fun a b he => (ht.inside a b he).2.2) hs

theorem Tree.inside_addEdge (hs : Reaches E root s) (htn : t ∈ nodes) (hne : t ≠ root) (a b : P)
    (he : addEdge E t s a b) : a ∈ nodes ∧ a ≠ root ∧ Reaches (addEdge E t s) root b := by
  have hmono : ∀ a b, E a b → addEdge E t s a b := fun _ _ h => .inl h
  rcases he with he | ⟨rfl, rfl⟩
  · obtain ⟨ha, hr, hb⟩ := ht.inside a b he
    exact ⟨ha, hr, hb.mono hmono⟩
  · exact ⟨htn, hne, hs.mono hmono⟩

/-- The tree with a new block. -/
theorem Added.tree (hs : Reaches E root s) (htn : t ∈ nodes) (hne : t ≠ root)
    (hnew : ¬ Reaches E root t) (hm : Added h h' root s t E) :
    Tree h' root nodes (addEdge E t s) := by
  have hmono : ∀ a b, E a b → addEdge E t s a b := fun _ _ h => .inl h
  have hE : ∀ a, ¬ E a t := fun a he => hnew (ht.inside a t he).2.2
  have hold : ∀ {b}, Reaches E root b → b ≠ t := fun hb he => hnew (he ▸ hb)
  have hkey : ∀ {y}, Reaches E root y → (h y).startingAddress ≠ (h t).startingAddress :=
    fun hy hc => hold hy (ht.starts _ (ht.mem hy) t htn hc)
  have hstart := hm.start
  refine ⟨⟨ht.root_mem, by rw [hstart, ht.root_start], fun a ha b hb hab => ?_,
    ht.inside_addEdge hs htn hne, fun b hb hbr => ?_⟩, fun b hb hbr => ?_,
    fun b hb hnb => ?_, fun b y hy hby => ?_, fun b hb a y hy => ?_, fun b hb a hnull => ?_⟩
  · rw [hstart, hstart] at hab
    exact ht.starts a ha b hb hab
  · rcases (ht.reaches_addEdge_iff hs).1 hb with hb | rfl
    · obtain ⟨p, hp, him⟩ := ht.found b hb hbr
      refine ⟨p, ?_, him.addEdge_of_new hE (hold hb) (hold (him.strict.reaches hb))⟩
      rw [hm.field BasicBlock.postDominator (fun _ _ => rfl) (hold hb), hp]
    · exact ⟨s, by rw [hm.source]; rfl, .addEdge_new hE hnew hs⟩
  · rcases (ht.reaches_addEdge_iff hs).1 hb with hb | rfl
    · rw [hm.field BasicBlock.isPostDominated (fun _ _ => rfl) (hold hb)]
      exact ht.marked b hb hbr
    · rw [hm.source]; rfl
  · rw [ht.reaches_addEdge_iff hs, not_or] at hnb
    rw [hm.kept b (fun hc => hnb.1 (hc.reaches hs)) hnb.2]
    exact ht.fresh b hb hnb.1
  · rw [hstart]
    rcases (ht.reaches_addEdge_iff hs).1 hy with hy | rfl
    · have hby := (strict_addEdge_new hE (hold hy)).1 hby
      have hb := ht.below b y hy hby
      by_cases hbs : PostDominates E root b s
      · rw [hm.passed b hbs, BasicBlock.setEntry]
        simp only [Function.update_of_ne (hkey hy), hb]
      · rw [hm.kept b hbs (hold (hby.reaches hy)), hb]
    · rw [hm.passed b (strict_addEdge_source.1 hby).2, BasicBlock.setEntry]
      simp only [Function.update_self]
  · by_cases hbt : b = t
    · rw [hbt, hm.source, BasicBlock.setPostDominator, (ht.fresh t htn hnew).2.2] at hy
      cases hy
    have hlift : (h b).postDominated a = some (some y) → Reaches (addEdge E t s) root y ∧
        a = (h' y).startingAddress ∧ Strict (addEdge E t s) root b y := by
      intro hy
      obtain ⟨hry, hay, hby⟩ := ht.entry b hb a y hy
      exact ⟨hry.mono hmono, by rw [hstart, hay], (strict_addEdge_new hE (hold hry)).2 hby⟩
    by_cases hbs : PostDominates E root b s
    · rw [hm.passed b hbs, BasicBlock.setEntry] at hy
      by_cases ha : a = (h t).startingAddress
      · simp only [ha, Function.update_self, Option.some.injEq] at hy
        subst hy
        refine ⟨(ht.reaches_addEdge_iff hs).2 (.inr rfl), by rw [hstart, ha], ?_⟩
        exact strict_addEdge_source.2 ⟨⟨hbt, fun p hp => absurd ⟨p, hp⟩ hnew⟩, hbs⟩
      · simp only [Function.update_of_ne ha] at hy
        exact hlift hy
    · rw [hm.kept b hbs hbt] at hy
      exact hlift hy
  · by_cases hbt : b = t
    · rw [hbt, hm.source, BasicBlock.setPostDominator, (ht.fresh t htn hnew).2.2] at hnull
      cases hnull
    have hlift : (h b).postDominated a = some none → ∃ y, Reaches (addEdge E t s) root y ∧
        a = (h' y).startingAddress ∧
        ∀ q, Strict (addEdge E t s) root q b → q ≠ y → Avoids (addEdge E t s) q b y := by
      intro hnull
      obtain ⟨y, hry, hay, hav⟩ := ht.null b hb a hnull
      refine ⟨y, hry.mono hmono, by rw [hstart, hay], fun q hq hqy => ?_⟩
      exact (hav q hq.of_addEdge hqy).mono hmono
    by_cases hbs : PostDominates E root b s
    · rw [hm.passed b hbs, BasicBlock.setEntry] at hnull
      by_cases ha : a = (h t).startingAddress
      · simp [ha] at hnull
      · simp only [Function.update_of_ne ha] at hnull
        exact hlift hnull
    · rw [hm.kept b hbs hbt] at hnull
      exact hlift hnull

variable (hrt : Reaches E root t) (hm : Moved h h' root s t new E)
include hrt hm

/-- Entries stay when they are right for the new edge. -/
theorem Moved.below {y : P} (hy : Reaches E root y) (hby : Strict (addEdge E t s) root b y) :
    (h' b).postDominated (h y).startingAddress = some (some y) := by
  have hold := ht.below b y hy hby.of_addEdge
  by_cases hbt : Strict E root b t <;> by_cases hbs : PostDominates E root b s
  · rw [hm.kept b (iff_of_true hbt hbs), hold]
  · have hbs' : Avoids E b root s := by rwa [postDominates_iff, not_not] at hbs
    rw [hm.erased b hbt hbs, if_neg, hold]
    rintro (hst | hsome)
    · rw [ht.start_iff hy hrt] at hst
      subst hst
      exact hbs (strict_addEdge_source.1 hby).2
    · -- `y` leads to `t` without passing `b`, and `t` now to the root.
      obtain ⟨y', hy', he, hkey⟩ := ht.key hrt hsome
      rw [ht.start_iff hy hy'] at he
      subst he
      exact (strict_iff.1 hby).2 (avoids_addEdge.2 (.inr ⟨hkey b hbt hby.1, hbs'⟩))
  · rw [hm.null b hbt hbs, Function.update_of_ne, hold]
    rw [ne_eq, ht.start_iff hy hrt]
    rintro rfl
    exact hbt hby.of_addEdge
  · rw [hm.kept b (iff_of_false hbt hbs), hold]

/-- The entries that are wrong for the new edge are gone. -/
theorem Moved.entry (hst : Stable E root t s) (hb : b ∈ nodes) {a : ADDRINT w} {y : P}
    (hy : (h' b).postDominated a = some (some y)) :
    Reaches E root y ∧ a = (h y).startingAddress ∧ Strict (addEdge E t s) root b y := by
  -- The old entry, and `b` stays above `t` when `t` has an entry for `y`.
  have hold : (h b).postDominated a = some (some y) ∧
      (a = (h t).startingAddress ∨ ((h t).postDominated a).isSome →
        Strict E root b t → PostDominates E root b s) := by
    by_cases hbt : Strict E root b t <;> by_cases hbs : PostDominates E root b s
    · rw [hm.kept b (iff_of_true hbt hbs)] at hy
      exact ⟨hy, fun _ _ => hbs⟩
    · rw [hm.erased b hbt hbs] at hy
      by_cases ha : a = (h t).startingAddress ∨ ((h t).postDominated a).isSome
      · rw [if_pos ha] at hy
        cases hy
      · rw [if_neg ha] at hy
        exact ⟨hy, fun hc => absurd hc ha⟩
    · rw [hm.null b hbt hbs] at hy
      refine ⟨?_, fun _ hc => absurd hc hbt⟩
      by_cases ha : a = (h t).startingAddress
      · rw [ha, Function.update_self] at hy
        cases hy
      · rwa [Function.update_of_ne ha] at hy
    · rw [hm.kept b (iff_of_false hbt hbs)] at hy
      exact ⟨hy, fun _ hc => absurd hc hbt⟩
  obtain ⟨hold, hkeep⟩ := hold
  obtain ⟨hry, hay, hby⟩ := ht.entry b hb a y hold
  refine ⟨hry, hay, ?_⟩
  by_cases hyt : y = t
  · subst hyt
    exact strict_addEdge_source.2 ⟨hby, hkeep (.inl hay) hby⟩
  by_cases hty : Strict E root t y
  · have hsome : ((h t).postDominated a).isSome := by rw [hay, ht.below t y hry hty]; rfl
    refine (strict_addEdge_below hrt hry hty).2 ⟨hby, fun hbt => ?_⟩
    exact strict_addEdge_source.2 ⟨hbt, hkeep (.inr hsome) hbt⟩
  · exact hst y hry hyt hty b hby

theorem Moved.null_entry (hs : Reaches E root s) (hb : b ∈ nodes) {a : ADDRINT w}
    (hnull : (h' b).postDominated a = some none) : ∃ y, Reaches E root y ∧
      a = (h y).startingAddress ∧
      ∀ q, Strict (addEdge E t s) root q b → q ≠ y → Avoids (addEdge E t s) q b y := by
  have hmono : ∀ a b, E a b → addEdge E t s a b := fun _ _ h => .inl h
  have hold : (h b).postDominated a = some none → ∃ y, Reaches E root y ∧
      a = (h y).startingAddress ∧
      ∀ q, Strict (addEdge E t s) root q b → q ≠ y → Avoids (addEdge E t s) q b y := by
    intro hnull
    obtain ⟨y, hy, hay, hav⟩ := ht.null b hb a hnull
    exact ⟨y, hy, hay, fun q hq hqy => (hav q hq.of_addEdge hqy).mono hmono⟩
  by_cases hbt : Strict E root b t <;> by_cases hbs : PostDominates E root b s
  · exact hold (by rwa [hm.kept b (iff_of_true hbt hbs)] at hnull)
  · rw [hm.erased b hbt hbs] at hnull
    by_cases ha : a = (h t).startingAddress ∨ ((h t).postDominated a).isSome
    · rw [if_pos ha] at hnull
      cases hnull
    · rw [if_neg ha] at hnull
      exact hold hnull
  · rw [hm.null b hbt hbs] at hnull
    by_cases ha : a = (h t).startingAddress
    · refine ⟨t, hrt, ha, fun q hq hqt => ?_⟩
      have hsb : Avoids E q b s := by
        rcases postDominates_iff_strict.1 hbs with rfl | hbs
        · exact .here hq.1.symm
        · exact hq.of_addEdge.avoids_before hbs (hbs.reaches hs) hs
      exact .step (Ne.symm hqt) (.inr ⟨rfl, rfl⟩) (hsb.mono hmono)
    · rw [Function.update_of_ne ha] at hnull
      exact hold hnull
  · exact hold (by rwa [hm.kept b (iff_of_false hbt hbs)] at hnull)

/-- The tree after a block has moved along a stable edge. -/
theorem Moved.tree (hs : Reaches E root s) (hne : t ≠ root) (hst : Stable E root t s)
    (him : Immediate (addEdge E t s) root new t) : Tree h' root nodes (addEdge E t s) := by
  have hreach : ∀ b, Reaches (addEdge E t s) root b ↔ Reaches E root b := by
    intro b
    rw [ht.reaches_addEdge_iff hs, or_iff_left_of_imp]
    rintro rfl
    exact hrt
  refine ⟨⟨ht.root_mem, by rw [hm.start, ht.root_start], fun a ha b hb hab => ?_,
    ht.inside_addEdge hs (ht.mem hrt) hne, fun b hb hbr => ?_⟩, fun b hb hbr => ?_,
    fun b hb hnb => ?_, fun b y hy hby => ?_, fun b hb a y hy => ?_, fun b hb a hnull => ?_⟩
  · rw [hm.start, hm.start] at hab
    exact ht.starts a ha b hb hab
  · rw [hreach] at hb
    by_cases hbt : b = t
    · subst hbt
      exact ⟨new, hm.pointer_source, him⟩
    · obtain ⟨p, hp, him⟩ := ht.found b hb hbr
      exact ⟨p, by rw [hm.pointer b hbt, hp], him.addEdge_stable hst hrt hb hbt⟩
  · rw [hm.marked]
    exact ht.marked b ((hreach b).1 hb) hbr
  · rw [hreach] at hnb
    have hbt : ¬ Strict E root b t := fun hc => hnb (hc.reaches hrt)
    have hbs : ¬ PostDominates E root b s := fun hc => hnb (hc.reaches hs)
    rw [hm.pointer b fun hc => hnb (hc ▸ hrt), hm.marked, hm.kept b (iff_of_false hbt hbs)]
    exact ht.fresh b hb hnb
  · rw [hm.start]
    exact hm.below ht hrt ((hreach y).1 hy) hby
  · rw [hreach, hm.start]
    exact hm.entry ht hrt hst hb hy
  · obtain ⟨y, hy, hay, hav⟩ := hm.null_entry ht hrt hs hb hnull
    exact ⟨y, (hreach y).2 hy, by rw [hm.start, hay], hav⟩

end

/-! ## The walks -/

variable [DecidableEq P]

theorem Pointers.setEntry (hp : Pointers h root nodes E) (b : P) (key : ADDRINT w)
    (entry : Option P) : Pointers (h.modify b (·.setEntry key entry)) root nodes E :=
  hp.congr (fun x => startingAddress_setEntry h b x key entry)
    fun x _ => postDominator_setEntry h b x key entry

theorem Pointers.eraseEntries (hp : Pointers h root nodes E) (b : P)
    (deletable : ADDRINT w → Option (Option P)) (key : ADDRINT w) :
    Pointers (h.modify b (·.eraseEntries deletable key)) root nodes E :=
  hp.congr (fun x => startingAddress_eraseEntries h b x key deletable)
    fun x _ => postDominator_eraseEntries h b x key deletable

/-- The walk stops at the nearest block that strictly post-dominates the sibling, and leaves a
`NULL` entry in the blocks before it. -/
theorem getCommonPostDominator_spec (hp : Pointers h root nodes E) (hs : Reaches E root this)
    (hroot : Strict E root root t)
    (hentry : ∀ b, PostDominates E root b this →
      ((∃ y, (h b).postDominated (h t).startingAddress = some (some y)) ↔ Strict E root b t))
    (hf : height E root nodes this < fuel) :
    ∃ new h', getCommonPostDominator fuel h this t = some (new, h') ∧
      PostDominates E root new this ∧ Strict E root new t ∧
      (∀ d, PostDominates E root d this → Strict E root d t → PostDominates E root d new) ∧
      ∀ b, (PostDominates E root b this ∧ ¬ Strict E root b t →
          h' b = (h b).setEntry (h t).startingAddress none) ∧
        (¬ (PostDominates E root b this ∧ ¬ Strict E root b t) → h' b = h b) := by
  induction fuel generalizing h this with
  | zero => omega
  | succ fuel ih =>
    by_cases hst : Strict E root this t
    · obtain ⟨y, hy⟩ := (hentry this .refl).2 hst
      refine ⟨this, h, by simp only [getCommonPostDominator, hy], .refl, hst, fun d hd _ => hd,
        fun b => ⟨fun hb => ?_, fun _ => rfl⟩⟩
      exact absurd (hb.1.strict_trans hst hs) hb.2
    have hne : this ≠ root := fun he => hst (he ▸ hroot)
    obtain ⟨p, hpd, him⟩ := hp.found this hs hne
    have hreach : Reaches E root p := him.strict.reaches hs
    have hnone : ∀ y, (h this).postDominated (h t).startingAddress ≠ some (some y) :=
      fun y hy => hst ((hentry this .refl).1 ⟨y, hy⟩)
    -- The blocks from `p` on are untouched.
    have hup : ∀ b, PostDominates E root b p →
        h.modify this (·.setEntry (h t).startingAddress none) b = h b := by
      intro b hb
      refine modify_of_ne _ _ ?_
      rintro rfl
      exact him.strict.not_postDominates hs hb
    have hentry' : ∀ b, PostDominates E root b p →
        ((∃ y, (h.modify this (·.setEntry (h t).startingAddress none) b).postDominated
          (h.modify this (·.setEntry (h t).startingAddress none) t).startingAddress =
            some (some y)) ↔ Strict E root b t) := by
      intro b hb
      rw [startingAddress_setEntry, hup b hb]
      exact hentry b (hb.trans him.strict.2 hreach)
    obtain ⟨new, h', hcall, hnew, hnt, hleast, hh'⟩ :=
      ih (hp.setEntry this _ none) hreach hentry'
        (by have := him.strict.height_lt hs (hp.mem hreach); omega)
    refine ⟨new, h', ?_, hnew.trans him.strict.2 hreach, hnt, fun d hd hdt => ?_, fun b => ?_⟩
    · rw [getCommonPostDominator]
      split
      · exact absurd ‹_› (hnone _)
      · have hne2 : (h this).startingAddress ≠ 2 := fun hc => hne ((hp.start_two hs).1 hc)
        simp only [startingAddress_setEntry, postDominator_setEntry, if_neg hne2, hpd]
        exact hcall
    · rcases (him.postDominates_iff hs).1 hd with rfl | hd
      · exact absurd hdt hst
      · exact hleast d hd hdt
    · rw [startingAddress_setEntry] at hh'
      rw [him.postDominates_iff hs]
      by_cases hb : b = this
      · subst hb
        have hnp : ¬ PostDominates E root b p := him.strict.not_postDominates hs
        refine ⟨fun _ => ?_, fun hc => absurd ⟨.inl rfl, hst⟩ hc⟩
        rw [(hh' b).2 fun hc => hnp hc.1, modify_same]
      · rw [← modify_of_ne h (·.setEntry (h t).startingAddress none) hb, or_iff_right hb]
        exact hh' b

theorem passDownPostDominanceInfo_spec (hp : Pointers h root nodes E) (hs : Reaches E root this)
    (hf : height E root nodes this < fuel) :
    ∃ h', passDownPostDominanceInfo fuel h this t = some h' ∧
      ∀ b, (PostDominates E root b this → h' b = (h b).setEntry (h t).startingAddress (some t)) ∧
        (¬ PostDominates E root b this → h' b = h b) := by
  induction fuel generalizing h this with
  | zero => omega
  | succ fuel ih =>
    by_cases hne : this = root
    · subst hne
      refine ⟨h.modify this (·.setEntry (h t).startingAddress (some t)), ?_, fun b => ?_⟩
      · simp [passDownPostDominanceInfo, hp.root_start]
      · rw [postDominates_exit_iff]
        refine ⟨?_, modify_of_ne _ _⟩
        rintro rfl
        exact modify_same ..
    obtain ⟨p, hpd, him⟩ := hp.found this hs hne
    have hreach : Reaches E root p := him.strict.reaches hs
    obtain ⟨h', hcall, hh'⟩ := ih (hp.setEntry this (h t).startingAddress (some t)) hreach
      (by have := him.strict.height_lt hs (hp.mem hreach); omega)
    refine ⟨h', ?_, fun b => ?_⟩
    · have hne2 : (h this).startingAddress ≠ 2 := fun hc => hne ((hp.start_two hs).1 hc)
      simp only [passDownPostDominanceInfo, startingAddress_setEntry, postDominator_setEntry,
        if_pos hne2, hpd]
      exact hcall
    · rw [startingAddress_setEntry] at hh'
      rw [him.postDominates_iff hs]
      by_cases hb : b = this
      · subst hb
        refine ⟨fun _ => ?_, fun hc => absurd (.inl rfl) hc⟩
        rw [(hh' b).2 (him.strict.not_postDominates hs), modify_same]
      · rw [← modify_of_ne h (·.setEntry (h t).startingAddress (some t)) hb, or_iff_right hb]
        exact hh' b

theorem deleteDownPostDominanceInfo_spec (deletable : ADDRINT w → Option (Option P))
    (key : ADDRINT w) (hp : Pointers h root nodes E) (hs : Reaches E root this)
    (hnew : PostDominates E root new this) (hf : height E root nodes this < fuel) :
    ∃ h', deleteDownPostDominanceInfo fuel h this deletable key (h new).startingAddress = some h' ∧
      ∀ b, (PostDominates E root b this ∧ ¬ PostDominates E root b new →
          h' b = (h b).eraseEntries deletable key) ∧
        (¬ (PostDominates E root b this ∧ ¬ PostDominates E root b new) → h' b = h b) := by
  induction fuel generalizing h this with
  | zero => omega
  | succ fuel ih =>
    by_cases hst : this = new
    · subst hst
      refine ⟨h, ?_, fun b => ⟨fun hb => absurd hb.1 hb.2, fun _ => rfl⟩⟩
      rw [deleteDownPostDominanceInfo, if_neg fun hc => hc rfl]
    have hsn : Strict E root new this := ⟨Ne.symm hst, hnew⟩
    have hne : this ≠ root := fun he => not_strict_exit (he ▸ hsn)
    obtain ⟨p, hpd, him⟩ := hp.found this hs hne
    have hreach : Reaches E root p := him.strict.reaches hs
    obtain ⟨h', hcall, hh'⟩ := ih (hp.eraseEntries this deletable key) hreach (him.least new hsn)
      (by have := him.strict.height_lt hs (hp.mem hreach); omega)
    refine ⟨h', ?_, fun b => ?_⟩
    · rw [startingAddress_eraseEntries] at hcall
      have hne2 : (h this).startingAddress ≠ (h new).startingAddress :=
        fun hc => hst ((hp.start_iff hs (hsn.reaches hs)).1 hc)
      simp only [deleteDownPostDominanceInfo, if_pos hne2, postDominator_eraseEntries, hpd, hcall]
    · rw [him.postDominates_iff hs]
      by_cases hb : b = this
      · subst hb
        refine ⟨fun _ => ?_, fun hc => ?_⟩
        · rw [(hh' b).2 fun hc => him.strict.not_postDominates hs hc.1, modify_same]
        · exact absurd ⟨.inl rfl, hsn.not_postDominates hs⟩ hc
      · rw [← modify_of_ne h (·.eraseEntries deletable key) hb, or_iff_right hb]
        exact hh' b

/-! ## Adding a predecessor -/

/-- A block without a post-dominator. -/
theorem addPredecessor_new (ht : Tree h root nodes E) (hs : Reaches E root s) (htn : t ∈ nodes)
    (hnew : ¬ Reaches E root t) (hf : height E root nodes s < fuel) :
    ∃ h', addPredecessorAsPostDominated fuel h s t = some h' ∧ Added h h' root s t E := by
  have hold : ∀ {b}, Reaches E root b → b ≠ t := fun hb he => hnew (he ▸ hb)
  have hp : Pointers (h.modify t (·.setPostDominator s)) root nodes E :=
    ht.congr (fun b => startingAddress_setPostDominator h t b s)
      fun b hb => by rw [modify_of_ne _ _ (hold hb)]
  obtain ⟨h', hcall, hh'⟩ := passDownPostDominanceInfo_spec (t := t) hp hs hf
  rw [startingAddress_setPostDominator] at hh'
  refine ⟨h', ?_, ?_, fun b hb => ?_, fun b hb hbt => ?_⟩
  · rw [addPredecessorAsPostDominated, if_pos (ht.fresh t htn hnew).2.1, hcall]
  · rw [(hh' t).2 fun hc => hold (hc.reaches hs) rfl, modify_same]
  · rw [(hh' b).1 hb, modify_of_ne _ _ (hold (hb.reaches hs))]
  · rw [(hh' b).2 hb, modify_of_ne _ _ hbt]

/-- A block that has a post-dominator: it moves to the nearest one that `s` leads to. -/
theorem addPredecessor_old (ht : Tree h root nodes E) (hs : Reaches E root s)
    (hrt : Reaches E root t) (hne : t ≠ root) (hf : nodes.card < fuel) :
    ∃ new h', addPredecessorAsPostDominated fuel h s t = some h' ∧ Strict E root new t ∧
      PostDominates E root new s ∧
      (∀ d, PostDominates E root d s → Strict E root d t → PostDominates E root d new) ∧
      Moved h h' root s t new E := by
  obtain ⟨c, hpd, him⟩ := ht.found t hrt hne
  have hrc : Reaches E root c := him.strict.reaches hrt
  have hentry : ∀ b, PostDominates E root b s →
      ((∃ y, (h b).postDominated (h t).startingAddress = some (some y)) ↔ Strict E root b t) := by
    intro b hb
    constructor
    · rintro ⟨y, hy⟩
      obtain ⟨hry, hst, hby⟩ := ht.entry b (ht.mem (hb.reaches hs)) _ y hy
      rwa [(ht.start_iff hrt hry).1 hst]
    · exact fun hb => ⟨t, ht.below b t hrt hb⟩
  have hfuel : ∀ x, height E root nodes x < fuel := fun x => lt_of_le_of_lt (height_le nodes) hf
  obtain ⟨new, h₁, hcommon, hns, hnt, hleast, hh₁⟩ := getCommonPostDominator_spec ht.toPointers hs
    ⟨hne.symm, postDominates_exit⟩ hentry (hfuel s)
  have hset : ∀ b, h₁ b = h b ∨ h₁ b = (h b).setEntry (h t).startingAddress none := by
    intro b
    by_cases hb : PostDominates E root b s ∧ ¬ Strict E root b t
    · exact .inr ((hh₁ b).1 hb)
    · exact .inl ((hh₁ b).2 hb)
  have hstart₁ : ∀ b, (h₁ b).startingAddress = (h b).startingAddress := by
    intro b
    rcases hset b with he | he
    · rw [he]
    · rw [he]; rfl
  have hptr₁ : ∀ b, (h₁ b).postDominator = (h b).postDominator := by
    intro b
    rcases hset b with he | he
    · rw [he]
    · rw [he]; rfl
  obtain ⟨h₂, hdelete, hh₂⟩ := deleteDownPostDominanceInfo_spec
    (h₁ t).postDominated (h t).startingAddress (ht.congr hstart₁ fun b _ => hptr₁ b) hrc
    (him.least new hnt) (hfuel c)
  rw [hstart₁] at hdelete
  have hset₂ : ∀ b, h₂ b = h₁ b ∨
      h₂ b = (h₁ b).eraseEntries (h₁ t).postDominated (h t).startingAddress := by
    intro b
    by_cases hb : PostDominates E root b c ∧ ¬ PostDominates E root b new
    · exact .inr ((hh₂ b).1 hb)
    · exact .inl ((hh₂ b).2 hb)
  have herased : ∀ b, PostDominates E root b c ∧ ¬ PostDominates E root b new ↔
      Strict E root b t ∧ ¬ PostDominates E root b s := by
    intro b
    rw [← him.strict_iff hrt]
    refine and_congr_right fun hb => not_congr ⟨fun h => h.trans hns (hns.reaches hs), ?_⟩
    exact fun h => hleast b h hb
  have hdeleted : ∀ a, a = (h t).startingAddress ∨ ((h₁ t).postDominated a).isSome ↔
      a = (h t).startingAddress ∨ ((h t).postDominated a).isSome := by
    intro a
    refine or_congr_right' fun ha => ?_
    rcases hset t with he | he
    · rw [he]
    · simp only [he, BasicBlock.setEntry, Function.update_of_ne ha]
  refine ⟨new, h₂.modify t (·.setPostDominator new), ?_, hnt, hns, hleast, ?_⟩
  · rw [addPredecessorAsPostDominated, if_neg (by simp [ht.marked t hrt hne]), hpd]
    simp [hcommon, hstart₁, hdelete]
  refine ⟨fun b => ?_, fun b => ?_, by rw [modify_same]; rfl, fun b hb => ?_, fun b => ?_,
    fun b hb => ?_, fun b hbt hbs a => ?_, fun b hbt hbs => ?_⟩
  · rw [startingAddress_setPostDominator, ← hstart₁ b]
    rcases hset₂ b with he | he
    · rw [he]
    · rw [he]; rfl
  · rw [predecessors_setPostDominator]
    rcases hset₂ b with he | he <;> rcases hset b with he' | he' <;> rw [he, he'] <;> rfl
  · rw [modify_of_ne _ _ hb, ← hptr₁ b]
    rcases hset₂ b with he | he
    · rw [he]
    · rw [he]; rfl
  · by_cases hb : b = t
    · rw [hb, modify_same, ht.marked t hrt hne]
      rfl
    · rw [modify_of_ne _ _ hb]
      rcases hset₂ b with he | he <;> rcases hset b with he' | he' <;> rw [he, he'] <;> rfl
  · rw [postDominated_setPostDominator, (hh₂ b).2 fun hc => ?_, (hh₁ b).2 fun hc => ?_]
    · exact hc.2 (hb.2 hc.1)
    · rw [herased] at hc
      exact hc.2 (hb.1 hc.1)
  · rw [postDominated_setPostDominator, (hh₂ b).1 ((herased b).2 ⟨hbt, hbs⟩),
      (hh₁ b).2 fun hc => hc.2 hbt]
    simp only [BasicBlock.eraseEntries, hdeleted a]
  · rw [postDominated_setPostDominator, (hh₂ b).2 fun hc => hbt ((herased b).1 hc).1,
      (hh₁ b).1 ⟨hbs, hbt⟩]
    rfl

/-- A stable edge keeps the tree. -/
theorem addPredecessorAsPostDominated_tree (ht : Tree h root nodes E) (hs : Reaches E root s)
    (htn : t ∈ nodes) (hne : t ≠ root) (hst : Stable E root t s) (hf : nodes.card < fuel) :
    ∃ h', addPredecessorAsPostDominated fuel h s t = some h' ∧
      Tree h' root nodes (addEdge E t s) ∧
      ∀ b, (h' b).predecessors = (h b).predecessors := by
  by_cases hrt : Reaches E root t
  · obtain ⟨new, h', hcall, hnt, hns, hleast, hm⟩ := addPredecessor_old ht hs hrt hne hf
    have him : Immediate (addEdge E t s) root new t := .addEdge_source hst hrt hs hnt hns hleast
    exact ⟨h', hcall, hm.tree ht hrt hs hne hst him, hm.preds⟩
  · have hheight : height E root nodes s < fuel := lt_of_le_of_lt (height_le nodes) hf
    obtain ⟨h', hcall, hm⟩ := addPredecessor_new ht hs htn hrt hheight
    refine ⟨h', hcall, hm.tree ht hs htn hne hrt, fun b => ?_⟩
    by_cases hbt : b = t
    · rw [hbt, hm.source]; rfl
    · exact hm.field BasicBlock.predecessors (fun _ _ => rfl) hbt

/-- After any other edge some pointer is wrong. -/
theorem addPredecessorAsPostDominated_stable (ht : Tree h root nodes E) (hs : Reaches E root s)
    (hne : t ≠ root) (hf : nodes.card < fuel)
    (hcall : addPredecessorAsPostDominated fuel h s t = some h')
    (hfound : ∀ b, Reaches (addEdge E t s) root b → b ≠ root →
      ∃ p, (h' b).postDominator = some p ∧ Immediate (addEdge E t s) root p b) :
    Stable E root t s := by
  by_cases hrt : Reaches E root t
  · obtain ⟨new, h₁, hcall₁, -, -, -, hm⟩ := addPredecessor_old ht hs hrt hne hf
    cases hcall.symm.trans hcall₁
    refine .of_immediate (fun x hx => ht.mem hx) fun x hx hxr hxt => ?_
    obtain ⟨p, hp, him⟩ := ht.found x hx hxr
    obtain ⟨p', hp', him'⟩ := hfound x ((ht.reaches_addEdge_iff hs).2 (.inl hx)) hxr
    rw [hm.pointer x hxt, hp] at hp'
    cases hp'
    exact ⟨p, him, him'⟩
  · exact .of_new fun a he => hrt (ht.inside a t he).2.2

end Heap

end Dytan
