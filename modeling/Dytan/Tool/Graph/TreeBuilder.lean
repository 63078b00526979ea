import Dytan.Tool.Graph.PostDominance

/-!
# The breadth-first pass of `buildPostDominanceTree`

`edgeOrder`: the edges in the order in which the pass meets them, which depends on the predecessors
only. While all of them are stable, the blocks hold the post-dominators of the edges met so far
(`Visiting`); when the queue is empty these are all the edges of the blocks that lead to the root
(`Visiting.build`).
-/

namespace Dytan

open Lib.PostDom

namespace Heap

variable {P : Type} {w : Nat} [DecidableEq P]

/-- Control passes from `a` to `b`. -/
def Flows (h : Heap P w) (a b : P) : Prop := a ∈ (h b).predecessors

/-- A graph of new blocks: `nodes` are `root` and blocks that lead to it, among which no two have
the same starting address. -/
structure NewGraph (h : Heap P w) (root : P) (nodes : Finset P) : Prop where
  root_mem : root ∈ nodes
  root_start : (h root).startingAddress = 2
  starts : ∀ a ∈ nodes, ∀ b ∈ nodes, (h a).startingAddress = (h b).startingAddress → a = b
  nodup : ∀ b ∈ nodes, (h b).predecessors.Nodup
  closed : ∀ a, ∀ b ∈ nodes, h.Flows a b → a ∈ nodes ∧ a ≠ root
  fresh : ∀ b ∈ nodes, (h b).postDominator = none ∧ (h b).isPostDominated = false ∧
    (h b).postDominated = fun _ => none

/-- The edges in the order in which the pass meets them: `seen` have been in the queue. -/
def edgeOrder (predecessors : P → List P) : Nat → List P → P → List P → List (P × P)
  | 0, _, _, _ => []
  | fuel + 1, seen, currentBlock, blockQueue =>
    let found := (predecessors currentBlock).filter (· ∉ seen)
    (predecessors currentBlock).map (·, currentBlock) ++
      match blockQueue ++ found with
      | [] => []
      | nextBlock :: blockQueue =>
        edgeOrder predecessors fuel (seen ++ found) nextBlock blockQueue

/-- Every edge is stable when it comes after `pre`. -/
def StableOrder (root : P) (pre order : List (P × P)) : Prop :=
  ∀ l₁ t s l₂, order = l₁ ++ (t, s) :: l₂ → Stable (ofList (pre ++ l₁)) root t s

omit [DecidableEq P] in
theorem stableOrder_cons {root t s : P} {pre order : List (P × P)} :
    StableOrder root pre ((t, s) :: order) ↔
      Stable (ofList pre) root t s ∧ StableOrder root (pre ++ [(t, s)]) order := by
  constructor
  · intro h
    refine ⟨by simpa using h [] t s order rfl, fun l₁ t' s' l₂ he => ?_⟩
    rw [List.append_assoc]
    exact h ((t, s) :: l₁) t' s' l₂ (by rw [he]; rfl)
  · rintro ⟨h, hrest⟩ l₁ t' s' l₂ he
    cases l₁ with
    | nil =>
      obtain ⟨hts, -⟩ := List.cons.inj he
      cases hts
      simpa using h
    | cons e l₁ =>
      obtain ⟨rfl, htail⟩ := List.cons.inj he
      have := hrest l₁ t' s' l₂ htail
      rwa [List.append_assoc] at this

omit [DecidableEq P] in
theorem StableOrder.append {root : P} {pre order order' : List (P × P)}
    (h : StableOrder root pre (order ++ order')) :
    StableOrder root pre order ∧ StableOrder root (pre ++ order) order' := by
  refine ⟨fun l₁ t s l₂ he => ?_, fun l₁ t s l₂ he => ?_⟩
  · exact h l₁ t s (l₂ ++ order') (by rw [he]; simp)
  · rw [List.append_assoc]
    exact h (order ++ l₁) t s l₂ (by rw [he]; simp)

omit [DecidableEq P] in
/-- Every edge is stable when none leads to the block that a later one comes from. -/
theorem StableOrder.of_pairwise {root : P} {order : List (P × P)}
    (h : order.Pairwise fun e e' => e.2 ≠ e'.1) : StableOrder root [] order := by
  rintro l₁ t s l₂ rfl
  refine .of_new fun a he => ?_
  exact (List.pairwise_append.1 h).2.2 (a, t) he (t, s) List.mem_cons_self rfl

variable {h h₀ : Heap P w} {root current : P} {nodes : Finset P} {pre : List (P × P)}
  {seen queue : List P} {depth fuel : Nat}

/-- The loop over the predecessors of a block. -/
theorem foldlM_addPredecessor {ts : List P} (queue : List P) (ht : Tree h root nodes (ofList pre))
    (hc : Reaches (ofList pre) root current)
    (hseen : ∀ b, Reaches (ofList pre) root b ↔ b = root ∨ b ∈ seen)
    (hts : ∀ t ∈ ts, t ∈ nodes ∧ t ≠ root) (hnd : ts.Nodup)
    (hst : StableOrder root pre (ts.map (·, current))) (hd : nodes.card < depth) :
    ∃ h', ts.foldlM (addPredecessor depth current) (h, queue) =
        some (h', queue ++ ts.filter (· ∉ seen)) ∧
      Tree h' root nodes (ofList (pre ++ ts.map (·, current))) ∧
      (∀ b, (h' b).predecessors = (h b).predecessors) ∧
      ∀ b, Reaches (ofList (pre ++ ts.map (·, current))) root b ↔
        Reaches (ofList pre) root b ∨ b ∈ ts := by
  induction ts generalizing h pre seen queue with
  | nil => exact ⟨h, by simp, by simpa using ht, fun _ => rfl, by simp⟩
  | cons t ts ih =>
    obtain ⟨htn, hne⟩ := hts t List.mem_cons_self
    obtain ⟨hstable, hrest⟩ := stableOrder_cons.1 hst
    obtain ⟨hnot, hnd⟩ := List.nodup_cons.1 hnd
    obtain ⟨h₁, hcall, ht₁, hp₁⟩ := addPredecessorAsPostDominated_tree ht hc htn hne hstable hd
    rw [← ofList_concat] at ht₁
    have hmono : ∀ a b, ofList pre a b → ofList (pre ++ [(t, current)]) a b :=
      fun a b h => List.mem_append_left _ h
    have hreach : ∀ b, Reaches (ofList (pre ++ [(t, current)])) root b ↔
        Reaches (ofList pre) root b ∨ b = t := by
      intro b
      rw [ofList_concat, ht.reaches_addEdge_iff hc]
    have hseen₁ : ∀ b, Reaches (ofList (pre ++ [(t, current)])) root b ↔
        b = root ∨ b ∈ t :: seen := by
      intro b
      rw [hreach, hseen, List.mem_cons, or_assoc, or_comm (a := b = t)]
    -- A block without a post-dominator is one that has not been seen.
    have hqueue : addPredecessor depth current (h, queue) t =
        some (h₁, queue ++ [t].filter (· ∉ seen)) := by
      have hpd : (h t).postDominator = none ↔ t ∉ seen := by
        by_cases hr : Reaches (ofList pre) root t
        · obtain ⟨p, hp, -⟩ := ht.found t hr hne
          simp [hp, ((hseen t).1 hr).resolve_left hne]
        · rw [(ht.fresh t htn hr).1]
          exact iff_of_true rfl fun hc => hr ((hseen t).2 (.inr hc))
      simp only [addPredecessor, hpd, hcall]
      by_cases hs : t ∈ seen <;> simp [hs]
    obtain ⟨h', hfold, ht', hp', hr'⟩ := ih (queue ++ [t].filter (· ∉ seen)) ht₁ (hc.mono hmono)
      hseen₁ (fun x hx => hts x (List.mem_cons_of_mem _ hx)) hnd hrest
    rw [List.append_assoc, List.singleton_append] at ht' hr'
    refine ⟨h', ?_, ht', fun b => by rw [hp', hp₁], fun b => ?_⟩
    rotate_left
    · rw [List.map_cons, hr', hreach, List.mem_cons, or_assoc]
    have hfilter : ts.filter (· ∉ t :: seen) = ts.filter (· ∉ seen) := by
      refine List.filter_congr fun x hx => ?_
      have hxt : x ≠ t := fun he => hnot (he ▸ hx)
      simp [hxt]
    rw [List.foldlM_cons, hqueue]
    refine hfold.trans ?_
    rw [hfilter, List.append_assoc, ← List.filter_append]
    rfl

/-- What holds between two turns of the pass: a block that leads to the root is waiting in the
queue, or all its predecessors have been visited. -/
structure Visiting (h₀ h : Heap P w) (root : P) (nodes : Finset P) (pre : List (P × P))
    (seen queue : List P) : Prop where
  tree : Tree h root nodes (ofList pre)
  preds : ∀ b, (h b).predecessors = (h₀ b).predecessors
  flows : ∀ a b, ofList pre a b → h₀.Flows a b
  seen : ∀ b, Reaches (ofList pre) root b ↔ b = root ∨ b ∈ seen
  waiting : ∀ b ∈ queue, Reaches (ofList pre) root b
  visited : ∀ b, Reaches (ofList pre) root b →
    b ∈ queue ∨ ∀ a, h₀.Flows a b → ofList pre a b

/-- One turn. -/
theorem Visiting.turn (hg : NewGraph h₀ root nodes)
    (hv : Visiting h₀ h root nodes pre seen (current :: queue))
    (hst : StableOrder root pre ((h₀ current).predecessors.map (·, current)))
    (hd : nodes.card < depth) : ∃ h₁ found,
      found = (h₀ current).predecessors.filter (· ∉ seen) ∧
      (h₀ current).predecessors.foldlM (addPredecessor depth current) (h, queue) =
        some (h₁, queue ++ found) ∧
      Visiting h₀ h₁ root nodes (pre ++ (h₀ current).predecessors.map (·, current)) (seen ++ found)
        (queue ++ found) := by
  have hcur : Reaches (ofList pre) root current := hv.waiting current List.mem_cons_self
  have hnode : current ∈ nodes := hv.tree.mem hcur
  have hts : ∀ t ∈ (h₀ current).predecessors, t ∈ nodes ∧ t ≠ root :=
    fun t ht => hg.closed t current hnode ht
  obtain ⟨h₁, hfold, ht₁, hp₁, hr₁⟩ := foldlM_addPredecessor queue hv.tree hcur hv.seen hts
    (hg.nodup current hnode) hst hd
  have hold : ∀ a b, ofList pre a b →
      ofList (pre ++ (h₀ current).predecessors.map (·, current)) a b :=
    fun a b h => List.mem_append_left _ h
  have hmem : ∀ b, b ∈ (h₀ current).predecessors.filter (· ∉ seen) ↔
      b ∈ (h₀ current).predecessors ∧ b ∉ seen := by simp
  refine ⟨h₁, _, rfl, hfold, ht₁, fun b => by rw [hp₁, hv.preds], fun a b he => ?_, fun b => ?_,
    fun b hb => ?_, fun b hb => ?_⟩
  · rcases List.mem_append.1 he with he | he
    · exact hv.flows a b he
    · obtain ⟨t, ht, hab⟩ := List.mem_map.1 he
      obtain ⟨rfl, rfl⟩ := Prod.mk.inj hab
      exact ht
  · rw [hr₁, hv.seen, List.mem_append, hmem, or_assoc]
    by_cases hs : b ∈ seen <;> simp [hs]
  · rcases List.mem_append.1 hb with hb | hb
    · exact (hv.waiting b (List.mem_cons_of_mem _ hb)).mono hold
    · exact (hr₁ b).2 (.inr ((hmem b).1 hb).1)
  · by_cases hpre : Reaches (ofList pre) root b
    · rcases hv.visited b hpre with hb | hb
      · rcases List.mem_cons.1 hb with rfl | hb
        · exact .inr fun a ha => List.mem_append_right _ (List.mem_map_of_mem ha)
        · exact .inl (List.mem_append_left _ hb)
      · exact .inr fun a ha => hold a b (hb a ha)
    · have hfound : b ∈ (h₀ current).predecessors := ((hr₁ b).1 hb).resolve_left hpre
      have hs : b ∉ seen := fun hs => hpre ((hv.seen b).2 (.inr hs))
      exact .inl (List.mem_append_right _ ((hmem b).2 ⟨hfound, hs⟩))

/-- The blocks not seen yet, less those found now. -/
theorem card_unseen (nodes : Finset P) (seen found : List P) (hf : ∀ b ∈ found, b ∈ nodes)
    (hs : ∀ b ∈ found, b ∉ seen) (hnd : found.Nodup) :
    (nodes.filter (· ∉ seen ++ found)).card + found.length = (nodes.filter (· ∉ seen)).card := by
  have hsub : found.toFinset ⊆ nodes.filter (· ∉ seen) := by
    intro b hb
    rw [List.mem_toFinset] at hb
    exact Finset.mem_filter.2 ⟨hf b hb, hs b hb⟩
  have hdiff : nodes.filter (· ∉ seen ++ found) = nodes.filter (· ∉ seen) \ found.toFinset := by
    ext b
    simp [and_assoc]
  rw [hdiff, Finset.card_sdiff_of_subset hsub, List.toFinset_card_of_nodup hnd,
    Nat.sub_add_cancel]
  rw [← List.toFinset_card_of_nodup hnd]
  exact Finset.card_le_card hsub

/-- The pass ends, with the post-dominators of all the edges. -/
theorem Visiting.build (hg : NewGraph h₀ root nodes)
    (hv : Visiting h₀ h root nodes pre seen (current :: queue))
    (hst : StableOrder root pre
      (edgeOrder (fun b => (h₀ b).predecessors) fuel seen current queue))
    (hd : nodes.card < depth) (hf : (nodes.filter (· ∉ seen)).card + queue.length < fuel) :
    ∃ h' edges, buildPostDominanceTree depth fuel h current queue = some h' ∧
      Tree h' root nodes (ofList edges) ∧ (∀ a b, ofList edges a b → h₀.Flows a b) ∧
      ∀ b, Reaches (ofList edges) root b → ∀ a, h₀.Flows a b → ofList edges a b := by
  induction fuel generalizing h pre seen current queue with
  | zero => omega
  | succ fuel ih =>
    have hnode : current ∈ nodes := hv.tree.mem (hv.waiting current List.mem_cons_self)
    obtain ⟨hst, hrest⟩ := hst.append
    obtain ⟨h₁, found, hfound, hfold, hv₁⟩ := hv.turn hg hst hd
    rw [← hfound] at hrest
    have hbuild : buildPostDominanceTree depth (fuel + 1) h current queue =
        match queue ++ found with
        | [] => some h₁
        | next :: queue => buildPostDominanceTree depth fuel h₁ next queue := by
      rw [buildPostDominanceTree, hv.preds, hfold]
      rfl
    cases hq : queue ++ found with
    | nil =>
      rw [hq] at hv₁
      refine ⟨h₁, _, by rw [hbuild, hq], hv₁.tree, hv₁.flows, fun b hb => ?_⟩
      exact (hv₁.visited b hb).resolve_left List.not_mem_nil
    | cons next queue' =>
      rw [hq] at hrest hv₁
      have hmem : ∀ b ∈ found, b ∈ nodes ∧ b ∉ seen := by
        intro b hb
        rw [hfound, List.mem_filter, decide_eq_true_eq] at hb
        exact ⟨(hg.closed b current hnode hb.1).1, hb.2⟩
      have hnd : found.Nodup := hfound ▸ (hg.nodup current hnode).filter _
      have hcard := card_unseen nodes seen found (fun b hb => (hmem b hb).1)
        (fun b hb => (hmem b hb).2) hnd
      have hlen := congrArg List.length hq
      rw [List.length_append, List.length_cons] at hlen
      obtain ⟨h', edges, hcall, hrec⟩ := ih hv₁ hrest (by omega)
      exact ⟨h', edges, by rw [hbuild, hq]; exact hcall, hrec⟩

end Heap

end Dytan
