import Dytan.Tool.Graph.Pass
import Dytan.Tool.Graph.Ipdom

/-!
# The pass on any block graph

`BlockGraph`: finitely many new blocks, of which only the return block has the starting address 2,
and which has no successors. `PassState.Sane` is what every state of the pass has: the blocks met so
far are those that have been current and those in the queue, in the order in which they were met,
and what a block points to has been current.

When no two blocks that lead to the return have the same starting address, a block points to one that
was met before it (`Ranked`). So the walks up end at the return block, and the pass goes through all
the blocks that lead to it, each once (`pass_ends`).
-/

namespace Dytan

open Relation Lib.PostDom

variable {P : Type} {w : Nat}

/-- A graph of new blocks. -/
structure BlockGraph (h : Heap P w) (root : P) (nodes : Finset P) : Prop where
  root_mem : root ∈ nodes
  root_start : ∀ b ∈ nodes, (h b).startingAddress = 2 ↔ b = root
  nodup : ∀ b ∈ nodes, (h b).predecessors.Nodup
  closed : ∀ b ∈ nodes, ∀ a, h.Flows a b → a ∈ nodes ∧ a ≠ root
  fresh : ∀ b, (h b).postDominator = none ∧ (h b).isPostDominated = false ∧
    (h b).postDominated = fun _ => none

namespace PassState

/-- The blocks met so far, in order. -/
def met (s : PassState P w) : List P := s.visited ++ s.queue

/-- What holds in every state of a pass over the graph `h`. -/
structure Sane (h : Heap P w) (root : P) (nodes : Finset P) (s : PassState P w) : Prop where
  starting : ∀ b, (s.heap b).startingAddress = (h b).startingAddress
  predecessors : ∀ b, (s.heap b).predecessors = (h b).predecessors
  nodup : s.met.Nodup
  inside : ∀ b ∈ s.met, b ∈ nodes ∧ Reaches h.Flows root b
  root_visited : root ∈ s.visited
  root_top : (s.heap root).postDominator = none
  current : s.current ∈ s.visited
  attached : ∀ b ∈ s.met, b ≠ root → (s.heap b).isPostDominated = true ∧
    ∃ p ∈ s.visited, (s.heap b).postDominator = some p
  fresh : ∀ b, b ∉ s.met → (s.heap b).postDominator = none ∧ (s.heap b).isPostDominated = false
  entries : ∀ b key y, s.heap.Entry b key y → key = (h y).startingAddress ∧ y ∈ s.met ∧ y ≠ b
  todo : ∃ pre, (h s.current).predecessors = pre ++ s.todo ∧ ∀ t ∈ pre, t ∈ s.met
  processed : ∀ b ∈ s.visited, b ≠ s.current → ∀ t, h.Flows t b → t ∈ s.met

variable {h : Heap P w} {root a b t y : P} {nodes : Finset P} {s s' : PassState P w} {depth : Nat}
  {key : ADDRINT w}

theorem mem_met_of_visited (hb : b ∈ s.visited) : b ∈ s.met := List.mem_append_left _ hb

/-- What is above a block that has been current has been current. -/
theorem Sane.climbs (hs : Sane h root nodes s) (hb : b ∈ s.visited) (hc : s.heap.Climbs b a) :
    a ∈ s.visited := by
  induction hc with
  | refl => exact hb
  | @tail c d _ hcd ih =>
    by_cases hroot : c = root
    · rw [hroot, hs.root_top] at hcd
      cases hcd
    · obtain ⟨-, p, hp, hcp⟩ := hs.attached c (mem_met_of_visited ih) hroot
      exact Option.some.inj (hcp.symm.trans hcd) ▸ hp

theorem Sane.mem_met (hs : Sane h root nodes s) (ht : t ≠ root) :
    t ∈ s.met ↔ (s.heap t).postDominator ≠ none := by
  constructor
  · intro hm
    obtain ⟨-, p, -, hp⟩ := hs.attached t hm ht
    rw [hp]
    exact Option.some_ne_none p
  · intro hp
    by_contra hm
    exact hp (hs.fresh t hm).1

theorem Sane.top (hg : BlockGraph h root nodes) (hs : Sane h root nodes s)
    (hb : (s.heap b).startingAddress = 2) : (s.heap b).postDominator = none := by
  by_cases hm : b ∈ s.met
  · rw [hs.starting] at hb
    rw [(hg.root_start b (hs.inside b hm).1).1 hb]
    exact hs.root_top
  · exact (hs.fresh b hm).1

/-- The block the next call is for. -/
theorem Sane.target (hg : BlockGraph h root nodes) (hs : Sane h root nodes s) {todo : List P}
    (ht : s.todo = t :: todo) : h.Flows t s.current ∧ t ∈ nodes ∧ t ≠ root ∧
      Reaches h.Flows root t ∧ (s.heap t).startingAddress ≠ 2 := by
  obtain ⟨pre, hpre, -⟩ := hs.todo
  obtain ⟨hcurrent, hreach⟩ := hs.inside _ (mem_met_of_visited hs.current)
  have hflow : h.Flows t s.current := by
    rw [Heap.Flows, hpre, ht]
    simp
  obtain ⟨htn, hne⟩ := hg.closed _ hcurrent t hflow
  refine ⟨hflow, htn, hne, hreach.step hflow, ?_⟩
  rw [hs.starting]
  exact fun h2 => hne ((hg.root_start t htn).1 h2)

theorem start_sane (hg : BlockGraph h root nodes) : Sane h root nodes (start h root) where
  starting _ := rfl
  predecessors _ := rfl
  nodup := List.nodup_singleton root
  inside b hb := by
    obtain rfl := List.mem_singleton.1 hb
    exact ⟨hg.root_mem, .refl⟩
  root_visited := List.mem_singleton_self root
  root_top := (hg.fresh root).1
  current := List.mem_singleton_self root
  attached b hb hne := absurd (List.mem_singleton.1 hb) hne
  fresh b _ := ⟨(hg.fresh b).1, (hg.fresh b).2.1⟩
  entries b key y he := by
    rw [Heap.Entry] at he
    change (h b).postDominated key = some (some y) at he
    rw [(hg.fresh b).2.2] at he
    cases he
  todo := ⟨[], rfl, fun t ht => absurd ht List.not_mem_nil⟩
  processed b hb hne := absurd (List.mem_singleton.1 hb) hne

variable [DecidableEq P]

/-- What a call of `addPredecessorAsPostDominated` does to the state. -/
theorem Sane.call (hg : BlockGraph h root nodes) (hs : Sane h root nodes s) {todo queue : List P}
    {full : FullHeap P w} (ht : s.todo = t :: todo)
    (hadd : FullHeap.addPredecessor depth s.current (s.full, s.queue) t = some (full, queue)) :
    (t ∉ s.met ∧ queue = s.queue ++ [t] ∧ s.full.Attaches full s.current t) ∨
    (t ∈ s.met ∧ queue = s.queue ∧ ∃ competing new, s.full.Moves full s.current t competing new) := by
  obtain ⟨-, -, hne, -, hstart⟩ := hs.target hg ht
  obtain ⟨full', hcall, he⟩ := Option.bind_eq_some_iff.1 hadd
  cases he
  rcases FullHeap.addPredecessor_cases (fun b hb => hs.top hg hb) hstart hcall with
    ⟨hm, hattach⟩ | ⟨hm, hmove⟩
  · have hmet : t ∉ s.met := fun hmet => by
      obtain ⟨htrue, -⟩ := hs.attached t hmet hne
      exact Bool.false_ne_true (hm.symm.trans htrue)
    refine .inl ⟨hmet, ?_, hattach⟩
    exact if_pos (hs.fresh t hmet).1
  · have hmet : t ∈ s.met := by
      by_contra hmet
      exact Bool.false_ne_true ((hs.fresh t hmet).2.symm.trans hm)
    refine .inr ⟨hmet, ?_, hmove⟩
    exact if_neg ((hs.mem_met hne).1 hmet)

/-- The blocks above the current block have been current, also when the block is attached. -/
theorem Sane.climbs_attached (hs : Sane h root nodes s) {full : FullHeap P w}
    (ha : s.full.Attaches full s.current t) (hmet : t ∉ s.met)
    (hc : full.blocks.Climbs s.current b) : b ∈ s.visited ∧ s.heap.Climbs s.current b := by
  induction hc with
  | refl => exact ⟨hs.current, .refl⟩
  | @tail c d _ hcd ih =>
    have hne : c ≠ t := fun he => hmet (mem_met_of_visited (he ▸ ih.1))
    have hcd' : (s.heap c).postDominator = some d := (ha.others c hne).1.symm.trans hcd
    exact ⟨hs.climbs hs.current (ih.2.tail hcd'), ih.2.tail hcd'⟩

theorem Sane.attach (hg : BlockGraph h root nodes) (hs : Sane h root nodes s) {todo : List P}
    {full : FullHeap P w} (ht : s.todo = t :: todo) (hmet : t ∉ s.met)
    (ha : s.full.Attaches full s.current t) :
    Sane h root nodes { s with full, todo, queue := s.queue ++ [t] } := by
  obtain ⟨hflow, htn, hne, hreach, -⟩ := hs.target hg ht
  have hmem : ∀ b, b ∈ s.visited ++ (s.queue ++ [t]) ↔ b ∈ s.met ∨ b = t := by
    intro b
    rw [← List.append_assoc, List.mem_append, List.mem_singleton]
    rfl
  have hold : ∀ b ∈ s.met, b ≠ t := fun b hb he => hmet (he ▸ hb)
  refine ⟨fun b => ?_, fun b => ?_, ?_, fun b hb => ?_, hs.root_visited, ?_, hs.current,
    fun b hb hbr => ?_, fun b hb => ?_, fun b key y he => ?_, ?_, fun b hb hbc x hx => ?_⟩
  · exact (ha.starting b).trans (hs.starting b)
  · exact (ha.predecessors b).trans (hs.predecessors b)
  · change (s.visited ++ (s.queue ++ [t])).Nodup
    rw [← List.append_assoc]
    exact List.Nodup.append hs.nodup (List.nodup_singleton t) (by simpa [met] using hmet)
  · rcases (hmem b).1 hb with hb | rfl
    · exact hs.inside b hb
    · exact ⟨htn, hreach⟩
  · exact (ha.others root hne.symm).1.trans hs.root_top
  · rcases (hmem b).1 hb with hb | rfl
    · obtain ⟨hmark, p, hp, hbp⟩ := hs.attached b hb hbr
      obtain ⟨hpd, hpm⟩ := ha.others b (hold b hb)
      exact ⟨hpm.trans hmark, p, hp, hpd.trans hbp⟩
    · exact ⟨ha.source.2, s.current, hs.current, ha.source.1⟩
  · obtain ⟨hb, hbt⟩ := not_or.1 (mt (hmem b).2 hb)
    obtain ⟨hpd, hpm⟩ := ha.others b hbt
    exact ⟨hpd.trans (hs.fresh b hb).1, hpm.trans (hs.fresh b hb).2⟩
  · by_cases hup : full.blocks.Climbs s.current b
    · have hbt := hold b (mem_met_of_visited (hs.climbs_attached ha hmet hup).1)
      have he' : (full.blocks b).postDominated key = some (some y) := he
      rw [ha.passed b hup] at he'
      by_cases hk : key = (s.full.blocks t).startingAddress
      · rw [hk, Function.update_self] at he'
        cases he'
        exact ⟨hk.trans (hs.starting t), (hmem t).2 (.inr rfl), hbt.symm⟩
      · rw [Function.update_of_ne hk] at he'
        obtain ⟨hkey, hy, hyb⟩ := hs.entries b key y he'
        exact ⟨hkey, (hmem y).2 (.inl hy), hyb⟩
    · have he' : (full.blocks b).postDominated key = some (some y) := he
      rw [ha.kept b hup] at he'
      obtain ⟨hkey, hy, hyb⟩ := hs.entries b key y he'
      exact ⟨hkey, (hmem y).2 (.inl hy), hyb⟩
  · obtain ⟨pre, hpre, hseen⟩ := hs.todo
    refine ⟨pre ++ [t], by simp [hpre, ht], fun x hx => (hmem x).2 ?_⟩
    rcases List.mem_append.1 hx with hx | hx
    · exact .inl (hseen x hx)
    · exact .inr (List.mem_singleton.1 hx)
  · exact (hmem x).2 (.inl (hs.processed b hb hbc x hx))

theorem Sane.move (hg : BlockGraph h root nodes) (hs : Sane h root nodes s) {todo : List P}
    {full : FullHeap P w} {competing new : P} (ht : s.todo = t :: todo) (hmet : t ∈ s.met)
    (hm : s.full.Moves full s.current t competing new) :
    Sane h root nodes { s with full, todo } := by
  obtain ⟨hflow, htn, hne, hreach, -⟩ := hs.target hg ht
  refine ⟨fun b => ?_, fun b => ?_, hs.nodup, hs.inside, hs.root_visited, ?_, hs.current,
    fun b hb hbr => ?_, fun b hb => ?_, fun b key y he => ?_, ?_, hs.processed⟩
  · exact (hm.starting b).trans (hs.starting b)
  · exact (hm.predecessors b).trans (hs.predecessors b)
  · exact (hm.others root hne.symm).1.trans hs.root_top
  · by_cases hbt : b = t
    · subst hbt
      exact ⟨hm.source.2, new, hs.climbs hs.current hm.climbs, hm.source.1⟩
    · obtain ⟨hmark, p, hp, hbp⟩ := hs.attached b hb hbr
      obtain ⟨hpd, hpm⟩ := hm.others b hbt
      exact ⟨hpm.trans hmark, p, hp, hpd.trans hbp⟩
  · have hbt : b ≠ t := fun he => hb (he ▸ hmet)
    obtain ⟨hpd, hpm⟩ := hm.others b hbt
    exact ⟨hpd.trans (hs.fresh b hb).1, hpm.trans (hs.fresh b hb).2⟩
  · exact hs.entries b key y (hm.entries b key y he)
  · obtain ⟨pre, hpre, hseen⟩ := hs.todo
    refine ⟨pre ++ [t], by simp [hpre, ht], fun x hx => ?_⟩
    rcases List.mem_append.1 hx with hx | hx
    · exact hseen x hx
    · exact List.mem_singleton.1 hx ▸ hmet

theorem Sane.next (hs : Sane h root nodes s) {next : P} {queue : List P} (ht : s.todo = [])
    (hq : s.queue = next :: queue) :
    Sane h root nodes ⟨s.full, next, (s.heap next).predecessors, queue, s.visited ++ [next]⟩ := by
  have hmet : (s.visited ++ [next]) ++ queue = s.met := by
    rw [met, hq]
    simp
  have hmem : ∀ b, b ∈ (s.visited ++ [next]) ++ queue ↔ b ∈ s.met := fun b => by rw [hmet]
  refine ⟨hs.starting, hs.predecessors, ?_, fun b hb => ?_, List.mem_append_left _ hs.root_visited,
    hs.root_top, by simp, fun b hb hbr => ?_, fun b hb => ?_, fun b key y he => ?_, ⟨[], ?_, ?_⟩,
    fun b hb hbn x hx => ?_⟩
  · change ((s.visited ++ [next]) ++ queue).Nodup
    rw [hmet]
    exact hs.nodup
  · exact hs.inside b ((hmem b).1 hb)
  · obtain ⟨hmark, p, hp, hbp⟩ := hs.attached b ((hmem b).1 hb) hbr
    exact ⟨hmark, p, List.mem_append_left _ hp, hbp⟩
  · exact hs.fresh b (mt (hmem b).2 hb)
  · obtain ⟨hkey, hy, hyb⟩ := hs.entries b key y he
    exact ⟨hkey, (hmem y).2 hy, hyb⟩
  · exact (hs.predecessors next).symm
  · intro x hx
    cases hx
  · refine (hmem x).2 ?_
    rcases List.mem_append.1 hb with hb | hb
    · by_cases hbc : b = s.current
      · obtain ⟨pre, hpre, hseen⟩ := hs.todo
        rw [ht, List.append_nil] at hpre
        refine hseen x ?_
        rw [← hpre, ← hbc]
        exact hx
      · exact hs.processed b hb hbc x hx
    · exact absurd (List.mem_singleton.1 hb) hbn

theorem Sane.step (hg : BlockGraph h root nodes) (hs : Sane h root nodes s)
    (hstep : s.step depth = some s') : Sane h root nodes s' := by
  rcases step_cases hstep with ⟨t, todo, full, queue, ht, hadd, rfl⟩ | ⟨next, queue, ht, hq, rfl⟩
  · rcases hs.call hg ht hadd with ⟨hmet, rfl, ha⟩ | ⟨hmet, rfl, competing, new, hm⟩
    · exact hs.attach hg ht hmet ha
    · exact hs.move hg ht hmet hm
  · exact hs.next ht hq

theorem Sane.steps (hg : BlockGraph h root nodes) (hs : Sane h root nodes s)
    (hsteps : Steps depth s s') : Sane h root nodes s' := by
  induction hsteps with
  | refl => exact hs
  | tail _ hstep ih => exact ih.step hg hstep

end PassState

/-- From a circle of two blocks no other block is met. -/
theorem Heap.not_climbs_circle {h : Heap P w} {a b c : P} (hab : (h a).postDominator = some b)
    (hba : (h b).postDominator = some a) (ha : c ≠ a) (hb : c ≠ b) : ¬ h.Climbs a c := by
  have hall : ∀ d, h.Climbs a d → d = a ∨ d = b := by
    intro d hd
    induction hd with
    | refl => exact .inl rfl
    | tail _ hstep ih =>
      rcases ih with rfl | rfl
      · exact .inr (Option.some.inj (hstep.symm.trans hab))
      · exact .inl (Option.some.inj (hstep.symm.trans hba))
  exact fun hc => (hall c hc).elim ha hb

/-! ## Different starting addresses -/

/-- No two blocks that lead to the return have the same starting address. -/
def DistinctStarts (h : Heap P w) (root : P) : Prop :=
  ∀ a b, Reaches h.Flows root a → Reaches h.Flows root b →
    (h a).startingAddress = (h b).startingAddress → a = b

namespace PassState

variable [DecidableEq P] {h : Heap P w} {root a b t y : P} {nodes : Finset P}
  {s s' : PassState P w} {depth : Nat} {key : ADDRINT w}

/-- When a block was met. -/
def rank (s : PassState P w) (b : P) : Nat := s.met.idxOf b

/-- What a block points to, and what has an entry for it, was met before it. -/
structure Ranked (s : PassState P w) : Prop where
  pointer : ∀ b p, (s.heap b).postDominator = some p → s.rank p < s.rank b
  entry : ∀ b key y, s.heap.Entry b key y → s.rank b < s.rank y

theorem Sane.climbs_root (hs : Sane h root nodes s) (hr : s.Ranked) (hb : b ∈ s.met) :
    s.heap.Climbs b root := by
  have hall : ∀ n b, s.rank b ≤ n → b ∈ s.met → s.heap.Climbs b root := by
    intro n
    induction n with
    | zero =>
      intro b hn hb
      by_cases hroot : b = root
      · exact hroot ▸ .refl
      · obtain ⟨-, p, -, hp⟩ := hs.attached b hb hroot
        have := hr.pointer b p hp
        omega
    | succ n ih =>
      intro b hn hb
      by_cases hroot : b = root
      · exact hroot ▸ .refl
      · obtain ⟨-, p, hv, hp⟩ := hs.attached b hb hroot
        have := hr.pointer b p hp
        exact ReflTransGen.head hp (ih p (by omega) (mem_met_of_visited hv))
  exact hall _ b (Nat.le_refl _) hb

theorem Ranked.climbs (hr : s.Ranked) (hc : s.heap.Climbs a b) : s.rank b ≤ s.rank a := by
  induction hc with
  | refl => exact Nat.le_refl _
  | tail _ hstep ih => exact (Nat.le_of_lt (hr.pointer _ _ hstep)).trans ih

theorem start_ranked (hg : BlockGraph h root nodes) : (start h root).Ranked := by
  refine ⟨fun b p hp => ?_, fun b key y he => ?_⟩
  · rw [show ((start h root).heap b).postDominator = none from (hg.fresh b).1] at hp
    cases hp
  · have he' : (h b).postDominated key = some (some y) := he
    rw [(hg.fresh b).2.2] at he'
    cases he'

theorem Ranked.attach (hs : Sane h root nodes s) (hr : s.Ranked) {todo : List P}
    {full : FullHeap P w} (hmet : t ∉ s.met) (ha : s.full.Attaches full s.current t) :
    Ranked { s with full, todo, queue := s.queue ++ [t] } := by
  have hmet' : s.visited ++ (s.queue ++ [t]) = s.met ++ [t] := by
    rw [met, List.append_assoc]
  have hold : ∀ b ∈ s.met, rank { s with full, todo, queue := s.queue ++ [t] } b = s.rank b := by
    intro b hb
    change (s.visited ++ (s.queue ++ [t])).idxOf b = s.met.idxOf b
    rw [hmet', List.idxOf_append_of_mem hb]
  have hnew : rank { s with full, todo, queue := s.queue ++ [t] } t = s.met.length := by
    change (s.visited ++ (s.queue ++ [t])).idxOf t = s.met.length
    rw [hmet', List.idxOf_append_of_notMem hmet]
    simp
  have hlt : ∀ b ∈ s.met, s.rank b < s.met.length := fun b hb => List.idxOf_lt_length_iff.2 hb
  refine ⟨fun b p hp => ?_, fun b key y he => ?_⟩
  · by_cases hbt : b = t
    · subst hbt
      obtain rfl : s.current = p := Option.some.inj (ha.source.1.symm.trans hp)
      have hcurrent := mem_met_of_visited hs.current
      rw [hold _ hcurrent, hnew]
      exact hlt _ hcurrent
    · have hp' : (s.heap b).postDominator = some p := (ha.others b hbt).1.symm.trans hp
      have hb : b ∈ s.met := by
        by_contra hb
        rw [(hs.fresh b hb).1] at hp'
        cases hp'
      have hlower := hr.pointer b p hp'
      have hp : p ∈ s.met := by
        refine List.idxOf_lt_length_iff.1 (Nat.lt_trans hlower (hlt b hb))
      rw [hold p hp, hold b hb]
      exact hlower
  · have hkept : s.heap.Entry b key y →
        rank { s with full, todo, queue := s.queue ++ [t] } b <
          rank { s with full, todo, queue := s.queue ++ [t] } y := by
      intro he
      have hlower := hr.entry b key y he
      have hy := (hs.entries b key y he).2.1
      have hb : b ∈ s.met := List.idxOf_lt_length_iff.1 (Nat.lt_trans hlower (hlt y hy))
      rw [hold b hb, hold y hy]
      exact hlower
    have he' : (full.blocks b).postDominated key = some (some y) := he
    by_cases hup : full.blocks.Climbs s.current b
    · rw [ha.passed b hup] at he'
      by_cases hk : key = (s.full.blocks t).startingAddress
      · rw [hk, Function.update_self] at he'
        cases he'
        have hb := mem_met_of_visited (hs.climbs_attached ha hmet hup).1
        rw [hold b hb, hnew]
        exact hlt b hb
      · rw [Function.update_of_ne hk] at he'
        exact hkept he'
    · rw [ha.kept b hup] at he'
      exact hkept he'

/-- The walk for `t` ends at a block that was met before `t`. -/
theorem Ranked.lower (hg : BlockGraph h root nodes) (hd : DistinctStarts h root)
    (hs : Sane h root nodes s) (hr : s.Ranked) {full : FullHeap P w} {competing new : P}
    (hne : t ≠ root) (hmet : t ∈ s.met) (hm : s.full.Moves full s.current t competing new) :
    s.rank new < s.rank t := by
  have hnew : new ∈ s.met := mem_met_of_visited (hs.climbs hs.current hm.climbs)
  rcases hm.stop with h2 | ⟨y, he⟩
  · have hroot : new = root :=
      (hg.root_start new (hs.inside new hnew).1).1 ((hs.starting new).symm.trans h2)
    rw [hroot]
    obtain ⟨-, p, hp, hpd⟩ := hs.attached t hmet hne
    exact Nat.lt_of_le_of_lt (hr.climbs (hs.climbs_root hr (mem_met_of_visited hp)))
      (hr.pointer t p hpd)
  · obtain ⟨hkey, hy, -⟩ := hs.entries new _ y he
    have hyt : y = t := by
      refine hd y t (hs.inside y hy).2 (hs.inside t hmet).2 ?_
      rw [← hkey]
      exact hs.starting t
    exact hyt ▸ hr.entry new _ y he

theorem Ranked.move (hg : BlockGraph h root nodes) (hd : DistinctStarts h root)
    (hs : Sane h root nodes s) (hr : s.Ranked) {todo : List P} {full : FullHeap P w}
    {competing new : P} (ht : s.todo = t :: todo) (hmet : t ∈ s.met)
    (hm : s.full.Moves full s.current t competing new) : Ranked { s with full, todo } := by
  obtain ⟨-, -, hne, -, -⟩ := hs.target hg ht
  refine ⟨fun b p hp => ?_, fun b key y he => ?_⟩
  · by_cases hbt : b = t
    · subst hbt
      obtain rfl : new = p := Option.some.inj (hm.source.1.symm.trans hp)
      exact hr.lower hg hd hs hne hmet hm
    · exact hr.pointer b p ((hm.others b hbt).1.symm.trans hp)
  · exact hr.entry b key y (hm.entries b key y he)

theorem Ranked.step (hg : BlockGraph h root nodes) (hd : DistinctStarts h root)
    (hs : Sane h root nodes s) (hr : s.Ranked) (hstep : s.step depth = some s') : s'.Ranked := by
  rcases step_cases hstep with ⟨t, todo, full, queue, ht, hadd, rfl⟩ | ⟨next, queue, ht, hq, rfl⟩
  · rcases hs.call hg ht hadd with ⟨hmet, rfl, ha⟩ | ⟨hmet, rfl, competing, new, hm⟩
    · exact hr.attach hs hmet ha
    · exact hr.move hg hd hs ht hmet hm
  · have hmet : (s.visited ++ [next]) ++ queue = s.met := by
      rw [met, hq]
      simp
    have hsame : ∀ b, rank ⟨s.full, next, (s.heap next).predecessors, queue, s.visited ++ [next]⟩ b =
        s.rank b := fun b => congrArg (List.idxOf b) hmet
    refine ⟨fun b p hp => ?_, fun b key y he => ?_⟩
    · rw [hsame, hsame]
      exact hr.pointer b p hp
    · rw [hsame, hsame]
      exact hr.entry b key y he

theorem Ranked.steps (hg : BlockGraph h root nodes) (hd : DistinctStarts h root)
    (hs : Sane h root nodes s) (hr : s.Ranked) (hsteps : Steps depth s s') : s'.Ranked := by
  induction hsteps with
  | refl => exact hr
  | tail hfirst hstep ih => exact ih.step hg hd (hs.steps hg hfirst) hstep

/-! ## The pass ends -/

theorem Sane.length_met (hs : Sane h root nodes s) : s.met.length ≤ nodes.card := by
  rw [← List.toFinset_card_of_nodup hs.nodup]
  refine Finset.card_le_card fun b hb => ?_
  exact (hs.inside b (List.mem_toFinset.1 hb)).1

theorem Sane.descends (hg : BlockGraph h root nodes) (hs : Sane h root nodes s) (hr : s.Ranked) :
    s.heap.Descends (· ∈ s.met) s.rank := by
  refine ⟨fun b hb h2 => ?_, fun b p hb hp => ⟨?_, hr.pointer b p hp⟩⟩
  · have hne : b ≠ root := by
      rintro rfl
      rw [hs.starting] at h2
      exact h2 ((hg.root_start b hg.root_mem).2 rfl)
    obtain ⟨-, p, -, hp⟩ := hs.attached b hb hne
    exact ⟨p, hp⟩
  · by_cases hne : b = root
    · rw [hne, hs.root_top] at hp
      cases hp
    · obtain ⟨-, q, hq, hbq⟩ := hs.attached b hb hne
      exact Option.some.inj (hbq.symm.trans hp) ▸ mem_met_of_visited hq

/-- No call follows a null pointer. -/
theorem Sane.progress (hg : BlockGraph h root nodes) (hs : Sane h root nodes s) (hr : s.Ranked)
    (hdepth : nodes.card ≤ depth) : s.Done ∨ ∃ s', s.step depth = some s' := by
  cases ht : s.todo with
  | nil =>
    cases hq : s.queue with
    | nil => exact .inl ⟨ht, hq⟩
    | cons next queue =>
      exact .inr ⟨_, by rw [PassState.step, ht, hq]⟩
  | cons t todo =>
    right
    obtain ⟨-, -, hne, -, -⟩ := hs.target hg ht
    have hrank : ∀ b, b ∈ s.met → s.rank b < depth := fun b hb =>
      Nat.lt_of_lt_of_le (List.idxOf_lt_length_iff.2 hb) (hs.length_met.trans hdepth)
    obtain ⟨full, hfull⟩ := FullHeap.exists_addPredecessorAsPostDominated (f := s.full) (t := t)
      (hs.descends hg hr) hrank (mem_met_of_visited hs.current)
      (fun hm hmet => by
        obtain ⟨htrue, -⟩ := hs.attached t hmet hne
        exact Bool.false_ne_true (hm.symm.trans htrue))
      (fun hm => by
        have hmet : t ∈ s.met := by
          by_contra hmet
          exact Bool.false_ne_true ((hs.fresh t hmet).2.symm.trans hm)
        obtain ⟨-, p, hp, hpd⟩ := hs.attached t hmet hne
        exact ⟨p, hpd, mem_met_of_visited hp⟩)
    simp only [PassState.step, ht, FullHeap.addPredecessor, hfull]
    exact ⟨_, rfl⟩

/-- The pass deals with all the predecessors of the current block. -/
theorem Sane.drain (hg : BlockGraph h root nodes) (hd : DistinctStarts h root)
    (hs : Sane h root nodes s) (hr : s.Ranked) (hdepth : nodes.card ≤ depth) :
    ∃ s', Steps depth s s' ∧ s'.todo = [] ∧ s'.visited = s.visited := by
  have hall : ∀ n (s : PassState P w), s.todo.length = n → Sane h root nodes s → s.Ranked →
      ∃ s', Steps depth s s' ∧ s'.todo = [] ∧ s'.visited = s.visited := by
    intro n
    induction n with
    | zero => exact fun s hn _ _ => ⟨s, .refl, List.length_eq_zero_iff.1 hn, rfl⟩
    | succ n ih =>
      intro s hn hs hr
      have hne : s.todo ≠ [] := fun he => by
        rw [he] at hn
        cases hn
      obtain ⟨s₁, hstep⟩ := (hs.progress hg hr hdepth).resolve_left fun hdone => hne hdone.1
      rcases step_cases hstep with ⟨t, todo, full, queue, ht, -, he⟩ | ⟨next, queue, ht, -, -⟩
      · have hlen : s₁.todo.length = n := by
          rw [ht] at hn
          rw [he]
          exact Nat.succ.inj hn
        obtain ⟨s', hsteps, htodo, hvisited⟩ :=
          ih s₁ hlen (hs.step hg hstep) (hr.step hg hd hs hstep)
        refine ⟨s', ReflTransGen.head hstep hsteps, htodo, ?_⟩
        rw [hvisited, he]
      · exact absurd ht hne
  exact hall _ s rfl hs hr

theorem Sane.ends (hg : BlockGraph h root nodes) (hd : DistinctStarts h root)
    (hs : Sane h root nodes s) (hr : s.Ranked) (hdepth : nodes.card ≤ depth) :
    ∃ s', Steps depth s s' ∧ s'.Done := by
  have hall : ∀ n (s : PassState P w), nodes.card - s.visited.length = n → Sane h root nodes s →
      s.Ranked → ∃ s', Steps depth s s' ∧ s'.Done := by
    intro n
    induction n with
    | zero =>
      intro s hn hs hr
      obtain ⟨s₁, hsteps, htodo, hvisited⟩ := hs.drain hg hd hr hdepth
      have hlen := (hs.steps hg hsteps).length_met
      rw [met, List.length_append, hvisited] at hlen
      exact ⟨s₁, hsteps, htodo, List.length_eq_zero_iff.1 (by omega)⟩
    | succ n ih =>
      intro s hn hs hr
      obtain ⟨s₁, hsteps, htodo, hvisited⟩ := hs.drain hg hd hr hdepth
      have hs₁ := hs.steps hg hsteps
      have hr₁ := hr.steps hg hd hs hsteps
      rcases hs₁.progress hg hr₁ hdepth with hdone | ⟨s₂, hstep⟩
      · exact ⟨s₁, hsteps, hdone⟩
      · rcases step_cases hstep with ⟨t, todo, full, queue, ht, -, -⟩ | ⟨next, queue, -, -, he⟩
        · rw [htodo] at ht
          cases ht
        · have hlen : nodes.card - s₂.visited.length = n := by
            rw [he]
            change nodes.card - (s₁.visited ++ [next]).length = n
            rw [List.length_append, List.length_singleton, hvisited]
            omega
          obtain ⟨s', hrest, hdone⟩ := ih s₂ hlen (hs₁.step hg hstep) (hr₁.step hg hd hs₁ hstep)
          exact ⟨s', hsteps.trans (ReflTransGen.head hstep hrest), hdone⟩
  exact hall _ s rfl hs hr

/-- The pass ends. -/
theorem exists_done (hg : BlockGraph h root nodes) (hd : DistinctStarts h root)
    (hdepth : nodes.card ≤ depth) :
    ∃ s, Steps depth (start h root) s ∧ s.Done ∧ ∀ fuel, nodes.card ≤ fuel →
      h.buildPostDominanceTree depth fuel root [] = some s.heap := by
  have hstart := start_sane hg
  obtain ⟨s, hsteps, hdone⟩ := hstart.ends hg hd (start_ranked hg) hdepth
  refine ⟨s, hsteps, hdone, fun fuel hfuel => ?_⟩
  have hlen := (hstart.steps hg hsteps).length_met
  rw [met, List.length_append] at hlen
  rw [← (FullHeap.blocks_buildPostDominanceTree depth fuel ⟨h, fun _ _ => none⟩ root [])]
  cases fuel with
  | zero => exact absurd (Nat.le_zero.1 hfuel) (Finset.card_ne_zero_of_mem hg.root_mem)
  | succ fuel =>
    have hfinish : (start h root).finish depth fuel = some s.full := by
      refine build_of_steps hsteps hdone ?_
      change s.visited.length ≤ [root].length + fuel
      rw [List.length_singleton]
      omega
    rw [show FullHeap.buildPostDominanceTree depth (fuel + 1) ⟨h, fun _ _ => none⟩ root [] =
      (start h root).finish depth fuel from rfl, hfinish]
    rfl

/-- Between any two calls no block has been current twice, whatever has a post-dominator leads up to
the return block, and the next call returns; and the pass ends. `PostDominator` is written once in
a call. -/
theorem pass_ends (hg : BlockGraph h root nodes) (hd : DistinctStarts h root)
    (hdepth : nodes.card ≤ depth) :
    (∀ s, Steps depth (start h root) s → s.visited.Nodup ∧
      (∀ b p, (s.heap b).postDominator = some p → s.heap.Climbs b root) ∧
      (s.Done ∨ ∃ s', s.step depth = some s')) ∧
    ∃ s, Steps depth (start h root) s ∧ s.Done ∧ ∀ fuel, nodes.card ≤ fuel →
      h.buildPostDominanceTree depth fuel root [] = some s.heap := by
  have hstart := start_sane hg
  have hranked := start_ranked hg
  refine ⟨fun s hsteps => ?_, exists_done hg hd hdepth⟩
  have hs := hstart.steps hg hsteps
  have hr := hranked.steps hg hd hstart hsteps
  refine ⟨(List.nodup_append.1 hs.nodup).1, fun b p hp => ?_, hs.progress hg hr hdepth⟩
  by_cases hb : b ∈ s.met
  · exact hs.climbs_root hr hb
  · rw [(hs.fresh b hb).1] at hp
    cases hp

theorem diamond_blockGraph :
    BlockGraph Heap.diamond .root {.root, .left, .right, .top} := by
  have hg := Heap.diamond_newGraph
  refine ⟨hg.root_mem, by decide, hg.nodup, fun b hb a hab => hg.closed a b hb hab, fun b => ?_⟩
  cases b <;> exact ⟨rfl, rfl, rfl⟩

theorem diamond_distinctStarts : DistinctStarts Heap.diamond .root := by
  intro a b _ _ hab
  cases a <;> cases b <;> first | rfl | exact absurd hab (by decide)

theorem pass_ends_diamond :
    (∀ s, Steps 4 (start Heap.diamond .root) s → s.visited.Nodup ∧
      (∀ b p, (s.heap b).postDominator = some p → s.heap.Climbs b .root) ∧
      (s.Done ∨ ∃ s', s.step 4 = some s')) ∧
    ∃ s, Steps 4 (start Heap.diamond .root) s ∧ s.Done ∧ ∀ fuel, 4 ≤ fuel →
      Heap.diamond.buildPostDominanceTree 4 fuel .root [] = some s.heap :=
  pass_ends diamond_blockGraph diamond_distinctStarts (by decide)

/-- Two blocks with one starting address. -/
inductive Twins | root | first | second | top
deriving DecidableEq

/-- The blocks `first` and `top` branch to each other; `second` goes to `top`. -/
def twins : Heap Twins 32
  | .root => { BasicBlock.new with startingAddress := 2, predecessors := [.first] }
  | .first => { BasicBlock.new with startingAddress := 0x10, predecessors := [.top] }
  | .second => { BasicBlock.new with startingAddress := 0x10 }
  | .top => { BasicBlock.new with startingAddress := 0x20, predecessors := [.second, .first] }

/-- The entry of `top` for `second` is taken for one for `first`, and each of `first` and `top`
becomes the post-dominator of the other. -/
theorem twins_circle : BlockGraph twins .root {.root, .first, .second, .top} ∧
    ∃ s, Steps 4 (start twins .root) s ∧ (s.heap .first).postDominator = some .top ∧
      ¬ s.heap.Climbs .first .root := by
  have hclosed : ∀ b ∈ ({.root, .first, .second, .top} : Finset Twins),
      ∀ a ∈ (twins b).predecessors,
        a ∈ ({.root, .first, .second, .top} : Finset Twins) ∧ a ≠ .root := by decide
  refine ⟨⟨by decide, by decide, by decide, fun b hb a hab => hclosed b hb a hab, fun b => ?_⟩, ?_⟩
  · cases b <;> exact ⟨rfl, rfl, rfl⟩
  refine ⟨_, .head rfl <| .head rfl <| .head rfl <| .head rfl <| .head rfl <| .head rfl .refl, rfl,
    Heap.not_climbs_circle rfl rfl (by decide) (by decide)⟩

end PassState

end Dytan
