import Dytan.Tool.Graph.Partition

/-!
# Successors and predecessors

The source enters an edge in two sets. A call puts a block of its own between the caller and the
instruction behind the call, which is a successor of the one and a predecessor of none: backwards
the edges go past it. `Blocks.Mirrored` says that this is all in which the two sets differ.

`branchIns_links` is what `BranchIns` adds: the same edges in both directions, or those through a
block of its own. `Mirrors` is the invariant of the loop.
-/

namespace Dytan

variable {w : Nat}

namespace Blocks

variable {m : Maps w} {g g' : Blocks w} {branches : AddressSets w} {a cur last next : ADDRINT w}
  {b c o A B P Q : BlockPtr w} {S : BlockPtr w → BlockPtr w → Prop}

/-- The block of a call or an indirect call. -/
def Placeholder (g : Blocks w) (P : BlockPtr w) : Prop :=
  ¬ P.inRoutine ∧ ((g.heap P).startingAddress = 1 ∨ (g.heap P).startingAddress = 4)

structure Mirrored (g : Blocks w) : Prop where
  edges : ∀ A B, ¬ g.Placeholder A → ¬ g.Placeholder B →
    (A ∈ (g.heap B).predecessors ↔ B ∈ (g.heap A).successors ∨
      ∃ P, g.Placeholder P ∧ P ∈ (g.heap A).successors ∧ B ∈ (g.heap P).successors)
  placeholder : ∀ P, g.Placeholder P →
    (∃! A, A ∈ (g.heap P).predecessors) ∧ ∃! B, B ∈ (g.heap P).successors

theorem Mirrored.congr (h : g.Mirrored)
    (hs : ∀ A, (g'.heap A).successors = (g.heap A).successors)
    (hp : ∀ A, (g'.heap A).predecessors = (g.heap A).predecessors)
    (hstart : ∀ A, (g'.heap A).startingAddress = (g.heap A).startingAddress) : g'.Mirrored := by
  have hsame : ∀ P, g'.Placeholder P ↔ g.Placeholder P := fun P => by
    rw [Placeholder, Placeholder, hstart]
  refine ⟨fun A B hA hB => ?_, fun P hP => ?_⟩
  · simp only [hs, hp, hsame]
    exact h.edges A B (mt (hsame A).2 hA) (mt (hsame B).2 hB)
  · simp only [hs, hp]
    exact h.placeholder P ((hsame P).1 hP)

/-- No edge touches `Q`. -/
structure Isolated (g : Blocks w) (Q : BlockPtr w) : Prop where
  succs : ∀ A, A ∉ (g.heap Q).successors
  preds : ∀ A, A ∉ (g.heap Q).predecessors
  succOf : ∀ A, Q ∉ (g.heap A).successors
  predOf : ∀ A, Q ∉ (g.heap A).predecessors

/-! ## What `BranchIns` adds -/

/-- The same edges in both directions, from the current block. -/
structure Direct (g g' : Blocks w) (cur : ADDRINT w) (c : BlockPtr w)
    (S : BlockPtr w → BlockPtr w → Prop) : Prop where
  links : Links g g' S S
  source : ∀ A B, S A B → A = c
  target : ∀ A B, S A B → B.inRoutine ∨
    B = .indirectTarget cur ∧ (g'.heap B).startingAddress = 5
  starting : ∀ Q, ¬ Q.inRoutine → (g'.heap Q).startingAddress = (g.heap Q).startingAddress ∨
    Q = .indirectTarget cur ∧ (g'.heap Q).startingAddress = 5

/-- Edges from the current block through the new block `Q` to `o`. -/
structure Through (g g' : Blocks w) (c Q o : BlockPtr w) : Prop where
  links : Links g g' (fun A B => edge c Q A B ∨ edge Q o A B) fun A B => edge c Q A B ∨ edge c o A B
  inRoutine : o.inRoutine
  placeholder : (g'.heap Q).startingAddress = 1 ∨ (g'.heap Q).startingAddress = 4
  starting : ∀ P, ¬ P.inRoutine → P ≠ Q →
    (g'.heap P).startingAddress = (g.heap P).startingAddress

theorem Inside.predecessorAt (h : Inside g) (hg : g.predecessorAt a c = (b, g')) :
    b.inRoutine ∧ Inside g' := by
  rcases hb : g.getBasicBlockAt a with ⟨b₁, g₁⟩
  rw [Blocks.predecessorAt, hb] at hg
  cases hg
  obtain ⟨hgrows, hmap⟩ := Grows.getBasicBlockAt (N := fun _ => False) hb
  have hinside : Inside g₁ := h.grows hgrows
  exact ⟨hinside a b hmap, hinside⟩

/-- A block of the routine becomes a successor of the current block. -/
theorem Direct.join (h : Inside g) (hg : g.predecessorAt a c = (b, g')) :
    Direct g (g'.modify c (·.insertSuccs b)) cur c (edge c b) := by
  obtain ⟨hb, -⟩ := h.predecessorAt hg
  refine ⟨((Links.predecessorAt hg).trans .insertSuccs).congr (fun _ _ => or_iff_right id)
    fun _ _ => or_iff_left id, fun A B hAB => hAB.1, ?_, fun Q _ => .inl ?_⟩
  · rintro A B ⟨-, rfl⟩
    exact .inl hb
  · exact ((Grows.predecessorAt (N := fun _ => False) hg).trans .insertSuccs).starting Q id

theorem Direct.trans {g'' : Blocks w} {S' : BlockPtr w → BlockPtr w → Prop}
    (h : Direct g g' cur c S) (h' : Direct g' g'' cur c S')
    (hS : ∀ A B, S A B → B.inRoutine) :
    Direct g g'' cur c fun A B => S A B ∨ S' A B where
  links := h.links.trans h'.links
  source A B hAB := hAB.elim (h.source A B) (h'.source A B)
  target A B hAB := hAB.elim (fun hAB => .inl (hS A B hAB)) (h'.target A B)
  starting Q hQ := by
    rcases h'.starting Q hQ with he | hnew
    · rw [he]
      exact h.starting Q hQ
    · exact .inr hnew

/-- The block of an indirect branch. -/
theorem Direct.indirectTarget : Direct g (((g.modify (.indirectTarget cur) fun block =>
      (block.setStarting 5).setEnding 5).modify (.indirectTarget cur) (·.insertPreds c)).modify c
        (·.insertSuccs (.indirectTarget cur))) cur c (edge c (.indirectTarget cur)) := by
  have hgrows := Grows.insertPreds
    (g := g.modify (.indirectTarget cur) fun block => (block.setStarting 5).setEnding 5)
    (B := .indirectTarget cur) (b := c) (N := fun _ => False) |>.trans
    (.insertSuccs (B := c) (b := .indirectTarget cur))
  have hset : ((g.modify (.indirectTarget cur) fun block =>
      (block.setStarting 5).setEnding 5).heap (.indirectTarget cur)).startingAddress = 5 := by
    rw [heap_modify, Heap.modify_same]
    rfl
  have hstart := (hgrows.starting (.indirectTarget cur) id).trans hset
  refine ⟨?_, fun A B hAB => hAB.1, ?_, fun Q _ => ?_⟩
  · refine (((Links.of_fields ?_ ?_).trans .insertPreds).trans .insertSuccs).congr
      (fun A B => ?_) fun A B => ?_
    · intro _
      rfl
    · intro _
      rfl
    · simp [noEdge]
    · simp [noEdge]
  · rintro A B ⟨-, rfl⟩
    exact .inr ⟨rfl, hstart⟩
  · by_cases hQ : Q = .indirectTarget cur
    · subst hQ
      exact .inr ⟨rfl, hstart⟩
    · refine .inl ((hgrows.starting Q id).trans ?_)
      rw [heap_modify, Heap.modify_of_ne _ _ hQ]

/-- The blocks between the current block and `o` are new. -/
theorem Through.join {g₁ g₂ : Blocks w} {start : ADDRINT w} (h : Inside g)
    (hstart : start = 1 ∨ start = 4)
    (hg₁ : Links (g.modify Q fun block => (block.setStarting start).setEnding start) g₁
      (edge c Q) (edge c Q))
    (hgrows : Grows (g.modify Q fun block => (block.setStarting start).setEnding start) g₁
      fun _ => False)
    (hg₂ : g₁.predecessorAt a c = (o, g₂)) :
    Through g (g₂.modify Q (·.insertSuccs o)) c Q o := by
  have hinside : Inside g₁ := Inside.grows (g := g.modify Q _) h hgrows
  have hrest := hgrows.trans ((Grows.predecessorAt hg₂).trans (.insertSuccs (B := Q) (b := o)))
  refine ⟨?_, (hinside.predecessorAt hg₂).1, ?_, fun P hP hPQ => ?_⟩
  · refine ((((Links.of_fields ?_ ?_).trans hg₁).trans (.predecessorAt hg₂)).trans
      .insertSuccs).congr (fun A B => ?_) fun A B => ?_
    · intro _
      rfl
    · intro _
      rfl
    · simp [noEdge]
    · simp [noEdge]
  · rw [hrest.starting Q id, heap_modify, Heap.modify_same]
    exact hstart
  · rw [hrest.starting P id, heap_modify, Heap.modify_of_ne _ _ hPQ]

theorem branchIns_links (h : g.branchIns branches cur next c = some g')
    (hin : Inside ((g.modify c (·.setEnding cur)).setAddress cur c)) :
    (∃ S, Direct ((g.modify c (·.setEnding cur)).setAddress cur c) g' cur c S) ∨
    ∃ Q o, OutsideAt cur Q ∧ Through ((g.modify c (·.setEnding cur)).setAddress cur c) g' c Q o := by
  unfold branchIns at h
  dsimp only at h
  generalize (g.modify c (·.setEnding cur)).setAddress cur c = g₀ at h hin ⊢
  cases hb : branches cur with
  | nil =>
    rw [hb] at h
    cases h
  | cons target targets =>
    simp only [hb] at h
    split_ifs at h
    · -- a call
      rcases hp : predecessorAt _ next c with ⟨o, g₁⟩
      rw [hp] at h
      cases h
      refine .inr ⟨.calledFunction cur, o, .inl rfl, .join hin (.inl rfl) ?_ ?_ hp⟩
      · exact (Links.insertSuccs.trans .insertPreds).congr (fun _ _ => or_iff_left id)
          fun _ _ => or_iff_right id
      · exact Grows.insertSuccs.trans .insertPreds
    · -- a return
      split at h
      · rename_i b hr
        cases h
        refine .inl ⟨edge c b, ?_, fun A B hAB => hAB.1, ?_, fun Q _ => .inl ?_⟩
        · exact (Links.insertPreds.trans .insertSuccs).congr (fun _ _ => or_iff_right id)
            fun _ _ => or_iff_left id
        · rintro A B ⟨-, rfl⟩
          exact .inl (hin 2 B hr)
        · exact (Grows.insertPreds.trans (.insertSuccs (N := fun _ => False))).starting Q id
      · cases h
    · -- an indirect call
      rcases hp : predecessorAt _ next c with ⟨o, g₁⟩
      rw [hp] at h
      cases h
      refine .inr ⟨.indirectTarget cur, o, .inr rfl, .join hin (.inr rfl) ?_ ?_ hp⟩
      · exact (Links.insertPreds.trans .insertSuccs).congr (fun _ _ => or_iff_right id)
          fun _ _ => or_iff_left id
      · exact Grows.insertPreds.trans .insertSuccs
    · -- an indirect branch
      cases h
      exact .inl ⟨_, .indirectTarget⟩
    all_goals
      -- a branch within the routine
      rcases hp : predecessorAt g₀ target c with ⟨b, g₁⟩
      rw [hp] at h
      dsimp only at h
      obtain ⟨hb', hin₁⟩ := hin.predecessorAt hp
      have htarget : Direct g₀ (g₁.modify c (·.insertSuccs b)) cur c (edge c b) := .join hin hp
      have hinTarget : Inside (g₁.modify c (·.insertSuccs b)) := hin₁
      have hblock : ∀ A B, edge c b A B → B.inRoutine := by
        rintro A B ⟨-, rfl⟩
        exact hb'
      cases targets
    · rcases hp' : predecessorAt _ next c with ⟨o, g₂⟩
      rw [hp'] at h
      cases h
      exact .inl ⟨_, htarget.trans (.join hinTarget hp') hblock⟩
    · dsimp only at h
      rcases hp' : predecessorAt _ _ c with ⟨o, g₂⟩
      rw [hp'] at h
      cases h
      exact .inl ⟨_, htarget.trans (.join hinTarget hp') hblock⟩
    · cases h
      exact .inl ⟨_, htarget⟩
    · dsimp only at h
      rcases hp' : predecessorAt _ _ c with ⟨o, g₂⟩
      rw [hp'] at h
      cases h
      exact .inl ⟨_, htarget.trans (.join hinTarget hp') hblock⟩

/-! ## The invariant -/

theorem five_no_flag (hw : 3 ≤ w) : ¬ ((5 : ADDRINT w) = 1 ∨ (5 : ADDRINT w) = 4) :=
  not_or.2 ⟨flag_ne hw (by decide) (by decide) (by decide),
    flag_ne hw (by decide) (by decide) (by decide)⟩

theorem zero_no_flag (hw : 3 ≤ w) : ¬ ((0 : ADDRINT w) = 1 ∨ (0 : ADDRINT w) = 4) :=
  not_or.2 ⟨flag_ne hw (by decide) (by decide) (by decide),
    flag_ne hw (by decide) (by decide) (by decide)⟩

theorem placeholder_congr (h : (g'.heap P).startingAddress = (g.heap P).startingAddress) :
    g'.Placeholder P ↔ g.Placeholder P := by
  unfold Placeholder
  rw [h]

theorem Direct.placeholder (h : Direct g g' cur c S) (hw : 3 ≤ w)
    (hnew : ¬ g.Placeholder (.indirectTarget cur)) : g'.Placeholder P ↔ g.Placeholder P := by
  by_cases hP : P.inRoutine
  · exact ⟨fun hp => absurd hP hp.1, fun hp => absurd hP hp.1⟩
  · rcases h.starting P hP with he | ⟨rfl, he⟩
    · exact placeholder_congr he
    · refine ⟨fun hp => ?_, fun hp => absurd hp hnew⟩
      rw [Placeholder, he] at hp
      exact absurd hp.2 (five_no_flag hw)

/-- No edge of `S` touches a placeholder. -/
theorem Direct.off (h : Direct g g' cur c S) (hc : c.inRoutine) (hw : 3 ≤ w)
    (hP : g'.Placeholder P) (A : BlockPtr w) : ¬ S A P ∧ ¬ S P A := by
  refine ⟨fun hS => ?_, fun hS => ?_⟩
  · rcases h.target A P hS with hin | ⟨-, he⟩
    · exact hP.1 hin
    · rw [Placeholder, he] at hP
      exact absurd hP.2 (five_no_flag hw)
  · exact hP.1 (h.source P A hS ▸ hc)

theorem Mirrored.direct (hm : g.Mirrored) (h : Direct g g' cur c S) (hc : c.inRoutine) (hw : 3 ≤ w)
    (hnew : ¬ g.Placeholder (.indirectTarget cur)) : g'.Mirrored := by
  have hsame : ∀ P, g'.Placeholder P ↔ g.Placeholder P := fun P => h.placeholder hw hnew
  refine ⟨fun A B hA hB => ?_, fun P hP => ?_⟩
  · have hthrough : ∀ P, g'.Placeholder P → ((P ∈ (g'.heap A).successors ↔
        P ∈ (g.heap A).successors) ∧ (B ∈ (g'.heap P).successors ↔ B ∈ (g.heap P).successors)) :=
      fun P hP => ⟨(h.links.succs A P).trans (or_iff_left (h.off hc hw hP A).1),
        (h.links.succs P B).trans (or_iff_left (h.off hc hw hP B).2)⟩
    rw [h.links.preds, h.links.succs, hm.edges A B (mt (hsame A).2 hA) (mt (hsame B).2 hB)]
    constructor
    · rintro ((hs | ⟨P, hP, hAP, hPB⟩) | hS)
      · exact .inl (.inl hs)
      · have hP' := (hsame P).2 hP
        exact .inr ⟨P, hP', (hthrough P hP').1.2 hAP, (hthrough P hP').2.2 hPB⟩
      · exact .inl (.inr hS)
    · rintro ((hs | hS) | ⟨P, hP, hAP, hPB⟩)
      · exact .inl (.inl hs)
      · exact .inr hS
      · exact .inl (.inr ⟨P, (hsame P).1 hP, (hthrough P hP).1.1 hAP, (hthrough P hP).2.1 hPB⟩)
  · obtain ⟨hpred, hsucc⟩ := hm.placeholder P ((hsame P).1 hP)
    refine ⟨?_, ?_⟩
    · simpa only [h.links.preds, (h.off hc hw hP _).1, or_false] using hpred
    · simpa only [h.links.succs, (h.off hc hw hP _).2, or_false] using hsucc

theorem Mirrored.through (hm : g.Mirrored) (h : Through g g' c Q o) (hc : c.inRoutine)
    (hQ : ¬ Q.inRoutine) (hiso : g.Isolated Q) : g'.Mirrored := by
  have hnewP : g'.Placeholder Q := ⟨hQ, h.placeholder⟩
  have hsame : ∀ P, P ≠ Q → (g'.Placeholder P ↔ g.Placeholder P) := by
    intro P hPQ
    by_cases hP : P.inRoutine
    · exact ⟨fun hp => absurd hP hp.1, fun hp => absurd hP hp.1⟩
    · exact placeholder_congr (h.starting P hP hPQ)
  have hcQ : c ≠ Q := fun he => hQ (he ▸ hc)
  have hoQ : o ≠ Q := fun he => hQ (he ▸ h.inRoutine)
  refine ⟨fun A B hA hB => ?_, fun P hP => ?_⟩
  · have hAQ : A ≠ Q := fun he => hA (he ▸ hnewP)
    have hBQ : B ≠ Q := fun he => hB (he ▸ hnewP)
    have hsuccs : ∀ P, P ≠ Q → (P ∈ (g'.heap A).successors ↔ P ∈ (g.heap A).successors) := by
      intro P hPQ
      rw [h.links.succs]
      simp [edge, hPQ, hAQ]
    have hsuccsB : ∀ P, P ≠ Q → (B ∈ (g'.heap P).successors ↔ B ∈ (g.heap P).successors) := by
      intro P hPQ
      rw [h.links.succs]
      simp [edge, hPQ, hBQ]
    have hthrough : Q ∈ (g'.heap A).successors ∧ B ∈ (g'.heap Q).successors ↔ A = c ∧ B = o := by
      rw [h.links.succs, h.links.succs]
      simp [edge, hAQ, hcQ.symm, hiso.succOf A, hiso.succs B]
    have hedges := hm.edges A B ?_ ?_
    · rw [h.links.preds, hedges, hsuccs B hBQ]
      constructor
      · rintro ((hs | ⟨P, hP, hAP, hPB⟩) | ⟨-, rfl⟩ | hco)
        · exact .inl hs
        · have hPQ : P ≠ Q := fun he => hiso.succOf A (he ▸ hAP)
          exact .inr ⟨P, (hsame P hPQ).2 hP, (hsuccs P hPQ).2 hAP, (hsuccsB P hPQ).2 hPB⟩
        · exact absurd rfl hBQ
        · exact .inr ⟨Q, hnewP, hthrough.2 hco⟩
      · rintro (hs | ⟨P, hP, hAP, hPB⟩)
        · exact .inl (.inl hs)
        · by_cases hPQ : P = Q
          · subst hPQ
            exact .inr (.inr (hthrough.1 ⟨hAP, hPB⟩))
          · exact .inl (.inr ⟨P, (hsame P hPQ).1 hP, (hsuccs P hPQ).1 hAP, (hsuccsB P hPQ).1 hPB⟩)
    · exact fun hp => hA ((hsame A hAQ).2 hp)
    · exact fun hp => hB ((hsame B hBQ).2 hp)
  · have hPc : P ≠ c := fun he => hP.1 (he ▸ hc)
    have hPo : P ≠ o := fun he => hP.1 (he ▸ h.inRoutine)
    by_cases hPQ : P = Q
    · subst hPQ
      refine ⟨⟨c, ?_, fun A hA => ?_⟩, o, ?_, fun B hB => ?_⟩
      · exact (h.links.preds c P).2 (.inr (.inl ⟨rfl, rfl⟩))
      · rcases (h.links.preds A P).1 hA with hold | ⟨he, -⟩ | ⟨-, he⟩
        · exact absurd hold (hiso.preds A)
        · exact he
        · exact absurd he hPo
      · exact (h.links.succs P o).2 (.inr (.inr ⟨rfl, rfl⟩))
      · rcases (h.links.succs P B).1 hB with hold | ⟨he, -⟩ | ⟨-, he⟩
        · exact absurd hold (hiso.succs B)
        · exact absurd he hPc
        · exact he
    · obtain ⟨hpred, hsucc⟩ := hm.placeholder P ((hsame P hPQ).1 hP)
      refine ⟨?_, ?_⟩
      · simpa only [h.links.preds, edge, hPQ, hPo, and_false, or_false] using hpred
      · simpa only [h.links.succs, edge, hPQ, hPc, false_and, or_false] using hsucc

/-- Nothing has been allocated for what the instruction at `a` calls or jumps to. -/
structure Unused (g : Blocks w) (Q : BlockPtr w) : Prop where
  isolated : g.Isolated Q
  placeholder : ¬ g.Placeholder Q

theorem Direct.unused (h : Direct g g' cur c S) (hu : g.Unused Q) (hc : c.inRoutine)
    (hQ : ¬ Q.inRoutine) (hne : Q ≠ .indirectTarget cur) : g'.Unused Q := by
  have hto : ∀ A, ¬ S A Q := fun A hS => (h.target A Q hS).elim hQ fun ht => hne ht.1
  have hfrom : ∀ A, ¬ S Q A := fun A hS => hQ (h.source Q A hS ▸ hc)
  refine ⟨⟨fun A hA => ?_, fun A hA => ?_, fun A hA => ?_, fun A hA => ?_⟩, fun hp => ?_⟩
  · exact ((h.links.succs Q A).1 hA).elim (hu.isolated.succs A) (hfrom A)
  · exact ((h.links.preds A Q).1 hA).elim (hu.isolated.preds A) (hto A)
  · exact ((h.links.succs A Q).1 hA).elim (hu.isolated.succOf A) (hto A)
  · exact ((h.links.preds Q A).1 hA).elim (hu.isolated.predOf A) (hfrom A)
  · rcases h.starting Q hQ with he | ⟨he, -⟩
    · exact hu.placeholder ((placeholder_congr he).1 hp)
    · exact hne he

theorem Through.unused (h : Through g g' c P o) (hu : g.Unused Q) (hc : c.inRoutine)
    (hQ : ¬ Q.inRoutine) (hne : Q ≠ P) : g'.Unused Q := by
  have hQc : Q ≠ c := fun he => hQ (he ▸ hc)
  have hQo : Q ≠ o := fun he => hQ (he ▸ h.inRoutine)
  refine ⟨⟨fun A hA => ?_, fun A hA => ?_, fun A hA => ?_, fun A hA => ?_⟩, fun hp => ?_⟩
  · rcases (h.links.succs Q A).1 hA with hold | ⟨he, -⟩ | ⟨he, -⟩
    · exact hu.isolated.succs A hold
    · exact hQc he
    · exact hne he
  · rcases (h.links.preds A Q).1 hA with hold | ⟨-, he⟩ | ⟨-, he⟩
    · exact hu.isolated.preds A hold
    · exact hne he
    · exact hQo he
  · rcases (h.links.succs A Q).1 hA with hold | ⟨-, he⟩ | ⟨-, he⟩
    · exact hu.isolated.succOf A hold
    · exact hne he
    · exact hQo he
  · rcases (h.links.preds Q A).1 hA with hold | ⟨he, -⟩ | ⟨he, -⟩
    · exact hu.isolated.predOf A hold
    · exact hQc he
    · exact hQc he
  · exact hu.placeholder ((placeholder_congr (h.starting Q hQ hne)).1 hp)

/-! ## The loop -/

/-- What the loop keeps: nothing has been allocated for the calls and jumps behind `last`. -/
structure Mirrors (g : Blocks w) (last : ADDRINT w) : Prop where
  inside : g.Inside
  mirrored : g.Mirrored
  unused : ∀ a, last < a → ∀ Q, OutsideAt a Q → g.Unused Q

theorem OutsideAt.not_inRoutine (h : OutsideAt a Q) : ¬ Q.inRoutine := by
  rcases h with rfl | rfl
  · exact id
  · exact id

theorem OutsideAt.ne (h : OutsideAt a Q) (h' : OutsideAt cur P) (hne : a ≠ cur) : Q ≠ P := by
  rcases h with rfl | rfl <;> rcases h' with rfl | rfl
  · exact fun he => hne (BlockPtr.calledFunction.inj he)
  · exact fun he => by cases he
  · exact fun he => by cases he
  · exact fun he => hne (BlockPtr.indirectTarget.inj he)

theorem Mirrors.mono (hm : Mirrors g last) (hle : last ≤ a) : Mirrors g a :=
  ⟨hm.inside, hm.mirrored, fun x hx => hm.unused x (by bv_omega)⟩

/-- Edges between blocks of the routine. -/
theorem Mirrors.inner (hm : Mirrors g last) (hin : g'.Inside) (h : ∀ x, Direct g g' x c S)
    (hc : c.inRoutine) (hw : 3 ≤ w) (hlt : last < a) : Mirrors g' last := by
  refine ⟨hin, hm.mirrored.direct (h a) hc hw (hm.unused a hlt _ (.inr rfl)).placeholder,
    fun x hx Q hQ => ?_⟩
  refine (h last).unused (hm.unused x hx Q hQ) hc hQ.not_inRoutine (hQ.ne (.inr rfl) fun he => ?_)
  subst he
  exact BitVec.lt_irrefl _ hx

theorem Mirrors.direct (hm : Mirrors g last) (hin : g'.Inside) (h : Direct g g' cur c S)
    (hc : c.inRoutine) (hw : 3 ≤ w) (hlt : last < cur) : Mirrors g' cur := by
  refine ⟨hin, hm.mirrored.direct h hc hw (hm.unused cur hlt _ (.inr rfl)).placeholder,
    fun x hx Q hQ => ?_⟩
  refine h.unused (hm.unused x (BitVec.lt_trans hlt hx) Q hQ) hc hQ.not_inRoutine
    (hQ.ne (.inr rfl) fun he => ?_)
  subst he
  exact BitVec.lt_irrefl _ hx

theorem Mirrors.through (hm : Mirrors g last) (hin : g'.Inside) (h : Through g g' c Q o)
    (hc : c.inRoutine) (hQ : OutsideAt cur Q) (hlt : last < cur) : Mirrors g' cur := by
  refine ⟨hin, hm.mirrored.through h hc hQ.not_inRoutine (hm.unused cur hlt Q hQ).isolated,
    fun x hx P hP => ?_⟩
  refine h.unused (hm.unused x (BitVec.lt_trans hlt hx) P hP) hc hP.not_inRoutine
    (hP.ne hQ fun he => ?_)
  subst he
  exact BitVec.lt_irrefl _ hx

/-- No edge is entered. -/
theorem Direct.refl (hs : ∀ A, (g'.heap A).successors = (g.heap A).successors)
    (hp : ∀ A, (g'.heap A).predecessors = (g.heap A).predecessors)
    (hstart : ∀ Q, ¬ Q.inRoutine → (g'.heap Q).startingAddress = (g.heap Q).startingAddress) :
    Direct g g' cur c noEdge := by
  refine ⟨⟨fun A B => ?_, fun A B => ?_⟩, fun _ _ => False.elim, fun _ _ => False.elim,
    fun Q hQ => .inl (hstart Q hQ)⟩
  · rw [hs]
    exact (or_iff_left id).symm
  · rw [hp]
    exact (or_iff_left id).symm

/-- An instruction is put in its block: at most the edge from the block before is entered. -/
theorem Direct.opened (m : Maps w) (hin : g.Inside) {currentBlock : Option (BlockPtr w)}
    (hcurrent : ∀ c ∈ currentBlock, c.inRoutine) (previous cur : ADDRINT w) :
    (g.opened m previous cur currentBlock).1.inRoutine ∧
      (g.opened m previous cur currentBlock).2.Inside ∧
      ∃ c S, c.inRoutine ∧ ∀ x, Direct g (g.opened m previous cur currentBlock).2 x c S := by
  have hstarting : ∀ (g₁ : Blocks w) b, b.inRoutine → ∀ Q, ¬ Q.inRoutine →
      ((g₁.modify b (·.setStarting cur)).heap Q).startingAddress =
        (g₁.heap Q).startingAddress := by
    intro g₁ b hb Q hQ
    rw [heap_modify, Heap.modify_of_ne _ _ (by rintro rfl; exact hQ hb)]
  cases currentBlock with
  | none =>
    rcases hg : g.getBasicBlockAt cur with ⟨b, g₁⟩
    obtain ⟨hgrows, hmap⟩ := Grows.getBasicBlockAt (N := fun _ => False) hg
    have hin₁ : g₁.Inside := hin.grows hgrows
    have hb := hin₁ cur b hmap
    have hheap := heap_getBasicBlockAt hg
    simp only [Blocks.opened, hg]
    refine ⟨hb, hin₁, .returnBlock, noEdge, trivial, fun x => .refl (fun A => ?_) (fun A => ?_)
      fun Q hQ => ?_⟩
    · rw [heap_modify, Heap.modify_field BasicBlock.successors (by intro _; rfl), hheap]
    · rw [heap_modify, Heap.modify_field BasicBlock.predecessors (by intro _; rfl), hheap]
    · rw [hstarting _ _ hb Q hQ, hheap]
  | some c =>
    have hc := hcurrent c rfl
    by_cases ht : (m.targets cur).isEmpty = false
    · rcases hg : (g.modify c (·.setEnding previous)).getBasicBlockAt cur with ⟨b, g₁⟩
      obtain ⟨hgrows, hmap⟩ := Grows.getBasicBlockAt (N := fun _ => False) hg
      have hin₁ : g₁.Inside := Inside.grows (g := g.modify c _) hin hgrows
      have hb := hin₁ cur b hmap
      have hheap := heap_getBasicBlockAt hg
      simp only [Blocks.opened, ht, if_true, hg]
      refine ⟨hb, hin₁, c, edge c b, hc, fun x => ⟨?_, fun A B hAB => hAB.1, ?_, fun Q hQ => .inl ?_⟩⟩
      · refine (((((Links.of_fields ?_ ?_).trans (.of_heap hheap)).trans .insertSuccs).trans
          .insertPreds).trans (.of_fields ?_ ?_)).congr (fun A B => ?_) fun A B => ?_
        · intro _
          rfl
        · intro _
          rfl
        · intro _
          rfl
        · intro _
          rfl
        · simp [noEdge]
        · simp [noEdge]
      · rintro A B ⟨-, rfl⟩
        exact .inl hb
      · rw [hstarting _ _ hb Q hQ, heap_modify,
          Heap.modify_field BasicBlock.startingAddress (by intro _; rfl), heap_modify,
          Heap.modify_field BasicBlock.startingAddress (by intro _; rfl), hheap, heap_modify,
          Heap.modify_field BasicBlock.startingAddress (by intro _; rfl)]
    · simp only [Blocks.opened, if_neg ht]
      exact ⟨hc, hin.setAddress hc, .returnBlock, noEdge, trivial,
        fun x => .refl (fun _ => rfl) (fun _ => rfl) fun _ _ => rfl⟩

theorem Mirrors.buildIns {currentBlock currentBlock' : Option (BlockPtr w)} (hm : Mirrors g last)
    (hcurrent : ∀ c ∈ currentBlock, c.inRoutine) (hw : 3 ≤ w) (hlt : last < cur)
    (hg : g.buildIns m last cur next currentBlock = some (currentBlock', g')) :
    Mirrors g' cur ∧ ∀ c ∈ currentBlock', c.inRoutine := by
  obtain ⟨hb, hin, c, S, hc, hdirect⟩ := Direct.opened m hm.inside hcurrent last cur
  have hopened := hm.inner hin hdirect hc hw hlt
  rw [buildIns_eq] at hg
  generalize g.opened m last cur currentBlock = opened at hb hin hopened hg
  split_ifs at hg with hbranches
  · cases hg
    refine ⟨hopened.mono (BitVec.le_of_lt hlt), fun c hc => ?_⟩
    cases hc
    exact hb
  · obtain ⟨g₁, hbranch, he⟩ := Option.bind_eq_some_iff.1 hg
    cases he
    have hin' : Inside ((opened.2.modify opened.1 (·.setEnding cur)).setAddress cur opened.1) :=
      Inside.setAddress (g := opened.2.modify opened.1 _) hin hb
    have hended := hopened.inner (c := opened.1) hin' (fun x => .refl (fun A => ?_) (fun A => ?_)
      fun Q _ => ?_) hb hw hlt
    · refine ⟨?_, fun c hc => ?_⟩
      · have hin₁ := hin'.grows (branchIns_grows hbranch)
        rcases branchIns_links hbranch hin' with ⟨S, hdirect⟩ | ⟨Q, o, hQ, hthrough⟩
        · exact hended.direct hin₁ hdirect hb hw hlt
        · exact hended.through hin₁ hthrough hb hQ hlt
      · cases hc
    · exact Heap.modify_field BasicBlock.successors (by intro _; rfl) ..
    · exact Heap.modify_field BasicBlock.predecessors (by intro _; rfl) ..
    · exact Heap.modify_field BasicBlock.startingAddress (by intro _; rfl) ..

theorem Mirrors.buildLoop {invalid : ADDRINT w} {post : List (FlowINS w)}
    {currentBlock : Option (BlockPtr w)} (hm : Mirrors g last)
    (hcurrent : ∀ c ∈ currentBlock, c.inRoutine) (hw : 3 ≤ w)
    (hsorted : post.Pairwise fun i j => i.address < j.address)
    (hlt : ∀ i ∈ post, last < i.address)
    (hg : g.buildLoop m invalid last currentBlock post = some g') : g'.Mirrored := by
  induction post generalizing g last currentBlock with
  | nil =>
    cases currentBlock with
    | none =>
      cases hg
      exact hm.mirrored
    | some c =>
      cases hg
      refine hm.mirrored.congr (fun A => ?_) (fun A => ?_) fun A => ?_
      · exact Heap.modify_field BasicBlock.successors (by intro _; rfl) ..
      · exact Heap.modify_field BasicBlock.predecessors (by intro _; rfl) ..
      · exact Heap.modify_field BasicBlock.startingAddress (by intro _; rfl) ..
  | cons ins post ih =>
    rw [Blocks.buildLoop] at hg
    obtain ⟨⟨currentBlock', g₁⟩, hg₁, hg⟩ := Option.bind_eq_some_iff.1 hg
    obtain ⟨hm', hcurrent'⟩ := hm.buildIns hcurrent hw (hlt ins List.mem_cons_self) hg₁
    obtain ⟨hhead, htail⟩ := List.pairwise_cons.1 hsorted
    exact ih hm' hcurrent' htail hhead hg

theorem initial_mirrors (hw : 3 ≤ w) (f : ADDRINT w) : Mirrors (initial f) f := by
  have hsuccs : ∀ A, ((initial f).heap A).successors = [] := by
    intro A
    simp only [initial, Blocks.setAddress, heap_modify]
    rw [Heap.modify_field BasicBlock.successors (by intro _; rfl),
      Heap.modify_field BasicBlock.successors (by intro _; rfl)]
    rfl
  have hpreds : ∀ A, ((initial f).heap A).predecessors = [] := by
    intro A
    simp only [initial, Blocks.setAddress, heap_modify]
    rw [Heap.modify_field BasicBlock.predecessors (by intro _; rfl),
      Heap.modify_field BasicBlock.predecessors (by intro _; rfl)]
    rfl
  have hplaceholder : ∀ P, ¬ (initial f).Placeholder P := by
    rintro P ⟨hP, hflag⟩
    have hstart : ((initial f).heap P).startingAddress = 0 := by
      simp only [initial, Blocks.setAddress, heap_modify]
      rw [Heap.modify_of_ne _ _ (by rintro rfl; exact hP trivial),
        Heap.modify_of_ne _ _ (by rintro rfl; exact hP trivial)]
      rfl
    rw [hstart] at hflag
    exact zero_no_flag hw hflag
  refine ⟨fun a B hB => ?_, ⟨fun A B _ _ => ?_, fun P hP => absurd hP (hplaceholder P)⟩,
    fun a _ Q _ => ⟨⟨?_, ?_, ?_, ?_⟩, hplaceholder Q⟩⟩
  · rw [initial_addressMap] at hB
    by_cases h2 : a = 2
    · rw [h2, Function.update_self] at hB
      cases hB
      trivial
    · rw [Function.update_of_ne h2] at hB
      by_cases hf : a = f
      · rw [hf, Function.update_self] at hB
        cases hB
        trivial
      · rw [Function.update_of_ne hf] at hB
        cases hB
  · simp [hsuccs, hpreds]
  · simp [hsuccs]
  · simp [hpreds]
  · simp [hsuccs]
  · simp [hpreds]

end Blocks

namespace Listing

/-- Successor and predecessor edges mirror each other. -/
theorem blocks_mirrored (r : Listing w) : ∃ g, r.blocks = some g ∧ g.Mirrored := by
  obtain ⟨g, hg, -⟩ := (Blocks.initial_ready r.firstIns.address).buildLoop (m := r.maps) r.invalid
    (some (.block r.firstIns.address)) (List.pairwise_cons.1 r.increasing).2
    (List.pairwise_cons.1 r.increasing).1
  refine ⟨g, r.blocks_eq.trans hg, ?_⟩
  refine (Blocks.initial_mirrors r.width r.firstIns.address).buildLoop (fun c hc => ?_) r.width
    (List.pairwise_cons.1 r.increasing).2 (List.pairwise_cons.1 r.increasing).1 hg
  cases hc
  trivial

end Listing

end Dytan
