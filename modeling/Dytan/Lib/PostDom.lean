import Mathlib.Data.Finset.Card
import Mathlib.Tactic.ByContra
import Mathlib.Tactic.Cases
import Mathlib.Tactic.TypeStar

/-!
# Post-dominance in a directed graph

`Path E exit a p`: `p` is a path from `a` to `exit` along `E`. `PostDominates E exit d a`: `d` is on
all of them; `Strict` and `Immediate` as usual. `Avoids E d goal a`: `goal` can be reached from `a`
without meeting `d`, so that `d` post-dominates `a` when `exit` cannot (`strict_iff`).

The post-dominators of a vertex form a chain (`PostDominates.total`) that the immediate
post-dominators climb (`Immediate.postDominates_iff`); `height` counts the steps.

`addEdge E t s` is `E` with one more edge. `avoids_addEdge` says what it makes avoidable, and
`strict_addEdge_source` and `strict_addEdge_below` how it changes the strict post-dominators of `t`
and of the vertices `t` post-dominates. An edge is `Stable` when it changes nothing else: the
immediate post-dominators of all vertices but `t` then stay (`Immediate.addEdge_stable`).
-/

namespace Lib.PostDom

variable {V : Type*}

/-- A path from a vertex to `exit`. -/
inductive Path (E : V → V → Prop) (exit : V) : V → List V → Prop
  | exit : Path E exit exit [exit]
  | cons {a b : V} {p : List V} : E a b → Path E exit b p → Path E exit a (a :: p)

def Reaches (E : V → V → Prop) (exit a : V) : Prop := ∃ p, Path E exit a p

/-- `d` is on every path from `a` to `exit`. -/
def PostDominates (E : V → V → Prop) (exit d a : V) : Prop := ∀ p, Path E exit a p → d ∈ p

def Strict (E : V → V → Prop) (exit d a : V) : Prop := d ≠ a ∧ PostDominates E exit d a

/-- The strict post-dominator that all others post-dominate. -/
structure Immediate (E : V → V → Prop) (exit d a : V) : Prop where
  strict : Strict E exit d a
  least : ∀ d', Strict E exit d' a → PostDominates E exit d' d

/-- `goal` can be reached from `a` without meeting `d`. -/
inductive Avoids (E : V → V → Prop) (d goal : V) : V → Prop
  | here : goal ≠ d → Avoids E d goal goal
  | step {a b : V} : a ≠ d → E a b → Avoids E d goal b → Avoids E d goal a

variable {E E' : V → V → Prop} {exit a b d t s goal goal' x : V}

theorem Reaches.refl : Reaches E exit exit := ⟨_, .exit⟩

theorem Reaches.step (h : E a b) (hb : Reaches E exit b) : Reaches E exit a := by
  obtain ⟨p, hp⟩ := hb
  exact ⟨_, .cons h hp⟩

theorem Reaches.mono (hE : ∀ a b, E a b → E' a b) (h : Reaches E exit a) : Reaches E' exit a := by
  obtain ⟨p, hp⟩ := h
  induction hp with
  | exit => exact .refl
  | cons he _ ih => exact ih.step (hE _ _ he)

/-- A vertex that reaches `exit` is `exit` or has an edge to a vertex that does. -/
theorem Reaches.cases (h : Reaches E exit a) : a = exit ∨ ∃ b, E a b ∧ Reaches E exit b := by
  obtain ⟨p, hp⟩ := h
  cases hp with
  | exit => exact .inl rfl
  | cons he hp => exact .inr ⟨_, he, _, hp⟩

/-! ## Avoiding a vertex -/

theorem Avoids.goal_ne (h : Avoids E d goal a) : goal ≠ d := by
  induction h with
  | here h => exact h
  | step _ _ _ ih => exact ih

theorem Avoids.trans (h : Avoids E d goal a) (h' : Avoids E d goal' goal) :
    Avoids E d goal' a := by
  induction h with
  | here _ => exact h'
  | step ha he _ ih => exact .step ha he ih

theorem Avoids.mono (hE : ∀ a b, E a b → E' a b) (h : Avoids E d goal a) :
    Avoids E' d goal a := by
  induction h with
  | here h => exact .here h
  | step ha he _ ih => exact .step ha (hE _ _ he) ih

theorem avoids_exit_iff : Avoids E d exit a ↔ ∃ p, Path E exit a p ∧ d ∉ p := by
  constructor
  · intro h
    induction h with
    | here h => exact ⟨_, .exit, by simpa using h.symm⟩
    | step ha he _ ih =>
      obtain ⟨p, hp, hd⟩ := ih
      exact ⟨_, .cons he hp, by simp [hd, ha.symm]⟩
  · rintro ⟨p, hp, hd⟩
    induction hp with
    | exit => exact .here (by simpa using fun h => hd (by simp [h]))
    | cons he _ ih =>
      rw [List.mem_cons, not_or] at hd
      exact .step (Ne.symm hd.1) he (ih hd.2)

theorem postDominates_iff : PostDominates E exit d a ↔ ¬ Avoids E d exit a := by
  rw [avoids_exit_iff]
  constructor
  · rintro h ⟨p, hp, hd⟩
    exact hd (h p hp)
  · intro h p hp
    by_contra hd
    exact h ⟨p, hp, hd⟩

theorem strict_iff : Strict E exit d a ↔ d ≠ a ∧ ¬ Avoids E d exit a := by
  rw [Strict, postDominates_iff]

/-- A way to `exit` without `d` does not meet a vertex that `d` post-dominates. -/
theorem Avoids.of_strict (h : Avoids E d exit a) (ht : ¬ Avoids E d exit t) :
    Avoids E t exit a := by
  induction h with
  | here h => exact .here fun he => ht (he ▸ .here h)
  | step ha he h ih => exact .step (fun hat => ht (hat ▸ .step ha he h)) he ih

/-- Of `t` and `d`, one is met first, or `t` not at all. -/
theorem avoids_first (hne : t ≠ d) (h : Reaches E exit x) :
    Avoids E d t x ∨ Avoids E t d x ∨ Avoids E t exit x := by
  obtain ⟨p, hp⟩ := h
  induction hp with
  | exit =>
    by_cases he : exit = t
    · exact .inl (he ▸ .here (he ▸ hne))
    · exact .inr (.inr (.here he))
  | @cons a b p he _ ih =>
    by_cases hat : a = t
    · subst hat
      exact .inl (.here hne)
    by_cases had : a = d
    · subst had
      exact .inr (.inl (.here hne.symm))
    rcases ih with h | h | h
    · exact .inl (.step had he h)
    · exact .inr (.inl (.step hat he h))
    · exact .inr (.inr (.step hat he h))

/-- A strict post-dominator leaves the vertex behind. -/
theorem Strict.avoids (h : Strict E exit d t) (ht : Reaches E exit t) : Avoids E t exit d := by
  obtain ⟨hne, hd⟩ := strict_iff.1 h
  have hP : ∀ {x p}, Path E exit x p → Avoids E t exit d ∨ Avoids E d exit x := by
    intro x p hp
    induction hp with
    | exit =>
      by_cases he : exit = d
      · exact .inl (he ▸ .here (he ▸ hne))
      · exact .inr (.here he)
    | @cons a b p he _ ih =>
      rcases ih with h | h
      · exact .inl h
      by_cases had : a = d
      · subst had
        exact .inl (.step hne he (h.of_strict hd))
      · exact .inr (.step had he h)
  obtain ⟨p, hp⟩ := ht
  exact (hP hp).resolve_right hd

theorem Strict.irrefl : ¬ Strict E exit a a := fun h => h.1 rfl

theorem Strict.trans (h : Strict E exit d t) (h' : Strict E exit t x) (ht : Reaches E exit t) :
    Strict E exit d x := by
  have hav := h.avoids ht
  obtain ⟨hne, hd⟩ := strict_iff.1 h
  obtain ⟨hne', ht'⟩ := strict_iff.1 h'
  refine strict_iff.2 ⟨?_, fun hc => ht' (hc.of_strict hd)⟩
  rintro rfl
  exact ht' hav

/-- A vertex meets the nearer of two strict post-dominators first. -/
theorem Strict.avoids_before (h : Strict E exit d t) (h' : Strict E exit t x)
    (ht : Reaches E exit t) (hx : Reaches E exit x) : Avoids E d t x := by
  obtain ⟨-, hav⟩ := strict_iff.1 h'
  rcases avoids_first h.1.symm hx with hf | hf | hf
  · exact hf
  · exact absurd (hf.trans (h.avoids ht)) hav
  · exact absurd hf hav

/-- The exit has no strict post-dominator. -/
theorem not_strict_exit : ¬ Strict E exit d exit := by
  rintro ⟨hne, h⟩
  have := h _ .exit
  simp [hne] at this

/-- The exit post-dominates everything. -/
theorem postDominates_exit : PostDominates E exit exit a := by
  intro p hp
  induction hp with
  | exit => simp
  | cons _ _ ih => exact List.mem_cons_of_mem _ ih

/-- A strict post-dominator can be reached. -/
theorem Strict.reaches (h : Strict E exit d a) (ha : Reaches E exit a) : Reaches E exit d := by
  obtain ⟨p, hp⟩ := ha
  have hin := h.2 p hp
  clear h
  induction hp with
  | exit => rw [List.mem_singleton.1 hin]; exact .refl
  | cons he hp ih =>
    rcases List.mem_cons.1 hin with rfl | hin
    · exact ⟨_, .cons he hp⟩
    · exact ih hin

/-! ## The chain of post-dominators -/

theorem PostDominates.refl : PostDominates E exit a a := by
  intro p hp
  cases hp <;> simp

theorem postDominates_iff_strict : PostDominates E exit d a ↔ d = a ∨ Strict E exit d a := by
  by_cases h : d = a
  · subst h
    exact iff_of_true .refl (.inl rfl)
  · simp [Strict, h]

theorem postDominates_exit_iff : PostDominates E exit d exit ↔ d = exit := by
  rw [postDominates_iff_strict, or_iff_left not_strict_exit]

theorem PostDominates.trans (h : PostDominates E exit d t) (h' : PostDominates E exit t x)
    (ht : Reaches E exit t) : PostDominates E exit d x := by
  rw [postDominates_iff_strict] at h h' ⊢
  rcases h with rfl | h
  · exact h'
  · rcases h' with rfl | h'
    · exact .inr h
    · exact .inr (h.trans h' ht)

theorem PostDominates.reaches (h : PostDominates E exit d a) (ha : Reaches E exit a) :
    Reaches E exit d := by
  rcases postDominates_iff_strict.1 h with rfl | h
  · exact ha
  · exact h.reaches ha

theorem PostDominates.antisymm (h : PostDominates E exit d t) (h' : PostDominates E exit t d)
    (ht : Reaches E exit t) : d = t := by
  rcases postDominates_iff_strict.1 h with he | h
  · exact he
  · rcases postDominates_iff_strict.1 h' with he | h'
    · exact he.symm
    · exact absurd (h.trans h' ht) Strict.irrefl

/-- A strict post-dominator is not post-dominated in turn. -/
theorem Strict.not_postDominates (h : Strict E exit d t) (ht : Reaches E exit t) :
    ¬ PostDominates E exit t d := fun h' => h.1 (h.2.antisymm h' ht)

theorem PostDominates.strict_trans (h : PostDominates E exit d t) (h' : Strict E exit t x)
    (ht : Reaches E exit t) : Strict E exit d x := by
  rcases postDominates_iff_strict.1 h with rfl | h
  · exact h'
  · exact h.trans h' ht

/-- Of two post-dominators of a vertex, one post-dominates the other. -/
theorem PostDominates.total (h : PostDominates E exit d x) (h' : PostDominates E exit t x)
    (hx : Reaches E exit x) : PostDominates E exit d t ∨ PostDominates E exit t d := by
  by_cases hne : t = d
  · subst hne
    exact .inl .refl
  rw [postDominates_iff] at h h'
  by_contra hn
  rw [not_or, postDominates_iff, postDominates_iff, not_not, not_not] at hn
  rcases avoids_first hne hx with hf | hf | hf
  · exact h (hf.trans hn.1)
  · exact h' (hf.trans hn.2)
  · exact h' hf

/-- The strict post-dominators of a vertex are the post-dominators of the immediate one. -/
theorem Immediate.strict_iff (h : Immediate E exit t x) (hx : Reaches E exit x) :
    Strict E exit d x ↔ PostDominates E exit d t := by
  constructor
  · exact h.least d
  · intro hd
    exact hd.strict_trans h.strict (h.strict.reaches hx)

theorem Immediate.postDominates_iff (h : Immediate E exit t x) (hx : Reaches E exit x) :
    PostDominates E exit d x ↔ d = x ∨ PostDominates E exit d t := by
  rw [postDominates_iff_strict, h.strict_iff hx]

open Classical in
/-- The number of strict post-dominators among `nodes`. -/
noncomputable def height (E : V → V → Prop) (exit : V) (nodes : Finset V) (a : V) : ℕ :=
  (nodes.filter (Strict E exit · a)).card

theorem Strict.height_lt {nodes : Finset V} (h : Strict E exit d a) (ha : Reaches E exit a)
    (hd : d ∈ nodes) : height E exit nodes d < height E exit nodes a := by
  classical
  refine Finset.card_lt_card ⟨fun x hx => ?_, fun hsub => ?_⟩
  · rw [Finset.mem_filter] at hx ⊢
    exact ⟨hx.1, hx.2.trans h (h.reaches ha)⟩
  · have hin := hsub (Finset.mem_filter.2 ⟨hd, h⟩)
    exact Strict.irrefl (Finset.mem_filter.1 hin).2

theorem height_le (nodes : Finset V) : height E exit nodes a ≤ nodes.card := by
  classical
  exact Finset.card_filter_le ..

/-! ## One more edge -/

/-- `E` with an edge from `t` to `s`. -/
def addEdge (E : V → V → Prop) (t s : V) (a b : V) : Prop := E a b ∨ a = t ∧ b = s

theorem avoids_addEdge : Avoids (addEdge E t s) d exit a ↔
    Avoids E d exit a ∨ Avoids E d t a ∧ Avoids E d exit s := by
  constructor
  · intro h
    induction h with
    | here h => exact .inl (.here h)
    | step ha he h ih =>
      rcases he with he | ⟨rfl, rfl⟩
      · rcases ih with ih | ⟨ih, hs⟩
        · exact .inl (.step ha he ih)
        · exact .inr ⟨.step ha he ih, hs⟩
      · rcases ih with ih | ⟨-, hs⟩
        · exact .inr ⟨.here ha, ih⟩
        · exact .inr ⟨.here ha, hs⟩
  · have hE : ∀ a b, E a b → addEdge E t s a b := fun a b h => .inl h
    rintro (h | ⟨ht, hs⟩)
    · exact h.mono hE
    · exact (ht.mono hE).trans (.step ht.goal_ne (.inr ⟨rfl, rfl⟩) (hs.mono hE))

theorem reaches_addEdge (hs : Reaches E exit s) : Reaches (addEdge E t s) exit t :=
  (hs.mono fun _ _ h => .inl h).step (.inr ⟨rfl, rfl⟩)

/-- When all edges lead to vertices that reach `exit`, the source is all that can be new. -/
theorem reaches_addEdge_iff (hE : ∀ a b, E a b → Reaches E exit b) (hs : Reaches E exit s) :
    Reaches (addEdge E t s) exit x ↔ Reaches E exit x ∨ x = t := by
  constructor
  · rintro ⟨p, hp⟩
    cases hp with
    | exit => exact .inl .refl
    | cons he _ =>
      rcases he with he | ⟨rfl, -⟩
      · exact .inl ((hE _ _ he).step he)
      · exact .inr rfl
  · rintro (h | rfl)
    · exact h.mono fun _ _ h => .inl h
    · exact reaches_addEdge hs

/-- More edges, fewer post-dominators. -/
theorem Strict.of_addEdge (h : Strict (addEdge E t s) exit d x) : Strict E exit d x := by
  rw [strict_iff] at h ⊢
  exact ⟨h.1, fun hav => h.2 (hav.mono fun _ _ h => .inl h)⟩

/-- The strict post-dominators of the edge's source. -/
theorem strict_addEdge_source : Strict (addEdge E t s) exit d t ↔
    Strict E exit d t ∧ PostDominates E exit d s := by
  rw [strict_iff, strict_iff, avoids_addEdge, postDominates_iff, not_or, not_and]
  constructor
  · rintro ⟨hne, ht, hs⟩
    exact ⟨⟨hne, ht⟩, hs (.here hne.symm)⟩
  · rintro ⟨⟨hne, ht⟩, hs⟩
    exact ⟨hne, ht, fun _ => hs⟩

/-- The strict post-dominators of a vertex that the edge's source strictly post-dominates. -/
theorem strict_addEdge_below (ht : Reaches E exit t) (hx : Reaches E exit x)
    (htx : Strict E exit t x) : Strict (addEdge E t s) exit d x ↔
      Strict E exit d x ∧ (Strict E exit d t → Strict (addEdge E t s) exit d t) := by
  constructor
  · intro h
    refine ⟨h.of_addEdge, fun hdt => strict_addEdge_source.2 ⟨hdt, ?_⟩⟩
    rw [strict_iff, avoids_addEdge, not_or, not_and] at h
    rw [postDominates_iff]
    exact h.2.2 (hdt.avoids_before htx ht hx)
  · rintro ⟨h, hs⟩
    obtain ⟨hne, hx'⟩ := strict_iff.1 h
    refine strict_iff.2 ⟨hne, fun hav => ?_⟩
    rcases avoids_addEdge.1 hav with hav | ⟨hxt, hds⟩
    · exact hx' hav
    · have hdt : Strict E exit d t := strict_iff.2 ⟨hxt.goal_ne.symm, fun hc => hx' (hxt.trans hc)⟩
      exact postDominates_iff.1 (strict_addEdge_source.1 (hs hdt)).2 hds

/-- A new source does not change what was there before. -/
theorem strict_addEdge_new (hnew : ∀ a, ¬ E a t) (hne : x ≠ t) :
    Strict (addEdge E t s) exit d x ↔ Strict E exit d x := by
  refine ⟨Strict.of_addEdge, fun h => ?_⟩
  obtain ⟨hd, hav⟩ := strict_iff.1 h
  refine strict_iff.2 ⟨hd, fun hav' => ?_⟩
  have hunmet : ∀ {y}, Avoids E d t y → y = t := by
    intro y hy
    induction hy with
    | here _ => rfl
    | step _ he _ ih => subst ih; exact absurd he (hnew _)
  rcases avoids_addEdge.1 hav' with h | ⟨hxt, -⟩
  · exact hav h
  · exact hne (hunmet hxt)

theorem Immediate.addEdge_of_new (hnew : ∀ a, ¬ E a t) (hne : x ≠ t) (hd : d ≠ t)
    (h : Immediate E exit d x) : Immediate (addEdge E t s) exit d x := by
  refine ⟨(strict_addEdge_new hnew hne).2 h.strict, fun y hy => ?_⟩
  rw [postDominates_iff_strict, strict_addEdge_new hnew hd, ← postDominates_iff_strict]
  exact h.least y ((strict_addEdge_new hnew hne).1 hy)

/-- The target is the immediate post-dominator of a new source. -/
theorem Immediate.addEdge_new (hnew : ∀ a, ¬ E a t) (ht : ¬ Reaches E exit t)
    (hs : Reaches E exit s) : Immediate (addEdge E t s) exit s t := by
  have hst : s ≠ t := fun h => ht (h ▸ hs)
  refine ⟨strict_addEdge_source.2 ⟨⟨hst, fun p hp => absurd ⟨p, hp⟩ ht⟩, .refl⟩, fun y hy => ?_⟩
  rw [postDominates_iff_strict, strict_addEdge_new hnew hst, ← postDominates_iff_strict]
  exact (strict_addEdge_source.1 hy).2

/-- The edge takes no strict post-dominator from the vertices whose ways to `exit` do not all meet
its source. -/
def Stable (E : V → V → Prop) (exit t s : V) : Prop :=
  ∀ x, Reaches E exit x → x ≠ t → ¬ Strict E exit t x →
    ∀ d, Strict E exit d x → Strict (addEdge E t s) exit d x

theorem Stable.of_new (hnew : ∀ a, ¬ E a t) : Stable E exit t s :=
  fun _ _ hne _ _ hd => (strict_addEdge_new hnew hne).2 hd

/-- A stable edge keeps the immediate post-dominators of all vertices but its source. -/
theorem Immediate.addEdge_stable (hst : Stable E exit t s) (ht : Reaches E exit t)
    (hx : Reaches E exit x) (hne : x ≠ t) (h : Immediate E exit d x) :
    Immediate (addEdge E t s) exit d x := by
  have hd : Reaches E exit d := h.strict.reaches hx
  by_cases htx : Strict E exit t x
  · have htd : PostDominates E exit t d := h.least t htx
    -- What post-dominates `x` still, and `t` before, post-dominates `t` still.
    have hkeep : ∀ {y}, Strict (addEdge E t s) exit y x → Strict E exit y t →
        Strict (addEdge E t s) exit y t := fun h => ((strict_addEdge_below ht hx htx).1 h).2
    refine ⟨(strict_addEdge_below ht hx htx).2 ⟨h.strict, fun hdt => ?_⟩, fun y hy => ?_⟩
    · exact absurd htd (hdt.not_postDominates ht)
    · rcases postDominates_iff_strict.1 (h.least y hy.of_addEdge) with rfl | hyd
      · exact .refl
      rcases postDominates_iff_strict.1 htd with rfl | htd
      · exact (hkeep hy hyd).2
      · exact ((strict_addEdge_below ht hd htd).2 ⟨hyd, hkeep hy⟩).2
  · have htd : ¬ PostDominates E exit t d := fun hc => htx (hc.strict_trans h.strict hd)
    rw [postDominates_iff_strict, not_or] at htd
    refine ⟨hst x hx hne htx d h.strict, fun y hy => ?_⟩
    rcases postDominates_iff_strict.1 (h.least y hy.of_addEdge) with rfl | hyd
    · exact .refl
    · exact (hst d hd (Ne.symm htd.1) htd.2 y hyd).2

/-- The new immediate post-dominator of the source: the nearest strict post-dominator that also
post-dominates the target. -/
theorem Immediate.addEdge_source (hst : Stable E exit t s) (ht : Reaches E exit t)
    (hs : Reaches E exit s) (hdt : Strict E exit d t) (hds : PostDominates E exit d s)
    (hleast : ∀ y, PostDominates E exit y s → Strict E exit y t → PostDominates E exit y d) :
    Immediate (addEdge E t s) exit d t := by
  have hd : Reaches E exit d := hds.reaches hs
  refine ⟨strict_addEdge_source.2 ⟨hdt, hds⟩, fun y hy => ?_⟩
  obtain ⟨hyt, hys⟩ := strict_addEdge_source.1 hy
  rcases postDominates_iff_strict.1 (hleast y hys hyt) with rfl | hyd
  · exact .refl
  · have htd : ¬ Strict E exit t d := fun hc => hdt.not_postDominates ht hc.2
    exact (hst d hd hdt.1 htd y hyd).2

/-- Conversely, an edge that keeps the immediate post-dominators of all vertices but its source is
stable. -/
theorem Stable.of_immediate {nodes : Finset V} (hn : ∀ x, Reaches E exit x → x ∈ nodes)
    (h : ∀ x, Reaches E exit x → x ≠ exit → x ≠ t →
      ∃ p, Immediate E exit p x ∧ Immediate (addEdge E t s) exit p x) :
    Stable E exit t s := by
  suffices H : ∀ n x, height E exit nodes x < n → Reaches E exit x → x ≠ t →
      ¬ Strict E exit t x → ∀ d, Strict E exit d x → Strict (addEdge E t s) exit d x from
    fun x => H _ x (Nat.lt_succ_self _)
  intro n
  induction n with
  | zero => intro x hx; omega
  | succ n ih =>
    intro x hx hr hne htx d hd
    have hexit : x ≠ exit := fun he => not_strict_exit (he ▸ hd)
    obtain ⟨p, hp, hp'⟩ := h x hr hexit hne
    have hrp : Reaches E exit p := hp.strict.reaches hr
    rcases postDominates_iff_strict.1 (hp.least d hd) with rfl | hdp
    · exact hp'.strict
    have htp : p ≠ t := fun he => htx (he ▸ hp.strict)
    have hlt := hp.strict.height_lt hr (hn p hrp)
    have hdp' := ih p (by omega) hrp htp (fun hc => htx (hc.trans hp.strict hrp)) d hdp
    exact hdp'.trans hp'.strict (hrp.mono fun _ _ h => .inl h)

/-! ## Finite sets of edges -/

def ofList (l : List (V × V)) (a b : V) : Prop := (a, b) ∈ l

theorem ofList_concat (l : List (V × V)) : ofList (l ++ [(t, s)]) = addEdge (ofList l) t s := by
  funext a b
  simp [ofList, addEdge]

/-- Edges that are complete for the vertices they reach have all the paths. -/
theorem Path.of_complete (h : ∀ a b, E' a b → Reaches E exit b → E a b) {p : List V}
    (hp : Path E' exit a p) : Path E exit a p := by
  induction hp with
  | exit => exact .exit
  | cons he _ ih => exact .cons (h _ _ he ⟨_, ih⟩) ih

theorem Path.mono (h : ∀ a b, E a b → E' a b) {p : List V} (hp : Path E exit a p) :
    Path E' exit a p := by
  induction hp with
  | exit => exact .exit
  | cons he _ ih => exact .cons (h _ _ he) ih

theorem Immediate.congr (h : ∀ a p, Path E exit a p ↔ Path E' exit a p)
    (hd : Immediate E exit d x) : Immediate E' exit d x := by
  refine ⟨⟨hd.strict.1, fun p hp => hd.strict.2 p ((h x p).2 hp)⟩, fun y hy p hp => ?_⟩
  exact hd.least y ⟨hy.1, fun p hp => hy.2 p ((h x p).1 hp)⟩ p ((h d p).2 hp)

end Lib.PostDom
