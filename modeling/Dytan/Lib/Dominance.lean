import Mathlib.Data.List.Chain
import Mathlib.Tactic.TypeStar

/-!
# Dominance and the last visit

`Walk start next p`: `p` is a walk along `next` from a vertex with `start`. `Dominates start next d u`:
every walk meets `d` before it meets `u`. `Since d u p`: after the walk `p` met `u` last, it did not
meet `d`.

`Dominates.since`: when `d` dominates `c` and `c` dominates `x`, a walk to `x` has met `c` since it
met `d` last. So what was computed at `c` from what was computed at `d` is still so at `x`.
-/

namespace Lib.Dominance

variable {α : Type*}

def Walk (start : α → Prop) (next : α → α → Prop) (p : List α) : Prop :=
  (∀ x ∈ p.head?, start x) ∧ p.IsChain next

/-- Every walk to `u` meets `d` before. -/
def Dominates (start : α → Prop) (next : α → α → Prop) (d u : α) : Prop :=
  ∀ p, Walk start next (p ++ [u]) → d ∈ p

/-- `p` met `u`, and after the last time not `d`. -/
def Since (d u : α) (p : List α) : Prop := ∃ pre post, p = pre ++ u :: post ∧ d ∉ post

variable {start : α → Prop} {next : α → α → Prop} {c d u x : α} {p q : List α}

theorem Walk.left (h : Walk start next (p ++ q)) : Walk start next p := by
  refine ⟨fun x hx => h.1 x ?_, h.2.left_of_append⟩
  rw [List.head?_append, Option.mem_def.1 hx]
  rfl

/-- The walk to the first of two visits, and on from the second. -/
theorem Walk.splice {pre mid post : List α} (hp : Walk start next (pre ++ d :: mid))
    (hq : (d :: post).IsChain next) : Walk start next (pre ++ d :: post) := by
  refine ⟨fun x hx => hp.1 x ?_, List.isChain_split.2 ⟨(List.isChain_split.1 hp.2).1, hq⟩⟩
  cases pre <;> exact hx

theorem Walk.to (h : Walk start next p) {pre post : List α} (he : p = pre ++ u :: post) :
    Walk start next (pre ++ [u]) := by
  rw [he, List.append_cons] at h
  exact h.left

/-- No vertex that is reached dominates itself. -/
theorem Walk.not_dominates_self (h : Walk start next (p ++ [u])) : ¬ Dominates start next u u := by
  intro hd
  obtain ⟨pre, post, he, hpre⟩ := List.eq_append_cons_of_mem (hd p h)
  exact hpre (hd pre (h.left.to he))

theorem Dominates.trans (hd : Dominates start next d c) (hc : Dominates start next c u) :
    Dominates start next d u := by
  intro p hp
  obtain ⟨pre, post, he⟩ := List.append_of_mem (hc p hp)
  exact he ▸ List.mem_append_left _ (hd pre (hp.left.to he))

theorem Dominates.ne (hd : Dominates start next d u) (h : Walk start next (p ++ [u])) : d ≠ u := by
  rintro rfl
  exact h.not_dominates_self hd

theorem since_concat : Since d u (p ++ [x]) ↔ u = x ∨ Since d u p ∧ d ≠ x := by
  constructor
  · rintro ⟨pre, post, he, hpost⟩
    rcases List.eq_nil_or_concat post with rfl | ⟨post, y, rfl⟩
    · obtain ⟨-, hu⟩ := List.append_inj' he rfl
      exact .inl (List.cons.inj hu).1.symm
    · rw [List.concat_eq_append, ← List.cons_append, ← List.append_assoc] at he
      obtain ⟨hp, hy⟩ := List.append_inj' he rfl
      obtain rfl := (List.cons.inj hy).1
      rw [List.concat_eq_append, List.mem_append, not_or] at hpost
      refine .inr ⟨⟨pre, post, hp, hpost.1⟩, fun hdx => hpost.2 ?_⟩
      exact List.mem_singleton.2 hdx
  · rintro (rfl | ⟨⟨pre, post, rfl, hpost⟩, hne⟩)
    · exact ⟨p, [], rfl, List.not_mem_nil⟩
    · refine ⟨pre, post ++ [x], by rw [List.append_assoc, List.cons_append], ?_⟩
      rw [List.mem_append, List.mem_singleton]
      exact not_or.2 ⟨hpost, hne⟩

/-- The last visit to `u`. -/
theorem exists_last (h : u ∈ p) : ∃ pre post, p = pre ++ u :: post ∧ u ∉ post := by
  obtain ⟨pre, post, he, hpre⟩ := List.eq_append_cons_of_mem (List.mem_reverse.2 h)
  refine ⟨post.reverse, pre.reverse, ?_, fun hu => hpre (List.mem_reverse.1 hu)⟩
  rw [← List.reverse_reverse p, he]
  simp

/-- A walk to `x` meets `c` since it met `d` last. If it met `d` later, the walk to its first visit
to `d`, which does not meet `c`, and on from the last would reach `x` without `c`. -/
theorem Dominates.since (hd : Dominates start next d c) (hc : Dominates start next c x)
    (h : Walk start next (p ++ [x])) : Since d c (p ++ [x]) := by
  obtain ⟨pre, post, he, hpost⟩ := exists_last (List.mem_append_left [x] (hc p h))
  refine ⟨pre, post, he, fun hdpost => ?_⟩
  obtain ⟨mid, last, hlast, -⟩ := exists_last hdpost
  -- the first visit to `d`
  obtain ⟨first, rest, hfirst, hdfirst⟩ :=
    List.eq_append_cons_of_mem (show d ∈ p ++ [x] by rw [he]; simp [hdpost])
  have hcfirst : c ∉ first := by
    intro hcf
    obtain ⟨before, after, hbefore, -⟩ := List.eq_append_cons_of_mem hcf
    have hto : Walk start next (before ++ [c]) := by
      rw [hfirst, hbefore, List.append_assoc, List.cons_append] at h
      exact h.to rfl
    exact hdfirst (hbefore ▸ List.mem_append_left _ (hd before hto))
  have hne : d ≠ c := hd.ne (h.to he)
  -- on from the last
  have hsplice : Walk start next (first ++ d :: last) := by
    rw [hfirst] at h
    refine h.splice ?_
    have hchain := h.2
    rw [← hfirst, he, hlast, ← List.cons_append, ← List.append_assoc] at hchain
    exact (List.isChain_split.1 hchain).2
  have hclast : c ∉ last := fun hcl => hpost (by rw [hlast]; simp [hcl])
  rcases List.eq_nil_or_concat last with rfl | ⟨last, y, rfl⟩
  · have hx : d = x := by
      rw [hlast, ← List.cons_append, ← List.append_assoc] at he
      exact (List.cons.inj (List.append_inj' he rfl).2).1.symm
    exact hcfirst (hc first (hx ▸ hsplice))
  · have hx : y = x := by
      rw [hlast, List.concat_eq_append, ← List.cons_append, ← List.cons_append, ← List.append_assoc,
        ← List.append_assoc] at he
      exact (List.cons.inj (List.append_inj' he rfl).2).1.symm
    subst hx
    rw [List.concat_eq_append, ← List.cons_append, ← List.append_assoc] at hsplice
    have hmem := hc _ hsplice
    rw [List.concat_eq_append, List.mem_append] at hclast
    rcases List.mem_append.1 hmem with hm | hm
    · exact hcfirst hm
    · rcases List.mem_cons.1 hm with hm | hm
      · exact hne hm.symm
      · exact hclast (.inl hm)

end Lib.Dominance
