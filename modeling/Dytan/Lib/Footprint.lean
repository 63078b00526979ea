import Mathlib.Data.Setoid.Basic

/-!
# Footprints

`same i` is the equivalence of the states that hold the same at location `i`. `HasFootprint same f R
W`: `f` changes nothing outside `W`, and what it leaves in `W` it finds out from `R` alone. Actions
one after the other have a footprint again (`HasFootprint.foldl`): they do not read what an earlier
one of them has written.

`Reordered`: the events of a run in another order, where each keeps its place behind those that it
is not `Independent` of. Both orders end in the same state (`Reordered.agree`).

`slice`: the events of a run that decide what some locations hold after it. These events alone,
from a state that holds the same where the slice starts, leave the same there (`slice_agree`).
-/

namespace Lib

variable {ι κ σ ε : Type*} {same : ι → Setoid σ} {f g : σ → σ} {R R' W W' A B : List ι}
  {s s' s'' : σ}

/-- The states hold the same at every location in `A`. -/
def Agree (same : ι → Setoid σ) (A : List ι) (s s' : σ) : Prop := ∀ i ∈ A, same i s s'

/-- `f` reads `R` and writes `W`. -/
structure HasFootprint (same : ι → Setoid σ) (f : σ → σ) (R W : List ι) : Prop where
  frame : ∀ s, ∀ i ∉ W, same i (f s) s
  reads : ∀ s s', Agree same R s s' → Agree same W (f s) (f s')

namespace Agree

theorem symm (h : Agree same A s s') : Agree same A s' s := fun i hi => (same i).symm' (h i hi)

theorem trans (h : Agree same A s s') (h' : Agree same A s' s'') : Agree same A s s'' :=
  fun i hi => (same i).trans' (h i hi) (h' i hi)

theorem mono (h : Agree same A s s') (hB : B ⊆ A) : Agree same B s s' := fun i hi => h i (hB hi)

end Agree

namespace HasFootprint

theorem id : HasFootprint same (fun s => s) [] [] :=
  ⟨fun s i _ => (same i).refl' s, fun _ _ _ _ hi => absurd hi List.not_mem_nil⟩

/-- What `f` does not write is left as it is. -/
theorem keeps (hf : HasFootprint same f R W) (hA : ∀ i ∈ A, i ∉ W) : Agree same A (f s) s :=
  fun i hi => hf.frame s i (hA i hi)

section
variable [DecidableEq ι]

/-- States that hold the same at `R` and at what of `A` is not written do so at `A` after `f`. -/
theorem agree (hf : HasFootprint same f R W)
    (h : Agree same (R ++ A.filter (· ∉ W)) s s') : Agree same A (f s) (f s') := by
  intro i hi
  by_cases hW : i ∈ W
  · exact hf.reads s s' (h.mono (List.subset_append_left ..)) i hW
  · have hsame : same i s s' := h i (by simp [hi, hW])
    exact (same i).trans' (hf.frame s i hW)
      ((same i).trans' hsame ((same i).symm' (hf.frame s' i hW)))

theorem congr (hf : HasFootprint same f R W) (hs : ∀ i, same i s s') (i : ι) :
    same i (f s) (f s') := hf.agree (A := [i]) (fun j _ => hs j) i (List.mem_singleton_self i)

theorem comp (hf : HasFootprint same f R W) (hg : HasFootprint same g R' W') :
    HasFootprint same (fun s => g (f s)) (R ++ R'.filter (· ∉ W)) (W ++ W') := by
  constructor
  · intro s i hi
    rw [List.mem_append, not_or] at hi
    exact (same i).trans' (hg.frame (f s) i hi.2) (hf.frame s i hi.1)
  · intro s s' h i hi
    have hread : Agree same R' (f s) (f s') := hf.agree h
    by_cases hW' : i ∈ W'
    · exact hg.reads _ _ hread i hW'
    · have hW : i ∈ W := (List.mem_append.1 hi).resolve_right hW'
      have hsame := hf.reads s s' (h.mono (List.subset_append_left ..)) i hW
      exact (same i).trans' (hg.frame (f s) i hW')
        ((same i).trans' hsame ((same i).symm' (hg.frame (f s') i hW')))

end

/-- The locations of `κ` are all that matters. -/
theorem comap {R' W' : List κ} (hf : HasFootprint same f R W) (v : κ → ι) (hR : R ⊆ R'.map v)
    (hW : ∀ k, v k ∈ W ↔ k ∈ W') : HasFootprint (fun k => same (v k)) f R' W' := by
  refine ⟨fun s k hk => hf.frame s (v k) (mt (hW k).1 hk), fun s s' h k hk => ?_⟩
  refine hf.reads s s' (fun i hi => ?_) (v k) ((hW k).2 hk)
  obtain ⟨j, hj, rfl⟩ := List.mem_map.1 (hR hi)
  exact h j hj

end HasFootprint

/-- Two actions that do not write what the other reads or writes. -/
theorem HasFootprint.commute (hf : HasFootprint same f R W) (hg : HasFootprint same g R' W')
    (hW : ∀ i ∈ W, i ∉ R' ∧ i ∉ W') (hW' : ∀ i ∈ W', i ∉ R ∧ i ∉ W) (s : σ) (i : ι) :
    same i (g (f s)) (f (g s)) := by
  have hread : Agree same R (g s) s := hg.keeps fun j hj hj' => (hW' j hj').1 hj
  have hread' : Agree same R' (f s) s := hf.keeps fun j hj hj' => (hW j hj').1 hj
  by_cases hi : i ∈ W
  · exact (same i).trans' (hg.frame (f s) i (hW i hi).2) (hf.reads _ _ hread.symm i hi)
  · refine (same i).trans' ?_ ((same i).symm' (hf.frame (g s) i hi))
    by_cases hi' : i ∈ W'
    · exact hg.reads _ _ hread' i hi'
    · exact (same i).trans' (hg.frame (f s) i hi')
        ((same i).trans' (hf.frame s i hi) ((same i).symm' (hg.frame s i hi')))

/-! ## Runs -/

section
variable [DecidableEq ι] {act : σ → ε → σ} {reads writes : ε → List ι} {events order : List ε}
  {e e' : ε}

/-- What the events read and do not find written by an earlier one of them. -/
def readsOf (reads writes : ε → List ι) : List ε → List ι
  | [] => []
  | e :: events => reads e ++ (readsOf reads writes events).filter (· ∉ writes e)

theorem HasFootprint.foldl (hact : ∀ e, HasFootprint same (act · e) (reads e) (writes e))
    (events : List ε) :
    HasFootprint same (fun s => events.foldl act s) (readsOf reads writes events)
      (events.flatMap writes) := by
  induction events with
  | nil => exact .id
  | cons e events ih => exact (hact e).comp ih

theorem mem_readsOf {i : ι} (hi : i ∈ readsOf reads writes events) : ∃ e ∈ events, i ∈ reads e := by
  induction events with
  | nil => exact absurd hi List.not_mem_nil
  | cons e events ih =>
    rcases List.mem_append.1 hi with hi | hi
    · exact ⟨e, List.mem_cons_self, hi⟩
    · obtain ⟨e', he', hi'⟩ := ih (List.mem_filter.1 hi).1
      exact ⟨e', List.mem_cons_of_mem _ he', hi'⟩

/-! ### Another order -/

/-- Neither writes what the other reads or writes. -/
def Independent (reads writes : ε → List ι) (e e' : ε) : Prop :=
  (∀ i ∈ writes e, i ∉ reads e' ∧ i ∉ writes e') ∧ ∀ i ∈ writes e', i ∉ reads e ∧ i ∉ writes e

/-- `order` takes the events one by one, each of them when those that are left before it are
independent of it. -/
inductive Reordered (indep : ε → ε → Prop) : List ε → List ε → Prop
  | nil : Reordered indep [] []
  | cons (before : List ε) (e : ε) (after order : List ε) (he : ∀ e' ∈ before, indep e' e)
      (h : Reordered indep (before ++ after) order) :
      Reordered indep (before ++ e :: after) (e :: order)

theorem Reordered.perm {indep : ε → ε → Prop} (h : Reordered indep events order) :
    events.Perm order := by
  induction h with
  | nil => exact .refl _
  | cons before e after order _ _ ih => exact List.perm_middle.trans (ih.cons e)

/-- An event independent of those before it can come first. -/
theorem foldl_move (hact : ∀ e, HasFootprint same (act · e) (reads e) (writes e))
    {before : List ε} (he : ∀ e' ∈ before, Independent reads writes e' e) (s : σ) (i : ι) :
    same i (act (before.foldl act s) e) (before.foldl act (act s e)) := by
  refine (HasFootprint.foldl hact before).commute (hact e) (fun j hj => ?_) (fun j hj => ?_) s i
  · obtain ⟨e', he', hj⟩ := List.mem_flatMap.1 hj
    exact (he e' he').1 j hj
  · constructor
    · intro hread
      obtain ⟨e', he', hread⟩ := mem_readsOf hread
      exact ((he e' he').2 j hj).1 hread
    · intro hwrite
      obtain ⟨e', he', hwrite⟩ := List.mem_flatMap.1 hwrite
      exact ((he e' he').2 j hj).2 hwrite

/-- The two orders end in the same state. -/
theorem Reordered.agree (hact : ∀ e, HasFootprint same (act · e) (reads e) (writes e))
    (h : Reordered (Independent reads writes) events order) (hs : ∀ i, same i s s') (i : ι) :
    same i (events.foldl act s) (order.foldl act s') := by
  induction h generalizing s s' with
  | nil => exact hs i
  | cons before e after order he _ ih =>
    have hmove := (HasFootprint.foldl hact after).congr (foldl_move hact he s) i
    have hrest := ih ((hact e).congr hs)
    rw [List.foldl_append] at hrest ⊢
    exact (same i).trans' hmove hrest

/-! ### Slices -/

/-- The events that write what `A` still needs, and what they need from the state before them. -/
def slice (reads writes : ε → List ι) : List ε → List ι → List ε × List ι
  | [], A => ([], A)
  | e :: events, A =>
    let s := slice reads writes events A
    if ∃ i ∈ writes e, i ∈ s.2 then (e :: s.1, reads e ++ s.2.filter (· ∉ writes e)) else s

theorem slice_sublist (events : List ε) (A : List ι) :
    (slice reads writes events A).1.Sublist events := by
  induction events with
  | nil => exact .slnil
  | cons e events ih =>
    rw [slice]
    split
    · exact ih.cons_cons e
    · exact ih.cons e

theorem slice_agree (hact : ∀ e, HasFootprint same (act · e) (reads e) (writes e))
    (hs : Agree same (slice reads writes events A).2 s s') :
    Agree same A (events.foldl act s) ((slice reads writes events A).1.foldl act s') := by
  induction events generalizing s s' with
  | nil => exact hs
  | cons e events ih =>
    rw [slice] at hs ⊢
    split at hs
    · rename_i hw
      rw [if_pos hw]
      exact ih ((hact e).agree hs)
    · rename_i hw
      rw [if_neg hw]
      exact ih (((hact e).keeps fun i hi hi' => hw ⟨i, hi', hi⟩).trans hs)

end

end Lib
