import Dytan.Tool.Draws

/-!
# Runs of the mark generator (`taint_generator.h`)

`TaintGenerator(0, max)` under any sequence of `nextTaintMark` and `SetNewTaintStart`
(`MarkCall`): `g.calls cs` is the generator after the calls `cs`, `g.returned cs` the marks they
return. The marks stay below `max`, so `_current + 1` does not overflow an `int`.

`Cycles s max g` is the invariant: from now on the marks are in `[s, max)` and the start does not
go below `s`. A call keeps it (`Cycles.step`), and `SetNewTaintStart` raises `s` to `_current`
(`Cycles.setNewTaintStart`). `cycle_after`: with a start that does not move, the marks go round
`[s, max)`.
-/

namespace Dytan

/-- A call of a `TaintGenerator`. -/
inductive MarkCall
  | nextTaintMark
  | setNewTaintStart
deriving DecidableEq, Repr

/-- The generator after the call. -/
def MarkCall.after (g : TaintGenerator) : MarkCall → TaintGenerator
  | .nextTaintMark => g.nextTaintMark.2
  | .setNewTaintStart => g.setNewTaintStart

/-- What the call returns. -/
def MarkCall.returned (g : TaintGenerator) : MarkCall → List Nat
  | .nextTaintMark => [g.nextTaintMark.1]
  | .setNewTaintStart => []

namespace TaintGenerator

/-- The generator after the calls. -/
def calls (g : TaintGenerator) (cs : List MarkCall) : TaintGenerator := cs.foldl MarkCall.after g

/-- The marks the calls return. -/
def returned (g : TaintGenerator) : List MarkCall → List Nat
  | [] => []
  | c :: cs => c.returned g ++ returned (c.after g) cs

variable {g : TaintGenerator} {s max : Nat} {c : MarkCall} {cs : List MarkCall}

theorem calls_append (pre post : List MarkCall) :
    g.calls (pre ++ post) = (g.calls pre).calls post := List.foldl_append

theorem returned_append (pre post : List MarkCall) :
    g.returned (pre ++ post) = g.returned pre ++ (g.calls pre).returned post := by
  induction pre generalizing g with
  | nil => rfl
  | cons c pre ih =>
    rw [List.cons_append, returned, ih, ← List.append_assoc]
    rfl

theorem calls_replicate (k : Nat) : g.calls (List.replicate k .nextTaintMark) = g.after k := by
  induction k generalizing g with
  | zero => rfl
  | succ k ih => exact ih

theorem returned_replicate (k : Nat) :
    g.returned (List.replicate k .nextTaintMark) = (List.range k).map g.mark := by
  induction k with
  | zero => rfl
  | succ k ih =>
    rw [List.replicate_succ', returned_append, ih, calls_replicate, List.range_succ, List.map_append]
    rfl

/-! ## The invariant -/

/-- From now on the marks are in `[s, max)`. -/
def Cycles (s max : Nat) : TaintGenerator → Prop
  | .sequential start current m => s ≤ start ∧ start ≤ current ∧ current < max ∧ m = max
  | .constant _ => False

theorem Cycles.returned_bounds (h : g.Cycles s max) : ∀ m ∈ c.returned g, s ≤ m ∧ m < max := by
  cases g with
  | constant seed => exact h.elim
  | sequential start current m =>
    obtain ⟨hs, hc, hm, -⟩ := h
    cases c with
    | nextTaintMark =>
      rintro mark hmark
      obtain rfl := List.mem_singleton.1 hmark
      exact ⟨hs.trans hc, hm⟩
    | setNewTaintStart => exact fun mark hmark => absurd hmark (List.not_mem_nil)

theorem Cycles.step (h : g.Cycles s max) (c : MarkCall) : (c.after g).Cycles s max := by
  cases g with
  | constant seed => exact h.elim
  | sequential start current m =>
    obtain ⟨hs, hc, hm, rfl⟩ := h
    cases c with
    | nextTaintMark =>
      show Cycles s m (.sequential start (if (current + 1) % m = 0 then start else current + 1) m)
      split
      · exact ⟨hs, Nat.le_refl _, hc.trans_lt hm, rfl⟩
      · rename_i hne
        have : current + 1 ≠ m := fun he => hne (by rw [he, Nat.mod_self])
        exact ⟨hs, by omega, by omega, rfl⟩
    | setNewTaintStart => exact ⟨hs.trans hc, Nat.le_refl _, hm, rfl⟩

theorem Cycles.calls (h : g.Cycles s max) (cs : List MarkCall) : (g.calls cs).Cycles s max := by
  induction cs generalizing g with
  | nil => exact h
  | cons c cs ih => exact ih (h.step c)

theorem Cycles.returned (h : g.Cycles s max) (cs : List MarkCall) :
    ∀ m ∈ g.returned cs, s ≤ m ∧ m < max := by
  induction cs generalizing g with
  | nil => exact fun m hm => absurd hm List.not_mem_nil
  | cons c cs ih =>
    intro m hm
    rcases List.mem_append.1 hm with hm | hm
    · exact h.returned_bounds m hm
    · exact ih (h.step c) m hm

/-- The generator of a state with the invariant, and the invariant with its own start. -/
theorem Cycles.eq (h : g.Cycles s max) : ∃ start current, g = .sequential start current max ∧
    s ≤ start ∧ start ≤ current ∧ current < max ∧ g.Cycles start max := by
  cases g with
  | constant seed => exact h.elim
  | sequential start current m =>
    obtain ⟨hs, hc, hm, rfl⟩ := h
    exact ⟨start, current, rfl, hs, hc, hm, Nat.le_refl _, hc, hm, rfl⟩

/-! ## A start that does not move -/

theorem cycle_after (hs : s < max) (j k : Nat) :
    (sequential s (s + j % (max - s)) max).after k =
      .sequential s (s + (j + k) % (max - s)) max := by
  induction k generalizing j with
  | zero => rfl
  | succ k ih =>
    have hlt : j % (max - s) < max - s := Nat.mod_lt j (by omega)
    have hnext : (sequential s (s + j % (max - s)) max).nextTaintMark.2 =
        .sequential s (s + (j + 1) % (max - s)) max := by
      simp only [nextTaintMark, sequential.injEq, true_and, and_true]
      by_cases he : j % (max - s) + 1 = max - s
      · have h0 : (j + 1) % (max - s) = 0 := by rw [← Nat.mod_add_mod, he, Nat.mod_self]
        rw [h0, if_pos (by rw [show s + j % (max - s) + 1 = max by omega, Nat.mod_self])]
        rfl
      · have h1 : (j + 1) % (max - s) = j % (max - s) + 1 := by
          rw [← Nat.mod_add_mod, Nat.mod_eq_of_lt (by omega)]
        rw [h1, if_neg (by rw [Nat.mod_eq_of_lt (by omega)]; omega), Nat.add_assoc]
    rw [after_succ, hnext, ih, Nat.add_right_comm, Nat.add_assoc]

theorem cycle_mark (hs : s < max) (j k : Nat) :
    (sequential s (s + j % (max - s)) max).mark k = s + (j + k) % (max - s) := by
  rw [mark, cycle_after hs]
  rfl

/-- The marks after `SetNewTaintStart`. -/
theorem newStart_mark {current : Nat} (start : Nat) (hc : current < max) (k : Nat) :
    (setNewTaintStart (.sequential start current max)).mark k = current + k % (max - current) := by
  have h := cycle_mark hc 0 k
  rw [Nat.zero_mod, Nat.add_zero, Nat.zero_add] at h
  exact h

/-- The first `max` marks. -/
theorem first_mark {k : Nat} (hk : k < max) : (sequential 0 0 max).mark k = k := by
  have h := cycle_mark (Nat.zero_lt_of_lt hk) 0 k
  rwa [Nat.sub_zero, Nat.zero_mod, Nat.add_zero, Nat.zero_add, Nat.zero_add,
    Nat.mod_eq_of_lt hk] at h

/-- Fewer than `max` marks from the beginning. -/
theorem first_marks {k : Nat} (hk : k < max) :
    (sequential 0 0 max).after k = .sequential 0 k max ∧
    (sequential 0 0 max).returned (List.replicate k .nextTaintMark) = List.range k := by
  have hafter := cycle_after (Nat.zero_lt_of_lt hk) 0 k
  simp only [Nat.sub_zero, Nat.zero_mod, Nat.zero_add, Nat.mod_eq_of_lt hk] at hafter
  refine ⟨hafter, ?_⟩
  rw [returned_replicate]
  refine (List.map_congr_left fun j hj => ?_).trans (List.map_id _)
  exact first_mark ((List.mem_range.1 hj).trans hk)

/-! ## The law -/

/-- The marks of the calls before the first `SetNewTaintStart`, and no more: each is returned once. -/
theorem reserved_once {pre : List MarkCall} (hpre : .setNewTaintStart ∉ pre)
    (hlt : pre.length < max) (post : List MarkCall) :
    ∀ m ∈ (sequential 0 0 max).returned pre,
      ((sequential 0 0 max).returned (pre ++ .setNewTaintStart :: post)).count m = 1 := by
  obtain ⟨k, rfl⟩ : ∃ k, pre = List.replicate k .nextTaintMark := by
    refine ⟨pre.length, List.eq_replicate_iff.2 ⟨rfl, fun c hc => ?_⟩⟩
    cases c with
    | nextTaintMark => rfl
    | setNewTaintStart => exact absurd hc hpre
  rw [List.length_replicate] at hlt
  obtain ⟨hafter, hfirst⟩ := first_marks hlt
  rw [returned_append, calls_replicate, hafter, hfirst]
  intro m hmem
  have hmk : m < k := List.mem_range.1 hmem
  -- the start is `k` from here on
  have hcycles : (sequential k k max).Cycles k max := ⟨Nat.le_refl _, Nat.le_refl _, hlt, rfl⟩
  have hrest : m ∉ (sequential 0 k max).returned (.setNewTaintStart :: post) := fun hr =>
    absurd (hcycles.returned post m hr).1 (Nat.not_le.2 hmk)
  rw [List.count_append, List.count_eq_zero.2 hrest,
    List.count_eq_one_of_mem List.nodup_range hmem]

/-- After any calls of `TaintGenerator(0, max)`: the bounds of the three counters, the marks of any
further calls, the marks after `SetNewTaintStart`, and the marks before the first one. -/
theorem mark_generator_law (hm : 0 < max) (pre : List MarkCall) :
    ∃ start current, (sequential 0 0 max).calls pre = .sequential start current max ∧
      0 ≤ start ∧ start ≤ current ∧ current < max ∧
      (∀ post, (∀ m ∈ (sequential start current max).returned post, start ≤ m ∧ m < max) ∧
        ∃ start' current', (sequential 0 0 max).calls (pre ++ post) =
          .sequential start' current' max ∧ start ≤ start') ∧
      (∀ k, (sequential 0 0 max).returned
          (pre ++ .setNewTaintStart :: List.replicate k .nextTaintMark) =
        (sequential 0 0 max).returned pre ++
          (List.range k).map fun j => current + j % (max - current)) ∧
      (.setNewTaintStart ∉ pre → pre.length < max → ∀ post,
        ∀ m ∈ (sequential 0 0 max).returned pre,
          ((sequential 0 0 max).returned (pre ++ .setNewTaintStart :: post)).count m = 1) := by
  have hinit : (sequential 0 0 max).Cycles 0 max := ⟨Nat.le_refl _, Nat.le_refl _, hm, rfl⟩
  obtain ⟨start, current, heq, hs, hc, hlt, hcycles⟩ := (hinit.calls pre).eq
  refine ⟨start, current, heq, hs, hc, hlt, fun post => ⟨?_, ?_⟩, fun k => ?_, fun hpre hl post => ?_⟩
  · exact (heq ▸ hcycles).returned post
  · obtain ⟨start', current', heq', hs', -⟩ := (hcycles.calls post).eq
    exact ⟨start', current', by rw [calls_append, heq'], hs'⟩
  · rw [returned_append, heq]
    refine congrArg _ ?_
    show (setNewTaintStart (.sequential start current max)).returned _ = _
    rw [returned_replicate]
    exact List.map_congr_left fun j _ => newStart_mark start hlt j
  · exact reserved_once hpre hl post

/-- Four marks, two of them reserved. -/
theorem mark_generator_law_four :
    0 < 4 ∧ (sequential 0 0 4).returned ([.nextTaintMark, .nextTaintMark] ++
      .setNewTaintStart :: List.replicate 5 .nextTaintMark) = [0, 1, 2, 3, 2, 3, 2] := by
  obtain ⟨start, current, heq, -, -, -, -, hmarks, -⟩ :=
    @mark_generator_law 4 (by decide) [.nextTaintMark, .nextTaintMark]
  obtain ⟨rfl, rfl⟩ : 0 = start ∧ 2 = current := by
    simpa [calls, MarkCall.after, TaintGenerator.nextTaintMark] using heq
  exact ⟨by decide, hmarks 5⟩

end TaintGenerator

end Dytan
