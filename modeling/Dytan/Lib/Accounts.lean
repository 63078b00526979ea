import Dytan.Lib.Heap
import Mathlib.Data.Set.Card

/-!
# Objects without a reference

`Heap.lost h ρ`: the objects of `h` that no reference of `ρ` is to. `Accounts h ρ n`: there are `n`
objects more than references. The operations on the heap change the two together, so that `n` grows
only when a reference to an object is overwritten or dropped (`Accounts.replace`, `Accounts.forget`);
when the references are to different objects, `n` is the number of lost ones (`Accounts.lost`).

`Quiet m`: the program `m` makes and frees no object. `Succeeds m h`: `m` has a result from `h`.
-/

namespace Lib

variable {α β γ : Type} {K : Type*} {h h' : Heap α} {ρ : K → Option ℕ} {v : K → Option α} {k : K}
  {p n : ℕ} {a : α} {m : HeapM α β} {f : β → HeapM α γ}

/-! ## Objects -/

/-- The addresses with an object. -/
def Heap.live (h : Heap α) : Set ℕ := {p | (h.get p).isSome}

@[simp] theorem Heap.mem_live : p ∈ h.live ↔ (h.get p).isSome := Iff.rfl

theorem Heap.live_finite (h : Heap α) : h.live.Finite := by
  refine (Set.finite_lt_nat h.next).subset fun p hp => ?_
  by_contra hlt
  have hfree := h.free p (Nat.le_of_not_lt hlt)
  simp [hfree] at hp

/-- An update keeps the objects. -/
theorem Heap.live_store (hp : p ∈ h.live) : (h.store p a).live = h.live := by
  ext q
  by_cases he : q = p
  · subst he
    exact iff_of_true (by simp) hp
  · simp [Function.update_of_ne he]

theorem Heap.live_alloc (h : Heap α) (p : ℕ) (a : α) : (h.store p a).live = insert p h.live := by
  ext q
  by_cases he : q = p
  · subst he
    simp
  · simp [he]

theorem Heap.live_erase (h : Heap α) (p : ℕ) : (h.erase p).live = h.live \ {p} := by
  ext q
  by_cases he : q = p
  · subst he
    simp
  · simp [he]

/-- The objects that no reference is to. -/
def Heap.lost (h : Heap α) (ρ : K → Option ℕ) : Set ℕ := {p ∈ h.live | ∀ k, ρ k ≠ some p}

/-! ## Accounts -/

/-- The keys with a reference. -/
def keysOf (ρ : K → Option ℕ) : Set K := {k | (ρ k).isSome}

@[simp] theorem mem_keysOf : k ∈ keysOf ρ ↔ (ρ k).isSome := Iff.rfl

/-- There are `n` objects more than references. -/
structure Accounts (h : Heap α) (ρ : K → Option ℕ) (n : ℕ) : Prop where
  finite : (keysOf ρ).Finite
  count : h.live.ncard = (keysOf ρ).ncard + n

theorem Accounts.congr (ha : Accounts h ρ n) (hl : h'.live = h.live) : Accounts h' ρ n :=
  ⟨ha.finite, by rw [hl, ha.count]⟩

theorem Accounts.nothing : Accounts (.empty : Heap α) (fun _ : K => none) 0 := by
  have hk : keysOf (fun _ : K => none) = ∅ := by simp [keysOf]
  have hl : (Heap.empty : Heap α).live = ∅ := by simp [Heap.live, Heap.empty]
  exact ⟨by simp [hk], by simp [hk, hl]⟩

/-- When no two references are to one object, the others are lost. -/
theorem Accounts.lost (ha : Accounts h ρ n) (ho : Owns h ρ v) : (h.lost ρ).ncard = n := by
  have hrefs : {p | ∃ k, ρ k = some p}.ncard = (keysOf ρ).ncard := by
    refine (Set.ncard_congr (fun k (hk : k ∈ keysOf ρ) => (ρ k).get hk) ?_ ?_ ?_).symm
    · intro k hk
      exact ⟨k, (Option.some_get hk).symm⟩
    · intro k k' hk hk' he
      refine ho.apart k k' _ (Option.some_get hk).symm ?_
      exact (Option.some_get hk').symm.trans (congrArg some he.symm)
    · rintro p ⟨k, hk⟩
      exact ⟨k, by simp [hk], by simp [hk]⟩
  have hsub : {p | ∃ k, ρ k = some p} ⊆ h.live := by
    rintro p ⟨k, hk⟩
    exact ho.live k p hk
  have hlost : h.lost ρ = h.live \ {p | ∃ k, ρ k = some p} := by
    ext p
    simp [Heap.lost]
  have hcount := Set.ncard_sdiff_add_ncard_of_subset hsub h.live_finite
  rw [hlost]
  rw [hrefs, ha.count] at hcount
  omega

variable [DecidableEq K]

theorem keysOf_some (ρ : K → Option ℕ) (k : K) (p : ℕ) :
    keysOf (Function.update ρ k (some p)) = insert k (keysOf ρ) := by
  ext k'
  by_cases he : k' = k
  · subst he
    simp
  · simp [he]

theorem keysOf_none (ρ : K → Option ℕ) (k : K) :
    keysOf (Function.update ρ k none) = keysOf ρ \ {k} := by
  ext k'
  by_cases he : k' = k
  · subst he
    simp
  · simp [he]

/-- A new object gets a reference. -/
theorem Accounts.add (ha : Accounts h ρ n) (hp : h.get p = none) (hk : ρ k = none) :
    Accounts (h.store p a) (Function.update ρ k (some p)) n := by
  have hlive : p ∉ h.live := by simp [hp]
  have hkey : k ∉ keysOf ρ := by simp [hk]
  refine ⟨?_, ?_⟩
  · rw [keysOf_some]
    exact ha.finite.insert k
  · rw [keysOf_some, Heap.live_alloc, Set.ncard_insert_of_notMem hlive h.live_finite,
      Set.ncard_insert_of_notMem hkey ha.finite, ha.count]
    omega

/-- A reference is overwritten by one to a new object. -/
theorem Accounts.replace (ha : Accounts h ρ n) (hp : h.get p = none) (hk : (ρ k).isSome) :
    Accounts (h.store p a) (Function.update ρ k (some p)) (n + 1) := by
  have hlive : p ∉ h.live := by simp [hp]
  have hkeys : keysOf (Function.update ρ k (some p)) = keysOf ρ := by
    rw [keysOf_some]
    exact Set.insert_eq_of_mem hk
  refine ⟨hkeys ▸ ha.finite, ?_⟩
  rw [hkeys, Heap.live_alloc, Set.ncard_insert_of_notMem hlive h.live_finite, ha.count]
  omega

/-- A reference is dropped. -/
theorem Accounts.forget (ha : Accounts h ρ n) (hk : (ρ k).isSome) :
    Accounts h (Function.update ρ k none) (n + 1) := by
  have hcount := Set.ncard_sdiff_singleton_add_one (a := k) (s := keysOf ρ) hk ha.finite
  rw [← keysOf_none] at hcount
  refine ⟨?_, ?_⟩
  · rw [keysOf_none]
    exact ha.finite.sdiff
  · rw [ha.count]
    omega

/-- An object is freed with its reference. -/
theorem Accounts.erase (ha : Accounts h ρ n) (hp : p ∈ h.live) (hk : (ρ k).isSome) :
    Accounts (h.erase p) (Function.update ρ k none) n := by
  have hkeys := Set.ncard_sdiff_singleton_add_one (a := k) (s := keysOf ρ) hk ha.finite
  have hlive := Set.ncard_sdiff_singleton_add_one hp h.live_finite
  rw [← keysOf_none] at hkeys
  rw [← Heap.live_erase, ha.count] at hlive
  refine ⟨?_, by omega⟩
  rw [keysOf_none]
  exact ha.finite.sdiff

/-! ## Rules -/

/-- `m` makes and frees no object. -/
structure Quiet (m : HeapM α β) : Prop where
  live : ∀ h, Yields m h fun _ h' => h'.live = h.live

theorem Quiet.pure (b : β) : Quiet (pure b : HeapM α β) := ⟨fun _ => .pure rfl⟩

theorem Quiet.bind (hm : Quiet m) (hf : ∀ b, Quiet (f b)) : Quiet (m >>= f) := by
  refine ⟨fun h => Yields.bind fun b h₁ hb => ?_⟩
  rw [← hm.live h b h₁ hb]
  exact (hf b).live h₁

theorem Quiet.read (p : ℕ) : Quiet (HeapM.read p : HeapM α α) := by
  refine ⟨fun h a h' ha => ?_⟩
  obtain ⟨b, -, he⟩ := Option.map_eq_some_iff.1 ha
  cases he
  rfl

theorem Quiet.modify (p : ℕ) (g : α → Option α) : Quiet (HeapM.modify p g) := by
  refine ⟨fun h u h' hu => ?_⟩
  obtain ⟨b, hb, he⟩ := Option.map_eq_some_iff.1 hu
  obtain ⟨a, ha, -⟩ := Option.bind_eq_some_iff.1 hb
  cases he
  exact Heap.live_store (by simp [ha])

section
variable {Q : β → Heap α → Prop}

omit [DecidableEq K] in
theorem Accounts.yields_quiet (ha : Accounts h ρ n) (hm : Quiet m)
    (hQ : ∀ b h', Accounts h' ρ n → Q b h') : Yields m h Q :=
  fun b h' hb => hQ b h' (ha.congr (hm.live h b h' hb))

end

section
variable {Q : ℕ → Heap α → Prop} {malloc : Malloc α}

theorem Accounts.yields_alloc (ha : Accounts h ρ n) (hk : ρ k = none)
    (hQ : ∀ p h', Accounts h' (Function.update ρ k (some p)) n → Q p h') :
    Yields (HeapM.alloc malloc a) h Q := by
  intro p h' hp
  cases hp
  exact hQ _ _ (ha.add (malloc.fresh h) hk)

theorem Accounts.yields_replace (ha : Accounts h ρ n) (hk : (ρ k).isSome)
    (hQ : ∀ p h', Accounts h' (Function.update ρ k (some p)) (n + 1) → Q p h') :
    Yields (HeapM.alloc malloc a) h Q := by
  intro p h' hp
  cases hp
  exact hQ _ _ (ha.replace (malloc.fresh h) hk)

end

theorem Accounts.yields_release {Q : Unit → Heap α → Prop} (ha : Accounts h ρ n)
    (hk : ρ k = some p) (hQ : ∀ h', Accounts h' (Function.update ρ k none) n → Q () h') :
    Yields (HeapM.release p) h Q := by
  intro u h' hu
  obtain ⟨a, hp, he⟩ := Option.map_eq_some_iff.1 hu
  cases he
  exact hQ _ (ha.erase (by simp [hp]) (by simp [hk]))

/-- `m` has a result from `h`. -/
def Succeeds (m : HeapM α β) (h : Heap α) : Prop := ∃ b h', m h = some (b, h')

theorem Succeeds.ensures {Q : β → Heap α → Prop} (hm : Succeeds m h) (hQ : Yields m h Q) :
    Ensures m h Q := by
  obtain ⟨b, h', hb⟩ := hm
  exact ⟨b, h', hb, hQ b h' hb⟩

theorem Ensures.succeeds {Q : β → Heap α → Prop} (hm : Ensures m h Q) : Succeeds m h := by
  obtain ⟨b, h', hb, -⟩ := hm
  exact ⟨b, h', hb⟩

theorem Succeeds.bind (hm : Succeeds m h) (hf : Yields m h fun b h' => Succeeds (f b) h') :
    Succeeds (m >>= f) h := by
  obtain ⟨b, h', hb, c, h'', hc⟩ := hm.ensures hf
  have hrun : Ensures (m >>= f) h fun _ _ => True :=
    Ensures.bind ⟨b, h', hb, c, h'', hc, trivial⟩
  exact hrun.succeeds

/-- A loop whose rounds have a result in every state with `Q`, which they keep. -/
theorem Succeeds.foldlM {Q : β → Heap α → Prop} {f : β → γ → HeapM α β} {l : List γ}
    (hf : ∀ b h c, Q b h → Yields (f b c) h Q)
    (hs : ∀ b h, ∀ c ∈ l, Q b h → Succeeds (f b c) h) {b : β} (hQ : Q b h) :
    Succeeds (l.foldlM f b) h := by
  induction l generalizing b h with
  | nil => exact ⟨b, h, rfl⟩
  | cons c l ih =>
    rw [List.foldlM_cons]
    refine (hs b h c List.mem_cons_self hQ).bind fun b' h' hb => ?_
    exact ih (fun b h c hc => hs b h c (List.mem_cons_of_mem _ hc)) (hf b h c hQ b' h' hb)

end Lib
