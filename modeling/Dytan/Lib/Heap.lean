import Mathlib.Data.Nat.Notation
import Mathlib.Logic.Function.Basic
import Mathlib.Tactic.TypeStar

/-!
# Programs on a heap

`Heap α` has objects at addresses, and a `Malloc α` picks an address where there is none. A program
(`HeapM`) has no result when it uses an address without an object.

`Owns h ρ v`: the references `ρ` of a set of keys are to objects of `h`, no two keys refer to the same
object, and `v` is what they refer to. An update through one reference then changes the value of that
key alone (`Owns.store`), and so for the other operations. `Ensures m h Q`: the program `m` has a
result from `h`, and it meets `Q`; `Yields m h Q`: a result meets `Q` if there is one.
`Owns.ensures_modify` and its siblings are the rules.
-/

namespace Lib

/-- Objects at addresses; none is at an address from `next` on. -/
structure Heap (α : Type) where
  get : ℕ → Option α
  next : ℕ
  free : ∀ p, next ≤ p → get p = none

namespace Heap

variable {α : Type} (h : Heap α) (p q : ℕ) (a : α)

def empty : Heap α := ⟨fun _ => none, 0, fun _ _ => rfl⟩

def store : Heap α where
  get := Function.update h.get p (some a)
  next := max h.next (p + 1)
  free q hq := by
    rw [Function.update_of_ne (by omega)]
    exact h.free q (by omega)

def erase : Heap α where
  get := Function.update h.get p none
  next := h.next
  free q hq := by
    by_cases he : q = p
    · rw [he, Function.update_self]
    · rw [Function.update_of_ne he]
      exact h.free q hq

@[simp] theorem store_get : (h.store p a).get = Function.update h.get p (some a) := rfl
@[simp] theorem erase_get : (h.erase p).get = Function.update h.get p none := rfl

end Heap

/-- An allocator. -/
structure Malloc (α : Type) where
  pick : Heap α → ℕ
  fresh : ∀ h : Heap α, h.get (pick h) = none

/-- The allocator that never uses an address again. -/
def Malloc.bump (α : Type) : Malloc α := ⟨Heap.next, fun h => h.free _ (Nat.le_refl _)⟩

abbrev HeapM (α β : Type) := StateT (Heap α) Option β

section
variable {α β γ : Type}

/-- The object at `p`. -/
def HeapM.read (p : ℕ) : HeapM α α := fun h => (h.get p).map (·, h)

/-- The object at `p` becomes `f` of it. -/
def HeapM.modify (p : ℕ) (f : α → Option α) : HeapM α Unit :=
  fun h => ((h.get p).bind f).map fun a => ((), h.store p a)

/-- A new object. -/
def HeapM.alloc (malloc : Malloc α) (a : α) : HeapM α ℕ :=
  fun h => some (malloc.pick h, h.store (malloc.pick h) a)

/-- The object at `p` is freed. -/
def HeapM.release (p : ℕ) : HeapM α Unit := fun h => (h.get p).map fun _ => ((), h.erase p)

/-- `m` has a result from `h`, and it meets `Q`. -/
def Ensures (m : HeapM α β) (h : Heap α) (Q : β → Heap α → Prop) : Prop :=
  ∃ b h', m h = some (b, h') ∧ Q b h'

variable {m : HeapM α β} {f : β → HeapM α γ} {h : Heap α} {Q : β → Heap α → Prop}
  {R : γ → Heap α → Prop}

theorem Ensures.pure {b : β} (hQ : Q b h) : Ensures (pure b) h Q := ⟨b, h, rfl, hQ⟩

theorem Ensures.bind (hm : Ensures m h fun b h' => Ensures (f b) h' R) : Ensures (m >>= f) h R := by
  obtain ⟨b, h', hb, c, h'', hc, hR⟩ := hm
  refine ⟨c, h'', ?_, hR⟩
  show (m h).bind (fun x => f x.1 x.2) = _
  rw [hb]
  exact hc

/-- If `m` has a result from `h`, it meets `Q`. -/
def Yields (m : HeapM α β) (h : Heap α) (Q : β → Heap α → Prop) : Prop :=
  ∀ b h', m h = some (b, h') → Q b h'

theorem Ensures.yields (hm : Ensures m h Q) : Yields m h Q := by
  obtain ⟨b, h', hb, hQ⟩ := hm
  intro c h'' hc
  rw [hb] at hc
  cases hc
  exact hQ

theorem Yields.bind (hm : Yields m h fun b h' => Yields (f b) h' R) : Yields (m >>= f) h R := by
  intro c h'' hc
  change (m h).bind (fun x => f x.1 x.2) = _ at hc
  obtain ⟨⟨b, h'⟩, hb, hc⟩ := Option.bind_eq_some_iff.1 hc
  exact hm b h' hb c h'' hc

theorem Yields.pure {b : β} (hQ : Q b h) : Yields (pure b) h Q := Ensures.yields (.pure hQ)

/-- What every round of a loop keeps holds after the loop. -/
theorem Yields.foldlM {f : β → γ → HeapM α β} (hf : ∀ b h c, Q b h → Yields (f b c) h Q) {b : β}
    (hQ : Q b h) (l : List γ) : Yields (l.foldlM f b) h Q := by
  induction l generalizing b h with
  | nil => exact .pure hQ
  | cons c l ih =>
    rw [List.foldlM_cons]
    refine Yields.bind fun b' h' hb => ih ?_
    exact hf b h c hQ b' h' hb

/-! ## References -/

variable {K : Type*}

/-- The references `ρ` are to different objects of `h`, and `v` is what they refer to. -/
structure Owns (h : Heap α) (ρ : K → Option ℕ) (v : K → Option α) : Prop where
  value : ∀ k, v k = (ρ k).bind h.get
  live : ∀ k p, ρ k = some p → (h.get p).isSome
  apart : ∀ k k' p, ρ k = some p → ρ k' = some p → k = k'

variable {ρ : K → Option ℕ} {v : K → Option α} {k : K} {p : ℕ} {a b : α}

theorem Owns.nothing (h : Heap α) : Owns h (fun _ : K => none) fun _ => none :=
  ⟨fun _ => rfl, nofun, nofun⟩

theorem Owns.get (ho : Owns h ρ v) (hk : ρ k = some p) : h.get p = v k := by
  rw [ho.value, hk, Option.bind_some]

/-- A key has a value exactly when it has a reference. -/
theorem Owns.entry (ho : Owns h ρ v) (k : K) :
    (∀ {p}, ρ k = some p → ∃ a, v k = some a) ∧ (ρ k = none → v k = none) := by
  constructor
  · intro p hk
    rw [← ho.get hk]
    exact Option.isSome_iff_exists.1 (ho.live k p hk)
  · intro hk
    rw [ho.value, hk, Option.bind_none]

theorem Owns.ensures_read {Q : α → Heap α → Prop} (ho : Owns h ρ v) (hk : ρ k = some p)
    (hv : v k = some a) (hQ : Q a h) : Ensures (HeapM.read p) h Q := by
  refine ⟨a, h, ?_, hQ⟩
  rw [HeapM.read, ho.get hk, hv]
  rfl

theorem Owns.ensures_read_bind {f : α → HeapM α γ} (ho : Owns h ρ v) (hk : ρ k = some p)
    (hv : v k = some a) (hf : Ensures (f a) h R) : Ensures (HeapM.read p >>= f) h R :=
  (ho.ensures_read hk hv hf).bind

variable [DecidableEq K]

/-- An update through one reference. -/
theorem Owns.store (ho : Owns h ρ v) (hk : ρ k = some p) :
    Owns (h.store p a) ρ (Function.update v k (some a)) := by
  refine ⟨fun k' => ?_, fun k' q hq => ?_, ho.apart⟩
  · by_cases he : k' = k
    · rw [he, Function.update_self, hk, Option.bind_some, Heap.store_get, Function.update_self]
    · rw [Function.update_of_ne he, ho.value]
      cases hq : ρ k' with
      | none => rfl
      | some q =>
        have hne : q ≠ p := fun hqp => he (ho.apart k' k p (hqp ▸ hq) hk)
        rw [Option.bind_some, Option.bind_some, Heap.store_get, Function.update_of_ne hne]
  · rw [Heap.store_get]
    by_cases he : q = p
    · simp [he]
    · rw [Function.update_of_ne he]
      exact ho.live k' q hq

/-- A reference to a new object. -/
theorem Owns.add (ho : Owns h ρ v) (hp : h.get p = none) :
    Owns (h.store p a) (Function.update ρ k (some p)) (Function.update v k (some a)) := by
  have hne : ∀ k' q, ρ k' = some q → q ≠ p := by
    intro k' q hq he
    have := ho.live k' q hq
    simp [he, hp] at this
  refine ⟨fun k' => ?_, fun k' q hq => ?_, fun k' k'' q hq hq' => ?_⟩
  · by_cases he : k' = k
    · simp [he]
    · rw [Function.update_of_ne he, Function.update_of_ne he, ho.value]
      cases hq : ρ k' with
      | none => rfl
      | some q =>
        rw [Option.bind_some, Option.bind_some, Heap.store_get, Function.update_of_ne (hne k' q hq)]
  · by_cases he : k' = k
    · rw [he, Function.update_self] at hq
      obtain rfl := Option.some.inj hq
      simp
    · rw [Function.update_of_ne he] at hq
      rw [Heap.store_get, Function.update_of_ne (hne k' q hq)]
      exact ho.live k' q hq
  · by_cases he : k' = k <;> by_cases he' : k'' = k
    · rw [he, he']
    · rw [he, Function.update_self] at hq
      rw [Function.update_of_ne he'] at hq'
      exact absurd (Option.some.inj hq).symm (hne k'' q hq')
    · rw [he', Function.update_self] at hq'
      rw [Function.update_of_ne he] at hq
      exact absurd (Option.some.inj hq').symm (hne k' q hq)
    · rw [Function.update_of_ne he] at hq
      rw [Function.update_of_ne he'] at hq'
      exact ho.apart k' k'' q hq hq'

/-- A reference is dropped. -/
theorem Owns.forget (ho : Owns h ρ v) (k : K) :
    Owns h (Function.update ρ k none) (Function.update v k none) := by
  have hold : ∀ {k' q}, Function.update ρ k none k' = some q → ρ k' = some q := by
    intro k' q hq
    by_cases he : k' = k
    · simp [he] at hq
    · rwa [Function.update_of_ne he] at hq
  refine ⟨fun k' => ?_, fun k' q hq => ho.live k' q (hold hq),
    fun k' k'' q hq hq' => ho.apart k' k'' q (hold hq) (hold hq')⟩
  by_cases he : k' = k
  · simp [he]
  · rw [Function.update_of_ne he, Function.update_of_ne he, ho.value]

/-- The object of a reference is freed. -/
theorem Owns.erase (ho : Owns h ρ v) (hk : ρ k = some p) :
    Owns (h.erase p) (Function.update ρ k none) (Function.update v k none) := by
  have hf := ho.forget k
  have hne : ∀ k' q, Function.update ρ k none k' = some q → q ≠ p := by
    intro k' q hq he
    by_cases hk' : k' = k
    · simp [hk'] at hq
    · rw [Function.update_of_ne hk', he] at hq
      exact hk' (ho.apart k' k p hq hk)
  refine ⟨fun k' => ?_, fun k' q hq => ?_, hf.apart⟩
  · rw [hf.value]
    cases hq : Function.update ρ k none k' with
    | none => rfl
    | some q =>
      rw [Option.bind_some, Option.bind_some, Heap.erase_get, Function.update_of_ne (hne k' q hq)]
  · rw [Heap.erase_get, Function.update_of_ne (hne k' q hq)]
    exact hf.live k' q hq

/-! ## Rules -/

theorem Owns.ensures_modify {g : α → Option α} {Q : Unit → Heap α → Prop} (ho : Owns h ρ v)
    (hk : ρ k = some p) (hv : v k = some a) (hg : g a = some b)
    (hQ : ∀ h', Owns h' ρ (Function.update v k (some b)) → Q () h') : Ensures (HeapM.modify p g) h Q := by
  refine ⟨(), h.store p b, ?_, hQ _ (ho.store hk)⟩
  rw [HeapM.modify, ho.get hk, hv, Option.bind_some, hg]
  rfl

theorem Owns.yields_modify {g : α → Option α} {Q : Unit → Heap α → Prop} (ho : Owns h ρ v)
    (hk : ρ k = some p) (hv : v k = some a)
    (hQ : ∀ b h', g a = some b → Owns h' ρ (Function.update v k (some b)) → Q () h') :
    Yields (HeapM.modify p g) h Q := by
  intro _ h' hm
  rw [HeapM.modify, ho.get hk, hv, Option.bind_some] at hm
  obtain ⟨b, hb, hm⟩ := Option.map_eq_some_iff.1 hm
  cases hm
  exact hQ b _ hb (ho.store hk)

theorem Owns.ensures_alloc {malloc : Malloc α} {Q : ℕ → Heap α → Prop} (ho : Owns h ρ v) (k : K)
    (hQ : ∀ p h', Owns h' (Function.update ρ k (some p)) (Function.update v k (some a)) → Q p h') :
    Ensures (HeapM.alloc malloc a) h Q :=
  ⟨_, _, rfl, hQ _ _ (ho.add (malloc.fresh h))⟩

theorem Owns.ensures_release {Q : Unit → Heap α → Prop} (ho : Owns h ρ v) (hk : ρ k = some p)
    (hQ : ∀ h', Owns h' (Function.update ρ k none) (Function.update v k none) → Q () h') :
    Ensures (HeapM.release p) h Q := by
  obtain ⟨a, ha⟩ := Option.isSome_iff_exists.1 (ho.live k p hk)
  refine ⟨(), h.erase p, ?_, hQ _ (ho.erase hk)⟩
  rw [HeapM.release, ha]
  rfl

end

end Lib
