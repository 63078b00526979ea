import Mathlib.Data.List.Perm.Basic
import Mathlib.Tactic.Cases
import Mathlib.Tactic.Tauto

/-!
# An accumulator that clients share

Text is put into an accumulator. A key is what the accumulator holds, followed by a suffix; to take
it empties the accumulator. A `cut` ends the turn of a client that takes no key: what it has put stays.

`keys` are the keys that a sequence of acts takes, `turnKeys` the keys of the turns themselves: the
text put since the last key or cut, followed by the suffix. `keys_eq_turnKeys_iff`: they are the same
exactly when every cut that a key follows finds no text of its turn (`Settled`).
-/

namespace Lib.Accumulator

variable {α : Type*}

inductive Act (α : Type*)
  | put (text : List α)
  | key (suffix : List α)
  | cut

def Act.isKey : Act α → Bool
  | .key _ => true
  | _ => false

/-- What the accumulator holds after the acts. -/
def held : List α → List (Act α) → List α
  | acc, [] => acc
  | acc, .put text :: acts => held (acc ++ text) acts
  | _, .key _ :: acts => held [] acts
  | acc, .cut :: acts => held acc acts

/-- The keys the acts take. -/
def keys : List α → List (Act α) → List (List α)
  | _, [] => []
  | acc, .put text :: acts => keys (acc ++ text) acts
  | acc, .key suffix :: acts => (acc ++ suffix) :: keys [] acts
  | acc, .cut :: acts => keys acc acts

/-- The text put since the last key or cut. -/
def turnText : List α → List (Act α) → List α
  | text, [] => text
  | text, .put text' :: acts => turnText (text ++ text') acts
  | _, .key _ :: acts => turnText [] acts
  | _, .cut :: acts => turnText [] acts

/-- The keys of the turns, each from the text of its own turn. -/
def turnKeys : List α → List (Act α) → List (List α)
  | _, [] => []
  | text, .put text' :: acts => turnKeys (text ++ text') acts
  | text, .key suffix :: acts => (text ++ suffix) :: turnKeys [] acts
  | _, .cut :: acts => turnKeys [] acts

/-- Every cut that a key follows finds no text of its turn. -/
def Settled (text : List α) (acts : List (Act α)) : Prop :=
  ∀ before after, acts = before ++ .cut :: after →
    turnText text before = [] ∨ ∀ act ∈ after, act.isKey = false

variable {acc lost text text' suffix : List α} {acts acts' : List (Act α)}

/-! ## Sequences -/

theorem held_append : held acc (acts ++ acts') = held (held acc acts) acts' := by
  induction acts generalizing acc with
  | nil => rfl
  | cons act acts ih => cases act <;> exact ih

theorem keys_append : keys acc (acts ++ acts') = keys acc acts ++ keys (held acc acts) acts' := by
  induction acts generalizing acc with
  | nil => rfl
  | cons act acts ih =>
    cases act with
    | put text => exact ih
    | key suffix => exact congrArg _ ih
    | cut => exact ih

theorem turnKeys_append :
    turnKeys text (acts ++ acts') = turnKeys text acts ++ turnKeys (turnText text acts) acts' := by
  induction acts generalizing text with
  | nil => rfl
  | cons act acts ih =>
    cases act with
    | put text => exact ih
    | key suffix => exact congrArg _ ih
    | cut => exact ih

theorem turnText_append : turnText text (acts ++ acts') = turnText (turnText text acts) acts' := by
  induction acts generalizing text with
  | nil => rfl
  | cons act acts ih => cases act <;> exact ih

theorem keys_length : (keys acc acts).length = acts.countP Act.isKey := by
  induction acts generalizing acc with
  | nil => rfl
  | cons act acts ih => cases act <;> simp [keys, ih, Act.isKey, List.countP_cons]

theorem turnKeys_length : (turnKeys text acts).length = acts.countP Act.isKey := by
  induction acts generalizing text with
  | nil => rfl
  | cons act acts ih => cases act <;> simp [turnKeys, ih, Act.isKey, List.countP_cons]

/-! ## Settled turns -/

theorem Settled.nil : Settled text [] := by
  intro before after h
  simp at h

/-- The first act, which is no cut. -/
theorem settled_cons {act : Act α} (hact : act ≠ .cut)
    (hnext : ∀ before, turnText text (act :: before) = turnText text' before) :
    Settled text (act :: acts) ↔ Settled text' acts := by
  constructor
  · intro h before after he
    rw [← hnext]
    exact h (act :: before) after (by rw [he, List.cons_append])
  · intro h before after he
    cases before with
    | nil => exact absurd (List.cons.inj he).1 hact
    | cons _ before =>
      obtain ⟨rfl, rfl⟩ := List.cons.inj he
      rw [hnext]
      exact h before after rfl

theorem settled_put : Settled text (.put text' :: acts) ↔ Settled (text ++ text') acts :=
  settled_cons (by simp) fun _ => rfl

theorem settled_key : Settled text (.key suffix :: acts) ↔ Settled [] acts :=
  settled_cons (by simp) fun _ => rfl

theorem settled_cut : Settled text (.cut :: acts) ↔
    (text = [] ∨ ∀ act ∈ acts, act.isKey = false) ∧ Settled [] acts := by
  constructor
  · intro h
    refine ⟨h [] acts rfl, fun before after he => ?_⟩
    exact h (.cut :: before) after (by rw [he, List.cons_append])
  · rintro ⟨h0, h⟩ before after he
    cases before with
    | nil =>
      obtain ⟨-, rfl⟩ := List.cons.inj he
      exact h0
    | cons _ before =>
      obtain ⟨rfl, rfl⟩ := List.cons.inj he
      exact h before after rfl

/-- `lost` is what the accumulator holds of earlier turns. -/
theorem keys_eq_turnKeys_iff : keys (lost ++ text) acts = turnKeys text acts ↔
    (lost = [] ∨ ∀ act ∈ acts, act.isKey = false) ∧ Settled text acts := by
  induction acts generalizing lost text with
  | nil => simp [keys, turnKeys, Settled.nil]
  | cons act acts ih =>
    cases act with
    | put text' =>
      rw [keys, turnKeys, List.append_assoc, ih, settled_put, List.forall_mem_cons]
      simp [Act.isKey]
    | key suffix =>
      have hrest : keys [] acts = turnKeys [] acts ↔ Settled [] acts := by
        have := @ih [] []
        simpa using this
      rw [keys, turnKeys, List.cons.injEq, hrest, settled_key, List.append_assoc,
        List.append_left_eq_self, List.forall_mem_cons]
      simp [Act.isKey]
    | cut =>
      have hrest := @ih (lost ++ text) []
      rw [List.append_nil] at hrest
      rw [keys, turnKeys, hrest, settled_cut, List.append_eq_nil_iff, List.forall_mem_cons]
      simp only [Act.isKey, true_and]
      tauto

/-! ## As multisets -/

theorem turnKeys_suffix : List.Forall₂ (· <:+ ·) (turnKeys text acts) (keys (lost ++ text) acts) := by
  induction acts generalizing lost text with
  | nil => exact .nil
  | cons act acts ih =>
    cases act with
    | put text' =>
      rw [keys, turnKeys, List.append_assoc]
      exact ih
    | key suffix =>
      rw [keys, turnKeys, List.append_assoc]
      exact .cons (List.suffix_append ..) (@ih [] [])
    | cut =>
      have := @ih (lost ++ text) []
      rwa [List.append_nil] at this

/-- Suffixes that are no shorter in all are the same lists. -/
theorem eq_of_suffix {xs ys : List (List α)} (h : List.Forall₂ (· <:+ ·) xs ys)
    (hlen : ys.flatten.length ≤ xs.flatten.length) : xs = ys := by
  have hle : ∀ {xs ys : List (List α)}, List.Forall₂ (· <:+ ·) xs ys →
      xs.flatten.length ≤ ys.flatten.length := by
    intro xs ys h
    induction h with
    | nil => exact Nat.le_refl _
    | cons hxy _ ih =>
      rw [List.flatten_cons, List.flatten_cons, List.length_append, List.length_append]
      exact Nat.add_le_add hxy.length_le ih
  induction h with
  | nil => rfl
  | cons hxy hrest ih =>
    rw [List.flatten_cons, List.flatten_cons, List.length_append, List.length_append] at hlen
    have hhead := hxy.length_le
    have htail := hle hrest
    rw [hxy.eq_of_length (by omega), ih (by omega)]

theorem keys_perm_iff : (keys (lost ++ text) acts).Perm (turnKeys text acts) ↔
    keys (lost ++ text) acts = turnKeys text acts := by
  constructor
  · intro h
    exact (eq_of_suffix turnKeys_suffix (Nat.le_of_eq h.flatten.length_eq)).symm
  · intro h
    rw [h]

end Lib.Accumulator
