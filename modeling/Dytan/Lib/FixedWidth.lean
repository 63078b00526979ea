import Mathlib.Data.List.Basic
import Mathlib.Tactic.Cases

/-!
# Words of a fixed width and a tail

Words of one width are written one behind the other, without separators, and a tail behind them.
`flatten_append_cases`: where two texts agree, the words of one are a part of the words of the other,
and its tail begins with the words that are left. So the words and the tail can be read back when no
tail begins with words that another tail follows (`flatten_append_inj`). `split` reads a number of
words back (`split_flatten`).
-/

namespace Lib.FixedWidth

variable {α : Type*} {n : ℕ} {words words' : List (List α)} {tail tail' : List α}

/-- One list of words is a part of the other. -/
theorem flatten_append_cases (hn : ∀ word ∈ words, word.length = n)
    (hn' : ∀ word ∈ words', word.length = n) (h : words.flatten ++ tail = words'.flatten ++ tail') :
    (∃ more, words' = words ++ more ∧ tail = more.flatten ++ tail') ∨
      ∃ more, words = words' ++ more ∧ tail' = more.flatten ++ tail := by
  induction words generalizing words' with
  | nil => exact .inl ⟨words', rfl, h⟩
  | cons word words ih =>
    cases words' with
    | nil => exact .inr ⟨word :: words, rfl, h.symm⟩
    | cons word' words' =>
      obtain ⟨hword, hwords⟩ := List.forall_mem_cons.1 hn
      obtain ⟨hword', hwords'⟩ := List.forall_mem_cons.1 hn'
      rw [List.flatten_cons, List.flatten_cons, List.append_assoc, List.append_assoc] at h
      obtain ⟨rfl, hrest⟩ := List.append_inj h (hword.trans hword'.symm)
      rcases ih hwords hwords' hrest with ⟨more, rfl, ht⟩ | ⟨more, rfl, ht⟩
      · exact .inl ⟨more, rfl, ht⟩
      · exact .inr ⟨more, rfl, ht⟩

/-- The words and the tail can be read back. -/
theorem flatten_append_inj (hn : ∀ word ∈ words, word.length = n)
    (hn' : ∀ word ∈ words', word.length = n) (h : words.flatten ++ tail = words'.flatten ++ tail')
    (htail : ∀ more : List (List α), (∀ word ∈ more, word.length = n) → more ≠ [] →
      tail ≠ more.flatten ++ tail' ∧ tail' ≠ more.flatten ++ tail) :
    words = words' ∧ tail = tail' := by
  rcases flatten_append_cases hn hn' h with ⟨more, rfl, ht⟩ | ⟨more, rfl, ht⟩
  · by_cases hmore : more = []
    · subst hmore
      exact ⟨(List.append_nil _).symm, ht⟩
    · exact absurd ht (htail more (fun word hw => hn' word (List.mem_append_right _ hw)) hmore).1
  · by_cases hmore : more = []
    · subst hmore
      exact ⟨List.append_nil _, ht.symm⟩
    · exact absurd ht (htail more (fun word hw => hn word (List.mem_append_right _ hw)) hmore).2

/-- The first words of a text, and the rest. -/
def split (n : ℕ) : ℕ → List α → List (List α) × List α
  | 0, text => ([], text)
  | k + 1, text =>
    let rest := split n k (text.drop n)
    (text.take n :: rest.1, rest.2)

theorem split_flatten (hn : ∀ word ∈ words, word.length = n) :
    split n words.length (words.flatten ++ tail) = (words, tail) := by
  induction words with
  | nil => rfl
  | cons word words ih =>
    obtain ⟨hword, hwords⟩ := List.forall_mem_cons.1 hn
    rw [List.flatten_cons, List.append_assoc, List.length_cons, split, List.take_left' hword,
      List.drop_left' hword, ih hwords]

end Lib.FixedWidth
