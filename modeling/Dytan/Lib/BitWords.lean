import Mathlib.Data.List.Basic
import Mathlib.Data.Nat.Count
import Mathlib.Tactic.Cases
import Mathlib.Tactic.TypeStar

/-!
# Bits in a list of words

`bitAt words pos`: bit `pos` of a list of words of width `w`, bit `pos % w` of word `pos / w`. There
are no bits behind the last word. Words are determined by their number and their bits (`ext`), an
operation that is bitwise on two words is bitwise on two lists of them (`bitAt_zipWith`), and a word
that is changed in one bit changes that bit alone (`bitAt_set`).

`countdown` and `countdownWhile` are the loops `while (i--)` and `while (i-- && test)`, whose bodies
can fail; `countdown_rule` is the rule of invariants for the one, `countdownWhile_eq` says what the
final `i` of the other tells. `foldlM_range_rule` is the rule for a loop that counts up.
-/

namespace Lib.BitWords

variable {w : Nat} {words words' : List (BitVec w)} {word word' x y : BitVec w} {pos q i n : Nat}

/-- Bit `pos` of the words. -/
def bitAt (words : List (BitVec w)) (pos : Nat) : Bool :=
  (words.getD (pos / w) 0).getLsbD (pos % w)

theorem bitAt_of_get (h : words[pos / w]? = some word) :
    bitAt words pos = word.getLsbD (pos % w) := by
  rw [bitAt, List.getD_eq_getElem?_getD, h, Option.getD_some]

theorem bitAt_of_length_le (h : words.length ≤ pos / w) : bitAt words pos = false := by
  rw [bitAt, List.getD_eq_getElem?_getD, List.getElem?_eq_none h, Option.getD_none]
  exact BitVec.getLsbD_zero

theorem bitAt_replicate_zero : bitAt (List.replicate n 0#w) pos = false := by
  rw [bitAt, List.getD_eq_getElem?_getD, List.getElem?_replicate]
  split <;> exact BitVec.getLsbD_zero

/-- Words are their bits. -/
theorem ext (hlen : words.length = words'.length)
    (h : ∀ pos, bitAt words pos = bitAt words' pos) : words = words' := by
  refine List.ext_getElem hlen fun k hk hk' => BitVec.eq_of_getLsbD_eq fun i hi => ?_
  have hw : 0 < w := Nat.zero_lt_of_lt hi
  have hd : (w * k + i) / w = k := by rw [Nat.mul_add_div hw, Nat.div_eq_of_lt hi, Nat.add_zero]
  have hr : (w * k + i) % w = i := by rw [Nat.mul_add_mod, Nat.mod_eq_of_lt hi]
  have := h (w * k + i)
  rwa [bitAt_of_get (by rw [hd]; exact List.getElem?_eq_getElem hk),
    bitAt_of_get (by rw [hd]; exact List.getElem?_eq_getElem hk'), hr] at this

/-! ## Bitwise operations -/

/-- On each bit, `op` is `f`. -/
def Bitwise (op : BitVec w → BitVec w → BitVec w) (f : Bool → Bool → Bool) : Prop :=
  ∀ x y, ∀ i < w, (op x y).getLsbD i = f (x.getLsbD i) (y.getLsbD i)

theorem bitwise_or : Bitwise (fun x y : BitVec w => x ||| y) or := fun _ _ _ _ => BitVec.getLsbD_or

theorem bitAt_zipWith {op : BitVec w → BitVec w → BitVec w} {f : Bool → Bool → Bool} (hw : 0 < w)
    (hop : Bitwise op f) (hf : f false false = false) (hlen : words.length = words'.length) :
    bitAt (List.zipWith op words words') pos = f (bitAt words pos) (bitAt words' pos) := by
  rcases Nat.lt_or_ge (pos / w) words.length with h | h
  · have hget := List.getElem?_eq_getElem h
    have hget' := List.getElem?_eq_getElem (hlen ▸ h)
    rw [bitAt_of_get hget, bitAt_of_get hget', ← hop _ _ _ (Nat.mod_lt _ hw)]
    exact bitAt_of_get (by rw [List.getElem?_zipWith, hget, hget'])
  · have hzip : (List.zipWith op words words').length = words.length := by
      rw [List.length_zipWith, ← hlen, Nat.min_self]
    have hout : bitAt words' pos = false := bitAt_of_length_le (hlen ▸ h)
    rw [bitAt_of_length_le h, hout, hf]
    exact bitAt_of_length_le (hzip.le.trans h)

/-! ## One bit -/

theorem getLsbD_one_shiftLeft (hi : i < w) : (1#w <<< q).getLsbD i = decide (i = q) := by
  rw [← BitVec.twoPow_eq, BitVec.getLsbD_twoPow, Bool.eq_iff_iff]
  simp only [Bool.and_eq_true, decide_eq_true_eq]
  omega

theorem getLsbD_or_one_shiftLeft (hi : i < w) :
    (x ||| 1#w <<< q).getLsbD i = if i = q then true else x.getLsbD i := by
  rw [BitVec.getLsbD_or, getLsbD_one_shiftLeft hi]
  by_cases h : i = q <;> simp [h]

theorem getLsbD_and_not_one_shiftLeft (hi : i < w) :
    (x &&& ~~~(1#w <<< q)).getLsbD i = if i = q then false else x.getLsbD i := by
  rw [BitVec.getLsbD_and, BitVec.getLsbD_not, getLsbD_one_shiftLeft hi]
  by_cases h : i = q <;> simp [h, hi]

/-- The test of a bit with a mask. -/
theorem and_one_shiftLeft_ne_zero (hi : i < w) : ((x &&& 1#w <<< i) != 0#w) = x.getLsbD i := by
  rw [← BitVec.twoPow_eq, BitVec.and_twoPow, Bool.eq_iff_iff, bne_iff_ne]
  have hne : BitVec.twoPow w i ≠ 0#w := by
    intro h
    have := congrArg (·.getLsbD i) h
    simp [hi] at this
  cases x.getLsbD i <;> simp [hne]

/-- A word that differs in bit `pos` takes the place of the word with that bit. -/
theorem bitAt_set {b : Bool} (hget : words[pos / w]? = some word)
    (hword : ∀ i < w, word'.getLsbD i = if i = pos % w then b else word.getLsbD i) (hw : 0 < w) :
    bitAt (words.set (pos / w) word') q = if q = pos then b else bitAt words q := by
  have hlt : pos / w < words.length := (List.getElem?_eq_some_iff.1 hget).1
  by_cases hd : q / w = pos / w
  · rw [bitAt_of_get (by rw [hd]; exact List.getElem?_set_self hlt), hword _ (Nat.mod_lt _ hw),
      bitAt_of_get (by rw [hd]; exact hget)]
    have hq := Nat.div_add_mod q w
    have hp := Nat.div_add_mod pos w
    have : q % w = pos % w ↔ q = pos := by
      refine ⟨fun h => ?_, fun h => by rw [h]⟩
      rw [← hq, ← hp, hd, h]
    simp only [this]
  · have hne : q ≠ pos := fun h => hd (by rw [h])
    rw [if_neg hne, bitAt, bitAt, List.getD_eq_getElem?_getD, List.getD_eq_getElem?_getD,
      List.getElem?_set_ne (Ne.symm hd)]

/-! ## Loops -/

section
variable {σ : Type*} {body : Nat → σ → Option σ} {s : σ}

/-- `while (i--) body(i)`, from `i = n`. -/
def countdown (body : Nat → σ → Option σ) : Nat → σ → Option σ
  | 0, s => some s
  | i + 1, s => (body i s).bind (countdown body i)

/-- The final `i` of `while (i-- && test(i))`, from `i = n`. -/
def countdownWhile (test : Nat → Option Bool) : Nat → Option Int
  | 0 => some (-1)
  | i + 1 => (test i).bind fun holds => if holds then countdownWhile test i else some i

theorem countdown_rule {I : Nat → σ → Prop}
    (hbody : ∀ i < n, ∀ s, I (i + 1) s → ∃ s', body i s = some s' ∧ I i s') (hs : I n s) :
    ∃ s', countdown body n s = some s' ∧ I 0 s' := by
  induction n generalizing s with
  | zero => exact ⟨s, rfl, hs⟩
  | succ n ih =>
    obtain ⟨s', he, hs'⟩ := hbody n (Nat.lt_succ_self n) s hs
    rw [countdown, he]
    exact ih (fun i hi => hbody i (Nat.lt_succ_of_lt hi)) hs'

/-- The loop ran to its end exactly when every test held. -/
theorem countdownWhile_eq {test : Nat → Option Bool} {p : Nat → Bool}
    (htest : ∀ i < n, test i = some (p i)) :
    (countdownWhile test n).map (· == -1) = some (decide (∀ i < n, p i = true)) := by
  induction n with
  | zero => simp [countdownWhile]
  | succ n ih =>
    rw [countdownWhile, htest n (Nat.lt_succ_self n), Option.bind_some]
    cases hp : p n with
    | true =>
      have : (∀ i < n + 1, p i = true) ↔ ∀ i < n, p i = true := by
        simp only [Nat.lt_succ_iff_lt_or_eq, or_imp, forall_and, forall_eq, hp, and_true]
      simp only [if_true, this]
      exact ih fun i hi => htest i (Nat.lt_succ_of_lt hi)
    | false =>
      have : ¬ ∀ i < n + 1, p i = true := fun h => by simp [h n (Nat.lt_succ_self n)] at hp
      simp only [Bool.false_eq_true, if_false, this, decide_false, Option.map_some,
        Option.some.injEq, beq_eq_false_iff_ne]
      omega

/-- A loop that compares two lists of words, word by word. -/
theorem countdownWhile_words {test : Nat → Option Bool} (hlen : words.length = n)
    (hlen' : words'.length = n) (htest : ∀ (i : Nat) (x y : BitVec w), words[i]? = some x →
      words'[i]? = some y → test i = some (x == y)) :
    (countdownWhile test n).map (· == -1) = some (decide (words = words')) := by
  have hp : ∀ i < n, test i = some (words[i]? == words'[i]?) := by
    intro i hi
    have hget := List.getElem?_eq_getElem (hlen ▸ hi)
    have hget' := List.getElem?_eq_getElem (hlen' ▸ hi)
    rw [htest i _ _ hget hget', hget, hget', Option.some_beq_some]
  rw [countdownWhile_eq hp, Option.some.injEq, decide_eq_decide]
  constructor
  · intro h
    refine List.ext_getElem? fun i => ?_
    rcases Nat.lt_or_ge i n with hi | hi
    · exact beq_iff_eq.1 (h i hi)
    · rw [List.getElem?_eq_none (hlen ▸ hi), List.getElem?_eq_none (hlen' ▸ hi)]
  · rintro rfl i -
    exact BEq.rfl

theorem foldlM_range_rule {step : σ → Nat → Option σ} {I : Nat → σ → Prop}
    (hstep : ∀ i < n, ∀ s, I i s → ∃ s', step s i = some s' ∧ I (i + 1) s') (hs : I 0 s) :
    ∃ s', (List.range n).foldlM step s = some s' ∧ I n s' := by
  induction n with
  | zero => exact ⟨s, rfl, hs⟩
  | succ n ih =>
    obtain ⟨s', he, hs'⟩ := ih fun i hi => hstep i (Nat.lt_succ_of_lt hi)
    obtain ⟨s'', he', hs''⟩ := hstep n (Nat.lt_succ_self n) s' hs'
    refine ⟨s'', ?_, hs''⟩
    rw [List.range_succ, List.foldlM_append, he]
    simpa using he'

theorem foldlM_range_eq {step : σ → Nat → Option σ} {f : Nat → σ}
    (hstep : ∀ i < n, step (f i) i = some (f (i + 1))) :
    (List.range n).foldlM step (f 0) = some (f n) := by
  obtain ⟨s', he, rfl⟩ := @foldlM_range_rule n σ (f 0) step (fun i s => s = f i)
    (fun i hi s hs => ⟨_, hs ▸ hstep i hi, rfl⟩) rfl
  exact he

end

/-- Word `i` of `words` becomes `op` of it and of word `i` of `words'`. -/
def combineAt (op : BitVec w → BitVec w → BitVec w) (words' : List (BitVec w)) (i : Nat)
    (words : List (BitVec w)) : Option (List (BitVec w)) :=
  words[i]?.bind fun x => words'[i]?.map fun y => words.set i (op x y)

/-- The loop over all words. -/
theorem countdown_combineAt {op : BitVec w → BitVec w → BitVec w}
    (hlen : words.length = words'.length) :
    countdown (combineAt op words') words.length words = some (List.zipWith op words words') := by
  -- the words from `i` on are done
  obtain ⟨r, he, hr⟩ := @countdown_rule words.length _ (combineAt op words') words
    (fun i r => r.length = words.length ∧
      ∀ k, r[k]? = if i ≤ k then (List.zipWith op words words')[k]? else words[k]?)
    (fun i hi r ⟨hl, hr⟩ => by
      have hget : r[i]? = some words[i] := by
        rw [hr, if_neg (by omega), List.getElem?_eq_getElem hi]
      have hget' := List.getElem?_eq_getElem (hlen ▸ hi)
      refine ⟨_, by rw [combineAt, hget, hget']; rfl, by rw [List.length_set, hl], fun k => ?_⟩
      by_cases hk : k = i
      · subst hk
        rw [List.getElem?_set_self (hl ▸ hi), if_pos le_rfl, List.getElem?_zipWith,
          List.getElem?_eq_getElem hi, hget']
      · rw [List.getElem?_set_ne (Ne.symm hk), hr]
        have : i + 1 ≤ k ↔ i ≤ k := by omega
        simp only [this])
    ⟨rfl, fun k => by
      split
      · rename_i h
        rw [List.getElem?_eq_none h, List.getElem?_eq_none (by
          rw [List.length_zipWith, ← hlen, Nat.min_self]; exact h)]
      · rfl⟩
  rw [he]
  exact congrArg some (List.ext_getElem? fun k => by simpa using hr.2 k)

end Lib.BitWords
