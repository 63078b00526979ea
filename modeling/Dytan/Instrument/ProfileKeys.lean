import Dytan.Instrument.Profile
import Dytan.Lib.FixedWidth

/-!
# The keys of `profilingMap`

A key is the mark strings of the loaded sets and of the sets in `controlTaintMap`, without
separators, followed by the decimal opcode (`markKey`).

`keysDistinct_iff`: the key tells the sets and the opcode exactly when no opcode has more than as
many digits as there are marks. Otherwise the opcode 1 followed by zeros is also a mark string and
the opcode 0 (`two_marks_merge`).
-/

namespace Dytan

open TaintState

variable {w n : Nat} {sets : List Bitset} {set : Bitset}

/-- The key of a mark operation on `sets`. -/
def markKey (sets : List Bitset) (opcode : Nat) : List Char :=
  sets.flatMap Bitset.str ++ Nat.toDigits 10 opcode

/-- Different mark operations have different keys, with `n` marks and the opcodes below `last`. -/
def KeysDistinct (n last : Nat) : Prop :=
  ∀ (sets sets' : List Bitset) (opcode opcode' : Nat), (∀ set ∈ sets, set.Ok n) →
    (∀ set ∈ sets', set.Ok n) → opcode < last → opcode' < last →
    markKey sets opcode = markKey sets' opcode' → sets = sets' ∧ opcode = opcode'

/-! ## Mark strings -/

/-- A mark string tells the set. -/
theorem Bitset.Ok.str_inj {set' : Bitset} (h : set.Ok n) (h' : set'.Ok n)
    (hstr : set.str = set'.str) : set = set' := by
  rw [h.str_eq, h'.str_eq, List.map_inj_left] at hstr
  refine h.ext_marks h' (Set.ext fun i => ?_)
  rw [Bitset.mem_marks, Bitset.mem_marks]
  have hbit : ∀ {a b : Bool}, (if a then '1' else '0') = (if b then '1' else '0') → a = b := by
    decide
  by_cases hi : i < n
  · rw [hbit (hstr i (List.mem_range.2 hi))]
  · exact iff_of_false (fun hb => hi (h.padding i hb)) fun hb => hi (h'.padding i hb)

theorem Bitset.map_str_inj {sets' : List Bitset} (h : ∀ set ∈ sets, set.Ok n)
    (h' : ∀ set ∈ sets', set.Ok n) (hstr : sets.map Bitset.str = sets'.map Bitset.str) :
    sets = sets' := by
  induction sets generalizing sets' with
  | nil => exact (List.map_eq_nil_iff.1 hstr.symm).symm
  | cons set sets ih =>
    cases sets' with
    | nil => cases hstr
    | cons set' sets' =>
      obtain ⟨hset, hsets⟩ := List.forall_mem_cons.1 h
      obtain ⟨hset', hsets'⟩ := List.forall_mem_cons.1 h'
      obtain ⟨hhead, htail⟩ := List.cons.inj hstr
      rw [hset.str_inj hset' hhead, ih hsets hsets' htail]

/-- The set of the first mark. -/
theorem Bitset.exists_first (n : Nat) :
    ∃ set : Bitset, set.Ok (n + 1) ∧ set.str = '1' :: List.replicate n '0' := by
  obtain ⟨set, -, hok, hmarks⟩ := (Bitset.init_ok (n + 1)).setBit_spec (Nat.succ_pos n)
  refine ⟨set, hok, ?_⟩
  have hbit : ∀ i, set.bit i = decide (i = 0) := by
    intro i
    rw [Bool.eq_iff_iff, decide_eq_true_eq, ← Bitset.mem_marks, hmarks]
    simp
  rw [hok.str_eq, List.range_succ_eq_map, List.map_cons, List.map_map]
  refine congrArg₂ _ (if_pos (by rw [hbit]; rfl)) (List.eq_replicate_iff.2 ⟨by simp, fun c hc => ?_⟩)
  obtain ⟨i, -, rfl⟩ := List.mem_map.1 hc
  exact if_neg (by simp [hbit])

/-! ## Opcodes -/

/-- A power of ten. -/
theorem toDigits_pow (n : Nat) : Nat.toDigits 10 (10 ^ n) = '1' :: List.replicate n '0' := by
  induction n with
  | zero => rfl
  | succ n ih =>
    have happend := Nat.toDigits_append_toDigits (b := 10) (n := 10 ^ n) (d := 0) (by decide)
      (Nat.pow_pos (by decide)) (by decide)
    rw [Nat.pow_succ', ← Nat.add_zero (10 * 10 ^ n), ← happend, ih, Nat.toDigits_zero,
      List.replicate_succ']
    rfl

theorem toDigits_inj {opcode opcode' : Nat}
    (h : Nat.toDigits 10 opcode = Nat.toDigits 10 opcode') : opcode = opcode' := by
  rw [← Nat.ofDigitChars_toDigits (n := opcode) (by decide : 1 < 10) (by decide), h,
    Nat.ofDigitChars_toDigits (by decide) (by decide)]

/-- An opcode that begins with a mark string has more digits. -/
theorem pow_le_of_toDigits {opcode opcode' : Nat} {more : List (List Char)} (hn : 0 < n)
    (hmore : ∀ word ∈ more, word.length = n) (hne : more ≠ [])
    (h : Nat.toDigits 10 opcode = more.flatten ++ Nat.toDigits 10 opcode') : 10 ^ n ≤ opcode := by
  cases more with
  | nil => exact absurd rfl hne
  | cons word more =>
    have hlength := congrArg List.length h
    rw [List.flatten_cons, List.length_append, List.length_append,
      hmore word List.mem_cons_self] at hlength
    have hpos : 0 < (Nat.toDigits 10 opcode').length := Nat.length_toDigits_pos
    have hlt : ¬ (Nat.toDigits 10 opcode).length ≤ n := by omega
    rw [Nat.length_toDigits_le_iff (by decide) hn] at hlt
    exact Nat.le_of_not_lt hlt

/-! ## Keys -/

/-- **The keys.** Different mark operations have different keys exactly when every opcode has at
most as many digits as there are marks. -/
theorem keysDistinct_iff {last : Nat} (hn : 0 < n) : KeysDistinct n last ↔ last ≤ 10 ^ n := by
  constructor
  · intro hdistinct
    by_contra hlast
    -- 1 and `n` zeros: the first mark and the opcode 0
    obtain ⟨n, rfl⟩ := Nat.exists_eq_succ_of_ne_zero hn.ne'
    obtain ⟨set, hok, hstr⟩ := Bitset.exists_first n
    have hkey : markKey [set] 0 = markKey [] (10 ^ (n + 1)) := by
      simp only [markKey, List.flatMap_cons, List.flatMap_nil, List.append_nil, List.nil_append,
        hstr, toDigits_pow, Nat.toDigits_zero, List.replicate_succ', List.cons_append]
    have hlt : 10 ^ (n + 1) < last := Nat.lt_of_not_le hlast
    have heq := hdistinct [set] [] 0 _ (by simpa using hok) (by simp)
      (Nat.lt_of_le_of_lt (Nat.zero_le _) hlt) hlt hkey
    exact List.cons_ne_nil _ _ heq.1
  · intro hlast sets sets' opcode opcode' hsets hsets' hop hop' hkey
    have hlength : ∀ {sets : List Bitset}, (∀ set ∈ sets, set.Ok n) →
        ∀ word ∈ sets.map Bitset.str, word.length = n := by
      intro sets hsets word hword
      obtain ⟨set, hset, rfl⟩ := List.mem_map.1 hword
      exact (hsets set hset).str_length
    rw [markKey, markKey, List.flatMap_def, List.flatMap_def] at hkey
    obtain ⟨hwords, hdigits⟩ := Lib.FixedWidth.flatten_append_inj (hlength hsets)
      (hlength hsets') hkey fun more hmore hne =>
        ⟨fun h => Nat.not_le.2 (Nat.lt_of_lt_of_le hop hlast) (pow_le_of_toDigits hn hmore hne h),
          fun h => Nat.not_le.2 (Nat.lt_of_lt_of_le hop' hlast) (pow_le_of_toDigits hn hmore hne h)⟩
    exact ⟨Bitset.map_str_inj hsets hsets' hwords, toDigits_inj hdigits⟩

theorem keysDistinct_iff_three : KeysDistinct 3 1000 ↔ 1000 ≤ 10 ^ 3 := keysDistinct_iff (by decide)

/-- With two marks, the set of the first mark with the opcode 1 has the key of the opcode 101. -/
theorem two_marks_merge : ¬ ∀ n last, 2 ≤ n → n ≤ 4096 → 111 < last → KeysDistinct n last := by
  intro hall
  have hok : ∀ set ∈ [(⟨[1], 2⟩ : Bitset)], set.Ok 2 :=
    fun set hset => List.mem_singleton.1 hset ▸ Bitset.single_ok
  have heq := hall 2 112 (by decide) (by decide) (by decide) [⟨[1], 2⟩] [] 1 101 hok (by simp)
    (by decide) (by decide) (by decide)
  exact List.cons_ne_nil _ _ heq.1

end Dytan
