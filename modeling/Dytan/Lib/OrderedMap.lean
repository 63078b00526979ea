import Mathlib.Data.List.Dedup
import Mathlib.Data.List.Induction
import Mathlib.Data.Set.Basic
import Mathlib.Logic.Function.Iterate
import Mathlib.Tactic.TypeStar

/-!
# Maps ordered by a comparison

A `std::map` with the comparison `lt`: its entries in order, `find` and `modify` (a reference through
`operator[]`, with what is done to it) by the position `lower_bound`, the first key that is not less.

`StrictWeakOn lt S`: the laws the standard asks of `lt`, for the keys in `S`. For such keys `find`
gives the value at the equivalent key (`find_modify`) and no two keys of the map are equivalent
(`Ordered.modify`).

`collect`: a map of vectors that values are pushed on, and `find_collect` what it holds after a
sequence of pushes.

`tally`: a map with an entry for each key of a sequence, that `f` was done to as often as the key is
there (`mem_tally`). Its keys are the keys of the sequence without repetitions (`tally_keys`).
-/

namespace Lib

variable {K V : Type*}

/-! ## The laws of a comparison -/

/-- Neither is less. -/
def Incomparable (lt : K → K → Bool) (a b : K) : Prop := lt a b = false ∧ lt b a = false

/-- `lt` is a strict weak ordering of the keys in `S`. -/
structure StrictWeakOn (lt : K → K → Bool) (S : Set K) : Prop where
  irrefl : ∀ a ∈ S, lt a a = false
  asymm : ∀ a ∈ S, ∀ b ∈ S, lt a b = true → lt b a = false
  trans : ∀ a ∈ S, ∀ b ∈ S, ∀ c ∈ S, lt a b = true → lt b c = true → lt a c = true
  incomparable_trans : ∀ a ∈ S, ∀ b ∈ S, ∀ c ∈ S,
    Incomparable lt a b → Incomparable lt b c → Incomparable lt a c

section
variable {lt : K → K → Bool} {S : Set K} {a b c : K}

theorem Incomparable.symm (h : Incomparable lt a b) : Incomparable lt b a := ⟨h.2, h.1⟩

theorem not_incomparable_of_lt (h : lt a b = true) : ¬ Incomparable lt a b := fun hi => by
  rw [hi.1] at h
  cases h

variable (h : StrictWeakOn lt S)
include h

/-- The same keys are less than incomparable keys. -/
theorem StrictWeakOn.lt_right (ha : a ∈ S) (hb : b ∈ S) (hc : c ∈ S) (hab : Incomparable lt a b) :
    lt c b = true → lt c a = true := by
  intro hcb
  by_contra hca
  rw [Bool.not_eq_true] at hca
  cases hac : lt a c with
  | true =>
    have hab' := h.trans a ha c hc b hb hac hcb
    exact not_incomparable_of_lt hab' hab
  | false =>
    have hcb' := h.incomparable_trans c hc a ha b hb ⟨hca, hac⟩ hab
    exact not_incomparable_of_lt hcb hcb'

end

/-! ## The map -/

/-- The entries in order. -/
abbrev OrderedMap (K V : Type*) := List (K × V)

namespace OrderedMap

variable (lt : K → K → Bool)

/-- `find`; `none` is `end()`. -/
def find : OrderedMap K V → K → Option V
  | [], _ => none
  | e :: m, k => if lt e.1 k then find m k else if lt k e.1 then none else some e.2

/-- `m[k]`, which makes an entry `default` when there is none, replaced by `f` of it. -/
def modify (default : V) (f : V → V) (k : K) : OrderedMap K V → OrderedMap K V
  | [] => [(k, f default)]
  | e :: m =>
    if lt e.1 k then e :: modify default f k m
    else if lt k e.1 then (k, f default) :: e :: m
    else (e.1, f e.2) :: m

/-- The keys increase. -/
def Ordered (m : OrderedMap K V) : Prop := m.Pairwise fun e e' => lt e.1 e'.1 = true

variable {lt} {S : Set K} {m : OrderedMap K V} {k k' : K} {default : V} {f : V → V}

theorem find_modify (h : StrictWeakOn lt S) (hm : ∀ e ∈ m, e.1 ∈ S) (hk : k ∈ S) (hk' : k' ∈ S) :
    (Incomparable lt k k' →
      find lt (modify lt default f k m) k' = some (f ((find lt m k).getD default))) ∧
    (¬ Incomparable lt k k' → find lt (modify lt default f k m) k' = find lt m k') := by
  induction m with
  | nil =>
    simp only [modify, find]
    constructor
    · rintro ⟨h1, h2⟩
      simp [h1, h2]
    · intro hn
      split_ifs with h1 h2
      · rfl
      · rfl
      · exact absurd ⟨Bool.eq_false_iff.2 h1, Bool.eq_false_iff.2 h2⟩ hn
  | cons e m ih =>
    obtain ⟨he, hm⟩ := List.forall_mem_cons.1 hm
    obtain ⟨ihs, ihn⟩ := ih hm
    by_cases hek : lt e.1 k = true
    · -- the entry stands before `k`
      have hek' : Incomparable lt k k' → lt e.1 k' = true := fun hi =>
        h.lt_right hk' hk he hi.symm hek
      simp only [modify, find, hek, if_true]
      constructor
      · intro hi
        rw [if_pos (hek' hi)]
        exact ihs hi
      · intro hn
        rw [ihn hn]
    · rw [Bool.not_eq_true] at hek
      by_cases hke : lt k e.1 = true
      · -- `k` is new and comes first
        have hfind : find lt (e :: m) k = none := by simp [find, hek, hke]
        simp only [modify, hek, hke, if_true, Bool.false_eq_true, if_false]
        rw [hfind, Option.getD_none]
        constructor
        · rintro ⟨h1, h2⟩
          simp [find, h1, h2]
        · intro hn
          rw [find]
          split_ifs with h1 h2
          · rfl
          · have hke' := h.trans k' hk' k hk e.1 he h2 hke
            rw [find, if_neg (Bool.not_eq_true _ ▸ h.asymm k' hk' e.1 he hke'), if_pos hke']
          · exact absurd ⟨Bool.eq_false_iff.2 h1, Bool.eq_false_iff.2 h2⟩ hn
      · -- the entry of `k`
        rw [Bool.not_eq_true] at hke
        have hfind : find lt (e :: m) k = some e.2 := by simp [find, hek, hke]
        simp only [modify, hek, hke, Bool.false_eq_true, if_false]
        rw [hfind, Option.getD_some]
        constructor
        · intro hi
          obtain ⟨h1, h2⟩ := h.incomparable_trans e.1 he k hk k' hk' ⟨hek, hke⟩ hi
          simp [find, h1, h2]
        · intro hn
          have hne : ¬ Incomparable lt e.1 k' := fun hi =>
            hn (h.incomparable_trans k hk e.1 he k' hk' ⟨hke, hek⟩ hi)
          simp only [find]
          split_ifs with h1 h2
          · rfl
          · rfl
          · exact absurd ⟨Bool.eq_false_iff.2 h1, Bool.eq_false_iff.2 h2⟩ hne

/-- The keys after `m[k]`: those of the map, and `k` when none was equivalent to it. -/
theorem mem_modify {e : K × V} (he : e ∈ modify lt default f k m) :
    e.1 = k ∨ ∃ e' ∈ m, e'.1 = e.1 := by
  induction m with
  | nil => exact .inl (congrArg Prod.fst (List.mem_singleton.1 he))
  | cons x m ih =>
    rw [modify] at he
    split_ifs at he
    · rcases List.mem_cons.1 he with rfl | he
      · exact .inr ⟨e, List.mem_cons_self, rfl⟩
      · exact (ih he).imp_right fun ⟨e', hm, hk⟩ => ⟨e', List.mem_cons_of_mem _ hm, hk⟩
    · rcases List.mem_cons.1 he with rfl | he
      · exact .inl rfl
      · exact .inr ⟨e, he, rfl⟩
    · rcases List.mem_cons.1 he with rfl | he
      · exact .inr ⟨x, List.mem_cons_self, rfl⟩
      · exact .inr ⟨e, List.mem_cons_of_mem _ he, rfl⟩

/-- Without an entry, `m[k]` begins with `default`. -/
theorem modify_of_find_none {g : V → V} (hfg : f default = g default) (hfind : find lt m k = none) :
    modify lt default f k m = modify lt default g k m := by
  induction m with
  | nil => simp only [modify, hfg]
  | cons e m ih =>
    rw [find] at hfind
    rw [modify, modify]
    split_ifs at hfind ⊢
    · rw [ih hfind]
    · rw [hfg]

theorem Ordered.modify (h : StrictWeakOn lt S) (hm : ∀ e ∈ m, e.1 ∈ S) (hk : k ∈ S)
    (ho : Ordered lt m) : Ordered lt (modify lt default f k m) := by
  induction m with
  | nil => exact List.pairwise_singleton _ _
  | cons e m ih =>
    obtain ⟨he, hm⟩ := List.forall_mem_cons.1 hm
    obtain ⟨hfirst, hrest⟩ := List.pairwise_cons.1 ho
    rw [OrderedMap.modify]
    split_ifs with h1 h2
    · refine List.pairwise_cons.2 ⟨fun x hx => ?_, ih hm hrest⟩
      rcases mem_modify hx with hxk | ⟨x', hx', hxk⟩
      · rwa [hxk]
      · exact hxk ▸ hfirst x' hx'
    · refine List.pairwise_cons.2 ⟨fun x hx => ?_, ho⟩
      rcases List.mem_cons.1 hx with rfl | hx
      · exact h2
      · exact h.trans k hk e.1 he x.1 (hm x hx) h2 (hfirst x hx)
    · exact List.pairwise_cons.2 ⟨hfirst, hrest⟩

/-- The keys of an ordered map are pairwise not equivalent. -/
theorem Ordered.distinct (ho : Ordered lt m) :
    m.Pairwise fun e e' => ¬ Incomparable lt e.1 e'.1 :=
  ho.imp not_incomparable_of_lt

/-! ## Pushes -/

/-- `m[k].push_back(v)` for each pair, from the empty map. -/
def collect (lt : K → K → Bool) (pushes : List (K × V)) : OrderedMap K (List V) :=
  pushes.foldl (fun m push => modify lt [] (· ++ [push.2]) push.1 m) []

variable {pushes : List (K × V)}

theorem collect_concat (push : K × V) :
    collect lt (pushes ++ [push]) =
      modify lt [] (· ++ [push.2]) push.1 (collect lt pushes) := by
  rw [collect, List.foldl_append]
  rfl

/-- What the pushes leave: ordered keys, each of them pushed. -/
theorem collect_ordered (h : StrictWeakOn lt S) (hS : ∀ push ∈ pushes, push.1 ∈ S) :
    Ordered lt (collect lt pushes) ∧
      ∀ e ∈ collect lt pushes, ∃ push ∈ pushes, push.1 = e.1 := by
  induction pushes using List.reverseRecOn with
  | nil => exact ⟨List.Pairwise.nil, fun e he => absurd he List.not_mem_nil⟩
  | append_singleton pushes push ih =>
    have hS' : ∀ p ∈ pushes, p.1 ∈ S := fun p hp => hS p (List.mem_append_left _ hp)
    obtain ⟨ho, hkeys⟩ := ih hS'
    have hm : ∀ e ∈ collect lt pushes, e.1 ∈ S := fun e he => by
      obtain ⟨p, hp, hpe⟩ := hkeys e he
      exact hpe ▸ hS' p hp
    rw [collect_concat]
    refine ⟨ho.modify h hm (hS push (by simp)), fun e he => ?_⟩
    rcases mem_modify he with hek | ⟨e', he', hek⟩
    · exact ⟨push, by simp, hek.symm⟩
    · obtain ⟨p, hp, hpe⟩ := hkeys e' he'
      exact ⟨p, List.mem_append_left _ hp, hpe.trans hek⟩

/-- The values of the pushes at the keys with `P`. -/
def pushed (P : K → Bool) (pushes : List (K × V)) : List V :=
  (pushes.filter fun push => P push.1).map Prod.snd

theorem pushed_concat (P : K → Bool) (push : K × V) :
    pushed P (pushes ++ [push]) =
      pushed P pushes ++ if P push.1 = true then [push.2] else [] := by
  rw [pushed, List.filter_append, List.map_append, List.filter_cons]
  split <;> rfl

/-- What `find` gives after the pushes: the values pushed at the keys equivalent to `k`. -/
theorem find_collect (h : StrictWeakOn lt S) (hS : ∀ push ∈ pushes, push.1 ∈ S) (hk : k ∈ S)
    {P : K → Bool} (hP : ∀ k' ∈ S, P k' = true ↔ Incomparable lt k' k) :
    find lt (collect lt pushes) k =
      if pushed P pushes = [] then none else some (pushed P pushes) := by
  induction pushes using List.reverseRecOn generalizing k with
  | nil => rfl
  | append_singleton pushes push ih =>
    have hS' : ∀ p ∈ pushes, p.1 ∈ S := fun p hp => hS p (List.mem_append_left _ hp)
    have hpush : push.1 ∈ S := hS push (by simp)
    have hm : ∀ e ∈ collect lt pushes, e.1 ∈ S := fun e he => by
      obtain ⟨p, hp, hpe⟩ := (collect_ordered h hS').2 e he
      exact hpe ▸ hS' p hp
    obtain ⟨hsame, hother⟩ :=
      @find_modify _ _ lt S _ push.1 k [] (· ++ [push.2]) h hm hpush hk
    rw [collect_concat, pushed_concat]
    by_cases hi : Incomparable lt push.1 k
    · -- the pushed key has the same equivalents as `k`
      have hP' : ∀ k' ∈ S, P k' = true ↔ Incomparable lt k' push.1 := fun k' hk' =>
        (hP k' hk').trans
          ⟨fun hik => h.incomparable_trans k' hk' k hk push.1 hpush hik hi.symm,
            fun hik => h.incomparable_trans k' hk' push.1 hpush k hk hik hi⟩
      have hne : pushed P pushes ++ [push.2] ≠ [] :=
        List.append_ne_nil_of_right_ne_nil _ (List.cons_ne_nil _ _)
      rw [hsame hi, ih hS' hpush hP', if_pos ((hP push.1 hpush).2 hi), if_neg hne]
      split_ifs with hnone
      · rw [hnone]
        rfl
      · rfl
    · rw [hother hi, ih hS' hk hP, if_neg fun hp => hi ((hP push.1 hpush).1 hp), List.append_nil]

/-! ## A linear order -/

section
variable [LinearOrder K]

/-- `std::less`. -/
def less (a b : K) : Bool := decide (a < b)

theorem incomparable_less_iff {a b : K} : Incomparable less a b ↔ a = b := by
  rw [Incomparable, less, less, decide_eq_false_iff_not, decide_eq_false_iff_not, not_lt, not_lt]
  constructor
  · rintro ⟨hba, hab⟩
    exact le_antisymm hab hba
  · rintro rfl
    exact ⟨le_rfl, le_rfl⟩

theorem less_strictWeakOn (S : Set K) : StrictWeakOn less S where
  irrefl a _ := decide_eq_false (lt_irrefl a)
  asymm a _ b _ h := decide_eq_false (lt_asymm (of_decide_eq_true h))
  trans a _ b _ c _ h h' :=
    decide_eq_true (lt_trans (of_decide_eq_true h) (of_decide_eq_true h'))
  incomparable_trans a _ b _ c _ h h' := by
    rw [incomparable_less_iff] at h h' ⊢
    exact h.trans h'

theorem Ordered.nodup_keys (ho : Ordered less m) : (m.map Prod.fst).Nodup := by
  refine List.pairwise_map.2 (ho.imp fun {e e'} h => ?_)
  exact (of_decide_eq_true h).ne

/-- `find` gives the entries. -/
theorem Ordered.find_eq_some_iff (ho : Ordered less m) {v : V} :
    find less m k = some v ↔ (k, v) ∈ m := by
  induction m with
  | nil => exact iff_of_false nofun List.not_mem_nil
  | cons e m ih =>
    obtain ⟨hfirst, hrest⟩ := List.pairwise_cons.1 ho
    rw [find, List.mem_cons]
    rcases lt_trichotomy e.1 k with hlt | heq | hgt
    · have hne : (k, v) ≠ e := fun h => hlt.ne' (congrArg Prod.fst h)
      rw [less, if_pos (decide_eq_true hlt), ih hrest]
      exact (or_iff_right hne).symm
    · subst heq
      have hnot : (e.1, v) ∉ m := fun h => lt_irrefl _ (of_decide_eq_true (hfirst (e.1, v) h))
      rw [less, if_neg (by simp), if_neg (by simp), Option.some.injEq]
      constructor
      · rintro rfl
        exact .inl rfl
      · rintro (h | h)
        · exact (congrArg Prod.snd h).symm
        · exact absurd h hnot
    · have hnot : (k, v) ∉ m := fun h => lt_asymm hgt (of_decide_eq_true (hfirst (k, v) h))
      have hne : (k, v) ≠ e := fun h => hgt.ne (congrArg Prod.fst h)
      rw [less, if_neg (by simpa using hgt.le), less, if_pos (decide_eq_true hgt)]
      exact iff_of_false nofun (not_or.2 ⟨hne, hnot⟩)

/-! ## Counting -/

/-- `f` is done to `m[k]` for each key of a sequence, from the empty map. -/
def tally (default : V) (f : V → V) (keys : List K) : OrderedMap K V :=
  keys.foldl (fun m k => modify less default f k m) []

variable {keys : List K}

theorem tally_concat :
    tally default f (keys ++ [k]) = modify less default f k (tally default f keys) := by
  rw [tally, List.foldl_append]
  rfl

theorem tally_ordered : Ordered less (tally default f keys) := by
  induction keys using List.reverseRecOn with
  | nil => exact List.Pairwise.nil
  | append_singleton keys k ih =>
    rw [tally_concat]
    exact ih.modify (less_strictWeakOn Set.univ) (fun _ _ => trivial) trivial

theorem find_tally [BEq K] [LawfulBEq K] : find less (tally default f keys) k =
    if keys.count k = 0 then none else some (f^[keys.count k] default) := by
  induction keys using List.reverseRecOn with
  | nil => rfl
  | append_singleton keys k' ih =>
    obtain ⟨hsame, hother⟩ := @find_modify _ _ less Set.univ (tally default f keys) k' k default f
      (less_strictWeakOn _) (fun _ _ => trivial) trivial trivial
    rw [tally_concat, List.count_append, List.count_singleton]
    by_cases hk : k' = k
    · subst hk
      rw [hsame (incomparable_less_iff.2 rfl), ih, beq_self_eq_true, if_pos rfl,
        if_neg (Nat.succ_ne_zero _), Function.iterate_succ_apply']
      split_ifs with h
      · rw [h]
        rfl
      · rfl
    · rw [hother fun h => hk (incomparable_less_iff.1 h), ih, beq_eq_false_iff_ne.2 hk]
      rfl

/-- An entry for each key of the sequence, that `f` was done to as often as the key is there. -/
theorem mem_tally [BEq K] [LawfulBEq K] {v : V} : (k, v) ∈ tally default f keys ↔
    k ∈ keys ∧ v = f^[keys.count k] default := by
  rw [← tally_ordered.find_eq_some_iff, find_tally, ← List.count_pos_iff]
  split_ifs with h
  · exact iff_of_false nofun fun hk => hk.1.ne' h
  · rw [Option.some.injEq, eq_comm]
    exact (and_iff_right (Nat.pos_of_ne_zero h)).symm

/-- The keys of the sequence without repetitions, in order. -/
theorem tally_keys [DecidableEq K] :
    ((tally default f keys).map Prod.fst).Perm keys.dedup := by
  rw [List.perm_ext_iff_of_nodup tally_ordered.nodup_keys keys.nodup_dedup]
  intro k
  rw [List.mem_dedup, List.mem_map]
  constructor
  · rintro ⟨e, he, rfl⟩
    exact (mem_tally.1 he).1
  · intro hk
    exact ⟨_, mem_tally.2 ⟨hk, rfl⟩, rfl⟩

end

end OrderedMap

end Lib
