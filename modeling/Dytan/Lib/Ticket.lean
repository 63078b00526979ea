import Mathlib.Data.List.Induction
import Mathlib.Data.Nat.Basic

/-!
# Tickets from a shared counter

A user draws a ticket by reading a counter, uses the ticket, and advances the counter to one more than
the ticket it drew. The three are separate operations of a user, so those of several users interleave,
and a user may advance the counter more than once or never. Users are numbered in the order in which
they draw.

`History c events`: what can happen to a counter that is `c` at first. `Unique`: no two users use the
same ticket. `InOrder`: for two users that use their tickets, the last to advance the counter before
the later one draws is not older than the earlier one.

`unique_iff_inOrder`: as long as the counter does not wrap, the two are the same.
-/

namespace Lib.Ticket

variable {w : Nat}

inductive Event (w : Nat)
  | draw (user : Nat) (ticket : BitVec w)
  | use (user : Nat) (ticket : BitVec w)
  | advance (user : Nat) (next : BitVec w)
deriving DecidableEq

/-- What a counter that was `c` is after an event. -/
def Event.counter (c : BitVec w) : Event w → BitVec w
  | .advance _ next => next
  | _ => c

/-- The value of a counter that was `c`, after `events`. -/
def counter (c : BitVec w) (events : List (Event w)) : BitVec w := events.foldl Event.counter c

def Event.advancer (last : Option Nat) : Event w → Option Nat
  | .advance user _ => some user
  | _ => last

/-- The user that advanced the counter last. -/
def lastAdvance (events : List (Event w)) : Option Nat := events.foldl Event.advancer none

/-- What can happen after `before`. -/
def Allowed (c : BitVec w) (before : List (Event w)) : Event w → Prop
  | .draw user ticket => ticket = counter c before ∧ ∀ u t, .draw u t ∈ before → u < user
  | .use user ticket => .draw user ticket ∈ before
  | .advance user next => ∃ ticket, .draw user ticket ∈ before ∧ .use user ticket ∈ before ∧
      next = ticket + 1

def History (c : BitVec w) (events : List (Event w)) : Prop :=
  ∀ pre event post, events = pre ++ event :: post → Allowed c pre event

def Uses (events : List (Event w)) (user : Nat) : Prop := ∃ ticket, .use user ticket ∈ events

def Unique (events : List (Event w)) : Prop :=
  ∀ u v ticket, .use u ticket ∈ events → .use v ticket ∈ events → u = v

/-- A user always uses the same ticket. -/
def Stable (events : List (Event w)) : Prop :=
  ∀ user t t', .use user t ∈ events → .use user t' ∈ events → t = t'

/-- The counter does not wrap. -/
def NoWrap (events : List (Event w)) : Prop := ∀ user next, .advance user next ∈ events → next ≠ 0

/-- When a user `v` of a ticket draws it, the last to advance the counter is no older than any user
`u` of a ticket that drew before. -/
def InOrder (events : List (Event w)) : Prop :=
  ∀ pre v ticket post, events = pre ++ .draw v ticket :: post → Uses events v →
    ∀ u < v, Uses events u → ∃ last, lastAdvance pre = some last ∧ u ≤ last

variable {c : BitVec w} {events : List (Event w)} {u v user : Nat} {i j t t' ticket next : BitVec w}

@[simp] theorem counter_concat (event : Event w) :
    counter c (events ++ [event]) = event.counter (counter c events) := by
  rw [counter, List.foldl_append]
  rfl

@[simp] theorem lastAdvance_concat (event : Event w) :
    lastAdvance (events ++ [event]) = event.advancer (lastAdvance events) := by
  rw [lastAdvance, List.foldl_append]
  rfl

theorem toNat_succ (h : t + 1 ≠ 0) : (t + 1).toNat = t.toNat + 1 := by
  have ht := t.isLt
  have hsum : (t + 1).toNat = (t.toNat + 1) % 2 ^ w := by
    rw [BitVec.toNat_add, BitVec.ofNat_eq_ofNat, BitVec.toNat_ofNat, Nat.add_mod_mod]
  rcases Nat.lt_or_ge (t.toNat + 1) (2 ^ w) with hlt | hge
  · rw [hsum, Nat.mod_eq_of_lt hlt]
  · have hfull : t.toNat + 1 = 2 ^ w := by omega
    exact absurd (BitVec.eq_of_toNat_eq (by rw [hsum, hfull, Nat.mod_self]; simp)) h

theorem History.nil : History c [] := by
  intro pre event post h
  simp at h

theorem History.concat {event : Event w} (h : History c events) (hevent : Allowed c events event) :
    History c (events ++ [event]) := by
  intro pre e post he
  rcases List.eq_nil_or_concat post with rfl | ⟨post, last, rfl⟩
  · obtain ⟨rfl, hlast⟩ := List.append_inj' he rfl
    cases hlast
    exact hevent
  · rw [List.concat_eq_append, ← List.cons_append, ← List.append_assoc] at he
    exact h pre e post (List.append_inj' he rfl).1

theorem History.before {pre post : List (Event w)} (h : History c (pre ++ post)) : History c pre := by
  intro p e q he
  exact h p e (q ++ post) (by rw [he, List.append_assoc, List.cons_append])

theorem History.drawn (h : History c events) (hu : .use user ticket ∈ events) :
    .draw user ticket ∈ events := by
  obtain ⟨pre, post, he⟩ := List.append_of_mem hu
  have hd : .draw user ticket ∈ pre := h pre _ post he
  rw [he]
  exact List.mem_append_left _ hd

/-- A user draws once. -/
theorem History.draw_unique (h : History c events) (h₁ : .draw user t ∈ events)
    (h₂ : .draw user t' ∈ events) : t = t' := by
  obtain ⟨pre, post, he⟩ := List.append_of_mem h₁
  obtain ⟨pre', post', he'⟩ := List.append_of_mem h₂
  obtain ⟨-, hbefore⟩ := h pre _ post he
  obtain ⟨-, hbefore'⟩ := h pre' _ post' he'
  rw [he] at he'
  rcases List.append_eq_append_iff.1 he' with ⟨mid, hpre, hpost⟩ | ⟨mid, hpre, hpost⟩
  · cases mid with
    | nil => exact (Event.draw.inj (List.cons.inj hpost).1).2
    | cons e mid =>
      obtain ⟨rfl, -⟩ := List.cons.inj hpost
      exact absurd (hbefore' user t (hpre ▸ by simp)) (Nat.lt_irrefl user)
  · cases mid with
    | nil => exact (Event.draw.inj (List.cons.inj hpost).1).2.symm
    | cons e mid =>
      obtain ⟨rfl, -⟩ := List.cons.inj hpost
      exact absurd (hbefore user t' (hpre ▸ by simp)) (Nat.lt_irrefl user)

theorem History.stable (h : History c events) : Stable events :=
  fun _ _ _ ht ht' => h.draw_unique (h.drawn ht) (h.drawn ht')

/-- The counter is one more than the ticket of the user that advanced it last. -/
theorem History.counter_cases (h : History c events) :
    (lastAdvance events = none ∧ counter c events = c) ∨
    ∃ last ticket, lastAdvance events = some last ∧ .draw last ticket ∈ events ∧
      .use last ticket ∈ events ∧ .advance last (ticket + 1) ∈ events ∧
      counter c events = ticket + 1 := by
  induction events using List.reverseRecOn with
  | nil => exact .inl ⟨rfl, rfl⟩
  | append_singleton events event ih =>
    have hevent : Allowed c events event := h events event [] rfl
    rw [counter_concat, lastAdvance_concat]
    cases event with
    | advance user next =>
      obtain ⟨ticket, hdraw, huse, rfl⟩ := hevent
      exact .inr ⟨user, ticket, rfl, by simp [hdraw], by simp [huse], by simp, rfl⟩
    | draw | use =>
      rcases ih h.before with hnone | ⟨last, ticket, hlast, hdraw, huse, hadvance, hcounter⟩
      · exact .inl hnone
      · exact .inr ⟨last, ticket, hlast, List.mem_append_left _ hdraw, List.mem_append_left _ huse,
          List.mem_append_left _ hadvance, hcounter⟩

/-- Where a ticket comes from: the counter as it was at first, or the ticket of the user that
advanced the counter last. -/
theorem History.draw_cases (h : History c events) (hw : NoWrap events) {pre post : List (Event w)}
    (he : events = pre ++ .draw v j :: post) :
    (lastAdvance pre = none ∧ j = c) ∨
    ∃ last t, lastAdvance pre = some last ∧ last < v ∧ .use last t ∈ events ∧
      j.toNat = t.toNat + 1 := by
  obtain ⟨hj, hbefore⟩ := h pre _ post he
  rcases (he ▸ h : History c (pre ++ _)).before.counter_cases with
    ⟨hlast, hc⟩ | ⟨last, t, hlast, hdraw, huse, hadvance, hc⟩
  · exact .inl ⟨hlast, hj.trans hc⟩
  · have hne : t + 1 ≠ 0 := hw last _ (he ▸ List.mem_append_left _ hadvance)
    have hsucc : (t + 1).toNat = t.toNat + 1 := toNat_succ hne
    refine .inr ⟨last, t, hlast, hbefore last t hdraw, he ▸ List.mem_append_left _ huse, ?_⟩
    rw [hj, hc, hsucc]

/-- Users in order use increasing tickets. -/
theorem InOrder.lt (hin : InOrder events) (h : History c events) (hw : NoWrap events)
    (hv : .use v j ∈ events) (huv : u < v) (hu : .use u i ∈ events) : i.toNat < j.toNat := by
  induction v using Nat.strongRecOn generalizing j with
  | _ v ih =>
    obtain ⟨pre, post, he⟩ := List.append_of_mem (h.drawn hv)
    obtain ⟨last, hlast, hle⟩ := hin pre v j post he ⟨j, hv⟩ u huv ⟨i, hu⟩
    rcases h.draw_cases hw he with ⟨hnone, -⟩ | ⟨last', t, hlast', hlt, huse, hj⟩
    · rw [hnone] at hlast
      cases hlast
    · obtain rfl : last' = last := Option.some.inj (hlast'.symm.trans hlast)
      rcases Nat.eq_or_lt_of_le hle with rfl | hlt'
      · obtain rfl : i = t := h.stable u i t hu huse
        omega
      · have hit : i.toNat < t.toNat := ih last' hlt huse hlt'
        omega

/-- Every ticket from the first value of the counter on, up to one that is used, is used. -/
theorem History.used_below (h : History c events) (hw : NoWrap events) (hv : .use v j ∈ events) :
    c.toNat ≤ j.toNat ∧ ∀ n, c.toNat ≤ n → n ≤ j.toNat →
      ∃ u t, u ≤ v ∧ .use u t ∈ events ∧ t.toNat = n := by
  induction v using Nat.strongRecOn generalizing j with
  | _ v ih =>
    obtain ⟨pre, post, he⟩ := List.append_of_mem (h.drawn hv)
    rcases h.draw_cases hw he with ⟨-, rfl⟩ | ⟨last, t, -, hlt, huse, hj⟩
    · exact ⟨le_rfl, fun n hc hn => ⟨v, j, le_rfl, hv, by omega⟩⟩
    · obtain ⟨hct, hbelow⟩ := ih last hlt huse
      refine ⟨by omega, fun n hc hn => ?_⟩
      by_cases hnj : n = j.toNat
      · exact ⟨v, j, le_rfl, hv, hnj.symm⟩
      · obtain ⟨u, t', hu, huse', ht'⟩ := hbelow n hc (by omega)
        exact ⟨u, t', by omega, huse', ht'⟩

theorem Unique.inOrder (huniq : Unique events) (h : History c events) (hw : NoWrap events) :
    InOrder events := by
  rintro pre v j post he ⟨j', hv'⟩ u huv ⟨i, hu⟩
  have hdraw : .draw v j ∈ events := he ▸ by simp
  obtain rfl : j' = j := h.draw_unique (h.drawn hv') hdraw
  -- a ticket is not used both up to some user before `v` and by `v`
  obtain ⟨hci, hbelow⟩ := h.used_below hw hu
  have hlt : i.toNat < j'.toNat := by
    by_contra hge
    obtain ⟨x, t, hx, huse, ht⟩ := hbelow j'.toNat (h.used_below hw hv').1 (by omega)
    obtain rfl : t = j' := BitVec.eq_of_toNat_eq ht
    have : x = v := huniq x v t huse hv'
    omega
  rcases h.draw_cases hw he with ⟨-, rfl⟩ | ⟨last, t, hlast, hlt', huse, hj⟩
  · omega
  · refine ⟨last, hlast, ?_⟩
    by_contra hlast'
    obtain ⟨x, t', hx, huse', ht'⟩ := (h.used_below hw huse).2 i.toNat hci (by omega)
    obtain rfl : t' = i := BitVec.eq_of_toNat_eq ht'
    have : x = u := huniq x u t' huse' hu
    omega

theorem unique_iff_inOrder (h : History c events) (hw : NoWrap events) :
    Unique events ↔ InOrder events := by
  refine ⟨fun huniq => huniq.inOrder h hw, fun hin u v ticket hu hv => ?_⟩
  rcases Nat.lt_trichotomy u v with huv | rfl | hvu
  · exact absurd (hin.lt h hw hv huv hu) (Nat.lt_irrefl _)
  · rfl
  · exact absurd (hin.lt h hw hu hvu hv) (Nat.lt_irrefl _)

end Lib.Ticket
