import Dytan.Lib.OrderedMap
import Dytan.Monitor.Network

/-!
# The order of the network addresses (`monitor_network.h`)

`NetworkAddress_cmp` compares the ips and the ports apart: of two addresses, one with the smaller ip
and one with the smaller port, each is less than the other. `addressMap` is `addressObservers` as a
`std::map` that follows the comparison.

`address_order_iff`: among the addresses of a set the comparison has the laws of a strict weak
ordering, and the map has one entry for each address that `find` gives back, exactly when no two of
them are such a pair.

`Finds nm address`: every `std::map` has an entry for the address. A `std::map` promises nothing of keys
that are not in a strict weak ordering (`StandardFind`), so that is so if and only if the address is
registered and the comparison orders the addresses (`finds_iff`).
-/

namespace Dytan

open Lib (Incomparable OrderedMap StrictWeakOn)

/-- `a` has the smaller ip and `b` the smaller port. -/
def NetworkAddress.Crossed (a b : NetworkAddress) : Prop :=
  a.ip < b.ip ∧ b.port.slt a.port = true

/-- The laws of the comparison on `S`, and which addresses it does not tell apart. -/
structure AddressOrder (S : Set NetworkAddress) : Prop where
  strictWeak : StrictWeakOn NetworkAddress.cmp S
  classes : ∀ a ∈ S, ∀ b ∈ S,
    Incomparable NetworkAddress.cmp a b ↔ a.ip = b.ip ∧ a.port = b.port

namespace NetworkMonitor

variable {C : Type}

/-- `addressObservers`. -/
def addressMap (nm : NetworkMonitor C) : OrderedMap NetworkAddress (List C) :=
  OrderedMap.collect NetworkAddress.cmp nm.addressObservers

/-- `addressObservers.find`, as a search from the first entry on. Where the comparison is no weak order,
the tree of a `std::map` can be searched in another way, with another result. -/
def findAddress : Find C := fun pushes address =>
  OrderedMap.find NetworkAddress.cmp (OrderedMap.collect NetworkAddress.cmp pushes) address

/-- What `std::map` says of `addressObservers.find`: with the address, the keys must be in a strict weak
ordering. -/
def StandardFind (find : Find C) : Prop :=
  ∀ pushes address,
    StrictWeakOn NetworkAddress.cmp (insert address {a | a ∈ pushes.map Prod.fst}) →
    find pushes address = findAddress pushes address

/-- The addresses with observers. -/
def addresses (nm : NetworkMonitor C) : List NetworkAddress := nm.addressObservers.map Prod.fst

/-- The callbacks find observers for the address. -/
def Finds (nm : NetworkMonitor C) (address : NetworkAddress) : Prop :=
  ∀ find, StandardFind find → (nm.observed find address).isSome

section
variable (inet_addr : String → BitVec 32) (atoi : String → BitVec 32)

/-- A sequence of `observeAddress` calls on a new monitor. -/
def observeAddresses (observeAll : Bool) (calls : List (String × String × C)) : NetworkMonitor C :=
  calls.foldl (fun nm call => nm.observeAddress inet_addr atoi call.1 call.2.1 call.2.2)
    (new observeAll)

/-- The callbacks of the calls for `address`. -/
def callbacksFor (address : NetworkAddress) (calls : List (String × String × C)) : List C :=
  (calls.filter fun call => addressOf inet_addr atoi call.1 call.2.1 = address).map (·.2.2)

/-- After any calls for addresses in `S`, the map has one entry for each address and `find` gives
the entry of exactly the address it is asked for. -/
def MapKeepsApart (S : Set NetworkAddress) : Prop :=
  ∀ (C : Type) (observeAll : Bool) (calls : List (String × String × C)),
    (∀ call ∈ calls, addressOf inet_addr atoi call.1 call.2.1 ∈ S) →
    (observeAddresses inet_addr atoi observeAll calls).addressMap.Pairwise
        (fun e e' => ¬ (e.1.ip = e'.1.ip ∧ e.1.port = e'.1.port)) ∧
      ∀ a ∈ S, (observeAddresses inet_addr atoi observeAll calls).observed findAddress a =
        if callbacksFor inet_addr atoi a calls = [] then none
        else some (callbacksFor inet_addr atoi a calls)

theorem observeAddresses_observers (observeAll : Bool) (calls : List (String × String × C)) :
    (observeAddresses inet_addr atoi observeAll calls).addressObservers =
      calls.map fun call => (addressOf inet_addr atoi call.1 call.2.1, call.2.2) := by
  have hadd : ∀ nm : NetworkMonitor C,
      (calls.foldl (fun nm call => nm.observeAddress inet_addr atoi call.1 call.2.1 call.2.2)
          nm).addressObservers =
        nm.addressObservers ++
          calls.map fun call => (addressOf inet_addr atoi call.1 call.2.1, call.2.2) := by
    induction calls with
    | nil => exact fun nm => (List.append_nil _).symm
    | cons call calls ih =>
      intro nm
      rw [List.foldl_cons, ih, observeAddress, List.map_cons, List.append_assoc]
      rfl
  exact hadd _

end

end NetworkMonitor

/-! ## The laws -/

namespace NetworkAddress

variable {S : Set NetworkAddress} {a b c : NetworkAddress}

theorem cmp_iff : a.cmp b = true ↔ a.ip.toNat < b.ip.toNat ∨ a.port.toInt < b.port.toInt := by
  simp [cmp, BitVec.lt_def, BitVec.slt_eq_decide]

theorem crossed_iff : a.Crossed b ↔ a.ip.toNat < b.ip.toNat ∧ b.port.toInt < a.port.toInt := by
  simp [Crossed, BitVec.lt_def, BitVec.slt_eq_decide]

theorem eq_of_fields (hip : a.ip = b.ip) (hport : a.port = b.port) : a = b := by
  cases a
  cases b
  exact congrArg₂ mk hip hport

/-- Two addresses that are not less than each other are the same. -/
theorem incomparable_iff : Incomparable cmp a b ↔ a.ip = b.ip ∧ a.port = b.port := by
  simp only [Incomparable, ← Bool.not_eq_true, cmp_iff, not_or, Nat.not_lt, Int.not_lt]
  constructor
  · rintro ⟨⟨hip, hport⟩, hip', hport'⟩
    exact ⟨BitVec.eq_of_toNat_eq (by omega), BitVec.eq_of_toInt_eq (by omega)⟩
  · rintro ⟨hip, hport⟩
    simp [hip, hport]

/-- Without crossed pairs the comparison is the strict part of the product order. -/
theorem strictWeak_of_not_crossed (h : ∀ a ∈ S, ∀ b ∈ S, ¬ a.Crossed b) : StrictWeakOn cmp S where
  irrefl a _ := by
    rw [← Bool.not_eq_true, cmp_iff]
    omega
  asymm a ha b hb hab := by
    have hcross := h a ha b hb
    have hcross' := h b hb a ha
    rw [crossed_iff] at hcross hcross'
    rw [cmp_iff] at hab
    rw [← Bool.not_eq_true, cmp_iff]
    omega
  trans a ha b hb c hc hab hbc := by
    have hcross := h b hb a ha
    have hcross' := h c hc b hb
    rw [crossed_iff] at hcross hcross'
    rw [cmp_iff] at hab hbc ⊢
    omega
  incomparable_trans a _ b _ c _ hab hbc := by
    rw [incomparable_iff] at hab hbc ⊢
    exact ⟨hab.1.trans hbc.1, hab.2.trans hbc.2⟩

/-- Each address of a crossed pair is less than the other. -/
theorem not_crossed_of_strictWeak (h : StrictWeakOn cmp S) : ∀ a ∈ S, ∀ b ∈ S, ¬ a.Crossed b := by
  intro a ha b hb hcross
  rw [crossed_iff] at hcross
  have hab : a.cmp b = true := cmp_iff.2 (.inl hcross.1)
  have hba : b.cmp a = true := cmp_iff.2 (.inr hcross.2)
  rw [h.asymm a ha b hb hab] at hba
  cases hba

end NetworkAddress

/-! ## The map -/

section
variable {C : Type} {S : Set NetworkAddress}

/-- What is pushed at an address is found there. -/
theorem findAddress_eq (h : StrictWeakOn NetworkAddress.cmp S) {pushes : AddressObservers C}
    (hS : ∀ push ∈ pushes, push.1 ∈ S) {a : NetworkAddress} (ha : a ∈ S) :
    NetworkMonitor.findAddress pushes a =
      if OrderedMap.pushed (fun k' => decide (k' = a)) pushes = [] then none
      else some (OrderedMap.pushed (fun k' => decide (k' = a)) pushes) := by
  refine OrderedMap.find_collect h hS ha fun k' _ => ?_
  rw [decide_eq_true_iff, NetworkAddress.incomparable_iff]
  exact ⟨fun he => he ▸ ⟨rfl, rfl⟩, fun he => NetworkAddress.eq_of_fields he.1 he.2⟩

namespace NetworkMonitor

variable {nm : NetworkMonitor C} {address : NetworkAddress}

theorem findAddress_isSome
    (h : StrictWeakOn NetworkAddress.cmp (insert address {a | a ∈ nm.addresses})) :
    (nm.observed findAddress address).isSome ↔ address ∈ nm.addresses := by
  have hkeys : ∀ push ∈ nm.addressObservers, push.1 ∈ insert address {a | a ∈ nm.addresses} :=
    fun push hpush => .inr (List.mem_map_of_mem hpush)
  have hpushed : OrderedMap.pushed (fun k' => decide (k' = address)) nm.addressObservers = [] ↔
      address ∉ nm.addresses := by
    rw [OrderedMap.pushed, List.map_eq_nil_iff, List.filter_eq_nil_iff, addresses, List.mem_map,
      not_exists]
    exact forall_congr' fun push => by simp
  rw [observed, findAddress_eq h hkeys (.inl rfl)]
  split_ifs with hnone
  · simp [hpushed.1 hnone]
  · simp [not_not.1 (mt hpushed.2 hnone)]

/-- A `std::map` may find nothing when the keys are not ordered. -/
theorem finds_iff : nm.Finds address ↔ address ∈ nm.addresses ∧
    StrictWeakOn NetworkAddress.cmp (insert address {a | a ∈ nm.addresses}) := by
  classical
  constructor
  · intro h
    have hordered : StrictWeakOn NetworkAddress.cmp (insert address {a | a ∈ nm.addresses}) := by
      by_contra hnot
      have hfound := h (fun pushes a =>
        if StrictWeakOn NetworkAddress.cmp (insert a {a | a ∈ pushes.map Prod.fst}) then
          findAddress pushes a
        else none) fun pushes a ha => if_pos ha
      unfold addresses at hnot
      rw [observed, if_neg hnot] at hfound
      cases hfound
    exact ⟨(findAddress_isSome hordered).1 (h findAddress fun _ _ _ => rfl), hordered⟩
  · rintro ⟨hmem, hordered⟩ find hfind
    rw [observed, hfind _ _ hordered]
    exact (findAddress_isSome hordered).2 hmem

/-- The addresses that are registered are all found when no two of them are crossed. -/
theorem finds_all_iff : (∀ a ∈ nm.addresses, nm.Finds a) ↔
    ∀ a ∈ nm.addresses, ∀ b ∈ nm.addresses, ¬ a.Crossed b := by
  constructor
  · intro h a ha b hb
    exact NetworkAddress.not_crossed_of_strictWeak (finds_iff.1 (h a ha)).2 a (.inl rfl) b (.inr hb)
  · intro h a ha
    refine finds_iff.2 ⟨ha, NetworkAddress.strictWeak_of_not_crossed ?_⟩
    rw [Set.insert_eq_of_mem (show a ∈ {b | b ∈ nm.addresses} from ha)]
    exact h

end NetworkMonitor

end

section
variable (inet_addr : String → BitVec 32) (atoi : String → BitVec 32) {S : Set NetworkAddress}

theorem mapKeepsApart_of_strictWeak (h : StrictWeakOn NetworkAddress.cmp S) :
    NetworkMonitor.MapKeepsApart inet_addr atoi S := by
  intro C observeAll calls hcalls
  have hobservers :=
    NetworkMonitor.observeAddresses_observers inet_addr atoi observeAll calls
  have hS : ∀ push ∈
      (NetworkMonitor.observeAddresses inet_addr atoi observeAll calls).addressObservers,
      push.1 ∈ S := by
    rw [hobservers]
    intro push hpush
    obtain ⟨call, hcall, rfl⟩ := List.mem_map.1 hpush
    exact hcalls call hcall
  constructor
  · have hdistinct := (OrderedMap.collect_ordered h hS).1.distinct
    simp only [NetworkAddress.incomparable_iff] at hdistinct
    exact hdistinct
  · intro a ha
    have hcallbacks : OrderedMap.pushed (fun k' => decide (k' = a))
        (NetworkMonitor.observeAddresses inet_addr atoi observeAll calls).addressObservers =
          NetworkMonitor.callbacksFor inet_addr atoi a calls := by
      rw [hobservers, OrderedMap.pushed, List.filter_map, List.map_map]
      rfl
    rw [NetworkMonitor.observed, findAddress_eq h hS ha, hcallbacks]

/-- The comparison orders the addresses of `S`, and the map keeps them apart, exactly when none of
them has a smaller ip and a larger port than another. -/
theorem address_order_iff :
    AddressOrder S ∧ NetworkMonitor.MapKeepsApart inet_addr atoi S ↔
      ∀ a ∈ S, ∀ b ∈ S, ¬ a.Crossed b := by
  constructor
  · rintro ⟨horder, -⟩
    exact NetworkAddress.not_crossed_of_strictWeak horder.strictWeak
  · intro h
    have hweak := NetworkAddress.strictWeak_of_not_crossed h
    exact ⟨⟨hweak, fun a _ b _ => NetworkAddress.incomparable_iff⟩,
      mapKeepsApart_of_strictWeak inet_addr atoi hweak⟩

end

/-- `0.0.0.1:80` and `0.0.0.2:22` are each less than the other. -/
theorem addresses_not_ordered :
    ¬ ∀ (inet_addr atoi : String → BitVec 32),
      AddressOrder Set.univ ∧ NetworkMonitor.MapKeepsApart inet_addr atoi Set.univ := by
  intro h
  have hless := (h (fun _ => 0) (fun _ => 0)).1.strictWeak.asymm ⟨1, 80⟩ trivial ⟨2, 22⟩ trivial
    (by decide)
  exact absurd hless (by decide)

end Dytan
