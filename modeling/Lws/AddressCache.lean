/-
  Lws.AddressCache — the map and the list of `mempool::address_cache` (`src/mempool.cpp`,
  `src/mempool.h`), and that each stays the index of the other.

  An entry of the map holds an iterator into the list of the addresses, and the list says
  which entry to evict. Every call keeps both in step (`LinkedCache.Ok`): the list has each
  address of the map once, an entry's iterator is at its own address, and there are fewer
  entries than the limit. The list is the addresses in order of when they were last set, cut
  off below the limit, so what a new address evicts is the one set longest ago
  (`address_cache_lru`).

  With the iterators left out it is the `AddressCache` that a scan of the pool uses
  (`forget_set`, `forget_get`).
-/

import Lws.LinkedList
import Lws.Mempool

namespace Lws

open Lws.Db

/-- `address_cache::entry`. -/
structure LinkedEntry where
  subaddrs : List SubaddressDict
  txids : List Hash
  order : Option Nat

def LinkedEntry.forget (entry : LinkedEntry) : CacheEntry := ⟨entry.subaddrs, entry.txids⟩

structure LinkedCache where
  map : List (AccountAddress × LinkedEntry)
  order : LinkedList AccountAddress

namespace LinkedCache

def empty : LinkedCache := ⟨[], LinkedList.empty⟩

def get (cache : LinkedCache) (address : AccountAddress) (subaddrs : List SubaddressDict) : List Hash :=
  match cache.map.lookup address with
  | some entry => if entry.subaddrs = subaddrs then entry.txids else []
  | none => []

/-- Writing the entry of an address. -/
def renew (address : AccountAddress) (entry : LinkedEntry) (e : AccountAddress × LinkedEntry) :
    AccountAddress × LinkedEntry :=
  if e.1 = address then (address, entry) else e

def set (cache : LinkedCache) (address : AccountAddress) (subaddrs : List SubaddressDict) (txids : List Hash) :
    LinkedCache :=
  match cache.map.lookup address with
  | none =>
    let order := cache.order.pushFront address
    let map := (address, ⟨subaddrs, txids, order.begin_⟩) :: cache.map
    if maxCacheSize ≤ map.length then ⟨map.filter fun e => some e.1 ≠ order.back, order.popBack⟩ else ⟨map, order⟩
  | some entry =>
    ⟨cache.map.map (renew address ⟨subaddrs, txids, entry.order⟩), cache.order.splice entry.order⟩

def addresses (cache : LinkedCache) : List AccountAddress := cache.map.map (·.1)

structure Ok (cache : LinkedCache) : Prop where
  lists : cache.addresses.Perm cache.order.values
  once : cache.order.values.Nodup
  points : ∀ e ∈ cache.map, cache.order.deref e.2.order = some e.1
  size : cache.map.length < maxCacheSize

inductive Call where
  | get (address : AccountAddress) (subaddrs : List SubaddressDict)
  | set (address : AccountAddress) (subaddrs : List SubaddressDict) (txids : List Hash)

def call (cache : LinkedCache) : Call → LinkedCache
  | .get _ _ => cache
  | .set address subaddrs txids => cache.set address subaddrs txids

def run (calls : List Call) : LinkedCache := calls.foldl call empty

def Call.sets : List Call → List AccountAddress := List.filterMap fun
  | .get _ _ => none
  | .set address _ _ => some address

/-! ## One call -/

variable {cache : LinkedCache} {address : AccountAddress} {subaddrs : List SubaddressDict} {txids : List Hash}

theorem lookup_none_iff : cache.map.lookup address = none ↔ address ∉ cache.addresses := by
  rw [List.lookup_eq_none_iff, addresses, List.mem_map]
  constructor
  · rintro h ⟨e, he, rfl⟩
    simpa using h e he
  · intro h e he
    exact bne_iff_ne.mpr fun heq => h ⟨e, he, heq.symm⟩

theorem mem_of_lookup {entry : LinkedEntry} (h : cache.map.lookup address = some entry) :
    (address, entry) ∈ cache.map := by
  obtain ⟨before, after, hmap, -⟩ := List.lookup_eq_some_iff.mp h
  simp [hmap]

theorem keys_renew (map : List (AccountAddress × LinkedEntry)) (address : AccountAddress) (entry : LinkedEntry) :
    (map.map (renew address entry)).map (·.1) = map.map (·.1) := by
  rw [List.map_map]
  refine List.map_congr_left fun e _ => ?_
  show (renew address entry e).1 = e.1
  unfold renew
  split
  · rename_i he
    exact he.symm
  · rfl

/-- The three ways a call changes the cache: an address more, one more and the oldest less, and one renewed. -/
theorem set_cases (h : cache.Ok) (address : AccountAddress) (subaddrs : List SubaddressDict) (txids : List Hash) :
    (address ∉ cache.addresses ∧ cache.map.length + 1 < maxCacheSize ∧
      cache.set address subaddrs txids =
        ⟨(address, ⟨subaddrs, txids, (cache.order.pushFront address).begin_⟩) :: cache.map,
          cache.order.pushFront address⟩) ∨
    (∃ oldest, address ∉ cache.addresses ∧ cache.map.length + 1 = maxCacheSize ∧
      cache.order.values.getLast? = some oldest ∧ oldest ≠ address ∧
      cache.set address subaddrs txids =
        ⟨(address, ⟨subaddrs, txids, (cache.order.pushFront address).begin_⟩) :: cache.map.filter fun e => e.1 ≠ oldest,
          (cache.order.pushFront address).popBack⟩) ∨
    ∃ entry, (address, entry) ∈ cache.map ∧
      cache.set address subaddrs txids =
        ⟨cache.map.map (renew address ⟨subaddrs, txids, entry.order⟩), cache.order.splice entry.order⟩ := by
  rcases hlookup : cache.map.lookup address with _ | entry
  · have hnew := lookup_none_iff.mp hlookup
    have hsize := h.size
    by_cases hfull : maxCacheSize ≤ cache.map.length + 1
    · have hlen : cache.order.values.length = cache.map.length := by
        rw [← h.lists.length_eq, addresses, List.length_map]
      have hne : cache.order.values ≠ [] := by
        rw [← List.length_pos_iff, hlen]
        have : maxCacheSize = 1000 := rfl
        omega
      have holdest := List.getLast?_eq_some_getLast hne
      have hother : cache.order.values.getLast hne ≠ address := by
        intro heq
        exact hnew (h.lists.mem_iff.mpr (heq ▸ List.getLast_mem hne))
      have hback : (cache.order.pushFront address).back = some (cache.order.values.getLast hne) := by
        rw [LinkedList.back, LinkedList.values_pushFront, List.getLast?_cons, holdest]
        rfl
      refine Or.inr (Or.inl ⟨_, hnew, by omega, holdest, hother, ?_⟩)
      unfold set
      rw [hlookup]
      dsimp only [List.length_cons]
      rw [if_pos hfull, hback, List.filter_cons, if_pos (by simpa using hother.symm)]
      simp
    · refine Or.inl ⟨hnew, by omega, ?_⟩
      unfold set
      rw [hlookup]
      exact if_neg hfull
  · refine Or.inr (Or.inr ⟨entry, mem_of_lookup hlookup, ?_⟩)
    unfold set
    rw [hlookup]

/-- What a call does to the list. -/
theorem set_order (h : cache.Ok) (address : AccountAddress) (subaddrs : List SubaddressDict) (txids : List Hash) :
    (cache.set address subaddrs txids).order.values = (touch address cache.order.values).take (maxCacheSize - 1) := by
  have hlen : cache.order.values.length = cache.map.length := by
    rw [← h.lists.length_eq, addresses, List.length_map]
  rcases set_cases h address subaddrs txids with ⟨hnew, hsize, heq⟩ | ⟨oldest, hnew, hsize, -, -, heq⟩ |
        ⟨entry, hmem, heq⟩
  · have hnot : address ∉ cache.order.values := fun hin => hnew (h.lists.mem_iff.mpr hin)
    rw [heq, touch, List.erase_of_not_mem hnot, List.take_of_length_le (by rw [List.length_cons]; omega)]
    rfl
  · have hnot : address ∉ cache.order.values := fun hin => hnew (h.lists.mem_iff.mpr hin)
    rw [heq, touch, List.erase_of_not_mem hnot]
    show (cache.order.pushFront address).popBack.values = _
    rw [LinkedList.values_popBack, LinkedList.values_pushFront, List.dropLast_eq_take, List.length_cons, hlen, hsize]
  · have hderef := h.points _ hmem
    have hin : address ∈ cache.order.values := h.lists.mem_iff.mp (List.mem_map_of_mem hmem)
    have hpos : 0 < cache.order.values.length := List.length_pos_of_mem hin
    have hsize := h.size
    rw [heq, touch, List.take_of_length_le (by rw [List.length_cons, List.length_erase_of_mem hin]; omega)]
    exact LinkedList.values_splice hderef h.once

/-- A call keeps the map and the list in step. -/
theorem set_ok (h : cache.Ok) (address : AccountAddress) (subaddrs : List SubaddressDict) (txids : List Hash) :
    (cache.set address subaddrs txids).Ok := by
  have honce : (cache.set address subaddrs txids).order.values.Nodup := by
    rw [set_order h]
    exact (touch_nodup h.once address).sublist (List.take_sublist _ _)
  rcases set_cases h address subaddrs txids with ⟨hnew, hsize, heq⟩ | ⟨oldest, hnew, hsize, hlast, hother, heq⟩ |
      ⟨entry, hmem, heq⟩
  · rw [heq] at honce ⊢
    refine ⟨h.lists.cons address, honce, fun e he => ?_, hsize⟩
    rcases List.mem_cons.mp he with rfl | he
    · exact LinkedList.deref_begin_pushFront _ _
    · exact LinkedList.deref_pushFront address (h.points e he)
  · -- the oldest address is the last of the list, and only its entry goes
    obtain ⟨front, hvalues⟩ := List.getLast?_eq_some_iff.mp hlast
    have hback : (cache.order.pushFront address).back = some oldest := by
      rw [LinkedList.back, LinkedList.values_pushFront, List.getLast?_cons, hlast]
      rfl
    have hfront : cache.order.values.filter (fun a => a ≠ oldest) = front := by
      have hnodup := h.once
      rw [hvalues] at hnodup ⊢
      have hnot : ∀ a ∈ front, a ≠ oldest := fun a ha => (List.nodup_append.mp hnodup).2.2 a ha oldest (by simp)
      rw [List.filter_append, List.filter_eq_self.mpr fun a ha => by simpa using hnot a ha]
      simp
    have hkeys : (cache.map.filter fun e => e.1 ≠ oldest).map (·.1) = cache.addresses.filter fun a => a ≠ oldest := by
      rw [addresses, List.filter_map]
      rfl
    have hlists : (address :: (cache.map.filter fun e => e.1 ≠ oldest).map (·.1)).Perm
        (cache.order.pushFront address).popBack.values := by
      rw [hkeys, LinkedList.values_popBack, LinkedList.values_pushFront, hvalues, ← List.cons_append,
        List.dropLast_concat, ← hfront]
      exact (h.lists.filter _).cons address
    rw [heq] at honce ⊢
    refine ⟨hlists, honce, fun e he => ?_, ?_⟩
    · rcases List.mem_cons.mp he with rfl | he
      · apply LinkedList.deref_popBack (LinkedList.deref_begin_pushFront _ _)
        rw [hback]
        exact fun he => hother (Option.some.inj he)
      · obtain ⟨he, hne⟩ := List.mem_filter.mp he
        apply LinkedList.deref_popBack (LinkedList.deref_pushFront address (h.points e he))
        rw [hback]
        exact fun heq => of_decide_eq_true hne (Option.some.inj heq).symm
    · have hin : oldest ∈ cache.addresses := h.lists.mem_iff.mpr (hvalues ▸ by simp)
      obtain ⟨e, he, hoe⟩ := List.mem_map.mp hin
      have hless : (cache.map.filter fun e => e.1 ≠ oldest).length < cache.map.length :=
        List.length_filter_lt_length_iff_exists.mpr ⟨e, he, by simp [hoe]⟩
      show (cache.map.filter fun e => e.1 ≠ oldest).length + 1 < maxCacheSize
      omega
  · have hderef := h.points _ hmem
    rw [heq] at honce ⊢
    refine ⟨?_, honce, fun e he => ?_, ?_⟩
    · show ((cache.map.map (renew address _)).map (·.1)).Perm (cache.order.splice entry.order).values
      rw [keys_renew, LinkedList.values_splice hderef h.once]
      exact h.lists.trans (List.perm_cons_erase (h.lists.mem_iff.mp (List.mem_map_of_mem hmem)))
    · obtain ⟨old, hold, rfl⟩ := List.mem_map.mp he
      unfold renew
      split
      · exact LinkedList.deref_splice _ hderef
      · exact LinkedList.deref_splice _ (h.points old hold)
    · rw [List.length_map]
      exact h.size

/-- Only the address set longest ago is evicted, and only when a new one would reach the limit. -/
theorem set_evicts (h : cache.Ok) {evicted : AccountAddress} (hin : evicted ∈ cache.addresses)
    (hgone : evicted ∉ (cache.set address subaddrs txids).addresses) :
    address ∉ cache.addresses ∧ cache.map.length + 1 = maxCacheSize ∧ cache.order.values.getLast? = some evicted := by
  rcases set_cases h address subaddrs txids with ⟨-, -, heq⟩ | ⟨oldest, hnew, hsize, hlast, -, heq⟩ | ⟨entry, -, heq⟩
  · rw [heq] at hgone
    exact absurd (List.mem_cons_of_mem _ hin) hgone
  · rw [heq] at hgone
    obtain ⟨e, he, rfl⟩ := List.mem_map.mp hin
    by_cases hoe : e.1 = oldest
    · exact ⟨hnew, hsize, hoe ▸ hlast⟩
    · refine absurd (List.mem_cons_of_mem _ (List.mem_map_of_mem (List.mem_filter.mpr ⟨he, ?_⟩))) hgone
      simpa using hoe
  · rw [heq] at hgone
    refine absurd ?_ hgone
    show evicted ∈ (cache.map.map (renew address _)).map (·.1)
    rw [keys_renew]
    exact hin

/-! ## Every run -/

theorem empty_ok : empty.Ok where
  lists := List.Perm.refl _
  once := List.nodup_nil
  points _ h := absurd h List.not_mem_nil
  size := by decide

theorem run_snoc (calls : List Call) (c : Call) : run (calls ++ [c]) = (run calls).call c := List.foldl_append ..

theorem run_ok (calls : List Call) : (run calls).Ok := by
  induction calls using List.reverseRecOn with
  | nil => exact empty_ok
  | append_singleton calls c ih =>
    rw [run_snoc]
    cases c with
    | get => exact ih
    | set address subaddrs txids => exact set_ok ih address subaddrs txids

/-- The list has the addresses in order of when they were last set, cut off below the limit. -/
theorem run_order (calls : List Call) :
    (run calls).order.values = (lastUses (Call.sets calls)).take (maxCacheSize - 1) := by
  induction calls using List.reverseRecOn with
  | nil => rfl
  | append_singleton calls c ih =>
    rw [run_snoc]
    cases c with
    | get address subaddrs =>
      rw [show Call.sets (calls ++ [.get address subaddrs]) = Call.sets calls by simp [Call.sets]]
      exact ih
    | set address subaddrs txids =>
      rw [show Call.sets (calls ++ [.set address subaddrs txids]) = Call.sets calls ++ [address] by simp [Call.sets],
        lastUses_snoc, ← take_touch, ← ih]
      exact set_order (run_ok calls) address subaddrs txids

/-- The map and the list are in step after every run, the list is in order of the last set, and only the address set
    longest ago is ever evicted, by a new address that would reach the limit. -/
theorem address_cache_lru (calls : List Call) :
    (run calls).Ok ∧ (run calls).order.values = (lastUses (Call.sets calls)).take (maxCacheSize - 1) ∧
      ∀ address subaddrs txids evicted, evicted ∈ (run calls).addresses →
        evicted ∉ ((run calls).set address subaddrs txids).addresses →
        address ∉ (run calls).addresses ∧ (run calls).map.length + 1 = maxCacheSize ∧
          (run calls).order.values.getLast? = some evicted :=
  ⟨run_ok calls, run_order calls, fun _ _ _ _ => set_evicts (run_ok calls)⟩

/-! ## The cache of the pool -/

/-- The cache without the iterators. -/
def forget (cache : LinkedCache) : AddressCache := ⟨cache.map.map fun e => (e.1, e.2.forget), cache.order.values⟩

theorem lookup_forget (map : List (AccountAddress × LinkedEntry)) (address : AccountAddress) :
    (map.map fun e => (e.1, e.2.forget)).lookup address = (map.lookup address).map LinkedEntry.forget := by
  induction map with
  | nil => rfl
  | cons e map ih =>
    rw [List.map_cons, List.lookup_cons, List.lookup_cons]
    cases address == e.1 with
    | true => rfl
    | false => exact ih

theorem forget_get (cache : LinkedCache) (address : AccountAddress) (subaddrs : List SubaddressDict) :
    cache.forget.get address subaddrs = cache.get address subaddrs := by
  unfold AddressCache.get get forget
  rw [lookup_forget]
  cases cache.map.lookup address <;> rfl

/-- Setting an address is, without the iterators, what a scan of the pool does to its cache. -/
theorem forget_set (h : cache.Ok) (address : AccountAddress) (subaddrs : List SubaddressDict) (txids : List Hash) :
    (cache.set address subaddrs txids).forget = cache.forget.set address subaddrs txids := by
  have hforget : cache.forget.map.lookup address = (cache.map.lookup address).map LinkedEntry.forget :=
    lookup_forget _ _
  unfold AddressCache.set set
  rw [hforget]
  rcases hlookup : cache.map.lookup address with _ | entry
  · have hlength : cache.forget.map.length + 1 = cache.map.length + 1 := by rw [forget, List.length_map]
    dsimp only [Option.map, List.length_cons]
    by_cases hfull : maxCacheSize ≤ cache.map.length + 1
    · rw [if_pos hfull, if_pos (hlength ▸ hfull)]
      have hkept : ∀ (map : List (AccountAddress × LinkedEntry)) (last : Option AccountAddress),
          (map.filter fun e => some e.1 ≠ last).map (fun e => (e.1, e.2.forget)) =
            (map.map fun e => (e.1, e.2.forget)).filter fun e => some e.1 ≠ last := by
        intro map last
        rw [List.filter_map]
        rfl
      exact congrArg₂ AddressCache.mk (hkept _ _) (LinkedList.values_popBack _)
    · rw [if_neg hfull, if_neg (hlength ▸ hfull)]
      rfl
  · have hderef := h.points _ (mem_of_lookup hlookup)
    dsimp only [Option.map, forget]
    rw [LinkedList.values_splice hderef h.once, List.map_map, List.map_map]
    congr 1
    refine List.map_congr_left fun e _ => ?_
    show _ = if e.1 = address then _ else _
    dsimp only [Function.comp_apply, renew]
    split <;> rfl

end LinkedCache

end Lws
