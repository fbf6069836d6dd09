/-
  Lws.LinkedList — `std::list`, whose iterators stay valid, and lists in order of last use.

  A node keeps its name for as long as it is in the list, wherever it is moved, and a new one
  gets a name none had before. An iterator is such a name, or none: the end, or one that was
  never set.

  `touch` moves an element to the front of a list or puts it there. The elements used, the last
  one first, are what the uses touch (`lastUses_snoc`), and of a list cut off at some length
  each use leaves what it leaves of the whole, cut off there (`take_touch`).
-/

import Mathlib

namespace Lws

variable {α : Type}

structure LinkedList (α : Type) where
  nodes : List (Nat × α)
  /-- The name of the next node. -/
  fresh : Nat
  distinct : (nodes.map Prod.fst).Nodup
  older : ∀ node ∈ nodes, node.1 < fresh

namespace LinkedList

def empty : LinkedList α := ⟨[], 0, List.nodup_nil, by simp⟩

def values (l : LinkedList α) : List α := l.nodes.map Prod.snd

/-- `*it`. -/
def deref (l : LinkedList α) (it : Option Nat) : Option α := it.bind fun name => l.nodes.lookup name

def begin_ (l : LinkedList α) : Option Nat := l.nodes.head?.map Prod.fst

def back (l : LinkedList α) : Option α := l.values.getLast?

def pushFront (l : LinkedList α) (value : α) : LinkedList α where
  nodes := (l.fresh, value) :: l.nodes
  fresh := l.fresh + 1
  distinct := by
    rw [List.map_cons, List.nodup_cons]
    refine ⟨fun h => ?_, l.distinct⟩
    obtain ⟨node, hmem, hname⟩ := List.mem_map.mp h
    exact absurd (l.older node hmem) (by rw [hname]; exact lt_irrefl _)
  older := by
    intro node h
    rcases List.mem_cons.mp h with rfl | h
    · exact Nat.lt_succ_self _
    · exact Nat.lt_succ_of_lt (l.older node h)

def popBack (l : LinkedList α) : LinkedList α where
  nodes := l.nodes.dropLast
  fresh := l.fresh
  distinct := l.distinct.sublist ((List.dropLast_sublist _).map _)
  older node h := l.older node (List.dropLast_subset _ h)

/-- `splice(begin(), *this, it)`: the node goes to the front and keeps its name. -/
def splice (l : LinkedList α) (it : Option Nat) : LinkedList α where
  nodes := (l.nodes.filter fun node => some node.1 = it) ++ l.nodes.filter fun node => !decide (some node.1 = it)
  fresh := l.fresh
  distinct := ((List.filter_append_perm _ l.nodes).map Prod.fst).nodup_iff.mpr l.distinct
  older node h := l.older node ((List.filter_append_perm _ l.nodes).mem_iff.mp h)

/-! ## What is left where it was -/

theorem deref_eq_some {l : LinkedList α} {name : Nat} {value : α} :
    l.deref (some name) = some value ↔ (name, value) ∈ l.nodes := by
  show l.nodes.lookup name = some value ↔ _
  constructor
  · intro h
    obtain ⟨before, after, hnodes, -⟩ := List.lookup_eq_some_iff.mp h
    simp [hnodes]
  · intro h
    obtain ⟨before, after, hnodes⟩ := List.append_of_mem h
    refine List.lookup_eq_some_iff.mpr ⟨before, after, hnodes, fun node hmem => ?_⟩
    have hdistinct := l.distinct
    rw [hnodes, List.map_append, List.map_cons] at hdistinct
    have hne := (List.nodup_append.mp hdistinct).2.2 node.1 (List.mem_map_of_mem hmem) name List.mem_cons_self
    simpa using hne.symm

theorem deref_popBack {l : LinkedList α} {it : Option Nat} {value : α} (h : l.deref it = some value)
    (hback : l.back ≠ some value) : l.popBack.deref it = some value := by
  cases it with
  | none => cases h
  | some name =>
    rw [deref_eq_some] at h ⊢
    have hne : l.nodes ≠ [] := List.ne_nil_of_mem h
    rw [← List.dropLast_append_getLast hne, List.mem_append, List.mem_singleton] at h
    rcases h with h | h
    · exact h
    · -- the last node has the last value
      refine absurd ?_ hback
      rw [back, values, List.getLast?_map, List.getLast?_eq_some_getLast hne, ← h]
      rfl

theorem deref_pushFront {l : LinkedList α} {it : Option Nat} {value : α} (new : α) (h : l.deref it = some value) :
    (l.pushFront new).deref it = some value := by
  cases it with
  | none => cases h
  | some name => exact deref_eq_some.mpr (List.mem_cons_of_mem _ (deref_eq_some.mp h))

theorem deref_begin_pushFront (l : LinkedList α) (new : α) :
    (l.pushFront new).deref (l.pushFront new).begin_ = some new :=
  deref_eq_some.mpr List.mem_cons_self

theorem deref_splice {l : LinkedList α} {it : Option Nat} {value : α} (moved : Option Nat)
    (h : l.deref it = some value) :
    (l.splice moved).deref it = some value := by
  cases it with
  | none => cases h
  | some name =>
    rw [deref_eq_some] at h ⊢
    exact (List.filter_append_perm _ l.nodes).mem_iff.mpr h

@[simp] theorem values_pushFront (l : LinkedList α) (new : α) : (l.pushFront new).values = new :: l.values := rfl

@[simp] theorem values_popBack (l : LinkedList α) : l.popBack.values = l.values.dropLast := List.map_dropLast

theorem values_splice [DecidableEq α] {l : LinkedList α} {it : Option Nat} {value : α} (h : l.deref it = some value)
    (hnodup : l.values.Nodup) : (l.splice it).values = value :: l.values.erase value := by
  cases it with
  | none => cases h
  | some name =>
    obtain ⟨before, after, hnodes⟩ := List.append_of_mem (deref_eq_some.mp h)
    have hdistinct := l.distinct
    unfold values at hnodup ⊢
    rw [hnodes, List.map_append, List.map_cons] at hdistinct hnodup
    obtain ⟨-, hafter, hbefore⟩ := List.nodup_append.mp hdistinct
    have hfront : ∀ node ∈ before, node.1 ≠ name :=
      fun node h => hbefore _ (List.mem_map_of_mem h) name List.mem_cons_self
    have hback : ∀ node ∈ after, node.1 ≠ name := by
      intro node h he
      exact (List.nodup_cons.mp hafter).1 (List.mem_map.mpr ⟨node, h, he⟩)
    have hmoved : l.nodes.filter (fun node => some node.1 = some name) = [(name, value)] := by
      have hnone : ∀ part : List (Nat × α), (∀ node ∈ part, node.1 ≠ name) →
          part.filter (fun node => some node.1 = some name) = [] := by
        intro part h
        rw [List.filter_eq_nil_iff]
        intro node hmem
        simpa using h node hmem
      rw [hnodes, List.filter_append, List.filter_cons, hnone before hfront, hnone after hback]
      simp
    have hrest : l.nodes.filter (fun node => !decide (some node.1 = some name)) = before ++ after := by
      have hall : ∀ part : List (Nat × α), (∀ node ∈ part, node.1 ≠ name) →
          part.filter (fun node => !decide (some node.1 = some name)) = part := by
        intro part h
        rw [List.filter_eq_self]
        intro node hmem
        simpa using h node hmem
      rw [hnodes, List.filter_append, List.filter_cons, hall before hfront, hall after hback]
      simp
    have hvalue : value ∉ before.map Prod.snd := fun h =>
      (List.nodup_append.mp hnodup).2.2 value h value List.mem_cons_self rfl
    show ((l.nodes.filter fun node => some node.1 = some name) ++
      l.nodes.filter fun node => !decide (some node.1 = some name)).map Prod.snd =
        value :: (l.nodes.map Prod.snd).erase value
    rw [hmoved, hrest, hnodes]
    simp [List.erase_append_right _ hvalue]

end LinkedList

/-! ## Order of last use -/

section LastUse

variable [DecidableEq α]

def touch (a : α) (l : List α) : List α := a :: l.erase a

theorem touch_nodup {l : List α} (h : l.Nodup) (a : α) : (touch a l).Nodup :=
  List.nodup_cons.mpr ⟨h.not_mem_erase, h.erase a⟩

def lastUses (uses : List α) : List α := uses.dedup.reverse

theorem dedup_snoc (uses : List α) (a : α) : (uses ++ [a]).dedup = uses.dedup.erase a ++ [a] := by
  induction uses with
  | nil => simp
  | cons x uses ih =>
    by_cases hx : x ∈ uses
    · rw [List.cons_append, List.dedup_cons_of_mem (List.mem_append_left _ hx), List.dedup_cons_of_mem hx, ih]
    · by_cases hxa : x = a
      · subst hxa
        have hnot : x ∉ uses.dedup := by rwa [List.mem_dedup]
        rw [List.cons_append, List.dedup_cons_of_mem (by simp), ih, List.dedup_cons_of_notMem hx, List.erase_cons_head,
          List.erase_of_not_mem hnot]
      · have hnot : x ∉ uses ++ [a] := by simp [hx, hxa]
        rw [List.cons_append, List.dedup_cons_of_notMem hnot, ih, List.dedup_cons_of_notMem hx,
          List.erase_cons_tail (by simpa using hxa), List.cons_append]

theorem lastUses_snoc (uses : List α) (a : α) : lastUses (uses ++ [a]) = touch a (lastUses uses) := by
  have hnodup : uses.dedup.reverse.Nodup := List.nodup_reverse.mpr (List.nodup_dedup uses)
  unfold lastUses touch
  rw [dedup_snoc, List.reverse_append, hnodup.erase_eq_filter,
      (List.nodup_dedup uses).erase_eq_filter, List.filter_reverse]
  rfl

/-- What a use leaves of a list cut off is what it leaves of the list, cut off. -/
theorem take_touch (k : Nat) (a : α) (l : List α) : (touch a (l.take k)).take k = (touch a l).take k := by
  have key : ∀ (l : List α) (j : Nat), ((l.take (j + 1)).erase a).take j = (l.erase a).take j := by
    intro l
    induction l with
    | nil => intro j; simp
    | cons x l ih =>
      intro j
      by_cases hx : x = a
      · subst hx
        simp
      · cases j with
        | zero => simp
        | succ j =>
          rw [List.take_succ_cons, List.erase_cons_tail (by simpa using hx), List.erase_cons_tail (by simpa using hx),
            List.take_succ_cons, List.take_succ_cons, ih]
  cases k with
  | zero => rfl
  | succ j =>
    unfold touch
    rw [List.take_succ_cons, List.take_succ_cons, key]

end LastUse

end Lws
