/-
  Lws.BlockTree — blocks that name their parent.

  A block fixes its height and the block before it. A `Segment` is a run of blocks, each
  the parent of the next; `Through c x` says that `x` and `c` are on one chain. Two chains
  with a block in common agree below it (`Segment.ancestor`), and a chain that holds `c`
  holds every block below `c` that is on a chain with it (`Segment.holds`).
-/

import Mathlib

namespace Lws.BlockTree

structure Tree (α : Type) where
  level : α → Nat
  parent : α → α

variable {α : Type}

namespace Tree

variable (tree : Tree α)

/-- Consecutive blocks, the first at `height`. -/
def Segment (height : Nat) (blocks : List α) : Prop :=
  ∀ i < blocks.length, ∀ x ∈ blocks[i]?, tree.level x = height + i ∧ ∀ y ∈ blocks[i + 1]?, tree.parent y = x

/-- One of the two is an ancestor of the other. -/
def Through (c x : α) : Prop :=
  if tree.level x ≤ tree.level c then tree.parent^[tree.level c - tree.level x] c = x
  else tree.parent^[tree.level x - tree.level c] x = c

instance [DecidableEq α] (height : Nat) (blocks : List α) : Decidable (tree.Segment height blocks) :=
  inferInstanceAs (Decidable (∀ i < blocks.length, ∀ x ∈ blocks[i]?, tree.level x = height + i ∧
    ∀ y ∈ blocks[i + 1]?, tree.parent y = x))

instance [DecidableEq α] (c x : α) : Decidable (tree.Through c x) :=
  inferInstanceAs (Decidable (if tree.level x ≤ tree.level c then tree.parent^[tree.level c - tree.level x] c = x
    else tree.parent^[tree.level x - tree.level c] x = c))

variable {tree} {height : Nat} {blocks : List α} {c x y : α} {i : Nat}

theorem Segment.level (h : tree.Segment height blocks) (hx : blocks[i]? = some x) : tree.level x = height + i :=
  (h i (List.getElem?_eq_some_iff.mp hx).1 x hx).1

theorem Segment.parent (h : tree.Segment height blocks) (hx : blocks[i]? = some x) (hy : blocks[i + 1]? = some y) :
    tree.parent y = x :=
  (h i (List.getElem?_eq_some_iff.mp hx).1 x hx).2 y hy

theorem Segment.drop (h : tree.Segment height blocks) (n : Nat) : tree.Segment (height + n) (blocks.drop n) := by
  intro i _ x hx
  rw [Option.mem_def, List.getElem?_drop] at hx
  refine ⟨by rw [h.level hx, Nat.add_assoc], fun y hy => ?_⟩
  rw [Option.mem_def, List.getElem?_drop] at hy
  exact h.parent hx hy

theorem Segment.take (h : tree.Segment height blocks) (n : Nat) : tree.Segment height (blocks.take n) := by
  have hmem : ∀ {k : Nat} {z : α}, (blocks.take n)[k]? = some z → blocks[k]? = some z := by
    intro k z hz
    rw [List.getElem?_take] at hz
    split at hz
    · exact hz
    · cases hz
  intro i _ x hx
  exact ⟨h.level (hmem hx), fun y hy => h.parent (hmem hx) (hmem hy)⟩

/-- Going up from a block of a segment stays in it. -/
theorem Segment.ancestor (h : tree.Segment height blocks) (hx : blocks[i]? = some x) : ∀ {n : Nat} {y : α},
    blocks[i + n]? = some y → tree.parent^[n] y = x := by
  intro n
  induction n with
  | zero =>
    intro y hy
    exact Option.some.inj (hy.symm.trans hx)
  | succ n ih =>
    intro y hy
    have hlt : i + n < blocks.length := by
      have := (List.getElem?_eq_some_iff.mp hy).1
      omega
    rw [Function.iterate_succ_apply, h.parent (List.getElem?_eq_getElem hlt) hy]
    exact ih (List.getElem?_eq_getElem hlt)

/-- The blocks of a segment from `0` are at their heights. -/
theorem Segment.getElem?_level (h : tree.Segment 0 blocks) (hx : x ∈ blocks) : blocks[tree.level x]? = some x := by
  obtain ⟨i, hi⟩ := List.mem_iff_getElem?.mp hx
  rw [h.level hi, Nat.zero_add]
  exact hi

theorem Segment.through (h : tree.Segment 0 blocks) (hc : c ∈ blocks) (hx : x ∈ blocks) : tree.Through c x := by
  have hc := h.getElem?_level hc
  have hx := h.getElem?_level hx
  unfold Through
  split
  · rename_i hle
    exact h.ancestor hx (by rwa [Nat.add_sub_cancel' hle])
  · rename_i hlt
    exact h.ancestor hc (by rwa [Nat.add_sub_cancel' (Nat.le_of_not_le hlt)])

theorem Through.unique (hx : tree.Through c x) (hy : tree.Through c y) (he : tree.level x = tree.level y)
    (hle : tree.level x ≤ tree.level c) : x = y := by
  unfold Through at hx hy
  rw [if_pos hle] at hx
  rw [if_pos (he ▸ hle), ← he] at hy
  exact hx.symm.trans hy

/-- A chain that holds `c` holds what is below `c` on its chain. -/
theorem Segment.holds (h : tree.Segment 0 blocks) (hc : c ∈ blocks) (hx : tree.Through c x)
    (hle : tree.level x ≤ tree.level c) : blocks[tree.level x]? = some x := by
  have hlen : tree.level x < blocks.length := by
    have := (List.getElem?_eq_some_iff.mp (h.getElem?_level hc)).1
    omega
  have hget := List.getElem?_eq_getElem hlen
  have hlevel := h.level hget
  rw [Nat.zero_add] at hlevel
  rw [hget, (h.through hc (List.mem_of_getElem? hget)).unique hx hlevel (by omega)]

end Tree

end Lws.BlockTree
