/-
  Lws.Lmdb.Bytes — rows as the bytes a table stores, and the comparators that order them.

  A comparator reads numbers and byte strings off the front of the bytes it is given and
  drops what it read. On operands that hold all it reads, each step compares numbers
  (`less_of_le`, `compareBytes_of_le`: the order of `memcmp` is that of the big-endian
  numbers), so a chain of steps is the lexicographic order of a tuple.

  A `Layout` names the fields of a record without padding and their sizes. A record whose
  layout begins with another's is read through it field by field (`read_append_left`), and
  the fields it adds are read from what follows (`read_append_right`).
-/

import Lws.Lmdb.Table
import Lws.Wire.BigEndian

namespace Lws.Lmdb

abbrev Bytes := List UInt8

def uint (bytes : Bytes) : Nat := BigEndian.ofBytes bytes.reverse

/-! ## Comparing memory -/

def memcmp : Bytes → Bytes → Ordering
  | a :: as, b :: bs => (compare a.toNat b.toNat).then (memcmp as bs)
  | _, _ => .eq

/-- The higher digits decide, and the lower ones where those are equal. -/
theorem compare_digits {n x y a b : Nat} (ha : a < n) (hb : b < n) :
    compare (x * n + a) (y * n + b) = (compare x y).then (compare a b) := by
  rcases lt_trichotomy x y with h | rfl | h
  · have hlt : x * n + a < y * n + b := by
      calc x * n + a < (x + 1) * n := by rw [Nat.add_mul, Nat.one_mul]; omega
        _ ≤ y * n := Nat.mul_le_mul_right _ h
        _ ≤ y * n + b := Nat.le_add_right _ _
    rw [compare_lt_iff_lt.mpr hlt, compare_lt_iff_lt.mpr h]
    rfl
  · rw [compare_eq_iff_eq.mpr rfl]
    rcases lt_trichotomy a b with h | rfl | h
    · rw [compare_lt_iff_lt.mpr h, compare_lt_iff_lt.mpr (Nat.add_lt_add_left h _)]
      rfl
    · simp
    · rw [compare_gt_iff_gt.mpr h, compare_gt_iff_gt.mpr (Nat.add_lt_add_left h _)]
      rfl
  · have hlt : y * n + b < x * n + a := by
      calc y * n + b < (y + 1) * n := by rw [Nat.add_mul, Nat.one_mul]; omega
        _ ≤ x * n := Nat.mul_le_mul_right _ h
        _ ≤ x * n + a := Nat.le_add_right _ _
    rw [compare_gt_iff_gt.mpr hlt, compare_gt_iff_gt.mpr h]
    rfl

theorem memcmp_eq {a b : Bytes} (h : a.length = b.length) :
    memcmp a b = compare (BigEndian.ofBytes a) (BigEndian.ofBytes b) := by
  induction a generalizing b with
  | nil =>
    have hb : b = [] := List.length_eq_zero_iff.mp h.symm
    simp [hb, memcmp]
  | cons x a ih =>
    match b with
    | y :: b =>
      have hlen : a.length = b.length := by simpa using h
      have hlt := BigEndian.ofBytes_lt a
      rw [memcmp, ih hlen, BigEndian.ofBytes_cons, BigEndian.ofBytes_cons]
      rw [hlen] at hlt ⊢
      exact (compare_digits hlt (BigEndian.ofBytes_lt b)).symm

/-! ## Steps of a comparator -/

section Steps

variable {α : Type} [Ord α]

/-- A value of `size` bytes in front of each operand; one that is too short is the smaller. -/
def less (size : Nat) (value : Bytes → α) (left right : Bytes) : Ordering :=
  if left.length < size then .lt
  else if right.length < size then .gt
  else compare (value (left.take size)) (value (right.take size))

theorem less_of_le {size : Nat} {value : Bytes → α} {left right : Bytes} (hl : size ≤ left.length)
    (hr : size ≤ right.length) :
    less size value left right = compare (value (left.take size)) (value (right.take size)) := by
  rw [less, if_neg (Nat.not_lt.mpr hl), if_neg (Nat.not_lt.mpr hr)]

/-- The same with `memcmp` on the bytes themselves. -/
def compareBytes (size : Nat) (left right : Bytes) : Ordering :=
  if left.length < size then .lt
  else if right.length < size then .gt
  else memcmp (left.take size) (right.take size)

theorem compareBytes_of_le {size : Nat} {left right : Bytes} (hl : size ≤ left.length) (hr : size ≤ right.length) :
    compareBytes size left right
      = compare (BigEndian.ofBytes (left.take size)) (BigEndian.ofBytes (right.take size)) := by
  rw [compareBytes, if_neg (Nat.not_lt.mpr hl), if_neg (Nat.not_lt.mpr hr)]
  apply memcmp_eq
  simp [hl, hr]

end Steps

theorem compare_toLex {α β : Type} [LinearOrder α] [LinearOrder β] (a c : α) (b d : β) :
    compare (toLex (a, b)) (toLex (c, d)) = (compare a c).then (compare b d) := rfl

theorem compare_orderBy {α β : Type} [LinearOrder β] [DecidableEq α] (f : α → β) (inj : Function.Injective f)
    (a b : α) : (orderBy f inj).compare a b = compare (f a) (f b) := by
  let _ := orderBy f inj
  rcases lt_trichotomy (f a) (f b) with h | h | h
  · rw [compare_lt_iff_lt.mpr h]
    exact compare_lt_iff_lt.mpr (show a < b from h)
  · rw [compare_eq_iff_eq.mpr h]
    exact compare_eq_iff_eq.mpr (inj h)
  · rw [compare_gt_iff_gt.mpr h]
    exact compare_gt_iff_gt.mpr (show b < a from h)

/-- A comparator that orders rows by what `sort` reads in their first `extent` bytes. -/
structure RowOrder (S : Type) [LinearOrder S] where
  compare : Bytes → Bytes → Ordering
  sort : Bytes → S
  extent : Nat
  compare_eq : ∀ a b, extent ≤ a.length → extent ≤ b.length → compare a b = Ord.compare (sort a) (sort b)
  sort_append : ∀ a tail, extent ≤ a.length → sort (a ++ tail) = sort a

/-! ## Tables of bytes -/

abbrev Row (n : Nat) := { bytes : Bytes // bytes.length = n }

namespace RowOrder

variable {S : Type} [LinearOrder S] (order : RowOrder S)

/-- One row is stored before another: by the key, then by the comparator. -/
def Before (a b : Nat × Bytes) : Prop := a.1 < b.1 ∨ (a.1 = b.1 ∧ order.compare a.2 b.2 = .lt)

/-- A table of rows of any size, in the comparator's order. -/
structure Raw where
  rows : List (Nat × Bytes)
  sorted : rows.Pairwise order.Before

def rowSort (n : Nat) (row : Row n) : S := order.sort row.1

/-- A table whose rows all have `n` bytes. -/
abbrev Sized (n : Nat) := Table Nat (order.rowSort n)

variable {order} {n : Nat}

/-- The rows of a table are in the comparator's order when they hold what it reads. -/
theorem sized_before (t : order.Sized n) (hn : order.extent ≤ n) :
    (t.rows.map fun r => (r.1, r.2.1)).Pairwise order.Before := by
  rw [List.pairwise_map]
  refine t.sorted.imp fun {a b} h => ?_
  rcases rowKey_lt.mp h with h | ⟨h, hs⟩
  · exact Or.inl h
  · refine Or.inr ⟨h, ?_⟩
    rw [order.compare_eq _ _ (by rw [a.2.2]; exact hn) (by rw [b.2.2]; exact hn)]
    exact compare_lt_iff_lt.mpr hs

/-- Rows in the comparator's order that hold what it reads differ in the key or in the sort fields. -/
theorem Before.ne {a b : Nat × Bytes} (h : order.Before a b) (ha : order.extent ≤ a.2.length)
    (hb : order.extent ≤ b.2.length) : ¬ (a.1 = b.1 ∧ order.sort a.2 = order.sort b.2) := by
  rintro ⟨hk, hs⟩
  rcases h with h | ⟨-, h⟩
  · omega
  · rw [order.compare_eq _ _ ha hb, hs] at h
    simp at h

end RowOrder

/-! ## Layouts -/

abbrev Layout (F : Type) := List (F × Nat)

namespace Layout

variable {F : Type}

def size (layout : Layout F) : Nat := (layout.map (·.2)).sum

def fields (layout : Layout F) : List F := layout.map (·.1)

variable [DecidableEq F]

def read (field : F) : Layout F → Bytes → Bytes
  | [], _ => []
  | (f, n) :: rest, bytes => if f = field then bytes.take n else read field rest (bytes.drop n)

theorem read_append_left {field : F} {old : Layout F} (added : Layout F) {bytes : Bytes} (tail : Bytes)
    (hf : field ∈ fields old) (hb : bytes.length = size old) :
    read field (old ++ added) (bytes ++ tail) = read field old bytes := by
  induction old generalizing bytes with
  | nil => cases hf
  | cons x old ih =>
    obtain ⟨f, n⟩ := x
    have hn : bytes.length = n + size old := by simpa [size] using hb
    simp only [List.cons_append, read]
    by_cases e : f = field
    · rw [if_pos e, if_pos e, List.take_append_of_le_length (by omega)]
    · rw [if_neg e, if_neg e, List.drop_append_of_le_length (by omega)]
      apply ih
      · rcases List.mem_cons.mp hf with h | h
        · exact absurd h.symm e
        · exact h
      · simp [hn]

theorem read_append_right {field : F} {old : Layout F} (added : Layout F) {bytes : Bytes} (tail : Bytes)
    (hf : field ∉ fields old) (hb : bytes.length = size old) :
    read field (old ++ added) (bytes ++ tail) = read field added tail := by
  induction old generalizing bytes with
  | nil =>
    have hnil : bytes = [] := List.length_eq_zero_iff.mp hb
    rw [hnil]
    rfl
  | cons x old ih =>
    obtain ⟨f, n⟩ := x
    have hn : bytes.length = n + size old := by simpa [size] using hb
    have hne : ¬ f = field := fun e => hf (List.mem_cons.mpr (Or.inl e.symm))
    rw [List.cons_append, read, if_neg hne, List.drop_append_of_le_length (by omega)]
    apply ih
    · exact fun h => hf (List.mem_cons_of_mem _ h)
    · simp [hn]

theorem mem_of_mem_read {field : F} {layout : Layout F} {bytes : Bytes} {b : UInt8}
    (h : b ∈ read field layout bytes) : b ∈ bytes := by
  induction layout generalizing bytes with
  | nil => cases h
  | cons x layout ih =>
    rw [read] at h
    split at h
    · exact List.mem_of_mem_take h
    · exact List.mem_of_mem_drop (ih h)

end Layout

end Lws.Lmdb
