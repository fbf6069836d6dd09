/-
  Lws.Lmdb.Truncated — comparators on operands that end early, and the searches that use them.

  A comparator reads fields off the front of two byte strings. One that ends before a field is
  the smaller, and where both do it is the left one, so a comparator is no order of such bytes:
  of two that end early each may be before the other. A `reading` is what there is to compare:
  the fields in front, and ⊥ where the bytes end. A comparator is the order of the readings,
  and among equal ones takes the left for the smaller unless all fields were there
  (`Compares`), whatever the lengths of both.

  A search compares one key, on the left, to rows that hold all fields. What is below the key
  then stands in front in every list of rows in order (`Compares.split`), and a search stops
  at the first row that is not, by whatever rows it looked at (`stopsAt_iff`).
-/

import Lws.Lmdb.Bytes
import Lws.Search

namespace Lws.Lmdb

/-! ## Readings -/

section Readings

variable {α C : Type}

/-- A field of `size` bytes, then the reading of what follows it. -/
def readThen (size : Nat) (value : Bytes → α) (rest : Bytes → C) (bytes : Bytes) : WithBot (α ×ₗ C) :=
  if bytes.length < size then ⊥ else (toLex (value (bytes.take size), rest (bytes.drop size)) : α ×ₗ C)

theorem readThen_short {size : Nat} {value : Bytes → α} {rest : Bytes → C} {bytes : Bytes} (h : bytes.length < size) :
    readThen size value rest bytes = ⊥ := if_pos h

theorem readThen_of_le {size : Nat} {value : Bytes → α} {rest : Bytes → C} {bytes : Bytes} (h : size ≤ bytes.length) :
    readThen size value rest bytes = (toLex (value (bytes.take size), rest (bytes.drop size)) : α ×ₗ C) :=
  if_neg (Nat.not_lt.mpr h)

variable [LinearOrder α] [LinearOrder C]

/-- A comparator is the order of what is read, and of equal operands that end early the left is the smaller. -/
def Compares (extent : Nat) (compare : Bytes → Bytes → Ordering) (reading : Bytes → C) : Prop :=
  ∀ left right, compare left right =
    (Ord.compare (reading left) (reading right)).then (if left.length < extent then .lt else .eq)

theorem compares_nil : Compares 0 (fun _ _ => .eq) fun _ => () := fun _ _ => rfl

theorem compare_coe (a b : α) : compare (a : WithBot α) (b : WithBot α) = compare a b := by
  rcases lt_trichotomy a b with h | rfl | h
  · rw [compare_lt_iff_lt.mpr h, compare_lt_iff_lt.mpr (WithBot.coe_lt_coe.mpr h)]
  · rw [compare_eq_iff_eq.mpr rfl, compare_eq_iff_eq.mpr rfl]
  · rw [compare_gt_iff_gt.mpr h, compare_gt_iff_gt.mpr (WithBot.coe_lt_coe.mpr h)]

theorem compare_coe_bot (a : α) : compare (a : WithBot α) ⊥ = .gt := by
  have h : (⊥ : WithBot α) < a := WithBot.bot_lt_coe a
  exact compare_gt_iff_gt.mpr h

theorem Compares.step {extent : Nat} {compare : Bytes → Bytes → Ordering} {reading : Bytes → C}
    (h : Compares extent compare reading) (size : Nat) (value : Bytes → α) :
    Compares (size + extent)
      (fun left right => (less size value left right).then (compare (left.drop size) (right.drop size)))
      (readThen size value reading) := by
  intro left right
  by_cases hl : left.length < size
  · -- the left operand ends here, and whatever the right one is, it is the smaller
    have hlt : left.length < size + extent := by omega
    have hle : ∀ x : WithBot (α ×ₗ C), (Ord.compare ⊥ x).then Ordering.lt = .lt := by
      intro x
      rcases (bot_le (a := x)).lt_or_eq with h | rfl
      · rw [compare_lt_iff_lt.mpr h]
        rfl
      · rw [compare_eq_iff_eq.mpr rfl]
        rfl
    have hless : less size value left right = .lt := if_pos hl
    simp only [readThen_short hl, if_pos hlt, hle, hless, Ordering.lt_then]
  · by_cases hr : right.length < size
    · have hless : less size value left right = .gt := by
        rw [less.eq_def, if_neg hl, if_pos hr]
      simp only [readThen_short hr, readThen_of_le (Nat.not_lt.mp hl), compare_coe_bot, hless, Ordering.gt_then]
    · have htail : (left.drop size).length < extent ↔ left.length < size + extent := by
        rw [List.length_drop]
        omega
      simp only [readThen_of_le (Nat.not_lt.mp hl), readThen_of_le (Nat.not_lt.mp hr), compare_coe, compare_toLex,
        less_of_le (Nat.not_lt.mp hl) (Nat.not_lt.mp hr), Ordering.then_assoc]
      rw [h (left.drop size) (right.drop size)]
      simp only [htail]

theorem compareBytes_eq (size : Nat) : compareBytes size = less size BigEndian.ofBytes := by
  funext left right
  by_cases hl : left.length < size
  · rw [compareBytes, less, if_pos hl, if_pos hl]
  · by_cases hr : right.length < size
    · rw [compareBytes, less, if_neg hl, if_neg hl, if_pos hr, if_pos hr]
    · rw [compareBytes_of_le (Nat.not_lt.mp hl) (Nat.not_lt.mp hr), less_of_le (Nat.not_lt.mp hl) (Nat.not_lt.mp hr)]

end Readings

/-! ## Searching -/

theorem findIdx_congr {α : Type} {p q : α → Bool} {xs : List α} (h : ∀ x ∈ xs, p x = q x) :
    xs.findIdx p = xs.findIdx q := by
  induction xs with
  | nil => rfl
  | cons x xs ih =>
    rw [List.findIdx_cons, List.findIdx_cons, h x List.mem_cons_self, ih fun y hy => h y (List.mem_cons_of_mem _ hy)]

/-- Where a search that compares a key to rows may stop: at one that is equal, or between one that
    is below the key and one that is above. -/
def StopsAt {α : Type} (compare : α → Ordering) (rows : List α) (i : Nat) : Prop :=
  (∃ row, rows[i]? = some row ∧ compare row = .eq) ∨
    i ≤ rows.length ∧ (∀ j, j + 1 = i → ∀ row, rows[j]? = some row → compare row = .gt) ∧
      ∀ row, rows[i]? = some row → compare row = .lt

namespace Compares

variable {C : Type} [LinearOrder C] {extent : Nat} {compare : Bytes → Bytes → Ordering} {reading : Bytes → C}

theorem gt_iff (h : Compares extent compare reading) {key row : Bytes} :
    compare key row = .gt ↔ reading row < reading key := by
  have htie : ¬(if key.length < extent then Ordering.lt else Ordering.eq) = .gt := by
    split <;> simp
  rw [h key row, Ordering.then_eq_gt, compare_gt_iff_gt]
  simp [htie]

theorem eq_iff (h : Compares extent compare reading) {left right : Bytes} :
    compare left right = .eq ↔ reading left = reading right ∧ extent ≤ left.length := by
  rw [h left right, Ordering.then_eq_eq, compare_eq_iff_eq, ← Nat.not_lt]
  by_cases hl : left.length < extent <;> simp [hl]

/-- A key of the first field alone is above exactly the rows with a smaller one. -/
theorem gt_field_iff {α : Type} [LinearOrder α] {size : Nat} {value : Bytes → α} {rest : Bytes → WithBot C}
    {key row : Bytes}
    (h : Compares extent compare (readThen size value rest)) (hrest : rest [] = ⊥) (hkey : key.length = size)
    (hrow : size ≤ row.length) : compare key row = .gt ↔ value (row.take size) < value key := by
  have hdrop : key.drop size = [] := List.drop_eq_nil_of_le hkey.le
  have htake : key.take size = key := List.take_of_length_le hkey.le
  rw [h.gt_iff, readThen_of_le hrow, readThen_of_le hkey.ge, WithBot.coe_lt_coe, Prod.Lex.toLex_lt_toLex,
      hdrop, htake, hrest]
  simp

/-- Rows with all fields are in the order of what they read. -/
theorem lt_iff (h : Compares extent compare reading) {left right : Bytes} (hl : extent ≤ left.length) :
    compare left right = .lt ↔ reading left < reading right := by
  rw [h left right, if_neg (Nat.not_lt.mpr hl), Ordering.then_eq, compare_lt_iff_lt]

/-- What is below a key of any length stands in front. -/
theorem split (h : Compares extent compare reading) (key : Bytes) {rows : List Bytes}
    (hfull : ∀ row ∈ rows, extent ≤ row.length) (hsorted : rows.Pairwise fun a b => compare a b = .lt) :
    Search.Split (fun row => compare key row == .gt) rows := by
  refine hsorted.imp_of_mem fun {a b} ha _ hab hb => ?_
  have hb' := h.gt_iff.mp (by simpa using hb)
  have ha' := h.gt_iff.mpr (((h.lt_iff (hfull a ha)).mp hab).trans hb')
  simpa using ha'

/-- A search stops at the first row that is not below the key, and there is such a place. -/
theorem stopsAt_iff (h : Compares extent compare reading) (key : Bytes) {rows : List Bytes}
    (hfull : ∀ row ∈ rows, extent ≤ row.length) (hsorted : rows.Pairwise fun a b => compare a b = .lt) (i : Nat) :
    StopsAt (compare key) rows i ↔ i = rows.findIdx fun row => compare key row != .gt := by
  have hsplit := List.pairwise_iff_getElem.mp (h.split key hfull hsorted)
  constructor
  · rintro (⟨row, hrow, heq⟩ | ⟨hle, hbefore, hat⟩)
    · -- what stands before a row that is equal is less than it
      obtain ⟨hi, rfl⟩ := List.getElem?_eq_some_iff.mp hrow
      refine ((List.findIdx_eq hi).mpr ⟨by simp [heq], fun j hj => ?_⟩).symm
      have hlt :=
        (h.lt_iff (hfull _ (List.getElem_mem _))).mp (List.pairwise_iff_getElem.mp hsorted j i (by omega) hi hj)
      rw [← (h.eq_iff.mp heq).1] at hlt
      simp [h.gt_iff.mpr hlt]
    · have hbelow : ∀ j (hj : j < rows.length), j < i → compare key rows[j] = .gt := by
        intro j hj hlt
        obtain ⟨k, rfl⟩ : ∃ k, i = k + 1 := ⟨i - 1, by omega⟩
        have hk : compare key rows[k] = .gt := hbefore k rfl _ (List.getElem?_eq_getElem (by omega))
        rcases Nat.lt_succ_iff_lt_or_eq.mp hlt with hlt | rfl
        · simpa using hsplit j k hj (by omega) hlt (by simpa using hk)
        · exact hk
      rcases hle.lt_or_eq with hi | rfl
      · have hlt := hat _ (List.getElem?_eq_getElem hi)
        refine ((List.findIdx_eq hi).mpr ⟨by simp [hlt], fun j hj => ?_⟩).symm
        simp [hbelow j (by omega) hj]
      · refine (List.findIdx_eq_length.mpr fun row hrow => ?_).symm
        obtain ⟨j, hj, rfl⟩ := List.getElem_of_mem hrow
        simp [hbelow j hj hj]
  · rintro rfl
    set i := rows.findIdx fun row => compare key row != .gt with hi
    have hbefore : ∀ j, j + 1 = i → ∀ row, rows[j]? = some row → compare key row = .gt := by
      intro j hj row hrow
      obtain ⟨hlen, rfl⟩ := List.getElem?_eq_some_iff.mp hrow
      have hlt : j < i := by omega
      exact bne_eq_false_iff_eq.mp (List.not_of_lt_findIdx hlt)
    rcases (show i ≤ rows.length from List.findIdx_le_length).lt_or_eq with hlt | heq
    · have hat : compare key rows[i] ≠ .gt := by
        simpa using List.findIdx_getElem (w := hlt)
      rcases hcmp : compare key rows[i] with _ | _ | _
      · refine Or.inr ⟨hlt.le, hbefore, fun row hrow => ?_⟩
        obtain ⟨-, rfl⟩ := List.getElem?_eq_some_iff.mp hrow
        exact hcmp
      · exact Or.inl ⟨_, List.getElem?_eq_getElem hlt, hcmp⟩
      · exact absurd hcmp hat
    · refine Or.inr ⟨heq.le, hbefore, fun row hrow => ?_⟩
      obtain ⟨hlen, -⟩ := List.getElem?_eq_some_iff.mp hrow
      omega

end Compares

namespace RowOrder

variable {S : Type} [LinearOrder S] (order : RowOrder S)

/-- A row that holds all the sort fields. -/
def Full (row : Bytes) : Prop := order.extent ≤ row.length

/-- The rows of one key, as they are stored. -/
structure DupSorted (rows : List Bytes) : Prop where
  full : ∀ row ∈ rows, order.Full row
  sorted : rows.Pairwise fun a b => order.compare a b = .lt

/-- On full rows the comparator is a strict total order of the sort fields. -/
structure StrictTotal : Prop where
  irrefl : ∀ a, order.Full a → order.compare a a ≠ .lt
  trans : ∀ a b c, order.Full a → order.Full b → order.Full c →
    order.compare a b = .lt → order.compare b c = .lt → order.compare a c = .lt
  total : ∀ a b, order.Full a → order.Full b →
    order.compare a b = .lt ∨ order.sort a = order.sort b ∨ order.compare b a = .lt
  eq_iff : ∀ a b, order.Full a → order.Full b → (order.compare a b = .eq ↔ order.sort a = order.sort b)

theorem lt_iff {a b : Bytes} (ha : order.Full a) (hb : order.Full b) :
    order.compare a b = .lt ↔ order.sort a < order.sort b := by
  rw [order.compare_eq a b ha hb, compare_lt_iff_lt]

theorem strictTotal : order.StrictTotal where
  irrefl a ha := by
    rw [Ne, order.lt_iff ha ha]
    exact lt_irrefl _
  trans a b c ha hb hc hab hbc := by
    rw [order.lt_iff ha hb] at hab
    rw [order.lt_iff hb hc] at hbc
    exact (order.lt_iff ha hc).mpr (hab.trans hbc)
  total a b ha hb := by
    rw [order.lt_iff ha hb, order.lt_iff hb ha]
    exact lt_trichotomy _ _
  eq_iff a b ha hb := by
    rw [order.compare_eq a b ha hb, compare_eq_iff_eq]

end RowOrder

end Lws.Lmdb
