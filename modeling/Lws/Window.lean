/-
  Lws.Window — the last entries of a sequence that grows at its end.

  A window of `n` is kept by erasing from the front while it is longer (`trim`). Trimming
  before each push is the same as trimming once (`trim_trim_append`), and the window over
  a run of a sequence is a run again (`trim_range`).
-/

import Mathlib

namespace Lws.Window

variable {α β : Type}

/-- Erases the first entry while there are more than `n`. -/
def trim (n : Nat) : List α → List α
  | [] => []
  | x :: xs => if n < (x :: xs).length then trim n xs else x :: xs

theorem trim_eq_drop (n : Nat) (l : List α) : trim n l = l.drop (l.length - n) := by
  induction l with
  | nil => simp [trim]
  | cons x xs ih =>
    unfold trim
    split
    · rename_i h
      rw [List.length_cons] at h ⊢
      rw [ih, show xs.length + 1 - n = xs.length - n + 1 by omega, List.drop_succ_cons]
    · rename_i h
      rw [show (x :: xs).length - n = 0 by omega, List.drop_zero]

theorem trim_of_le {n : Nat} {l : List α} (h : l.length ≤ n) : trim n l = l := by
  rw [trim_eq_drop, show l.length - n = 0 by omega, List.drop_zero]

@[simp] theorem length_trim (n : Nat) (l : List α) : (trim n l).length = min n l.length := by
  rw [trim_eq_drop, List.length_drop]
  omega

theorem trim_map (n : Nat) (f : α → β) (l : List α) : trim n (l.map f) = (trim n l).map f := by
  rw [trim_eq_drop, trim_eq_drop, List.length_map, List.map_drop]

/-- What is in front of `n` entries is erased. -/
theorem trim_append_of_le {n : Nat} {l : List α} (front : List α) (h : n ≤ l.length) :
    trim n (front ++ l) = trim n l := by
  rw [trim_eq_drop, trim_eq_drop, List.length_append, List.drop_append]
  rw [List.drop_of_length_le (show front.length ≤ front.length + l.length - n by omega), List.nil_append]
  rw [show front.length + l.length - n - front.length = l.length - n by omega]

theorem trim_trim_append (n : Nat) (l : List α) (x : α) : trim n (trim n l ++ [x]) = trim n (l ++ [x]) := by
  by_cases h : l.length ≤ n
  · rw [trim_of_le h]
  · have hsplit : l ++ [x] = l.take (l.length - n) ++ (trim n l ++ [x]) := by
      rw [trim_eq_drop, ← List.append_assoc, List.take_append_drop]
    have hlen : n ≤ (trim n l ++ [x]).length := by
      rw [List.length_append, length_trim]
      omega
    rw [hsplit, trim_append_of_le _ hlen]

/-- A window of two or more keeps what was before the last entry. -/
theorem trim_concat (n : Nat) (l : List α) (x : α) : trim (n + 1) (l ++ [x]) = trim n l ++ [x] := by
  rw [trim_eq_drop, trim_eq_drop, List.length_append, List.length_singleton, Nat.add_sub_add_right]
  rw [List.drop_append_of_le_length (Nat.sub_le _ _)]

theorem getLast?_trim {n : Nat} (hn : 0 < n) (l : List α) : (trim n l).getLast? = l.getLast? := by
  rw [trim_eq_drop, List.getLast?_drop]
  split
  · have : l = [] := List.length_eq_zero_iff.mp (by omega)
    rw [this, List.getLast?_nil]
  · rfl

theorem trim_range (n a m : Nat) : trim n (List.range' a m) = List.range' (a + (m - n)) (min n m) := by
  rw [trim_eq_drop, List.length_range', List.drop_range']
  congr 1
  · omega
  · omega

/-- Two runs that end together have the same window once both are long enough. -/
theorem trim_range_eq {n a a' m m' : Nat} (hend : a + m = a' + m') (h : n ≤ m) (h' : n ≤ m') :
    trim n (List.range' a m) = trim n (List.range' a' m') := by
  rw [trim_range, trim_range, Nat.min_eq_left h, Nat.min_eq_left h', show a + (m - n) = a' + (m' - n) by omega]

end Lws.Window
