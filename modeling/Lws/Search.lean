/-
  Lws.Search — binary search in a list (`std::lower_bound`).

  `lowerBound` halves a list by what the element in its middle says. It looks at few of the
  elements, so on a list in no order it may stop anywhere. On a list that is `Split`, all
  that are before the key in front of all that are not, it is where the two parts meet
  (`lowerBound_eq`): the element it stops at is the first that is not before the key
  (`getElem?_lowerBound`), and the key put there keeps a sorted list sorted (`insertAt_eq`).
-/

import Mathlib

namespace Lws.Search

variable {α : Type}

/-- The loop, with at most as many rounds as the fuel says. -/
def search (before : α → Bool) : Nat → List α → Nat
  | 0, _ => 0
  | fuel + 1, xs =>
    let half := xs.length / 2
    match xs.drop half with
    | [] => 0
    | middle :: rest =>
      if before middle then half + 1 + search before fuel rest else search before fuel (xs.take half)

/-- `std::lower_bound`, with the comparison to the key as `before`. -/
def lowerBound (before : α → Bool) (xs : List α) : Nat := search before xs.length xs

/-- What is before the key stands in front. -/
def Split (before : α → Bool) (xs : List α) : Prop := xs.Pairwise fun a b => before b = true → before a = true

theorem Split.of_sorted {before : α → Bool} {le : α → α → Prop} {xs : List α}
    (hle : ∀ a b, le a b → before b = true → before a = true) (h : xs.Pairwise le) : Split before xs :=
  h.imp fun hab => hle _ _ hab

/-- In front of an element that is before the key is nothing else. -/
theorem Split.front {before : α → Bool} {front rest : List α} {middle : α} (h : Split before (front ++ middle :: rest))
    (hm : before middle = true) : ∀ a ∈ front, before a = true := by
  intro a ha
  obtain ⟨-, -, hcross⟩ := List.pairwise_append.mp h
  exact hcross a ha middle List.mem_cons_self hm

theorem search_succ (before : α → Bool) (fuel : Nat) {front rest : List α} {middle : α}
    (hfront : front.length = (front ++ middle :: rest).length / 2) :
    search before (fuel + 1) (front ++ middle :: rest) =
      if before middle then front.length + 1 + search before fuel rest else search before fuel front := by
  rw [search]
  simp only [← hfront, List.drop_left, List.take_left]

theorem search_eq {before : α → Bool} (fuel : Nat) {xs : List α} (hfuel : xs.length ≤ fuel) (h : Split before xs) :
    search before fuel xs = xs.findIdx fun a => !before a := by
  induction fuel generalizing xs with
  | zero =>
    obtain rfl := List.length_eq_zero_iff.mp (Nat.le_zero.mp hfuel)
    rfl
  | succ fuel ih =>
    have hsplit := List.take_append_drop (xs.length / 2) xs
    have hlen : (xs.take (xs.length / 2)).length = xs.length / 2 := by simp; omega
    cases hdrop : xs.drop (xs.length / 2) with
    | nil =>
      have hnil : xs = [] := List.length_eq_zero_iff.mp (by have := List.drop_eq_nil_iff.mp hdrop; omega)
      simp [hnil, search]
    | cons middle rest =>
      rw [hdrop] at hsplit
      generalize xs.take (xs.length / 2) = front at hsplit hlen
      subst hsplit
      have hsize : front.length + (rest.length + 1) ≤ fuel + 1 := by simpa using hfuel
      rw [search_succ before fuel hlen, List.findIdx_append]
      by_cases hm : before middle = true
      · -- the first half and the middle are all before the key
        have hnone : front.findIdx (fun a => !before a) = front.length := by
          simpa [List.findIdx_eq_length] using h.front hm
        rw [if_pos hm, ih (by omega) (List.pairwise_append.mp h).2.1.of_cons, hnone, if_neg (lt_irrefl _)]
        simp [List.findIdx_cons, hm]
        omega
      · -- nothing from the middle on is before the key
        rw [if_neg hm, ih (by omega) (List.pairwise_append.mp h).1]
        by_cases hlast : front.findIdx (fun a => !before a) < front.length
        · rw [if_pos hlast]
        · have hle : front.findIdx (fun a => !before a) ≤ front.length := List.findIdx_le_length
          rw [if_neg hlast]
          simp [List.findIdx_cons, hm, le_antisymm hle (not_lt.mp hlast)]

theorem lowerBound_eq {before : α → Bool} {xs : List α} (h : Split before xs) :
    lowerBound before xs = xs.findIdx fun a => !before a :=
  search_eq xs.length le_rfl h

/-- The element at the bound is the first that is not before the key. -/
theorem getElem?_lowerBound {before : α → Bool} {xs : List α} (h : Split before xs) :
    xs[lowerBound before xs]? = xs.find? fun a => !before a := by
  rw [lowerBound_eq h, List.find?_eq_getElem?_findIdx]

theorem before_of_lt_lowerBound {before : α → Bool} {xs : List α} (h : Split before xs) {i : Nat} (hi : i < xs.length)
    (hlt : i < lowerBound before xs) : before xs[i] = true := by
  rw [lowerBound_eq h] at hlt
  simpa using List.not_of_lt_findIdx hlt

theorem insertIdx_findIdx (p : α → Bool) (key : α) (xs : List α) :
    xs.insertIdx (xs.findIdx p) key = (xs.takeWhile fun a => !p a) ++ key :: xs.dropWhile fun a => !p a := by
  induction xs with
  | nil => rfl
  | cons x xs ih =>
    by_cases hp : p x = true
    · simp [List.findIdx_cons, hp]
    · simp [List.findIdx_cons, hp, ih]

/-- The key put where the search stops stands in its place. -/
theorem insertIdx_lowerBound {before : α → Bool} {le : α → α → Prop} [DecidableRel le] {key : α} {xs : List α}
    (hbefore : ∀ a, before a = !decide (le key a)) (h : Split before xs) :
    xs.insertIdx (lowerBound before xs) key = xs.orderedInsert le key := by
  rw [lowerBound_eq h, insertIdx_findIdx, List.orderedInsert_eq_take_drop]
  simp [hbefore]

end Lws.Search
