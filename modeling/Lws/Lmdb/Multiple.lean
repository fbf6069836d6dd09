/-
  Lws.Lmdb.Multiple — what `mdb_cursor_put` with `MDB_MULTIPLE` promises.

  The library is a parameter: a call may be any that is `Honest`. It writes the values in
  order and says how many. It ends with all of them written, or, with `MDB_NODUPDATA`, at the
  first that is there already, or with an error, of which nothing is promised.

  A caller that goes on after the value that was there has put each value that was not
  (`Honest.absent`), and without the flag one call has put them all (`Honest.over`). The calls
  of `Table.putMultiple` are of this kind (`tablePut`).
-/

import Lws.Lmdb.Table

namespace Lws.Lmdb

inductive PutEnd where
  | success
  /-- `MDB_KEYEXIST`. -/
  | keyExist
  | failed (code : Int)
  deriving DecidableEq, Repr

variable {K V S : Type} [LinearOrder K] [LinearOrder S]

structure PutResult (K : Type) [LinearOrder K] {V S : Type} [LinearOrder S] (sort : V → S) where
  table : Table K sort
  /-- The count written back to `data[1].mv_size`. -/
  written : Nat
  ended : PutEnd

variable {sort : V → S}

/-- What a call that did not fail has done. -/
structure PutResult.Honest (r : PutResult K sort) (noDup : Bool) (k : K) (values : List V) (t : Table K sort) :
    Prop where
  in_order : r.table = t.putAll k (values.take r.written)
  all : r.ended = .success → r.written = values.length
  stopped : r.ended = .keyExist →
    noDup = true ∧ ∃ v w, values[r.written]? = some v ∧ (k, w) ∈ r.table ∧ sort w = sort v
  fresh : noDup = true → ∀ i v, i < r.written → values[i]? = some v →
    ∀ w, (k, w) ∈ t.putAll k (values.take i) → sort w ≠ sort v

/-- `mdb_cursor_put` with `MDB_MULTIPLE`, and with `MDB_NODUPDATA` or no flag besides. -/
structure MultiplePut (K : Type) [LinearOrder K] {V S : Type} [LinearOrder S] (sort : V → S) where
  put : Bool → K → List V → Table K sort → PutResult K sort
  honest : ∀ noDup k values t, (∀ code, (put noDup k values t).ended ≠ .failed code) →
    (put noDup k values t).Honest noDup k values t

/-- How many values a call was about. -/
def PutResult.consumed (r : PutResult K sort) : Nat := r.written + if r.ended = .keyExist then 1 else 0

namespace PutResult.Honest

variable {r : PutResult K sort} {noDup : Bool} {k : K} {values : List V} {t : Table K sort}

/-- Values that are new are put whether or not a new one is asked for. -/
theorem putAll_fresh (h : r.Honest true k values t) {i : Nat} (hi : i ≤ r.written) :
    t.putAll k (values.take i) = t.putAllAbsent k (values.take i) := by
  induction i with
  | zero => rfl
  | succ i ih =>
    have ih := ih (by omega)
    rcases hget : values[i]? with _ | v
    · have hlen := List.getElem?_eq_none_iff.mp hget
      rw [List.take_of_length_le (by omega)]
      rw [List.take_of_length_le hlen] at ih
      exact ih
    · have hfree : ¬((t.putAll k (values.take i)).get? k (sort v)).isSome = true := by
        intro hsome
        obtain ⟨w, hw⟩ := Option.isSome_iff_exists.mp hsome
        obtain ⟨hmem, hsort⟩ := Table.get?_eq_some.mp hw
        exact h.fresh rfl i v (by omega) hget w hmem hsort
      have htake : values.take (i + 1) = values.take i ++ [v] := by
        rw [List.take_add_one, hget]
        rfl
      have hput : t.putAll k (values.take (i + 1)) = (t.putAll k (values.take i)).put k v := by
        simp [htake, Table.putAll]
      have habsent : t.putAllAbsent k (values.take (i + 1)) = (t.putAllAbsent k (values.take i)).putAbsent k v := by
        simp [htake, Table.putAllAbsent]
      rw [hput, habsent, ← ih, Table.putAbsent_of_free hfree]

/-- A call that asks for new values has put each it was about that was not there. -/
theorem absent (h : r.Honest true k values t) (hfailed : ∀ code, r.ended ≠ .failed code) :
    r.table = t.putAllAbsent k (values.take r.consumed) := by
  have hwritten : r.table = t.putAllAbsent k (values.take r.written) := h.in_order.trans (h.putAll_fresh le_rfl)
  rcases hend : r.ended with _ | _ | code
  · simpa [PutResult.consumed, hend] using hwritten
  · obtain ⟨-, v, w, hget, hmem, hsort⟩ := h.stopped hend
    have htaken : ((t.putAllAbsent k (values.take r.written)).get? k (sort v)).isSome = true := by
      rw [← hwritten, Table.get?_eq_some.mpr ⟨hmem, hsort⟩]
      rfl
    have htake : values.take (r.written + 1) = values.take r.written ++ [v] := by
      rw [List.take_add_one, hget]
      rfl
    have hput : t.putAllAbsent k (values.take (r.written + 1)) =
        (t.putAllAbsent k (values.take r.written)).putAbsent k v := by
      simp [htake, Table.putAllAbsent]
    rw [PutResult.consumed, if_pos hend, hput, Table.putAbsent_of_taken htaken]
    exact hwritten
  · exact absurd hend (hfailed code)

theorem overwrites (h : r.Honest false k values t) (hfailed : ∀ code, r.ended ≠ .failed code) :
    r.consumed = values.length ∧ r.table = t.putAll k values := by
  rcases hend : r.ended with _ | _ | code
  · have hall := h.all hend
    refine ⟨by simp [PutResult.consumed, hend, hall], ?_⟩
    rw [h.in_order, hall, List.take_length]
  · obtain ⟨hflag, -⟩ := h.stopped hend
    cases hflag
  · exact absurd hend (hfailed code)

theorem progress (h : r.Honest noDup k values t) (hfailed : ∀ code, r.ended ≠ .failed code) (hne : values ≠ []) :
    0 < r.consumed := by
  rcases hend : r.ended with _ | _ | code
  · have hpos : 0 < values.length := List.length_pos_iff.mpr hne
    simp only [PutResult.consumed, h.all hend]
    omega
  · simp only [PutResult.consumed, if_pos hend]
    omega
  · exact absurd hend (hfailed code)

end PutResult.Honest

/-! ## The calls of a table -/

/-- `putMultiple` writes only values that are new, where it asks for them. -/
theorem Table.putMultiple_fresh (k : K) : ∀ (values : List V) (t : Table K sort) (i : Nat) (v : V),
    i < (putMultiple true k values t).2.1 → values[i]? = some v →
      ∀ w, (k, w) ∈ t.putAll k (values.take i) → sort w ≠ sort v := by
  intro values
  induction values with
  | nil => intro t i v _ hget; cases hget
  | cons x values ih =>
    intro t i v hi hget w hw
    by_cases hsome : (t.get? k (sort x)).isSome = true
    · simp [putMultiple, hsome] at hi
    · simp only [putMultiple, hsome, Bool.and_false, Bool.false_eq_true, if_false] at hi
      cases i with
      | zero =>
        obtain rfl : x = v := by simpa using hget
        intro hsort
        exact hsome (Option.isSome_iff_exists.mpr ⟨w, get?_eq_some.mpr ⟨hw, hsort⟩⟩)
      | succ i => exact ih (t.put k x) i v (Nat.lt_of_succ_lt_succ hi) (by simpa using hget) w hw

theorem Table.putMultiple_in_order (noDup : Bool) (k : K) : ∀ (values : List V) (t : Table K sort),
    (putMultiple noDup k values t).1 = t.putAll k (values.take (putMultiple noDup k values t).2.1) := by
  intro values
  induction values with
  | nil => intro t; rfl
  | cons x values ih =>
    intro t
    by_cases hstop : (noDup && (t.get? k (sort x)).isSome) = true
    · simp [putMultiple, hstop, putAll]
    · simp only [putMultiple, hstop, Bool.false_eq_true, if_false, List.take_succ_cons]
      exact ih (t.put k x)

theorem Table.putMultiple_stopped {k : K} {values : List V} {t : Table K sort}
    (h : (putMultiple true k values t).2.2 = true) : ∃ v w, values[(putMultiple true k values t).2.1]? = some v ∧
      (k, w) ∈ (putMultiple true k values t).1 ∧ sort w = sort v := by
  obtain ⟨-, -, hstop, -⟩ := putMultiple_noDup k values t
  obtain ⟨hput, hlen⟩ := hstop h
  have hget := List.getElem?_eq_getElem hlen
  have hin := List.mem_of_getElem? ((List.getElem?_take_of_lt (Nat.lt_succ_self _)).trans hget)
  obtain ⟨w, hw, hsort⟩ := putAllAbsent_stores (t := t) (k := k) hin
  rw [hput] at hw
  exact ⟨_, w, hget, hw, hsort⟩

def tablePut : MultiplePut K sort where
  put noDup k values t :=
    let (table, written, stopped) := Table.putMultiple noDup k values t
    ⟨table, written, if stopped then .keyExist else .success⟩
  honest := by
    intro noDup k values t _
    refine ⟨Table.putMultiple_in_order noDup k values t, fun hend => ?_, fun hend => ?_, ?_⟩
    · cases noDup with
      | true =>
        obtain ⟨-, -, -, hall⟩ := Table.putMultiple_noDup k values t
        rcases hstop : (Table.putMultiple true k values t).2.2 with _ | _
        · exact hall hstop
        · simp [hstop] at hend
      | false => simp [Table.putMultiple_over]
    · cases noDup with
      | true =>
        rcases hstop : (Table.putMultiple true k values t).2.2 with _ | _
        · simp [hstop] at hend
        · exact ⟨rfl, Table.putMultiple_stopped hstop⟩
      | false => simp [Table.putMultiple_over] at hend
    · rintro rfl
      exact Table.putMultiple_fresh k values t

end Lws.Lmdb
