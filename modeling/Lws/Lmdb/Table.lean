/-
  Lws.Lmdb.Table — dup-sorted tables.

  A table is what an ordered key-value store with sorted duplicates holds: rows, each
  a key and a value, in strictly increasing order of the key and then of the value's
  sort fields. Only the sort fields order the values of one key, so a table holds at
  most one row for a key and a sort field; the rest of the value is payload. Every
  table carries the proof that its rows are in order, so none with a misplaced or a
  repeated row can be built.

  Two tables with the same rows are equal (`ext_mem`), so what an operation does is
  said by which rows the result has: `mem_put`, `mem_erase`, `mem_filter`.
-/

import Mathlib

namespace Lws.Lmdb

/-- An order read off an injective key, with the equality test the type already has. -/
@[reducible] def orderBy {α β : Type} [LinearOrder β] [d : DecidableEq α] (f : α → β)
    (inj : Function.Injective f) : LinearOrder α where
  le a b := f a ≤ f b
  lt a b := f a < f b
  le_refl a := le_refl (f a)
  le_trans a b c := le_trans (a := f a) (b := f b) (c := f c)
  lt_iff_le_not_ge a b := lt_iff_le_not_ge (a := f a) (b := f b)
  le_antisymm a b h h' := inj (le_antisymm h h')
  le_total a b := le_total (f a) (f b)
  toDecidableLE a b := inferInstanceAs (Decidable (f a ≤ f b))
  toDecidableEq := d
  toDecidableLT a b := inferInstanceAs (Decidable (f a < f b))

variable {K V S : Type}

/-- What orders the rows: the key, then the value's sort fields. -/
def rowKey (sort : V → S) (r : K × V) : K ×ₗ S := toLex (r.1, sort r.2)

theorem rowKey_eq {sort : V → S} {a b : K × V} : rowKey sort a = rowKey sort b ↔ a.1 = b.1 ∧ sort a.2 = sort b.2 := by
  simp [rowKey]

variable [LinearOrder K] [LinearOrder S]

theorem rowKey_lt {sort : V → S} {a b : K × V} :
    rowKey sort a < rowKey sort b ↔ a.1 < b.1 ∨ a.1 = b.1 ∧ sort a.2 < sort b.2 := by
  simp [rowKey, Prod.Lex.toLex_lt_toLex]

structure Table (K : Type) [LinearOrder K] (sort : V → S) where
  rows : List (K × V)
  sorted : rows.Pairwise fun a b => rowKey sort a < rowKey sort b

namespace Table

variable {sort : V → S}

instance : Membership (K × V) (Table K sort) := ⟨fun t r => r ∈ t.rows⟩

@[simp] theorem mem_rows {t : Table K sort} {r : K × V} : r ∈ t.rows ↔ r ∈ t := Iff.rfl

instance [DecidableEq K] [DecidableEq V] (t : Table K sort) (r : K × V) : Decidable (r ∈ t) :=
  inferInstanceAs (Decidable (r ∈ t.rows))

instance (t : Table K sort) (p : K × V → Prop) [DecidablePred p] : Decidable (∀ r ∈ t, p r) :=
  inferInstanceAs (Decidable (∀ r ∈ t.rows, p r))

instance (t : Table K sort) (p : K × V → Prop) [DecidablePred p] : Decidable (∃ r ∈ t, p r) :=
  inferInstanceAs (Decidable (∃ r ∈ t.rows, p r))

theorem eq_of_rows {t u : Table K sort} (h : t.rows = u.rows) : t = u := by
  cases t; cases u; cases h; rfl

/-- A table has one row for a key and a sort field. -/
theorem unique {t : Table K sort} {a b : K × V} (ha : a ∈ t) (hb : b ∈ t)
    (h : rowKey sort a = rowKey sort b) : a = b := by
  obtain ⟨rows, hs⟩ := t
  change a ∈ rows at ha
  change b ∈ rows at hb
  induction rows with
  | nil => cases ha
  | cons r rows ih =>
    rw [List.pairwise_cons] at hs
    rcases List.mem_cons.mp ha with rfl | ha' <;> rcases List.mem_cons.mp hb with rfl | hb'
    · rfl
    · exact absurd (hs.1 _ hb') (by rw [h]; exact lt_irrefl _)
    · exact absurd (hs.1 _ ha') (by rw [h]; exact lt_irrefl _)
    · exact ih hs.2 ha' hb'

theorem unique_val {t : Table K sort} {k : K} {v w : V} (hv : (k, v) ∈ t) (hw : (k, w) ∈ t)
    (h : sort v = sort w) : v = w := by
  have := unique hv hw (rowKey_eq.mpr ⟨rfl, h⟩)
  exact (Prod.mk.inj this).2

theorem nodup_rows (t : Table K sort) : t.rows.Nodup :=
  t.sorted.imp fun hlt he => absurd hlt (by rw [he]; exact lt_irrefl _)

theorem ext_mem {t u : Table K sort} (h : ∀ r, r ∈ t ↔ r ∈ u) : t = u := by
  apply eq_of_rows
  have hp : t.rows.Perm u.rows := (List.perm_ext_iff_of_nodup t.nodup_rows u.nodup_rows).mpr h
  exact hp.eq_of_pairwise (fun a b _ _ hab hba => absurd hab (not_lt.mpr hba.le)) t.sorted u.sorted

def empty : Table K sort := ⟨[], List.Pairwise.nil⟩

instance : Inhabited (Table K sort) := ⟨empty⟩

@[simp] theorem not_mem_empty (r : K × V) : ¬ r ∈ (empty : Table K sort) := by
  intro h; cases h

/-! ## Reading -/

/-- `MDB_GET_BOTH`: the value of `k` with the sort fields `s`. -/
def get? (t : Table K sort) (k : K) (s : S) : Option V :=
  (t.rows.find? fun r => decide (r.1 = k) && decide (sort r.2 = s)).map (·.2)

theorem get?_eq_some {t : Table K sort} {k : K} {s : S} {v : V} :
    t.get? k s = some v ↔ (k, v) ∈ t ∧ sort v = s := by
  constructor
  · intro h
    obtain ⟨⟨k', v'⟩, hf, rfl⟩ := Option.map_eq_some_iff.mp h
    have hp := List.find?_some hf
    simp only [Bool.and_eq_true, decide_eq_true_eq] at hp
    obtain ⟨rfl, hs⟩ := hp
    exact ⟨List.mem_of_find?_eq_some hf, hs⟩
  · rintro ⟨hm, rfl⟩
    rcases hf : t.get? k (sort v) with _ | w
    · rw [get?, Option.map_eq_none_iff, List.find?_eq_none] at hf
      exact absurd (hf _ hm) (by simp)
    · obtain ⟨⟨k', w'⟩, hf', rfl⟩ := Option.map_eq_some_iff.mp hf
      have hp := List.find?_some hf'
      simp only [Bool.and_eq_true, decide_eq_true_eq] at hp
      obtain ⟨rfl, hs⟩ := hp
      rw [unique_val (List.mem_of_find?_eq_some hf') hm hs]

theorem get?_eq_none {t : Table K sort} {k : K} {s : S} :
    t.get? k s = none ↔ ∀ v, (k, v) ∈ t → sort v ≠ s := by
  constructor
  · intro h v hv hs
    rw [get?_eq_some.mpr ⟨hv, hs⟩] at h
    cases h
  · intro h
    rcases hf : t.get? k s with _ | v
    · rfl
    · obtain ⟨hv, hs⟩ := get?_eq_some.mp hf
      exact absurd hs (h v hv)

theorem get?_of_mem {t : Table K sort} {k : K} {v : V} (h : (k, v) ∈ t) : t.get? k (sort v) = some v :=
  get?_eq_some.mpr ⟨h, rfl⟩

def dups (t : Table K sort) (k : K) : List V := (t.rows.filter fun r => decide (r.1 = k)).map (·.2)

@[simp] theorem mem_dups {t : Table K sort} {k : K} {v : V} : v ∈ t.dups k ↔ (k, v) ∈ t := by
  simp only [dups, List.mem_map, List.mem_filter, decide_eq_true_eq]
  constructor
  · rintro ⟨⟨k', v'⟩, ⟨hm, rfl⟩, rfl⟩; exact hm
  · intro h; exact ⟨(k, v), ⟨h, rfl⟩, rfl⟩

theorem dups_sorted (t : Table K sort) (k : K) : (t.dups k).Pairwise fun v w => sort v < sort w := by
  rw [dups, List.pairwise_map]
  refine (t.sorted.sublist List.filter_sublist).imp_of_mem fun {a b} ha hb h => ?_
  have ha' := of_decide_eq_true (List.mem_filter.mp ha).2
  have hb' := of_decide_eq_true (List.mem_filter.mp hb).2
  rcases rowKey_lt.mp h with h | h
  · rw [ha', hb'] at h; exact absurd h (lt_irrefl _)
  · exact h.2

def count (t : Table K sort) (k : K) : Nat := (t.dups k).length

/-! ## Removing -/

def filter (t : Table K sort) (p : K × V → Bool) : Table K sort :=
  ⟨t.rows.filter p, t.sorted.sublist List.filter_sublist⟩

@[simp] theorem mem_filter {t : Table K sort} {p : K × V → Bool} {r : K × V} :
    r ∈ t.filter p ↔ r ∈ t ∧ p r = true := List.mem_filter

theorem filter_filter (t : Table K sort) (p q : K × V → Bool) :
    (t.filter p).filter q = t.filter fun r => p r && q r := by
  apply ext_mem; intro r
  simp only [mem_filter, Bool.and_eq_true, and_assoc]

theorem filter_eq_self {t : Table K sort} {p : K × V → Bool} (h : ∀ r ∈ t, p r = true) : t.filter p = t := by
  apply ext_mem; intro r
  simp only [mem_filter, and_iff_left_iff_imp]
  exact h r

/-- `mdb_cursor_get` with `MDB_GET_BOTH` on a stored row, then `mdb_cursor_del`. -/
def erase (t : Table K sort) (k : K) (s : S) : Table K sort :=
  t.filter fun r => !(decide (r.1 = k) && decide (sort r.2 = s))

@[simp] theorem mem_erase {t : Table K sort} {k : K} {s : S} {r : K × V} :
    r ∈ t.erase k s ↔ r ∈ t ∧ ¬ (r.1 = k ∧ sort r.2 = s) := by
  rw [erase, mem_filter, Bool.not_eq_true', ← Bool.not_eq_true, Bool.and_eq_true, decide_eq_true_eq, decide_eq_true_eq]

/-- `mdb_cursor_del` with `MDB_NODUPDATA`: every value of the key. -/
def eraseKey (t : Table K sort) (k : K) : Table K sort := t.filter fun r => !decide (r.1 = k)

@[simp] theorem mem_eraseKey {t : Table K sort} {k : K} {r : K × V} :
    r ∈ t.eraseKey k ↔ r ∈ t ∧ r.1 ≠ k := by
  simp [eraseKey, mem_filter]

/-! ## Writing -/

/-- Insert in order, replacing the row with the same key and sort fields. -/
def insertRow (sort : V → S) (r : K × V) : List (K × V) → List (K × V)
  | [] => [r]
  | x :: xs =>
    if rowKey sort r < rowKey sort x then r :: x :: xs
    else if rowKey sort r = rowKey sort x then r :: xs
    else x :: insertRow sort r xs

theorem mem_insertRow {r x : K × V} {xs : List (K × V)}
    (hs : xs.Pairwise fun a b => rowKey sort a < rowKey sort b) :
    x ∈ insertRow sort r xs ↔ x = r ∨ (x ∈ xs ∧ rowKey sort x ≠ rowKey sort r) := by
  induction xs with
  | nil => simp [insertRow]
  | cons y ys ih =>
    rw [List.pairwise_cons] at hs
    simp only [insertRow]
    split
    · rename_i hlt
      have hne : ∀ z ∈ y :: ys, rowKey sort z ≠ rowKey sort r := by
        intro z hz he
        rcases List.mem_cons.mp hz with rfl | hz
        · exact absurd hlt (by rw [he]; exact lt_irrefl _)
        · exact absurd (hlt.trans (hs.1 z hz)) (by rw [he]; exact lt_irrefl _)
      rw [List.mem_cons]
      constructor
      · rintro (h | h)
        · exact Or.inl h
        · exact Or.inr ⟨h, hne x h⟩
      · rintro (h | ⟨h, -⟩)
        · exact Or.inl h
        · exact Or.inr h
    · split
      · rename_i heq
        have hne : ∀ z ∈ ys, rowKey sort z ≠ rowKey sort r := by
          intro z hz he
          exact absurd (hs.1 z hz) (by rw [he, heq]; exact lt_irrefl _)
        simp only [List.mem_cons]
        constructor
        · rintro (h | h)
          · exact Or.inl h
          · exact Or.inr ⟨Or.inr h, hne x h⟩
        · rintro (h | ⟨rfl | h, hk⟩)
          · exact Or.inl h
          · exact absurd heq.symm hk
          · exact Or.inr h
      · rename_i hne
        rw [List.mem_cons, ih hs.2, List.mem_cons]
        constructor
        · rintro (rfl | h | ⟨h, hk⟩)
          · exact Or.inr ⟨Or.inl rfl, fun h => hne h.symm⟩
          · exact Or.inl h
          · exact Or.inr ⟨Or.inr h, hk⟩
        · rintro (h | ⟨h | h, hk⟩)
          · exact Or.inr (Or.inl h)
          · exact Or.inl h
          · exact Or.inr (Or.inr ⟨h, hk⟩)

theorem insertRow_sorted (r : K × V) {xs : List (K × V)}
    (hs : xs.Pairwise fun a b => rowKey sort a < rowKey sort b) :
    (insertRow sort r xs).Pairwise fun a b => rowKey sort a < rowKey sort b := by
  induction xs with
  | nil => simp [insertRow]
  | cons y ys ih =>
    have hs' := List.pairwise_cons.mp hs
    simp only [insertRow]
    split
    · rename_i hlt
      refine List.pairwise_cons.mpr ⟨fun z hz => ?_, hs⟩
      rcases List.mem_cons.mp hz with rfl | hz
      · exact hlt
      · exact hlt.trans (hs'.1 z hz)
    · split
      · rename_i heq
        exact List.pairwise_cons.mpr ⟨fun z hz => by rw [heq]; exact hs'.1 z hz, hs'.2⟩
      · rename_i hnlt hne
        refine List.pairwise_cons.mpr ⟨fun z hz => ?_, ih hs'.2⟩
        rcases (mem_insertRow hs'.2).mp hz with rfl | ⟨hz, -⟩
        · exact lt_of_le_of_ne (not_lt.mp hnlt) (Ne.symm hne)
        · exact hs'.1 z hz

/-- `mdb_cursor_put` with no flag, or with `MDB_CURRENT` at the row it replaces. -/
def put (t : Table K sort) (k : K) (v : V) : Table K sort :=
  ⟨insertRow sort (k, v) t.rows, insertRow_sorted _ t.sorted⟩

@[simp] theorem mem_put {t : Table K sort} {k : K} {v : V} {r : K × V} :
    r ∈ t.put k v ↔ r = (k, v) ∨ (r ∈ t ∧ ¬ (r.1 = k ∧ sort r.2 = sort v)) := by
  change r ∈ insertRow sort (k, v) t.rows ↔ _
  rw [mem_insertRow t.sorted, Ne, rowKey_eq]; rfl

theorem mem_put_of_ne {t : Table K sort} {k : K} {v : V} {r : K × V} (h : ¬ (r.1 = k ∧ sort r.2 = sort v)) :
    r ∈ t.put k v ↔ r ∈ t := by
  rw [mem_put]
  constructor
  · rintro (rfl | ⟨hr, -⟩)
    · exact absurd ⟨rfl, rfl⟩ h
    · exact hr
  · exact fun hr => Or.inr ⟨hr, h⟩

theorem mem_put_self (t : Table K sort) (k : K) (v : V) : (k, v) ∈ t.put k v := mem_put.mpr (Or.inl rfl)

theorem get?_put_self (t : Table K sort) (k : K) (v : V) : (t.put k v).get? k (sort v) = some v :=
  get?_of_mem (mem_put_self t k v)

theorem get?_put_of_ne {t : Table K sort} {k k' : K} {v : V} {s : S} (h : ¬ (k' = k ∧ s = sort v)) :
    (t.put k v).get? k' s = t.get? k' s := by
  have hrow : ∀ w, sort w = s → ((k', w) ∈ t.put k v ↔ (k', w) ∈ t) := by
    rintro w rfl
    exact mem_put_of_ne h
  ext w
  rw [get?_eq_some, get?_eq_some]
  exact ⟨fun hw => ⟨(hrow w hw.2).mp hw.1, hw.2⟩, fun hw => ⟨(hrow w hw.2).mpr hw.1, hw.2⟩⟩

/-- `mdb_cursor_put` with `MDB_NODUPDATA`; `none` is `MDB_KEYEXIST`. -/
def putNew (t : Table K sort) (k : K) (v : V) : Option (Table K sort) :=
  if (t.get? k (sort v)).isSome then none else some (t.put k v)

theorem putNew_eq_some {t u : Table K sort} {k : K} {v : V} :
    t.putNew k v = some u ↔ (∀ w, (k, w) ∈ t → sort w ≠ sort v) ∧ u = t.put k v := by
  unfold putNew
  split
  · rename_i h
    obtain ⟨w, hw⟩ := Option.isSome_iff_exists.mp h
    obtain ⟨hm, hs⟩ := get?_eq_some.mp hw
    simp only [reduceCtorEq, false_iff, not_and]
    exact fun h' => absurd hs (h' w hm)
  · rename_i h
    rw [Option.not_isSome_iff_eq_none, get?_eq_none] at h
    simp only [Option.some.injEq]
    exact ⟨fun e => ⟨h, e.symm⟩, fun e => e.2.symm⟩

theorem putNew_eq_none {t : Table K sort} {k : K} {v : V} :
    t.putNew k v = none ↔ ∃ w, (k, w) ∈ t ∧ sort w = sort v := by
  unfold putNew
  split
  · rename_i h
    obtain ⟨w, hw⟩ := Option.isSome_iff_exists.mp h
    exact ⟨fun _ => ⟨w, get?_eq_some.mp hw⟩, fun _ => rfl⟩
  · rename_i h
    rw [Option.not_isSome_iff_eq_none, get?_eq_none] at h
    simp only [reduceCtorEq, false_iff, not_exists, not_and]
    exact h

/-- A put that tolerates `MDB_KEYEXIST`: the stored row stays. -/
def putAbsent (t : Table K sort) (k : K) (v : V) : Table K sort := (t.putNew k v).getD t

theorem mem_putAbsent {t : Table K sort} {k : K} {v : V} {r : K × V} :
    r ∈ t.putAbsent k v ↔ r ∈ t ∨ (r = (k, v) ∧ ∀ w, (k, w) ∈ t → sort w ≠ sort v) := by
  unfold putAbsent
  rcases h : t.putNew k v with _ | u
  · obtain ⟨w, hw, hs⟩ := putNew_eq_none.mp h
    simp only [Option.getD_none]
    exact ⟨Or.inl, fun h' => h'.elim id fun ⟨_, hn⟩ => absurd hs (hn w hw)⟩
  · obtain ⟨hn, rfl⟩ := putNew_eq_some.mp h
    simp only [Option.getD_some, mem_put]
    constructor
    · rintro (e | ⟨hm, -⟩)
      · exact Or.inr ⟨e, hn⟩
      · exact Or.inl hm
    · rintro (hm | ⟨e, -⟩)
      · refine Or.inr ⟨hm, ?_⟩
        rintro ⟨rfl, hs⟩
        exact hn r.2 hm hs
      · exact Or.inl e

/-! ## Several values at once -/

/-- `mdb_cursor_put` with `MDB_MULTIPLE`: the values are written in order; with
    `noDup` (`MDB_NODUPDATA`) the call stops at the first one already stored. Returns
    how many were written and whether it stopped. -/
def putMultiple (noDup : Bool) (k : K) : List V → Table K sort → Table K sort × Nat × Bool
  | [], t => (t, 0, false)
  | v :: vs, t =>
    if noDup && (t.get? k (sort v)).isSome then (t, 0, true)
    else
      let (t', n, stopped) := putMultiple noDup k vs (t.put k v)
      (t', n + 1, stopped)

def putAllAbsent (t : Table K sort) (k : K) (vs : List V) : Table K sort := vs.foldl (fun t v => t.putAbsent k v) t

def putAll (t : Table K sort) (k : K) (vs : List V) : Table K sort := vs.foldl (fun t v => t.put k v) t

theorem putAbsent_of_free {t : Table K sort} {k : K} {v : V} (h : ¬ (t.get? k (sort v)).isSome = true) :
    t.putAbsent k v = t.put k v := by
  simp [putAbsent, putNew, h]

theorem putAbsent_of_taken {t : Table K sort} {k : K} {v : V} (h : (t.get? k (sort v)).isSome = true) :
    t.putAbsent k v = t := by
  simp [putAbsent, putNew, h]

/-- One call with `MDB_NODUPDATA` does what the first `written` values ask, and, when
    it stopped, the next value is already there. -/
theorem putMultiple_noDup (k : K) : ∀ (vs : List V) (t : Table K sort),
    let x := putMultiple true k vs t
    x.1 = putAllAbsent t k (vs.take x.2.1) ∧ x.2.1 ≤ vs.length ∧
      (x.2.2 = true → putAllAbsent t k (vs.take (x.2.1 + 1)) = x.1 ∧ x.2.1 < vs.length) ∧
      (x.2.2 = false → x.2.1 = vs.length) := by
  intro vs
  induction vs with
  | nil => intro t; simp [putMultiple, putAllAbsent]
  | cons v vs ih =>
    intro t
    by_cases h : (t.get? k (sort v)).isSome = true
    · simp [putMultiple, h, putAllAbsent, putAbsent_of_taken h]
    · obtain ⟨h1, h2, h3, h4⟩ := ih (t.put k v)
      simp only [putMultiple, h, Bool.and_false, Bool.false_eq_true, if_false, putAllAbsent, List.take_succ_cons,
        List.foldl_cons, putAbsent_of_free h, List.length_cons]
      refine ⟨h1, Nat.succ_le_succ h2, fun e => ?_, fun e => ?_⟩
      · obtain ⟨h5, h6⟩ := h3 e
        exact ⟨h5, Nat.succ_lt_succ h6⟩
      · rw [h4 e]

theorem putMultiple_over (k : K) : ∀ (vs : List V) (t : Table K sort),
    putMultiple false k vs t = (putAll t k vs, vs.length, false) := by
  intro vs
  induction vs with
  | nil => intro t; rfl
  | cons v vs ih => intro t; simp [putMultiple, ih, putAll]

theorem mem_putAllAbsent_of_mem {t : Table K sort} {k : K} {r : K × V} : ∀ {vs : List V}, r ∈ t →
    r ∈ t.putAllAbsent k vs := by
  intro vs
  induction vs generalizing t with
  | nil => exact id
  | cons v vs ih => intro h; exact ih (mem_putAbsent.mpr (Or.inl h))

theorem mem_putAllAbsent {t : Table K sort} {k : K} {r : K × V} : ∀ {vs : List V}, r ∈ t.putAllAbsent k vs →
    r ∈ t ∨ (r.1 = k ∧ r.2 ∈ vs) := by
  intro vs
  induction vs generalizing t with
  | nil => exact Or.inl
  | cons v vs ih =>
    intro h
    rcases ih (show r ∈ (t.putAbsent k v).putAllAbsent k vs from h) with h | ⟨h, hv⟩
    · rcases mem_putAbsent.mp h with h | ⟨rfl, -⟩
      · exact Or.inl h
      · exact Or.inr ⟨rfl, List.mem_cons_self⟩
    · exact Or.inr ⟨h, List.mem_cons_of_mem _ hv⟩

/-- Every value given is there afterwards, up to the payload. -/
theorem putAllAbsent_stores {t : Table K sort} {k : K} {v : V} : ∀ {vs : List V}, v ∈ vs →
    ∃ w, (k, w) ∈ t.putAllAbsent k vs ∧ sort w = sort v := by
  intro vs
  induction vs generalizing t with
  | nil => intro h; cases h
  | cons x xs ih =>
    intro h
    change ∃ w, (k, w) ∈ (t.putAbsent k x).putAllAbsent k xs ∧ _
    rcases List.mem_cons.mp h with rfl | h
    · by_cases hf : ∀ w, (k, w) ∈ t → sort w ≠ sort v
      · exact ⟨v, mem_putAllAbsent_of_mem (mem_putAbsent.mpr (Or.inr ⟨rfl, hf⟩)), rfl⟩
      · push Not at hf
        obtain ⟨w, hw, hs⟩ := hf
        exact ⟨w, mem_putAllAbsent_of_mem (mem_putAbsent.mpr (Or.inl hw)), hs⟩
    · exact ih h

/-- Writing under one key leaves the others. -/
theorem get?_putAbsent_of_ne {t : Table K sort} {k k' : K} (hk : k' ≠ k) (v : V) (s : S) :
    (t.putAbsent k v).get? k' s = t.get? k' s := by
  apply Option.ext
  intro w
  rw [get?_eq_some, get?_eq_some, mem_putAbsent]
  refine and_congr_left fun _ => ⟨fun h => ?_, Or.inl⟩
  rcases h with h | ⟨h, -⟩
  · exact h
  · exact absurd (congrArg Prod.fst h) hk

theorem putAbsent_erase_of_ne {t : Table K sort} {k k' : K} (hk : k' ≠ k) (v : V) (s : S) :
    (t.erase k' s).putAbsent k v = (t.putAbsent k v).erase k' s := by
  apply ext_mem
  intro r
  simp only [mem_putAbsent, mem_erase]
  have hfree : (∀ w, (k, w) ∈ t ∧ ¬ (k = k' ∧ sort w = s) → sort w ≠ sort v) ↔ ∀ w, (k, w) ∈ t → sort w ≠ sort v :=
    ⟨fun h w hw => h w ⟨hw, fun e => hk e.1.symm⟩, fun h w hw => h w hw.1⟩
  rw [hfree]
  refine ⟨fun h => ?_, fun ⟨h, hne⟩ => ?_⟩
  · rcases h with ⟨h, hne⟩ | ⟨rfl, h⟩
    · exact ⟨Or.inl h, hne⟩
    · exact ⟨Or.inr ⟨rfl, h⟩, fun e => hk e.1.symm⟩
  · rcases h with h | h
    · exact Or.inl ⟨h, hne⟩
    · exact Or.inr h

theorem get?_putAllAbsent_of_ne {k k' : K} (hk : k' ≠ k) (s : S) : ∀ (vs : List V) (t : Table K sort),
    (t.putAllAbsent k vs).get? k' s = t.get? k' s := by
  intro vs
  induction vs with
  | nil => intro t; rfl
  | cons v vs ih => intro t; exact (ih (t.putAbsent k v)).trans (get?_putAbsent_of_ne hk v s)

theorem putAllAbsent_erase_of_ne {k k' : K} (hk : k' ≠ k) (s : S) : ∀ (vs : List V) (t : Table K sort),
    (t.erase k' s).putAllAbsent k vs = (t.putAllAbsent k vs).erase k' s := by
  intro vs
  induction vs with
  | nil => intro t; rfl
  | cons v vs ih =>
    intro t
    show ((t.erase k' s).putAbsent k v).putAllAbsent k vs = _
    rw [putAbsent_erase_of_ne hk]
    exact ih (t.putAbsent k v)

theorem mem_putAll_of_ne {t : Table K sort} {k : K} {r : K × V} : ∀ {vs : List V},
    (r.1 = k → ∀ v ∈ vs, sort r.2 ≠ sort v) → (r ∈ t.putAll k vs ↔ r ∈ t) := by
  intro vs
  induction vs generalizing t with
  | nil => intro _; rfl
  | cons v vs ih =>
    intro h
    change r ∈ (t.put k v).putAll k vs ↔ _
    rw [ih fun hk w hw => h hk w (List.mem_cons_of_mem _ hw)]
    exact mem_put_of_ne fun e => h e.1 v List.mem_cons_self e.2

/-- Values with distinct sort fields are all there afterwards. -/
theorem putAll_stores {t : Table K sort} {k : K} {v : V} : ∀ {vs : List V},
    vs.Pairwise (fun a b => sort a ≠ sort b) → v ∈ vs → (k, v) ∈ t.putAll k vs := by
  intro vs
  induction vs generalizing t with
  | nil => intro _ h; cases h
  | cons x xs ih =>
    intro hp h
    rw [List.pairwise_cons] at hp
    change _ ∈ (t.put k x).putAll k xs
    rcases List.mem_cons.mp h with rfl | h
    · exact (mem_putAll_of_ne fun _ w hw => hp.1 w hw).mpr (mem_put_self _ _ _)
    · exact ih hp.2 h

/-! ## Rows added where their keys are free -/

/-- `u` is `t` and the rows of `new` whose keys `t` has not. -/
def Adds (new : K × V → Prop) (t u : Table K sort) : Prop :=
  ∀ r, r ∈ u ↔ r ∈ t ∨ (new r ∧ ∀ q ∈ t, rowKey sort q ≠ rowKey sort r)

theorem Adds.keeps {new : K × V → Prop} {t u : Table K sort} (h : Adds new t u) {r : K × V} (hr : r ∈ t) : r ∈ u :=
  (h r).mpr (Or.inl hr)

theorem Adds.stores {new : K × V → Prop} {t u : Table K sort} (h : Adds new t u) {r : K × V} (hr : new r) :
    ∃ q ∈ u, rowKey sort q = rowKey sort r := by
  by_cases e : ∃ q ∈ t, rowKey sort q = rowKey sort r
  · obtain ⟨q, hq, he⟩ := e
    exact ⟨q, h.keeps hq, he⟩
  · exact ⟨r, (h r).mpr (Or.inr ⟨hr, fun q hq he => e ⟨q, hq, he⟩⟩), rfl⟩

theorem adds_none {new : K × V → Prop} (hnone : ∀ r, ¬ new r) (t : Table K sort) : Adds new t t :=
  fun r => ⟨Or.inl, fun h => h.resolve_right fun e => hnone r e.1⟩

theorem Adds.congr {new new' : K × V → Prop} {t u : Table K sort} (h : Adds new t u) (he : ∀ r, new r ↔ new' r) :
    Adds new' t u := fun r => (h r).trans (or_congr_right (and_congr_left fun _ => he r))

/-- One after the other, where rows of one key are the same row. -/
theorem Adds.trans {new new' : K × V → Prop} {t u v : Table K sort} (h : Adds new t u) (h' : Adds new' u v)
    (hsame : ∀ r q, new r → new' q → rowKey sort r = rowKey sort q → r = q) : Adds (fun r => new r ∨ new' r) t v := by
  intro r
  refine (h' r).trans ⟨fun hr => ?_, fun hr => ?_⟩
  · rcases hr with hr | ⟨hnew, hfree⟩
    · exact ((h r).mp hr).imp id fun e => ⟨Or.inl e.1, e.2⟩
    · exact Or.inr ⟨Or.inr hnew, fun q hq => hfree q (h.keeps hq)⟩
  · rcases hr with hr | ⟨hnew | hnew, hfree⟩
    · exact Or.inl (h.keeps hr)
    · exact Or.inl ((h r).mpr (Or.inr ⟨hnew, hfree⟩))
    · by_cases e : r ∈ u
      · exact Or.inl e
      · refine Or.inr ⟨hnew, fun q hq he => e ?_⟩
        rcases (h q).mp hq with hqt | ⟨hqn, -⟩
        · exact absurd he (hfree q hqt)
        · rwa [← hsame q r hqn hnew he]

/-- What is added is what counts. -/
theorem Adds.ext {new new' : K × V → Prop} {t u v : Table K sort} (h : Adds new t u) (h' : Adds new' t v)
    (he : ∀ r, (∀ q ∈ t, rowKey sort q ≠ rowKey sort r) → (new r ↔ new' r)) : u = v := by
  apply ext_mem
  intro r
  exact (h r).trans ((or_congr_right (and_congr_left (he r))).trans (h' r).symm)

theorem adds_putAbsent (t : Table K sort) (k : K) (v : V) : Adds (fun r => r = (k, v)) t (t.putAbsent k v) := by
  intro r
  rw [mem_putAbsent]
  refine or_congr_right (and_congr_right fun hr => ⟨fun hfree q hq he => ?_, fun hfree w hw he => ?_⟩)
  · rw [hr] at he
    obtain ⟨h1, h2⟩ := rowKey_eq.mp he
    refine hfree q.2 ?_ h2
    rw [← show q.1 = k from h1]
    exact hq
  · refine hfree _ hw ?_
    rw [hr]
    exact rowKey_eq.mpr ⟨rfl, he⟩

/-- A fold of `putAbsent` over values that agree where their keys do. -/
theorem adds_fold {α : Type} (row : α → K × V) : ∀ (xs : List α) (t : Table K sort),
    (∀ x ∈ xs, ∀ y ∈ xs, rowKey sort (row x) = rowKey sort (row y) → row x = row y) →
      Adds (fun r => ∃ x ∈ xs, r = row x) t (xs.foldl (fun t x => t.putAbsent (row x).1 (row x).2) t) := by
  intro xs
  induction xs with
  | nil =>
    intro t _
    refine adds_none (fun r hr => ?_) t
    obtain ⟨x, hx, -⟩ := hr
    cases hx
  | cons x xs ih =>
    intro t hsame
    have hone := adds_putAbsent t (row x).1 (row x).2
    have hrest := ih (t.putAbsent (row x).1 (row x).2) fun y hy z hz =>
      hsame y (List.mem_cons_of_mem _ hy) z (List.mem_cons_of_mem _ hz)
    refine (hone.trans hrest fun r q hr hq he => ?_).congr fun r => ?_
    · obtain ⟨y, hy, rfl⟩ := hq
      subst hr
      exact hsame x List.mem_cons_self y (List.mem_cons_of_mem _ hy) he
    · simp only [List.mem_cons, exists_eq_or_imp]

theorem adds_putAllAbsent {vs : List V} (hsame : ∀ v ∈ vs, ∀ w ∈ vs, sort v = sort w → v = w) (t : Table K sort)
    (k : K) :
    Adds (fun r => r.1 = k ∧ r.2 ∈ vs) t (t.putAllAbsent k vs) := by
  refine (adds_fold (fun v => (k, v)) vs t fun v hv w hw he => ?_).congr fun r => ⟨fun hr => ?_, fun hr => ?_⟩
  · rw [hsame v hv w hw (rowKey_eq.mp he).2]
  · obtain ⟨v, hv, rfl⟩ := hr
    exact ⟨rfl, hv⟩
  · exact ⟨r.2, hr.2, by rw [← hr.1]⟩

/-! ## How many rows -/

theorem keys_nodup (t : Table K sort) : (t.rows.map (rowKey sort)).Nodup := by
  rw [List.Nodup, List.pairwise_map]
  exact t.sorted.imp fun hlt => hlt.ne

/-- Distinct keys all of which are those of rows are at most as many as the rows. -/
theorem length_le_of_keys {keys : List (K ×ₗ S)} {t : Table K sort} (hn : keys.Nodup)
    (h : ∀ x ∈ keys, ∃ r ∈ t, rowKey sort r = x) : keys.length ≤ t.rows.length := by
  have hsub : keys ⊆ t.rows.map (rowKey sort) := by
    intro x hx
    obtain ⟨r, hr, he⟩ := h x hx
    exact List.mem_map.mpr ⟨r, hr, he⟩
  simpa using (List.subperm_of_subset hn hsub).length_le

theorem count_le_of_subset {t u : Table K sort} {k : K} (h : ∀ v, (k, v) ∈ t → (k, v) ∈ u) : t.count k ≤ u.count k := by
  have hn : (t.dups k).Nodup := (t.dups_sorted k).imp fun {a b} hlt he => by
    rw [he] at hlt
    exact lt_irrefl _ hlt
  exact (List.subperm_of_subset hn fun v hv => mem_dups.mpr (h v (mem_dups.mp hv))).length_le

/-- Of the values given, only those of `more` can be new under the key. -/
theorem count_putAllAbsent_le {t : Table K sort} {k : K} {vs more : List V}
    (h : ∀ v ∈ vs, (∃ w, (k, w) ∈ t ∧ sort w = sort v) ∨ v ∈ more) :
    (t.putAllAbsent k vs).count k ≤ t.count k + more.length := by
  have hn : (((t.putAllAbsent k vs).dups k).map sort).Nodup := by
    rw [List.Nodup, List.pairwise_map]
    exact (dups_sorted _ k).imp fun hlt => hlt.ne
  have hsub : ((t.putAllAbsent k vs).dups k).map sort ⊆ (t.dups k ++ more).map sort := by
    intro s hs
    obtain ⟨v, hv, rfl⟩ := List.mem_map.mp hs
    rcases mem_putAllAbsent (mem_dups.mp hv) with hv | ⟨-, hv⟩
    · exact List.mem_map.mpr ⟨v, List.mem_append_left _ (mem_dups.mpr hv), rfl⟩
    · rcases h v hv with ⟨w, hw, he⟩ | hv
      · exact List.mem_map.mpr ⟨w, List.mem_append_left _ (mem_dups.mpr hw), he⟩
      · exact List.mem_map.mpr ⟨v, List.mem_append_right _ hv, rfl⟩
  simpa [count] using (List.subperm_of_subset hn hsub).length_le

theorem length_put_le (t : Table K sort) (k : K) (v : V) : t.rows.length ≤ (t.put k v).rows.length := by
  have h := length_le_of_keys (t := t.put k v) t.keys_nodup fun x hx => ?_
  · simpa using h
  · obtain ⟨r, hr, rfl⟩ := List.mem_map.mp hx
    by_cases e : r.1 = k ∧ sort r.2 = sort v
    · exact ⟨(k, v), mem_put_self _ _ _, rowKey_eq.mpr ⟨e.1.symm, e.2.symm⟩⟩
    · exact ⟨r, mem_put.mpr (Or.inr ⟨hr, e⟩), rfl⟩

theorem length_put_free {t : Table K sort} {k : K} {v : V} (h : ∀ w, (k, w) ∈ t → sort w ≠ sort v) :
    t.rows.length + 1 ≤ (t.put k v).rows.length := by
  have hn : (rowKey sort (k, v) :: t.rows.map (rowKey sort)).Nodup := by
    refine List.nodup_cons.mpr ⟨fun hm => ?_, t.keys_nodup⟩
    obtain ⟨⟨k', w⟩, hr, he⟩ := List.mem_map.mp hm
    obtain ⟨rfl, hs⟩ := rowKey_eq.mp he
    exact h w hr hs
  have h' := length_le_of_keys (t := t.put k v) hn fun x hx => ?_
  · simpa using h'
  · rcases List.mem_cons.mp hx with rfl | hx
    · exact ⟨(k, v), mem_put_self _ _ _, rfl⟩
    · obtain ⟨r, hr, rfl⟩ := List.mem_map.mp hx
      refine ⟨r, mem_put.mpr (Or.inr ⟨hr, fun e => ?_⟩), rfl⟩
      rw [← e.1] at h
      exact h r.2 hr e.2

theorem length_erase_le (t : Table K sort) (k : K) (s : S) : t.rows.length ≤ (t.erase k s).rows.length + 1 := by
  have hsub : t.rows.map (rowKey sort) ⊆ toLex (k, s) :: (t.erase k s).rows.map (rowKey sort) := by
    intro x hx
    obtain ⟨r, hr, rfl⟩ := List.mem_map.mp hx
    by_cases e : r.1 = k ∧ sort r.2 = s
    · refine List.mem_cons.mpr (Or.inl ?_)
      rw [← e.1, ← e.2]; rfl
    · exact List.mem_cons.mpr (Or.inr (List.mem_map.mpr ⟨r, mem_erase.mpr ⟨hr, e⟩, rfl⟩))
  simpa using (List.subperm_of_subset t.keys_nodup hsub).length_le

/-! ## Rows of several keys -/

/-- `put` for each row in turn. -/
def putRows (t : Table K sort) (rows : List (K × V)) : Table K sort := rows.foldl (fun t r => t.put r.1 r.2) t

def apart (sort : V → S) (rows : List (K × V)) (r : K × V) : Bool :=
  rows.all fun o => decide (rowKey sort o ≠ rowKey sort r)

theorem apart_iff {rows : List (K × V)} {r : K × V} :
    apart sort rows r = true ↔ ∀ o ∈ rows, rowKey sort o ≠ rowKey sort r := by
  simp [apart]

theorem mem_putRows {rows : List (K × V)} {r : K × V} {t : Table K sort}
    (h : rows.Pairwise fun a b => rowKey sort a ≠ rowKey sort b) :
    r ∈ t.putRows rows ↔ r ∈ rows ∨ (r ∈ t ∧ apart sort rows r = true) := by
  induction rows generalizing t with
  | nil => simp [putRows, apart]
  | cons x rows ih =>
    obtain ⟨hx, h⟩ := List.pairwise_cons.mp h
    change r ∈ (t.put x.1 x.2).putRows rows ↔ _
    rw [ih h, mem_put, apart_iff, apart_iff, List.mem_cons, List.forall_mem_cons, Ne, rowKey_eq]
    constructor
    · rintro (hr | ⟨rfl | ⟨hr, hne⟩, hrest⟩)
      · exact Or.inl (Or.inr hr)
      · exact Or.inl (Or.inl rfl)
      · exact Or.inr ⟨hr, fun e => hne ⟨e.1.symm, e.2.symm⟩, hrest⟩
    · rintro ((rfl | hr) | ⟨hr, hne, hrest⟩)
      · exact Or.inr ⟨Or.inl rfl, fun o ho e => hx o ho e.symm⟩
      · exact Or.inl hr
      · exact Or.inr ⟨Or.inr ⟨hr, fun e => hne ⟨e.1.symm, e.2.symm⟩⟩, hrest⟩

/-- The rows put, and of the others those that none of them replaced. -/
theorem putRows_perm (t : Table K sort) {rows : List (K × V)}
    (h : rows.Pairwise fun a b => rowKey sort a ≠ rowKey sort b) :
    (t.putRows rows).rows.Perm (rows ++ t.rows.filter (apart sort rows)) := by
  have hrows : rows.Nodup := h.imp fun hne e => hne (congrArg _ e)
  refine (List.perm_ext_iff_of_nodup (nodup_rows _) ?_).mpr fun r => ?_
  · refine List.nodup_append.mpr ⟨hrows, t.nodup_rows.sublist List.filter_sublist, fun r hr q hq e => ?_⟩
    exact apart_iff.mp (List.mem_filter.mp hq).2 r hr (congrArg _ e)
  · rw [mem_rows, mem_putRows h, List.mem_append, List.mem_filter, mem_rows]

end Table

end Lws.Lmdb
