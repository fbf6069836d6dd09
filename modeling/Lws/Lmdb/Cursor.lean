/-
  Lws.Lmdb.Cursor — cursors over dup-sorted tables, and the loops that walk them.

  A cursor is a table and a position in it. `del` removes the row under the cursor and
  leaves the cursor before the row that followed it: the next forward move returns that
  row, the next backward move the one before the gap, and `gone` remembers the key the
  gap belongs to, which is what `nextDup` compares with. A move that finds no row is
  `none` (MDB_NOTFOUND).

  Four loops cover the programs that walk a table while deleting from it:
  - `eachFrom`: from the first value of a key at or above a search key, along the
    values of that key (MDB_GET_BOTH_RANGE, then MDB_NEXT_DUP);
  - `eachDup`: along all values of a key (MDB_SET_KEY, then MDB_NEXT_DUP);
  - `eachKeyFrom`: from the first row whose key is at or above a search key, along the
    whole table (MDB_SET_RANGE, then MDB_NEXT_DUP or else MDB_NEXT_NODUP);
  - `trimBack`: backwards from the last row, deleting the last values of each key
    (MDB_LAST, then MDB_PREV or MDB_PREV_NODUP).

  Each is run on the cursor with the moves above, and each is proved equal to a fold
  over the rows it visits with one filter of the table (`eachFrom_eq`, `eachDup_eq`,
  `eachKeyFrom_eq`, `trimBack_eq`): no row is visited twice, none is skipped after a
  deletion, and no other row changes.
-/

import Lws.Lmdb.Table

namespace Lws.Lmdb

variable {K V S : Type} [LinearOrder K] [LinearOrder S]

structure Cursor (K : Type) [LinearOrder K] {V S : Type} [LinearOrder S] (sort : V → S) where
  table : Table K sort
  pos : Nat
  gone : Option K

namespace Cursor

variable {sort : V → S}

def row? (c : Cursor K sort) : Option (K × V) := c.table.rows[c.pos]?

/-- The key the cursor is at: the deleted row's, after a deletion. -/
def key? (c : Cursor K sort) : Option K := c.gone <|> c.row?.map (·.1)

/-- Where the next forward move lands. -/
def ahead (c : Cursor K sort) : Nat := if c.gone.isSome then c.pos else c.pos + 1

/-- `mdb_cursor_del`. -/
def del (c : Cursor K sort) : Cursor K sort :=
  { table := ⟨c.table.rows.eraseIdx c.pos, c.table.sorted.sublist (List.eraseIdx_sublist _ _)⟩
    pos := c.pos
    gone := c.row?.map (·.1) }

/-- Move to position `i`, where a row must be. -/
def goto (c : Cursor K sort) (i : Nat) : Option (Cursor K sort) :=
  if i < c.table.rows.length then some ⟨c.table, i, none⟩ else none

/-- `MDB_NEXT`. -/
def next (c : Cursor K sort) : Option (Cursor K sort) := c.goto c.ahead

/-- `MDB_NEXT_DUP`. -/
def nextDup (c : Cursor K sort) : Option (Cursor K sort) :=
  match c.table.rows[c.ahead]? with
  | some r => if c.key? = some r.1 then c.goto c.ahead else none
  | none => none

/-- `MDB_NEXT_NODUP`: the first value of the next key. -/
def nextNodup (c : Cursor K sort) : Option (Cursor K sort) :=
  c.goto (c.ahead + ((c.table.rows.drop c.ahead).takeWhile fun r => decide (c.key? = some r.1)).length)

/-- `MDB_PREV`. -/
def prev (c : Cursor K sort) : Option (Cursor K sort) :=
  if c.pos = 0 then none else c.goto (c.pos - 1)

/-- `MDB_PREV_DUP`. -/
def prevDup (c : Cursor K sort) : Option (Cursor K sort) :=
  if c.pos = 0 then none
  else
    match c.table.rows[c.pos - 1]? with
    | some r => if c.key? = some r.1 then c.goto (c.pos - 1) else none
    | none => none

/-- `MDB_PREV_NODUP`: the last value of the previous key. -/
def prevNodup (c : Cursor K sort) : Option (Cursor K sort) :=
  let skip := ((c.table.rows.take c.pos).reverse.takeWhile fun r => decide (c.key? = some r.1)).length
  if c.pos ≤ skip then none else c.goto (c.pos - skip - 1)

/-- `MDB_LAST_DUP`. -/
def lastDup (c : Cursor K sort) : Cursor K sort :=
  ⟨c.table, c.pos + ((c.table.rows.drop (c.pos + 1)).takeWhile fun r => decide (c.key? = some r.1)).length, none⟩

/-! ## The loops -/

variable {σ ε : Type}

/-- Visit the row under the cursor, delete it if the body says so, move, and go on
    until the move finds no row. -/
def walk (move : Cursor K sort → Option (Cursor K sort)) (body : σ → K × V → Except ε (σ × Bool)) :
    Nat → σ → Cursor K sort → Except ε (σ × Table K sort)
  | 0, s, c => .ok (s, c.table)
  | n + 1, s, c =>
    match c.row? with
    | none => .ok (s, c.table)
    | some r => do
      let (s', gone) ← body s r
      let c' := if gone then c.del else c
      match move c' with
      | none => .ok (s', c'.table)
      | some c'' => walk move body n s' c''

/-- Delete the row under the cursor and step back, or, where `keep` holds, step back to
    the previous key. -/
def trim (keep : V → Bool) : Nat → Cursor K sort → Table K sort
  | 0, c => c.table
  | n + 1, c =>
    match c.row? with
    | none => c.table
    | some r =>
      if keep r.2 then
        match c.prevNodup with
        | none => c.table
        | some c' => trim keep n c'
      else
        match c.del.prev with
        | none => c.del.table
        | some c' => trim keep n c'

end Cursor

namespace Table

variable {sort : V → S} {σ ε : Type}

/-- `MDB_FIRST`. -/
def first (t : Table K sort) : Option (Cursor K sort) := (⟨t, 0, none⟩ : Cursor K sort).goto 0

/-- `MDB_LAST`. -/
def last (t : Table K sort) : Option (Cursor K sort) :=
  if t.rows.isEmpty then none else some ⟨t, t.rows.length - 1, none⟩

/-- The first row satisfying `p`. -/
def seek (t : Table K sort) (p : K × V → Bool) : Option (Cursor K sort) :=
  (t.rows.findIdx? p).map fun i => ⟨t, i, none⟩

/-- `MDB_SET` and `MDB_SET_KEY`. -/
def set (t : Table K sort) (k : K) : Option (Cursor K sort) := t.seek fun r => decide (r.1 = k)

def setRange (t : Table K sort) (k : K) : Option (Cursor K sort) := t.seek fun r => decide (k ≤ r.1)

/-- `MDB_GET_BOTH_RANGE`: the first value of `k` not below the search key. -/
def getBothRange (t : Table K sort) (k : K) (notBelow : V → Bool) : Option (Cursor K sort) :=
  t.seek fun r => decide (r.1 = k) && notBelow r.2

/-- `MDB_GET_BOTH`, as a position. -/
def getBoth (t : Table K sort) (k : K) (s : S) : Option (Cursor K sort) :=
  t.seek fun r => decide (r.1 = k) && decide (sort r.2 = s)

/-- The values MDB_GET_BOTH_RANGE and then MDB_NEXT_DUP return, where nothing is deleted. -/
def dupsFrom (t : Table K sort) (k : K) (notBelow : V → Bool) : List V := (t.dups k).dropWhile fun v => !notBelow v

def eachFrom (t : Table K sort) (k : K) (notBelow : V → Bool) (body : σ → K × V → Except ε (σ × Bool))
    (s : σ) : Except ε (σ × Table K sort) :=
  match t.getBothRange k notBelow with
  | none => .ok (s, t)
  | some c => c.walk Cursor.nextDup body t.rows.length s

def eachDup (t : Table K sort) (k : K) (body : σ → K × V → Except ε (σ × Bool)) (s : σ) :
    Except ε (σ × Table K sort) :=
  match t.set k with
  | none => .ok (s, t)
  | some c => c.walk Cursor.nextDup body t.rows.length s

def eachKeyFrom (t : Table K sort) (k : K) (body : σ → K × V → Except ε (σ × Bool)) (s : σ) :
    Except ε (σ × Table K sort) :=
  match t.setRange k with
  | none => .ok (s, t)
  | some c => c.walk (fun c => c.nextDup <|> c.nextNodup) body t.rows.length s

def eachRow (t : Table K sort) (body : σ → K × V → Except ε (σ × Bool)) (s : σ) :
    Except ε (σ × Table K sort) :=
  match t.first with
  | none => .ok (s, t)
  | some c => c.walk Cursor.next body t.rows.length s

def trimBack (t : Table K sort) (keep : V → Bool) : Table K sort :=
  match t.last with
  | none => t
  | some c => c.trim keep t.rows.length

end Table

/-! ## A walk visits a run of rows -/

/-- The body over a list of rows, the deletions left out. -/
def visit {R σ ε : Type} (body : σ → R → Except ε (σ × Bool)) (s : σ) (rows : List R) : Except ε σ :=
  rows.foldlM (fun s r => (·.1) <$> body s r) s

@[simp] theorem visit_nil {R σ ε : Type} (body : σ → R → Except ε (σ × Bool)) (s : σ) : visit body s [] = .ok s := rfl

theorem visit_cons {R σ ε : Type} (body : σ → R → Except ε (σ × Bool)) (s : σ) (r : R) (rows : List R) :
    visit body s (r :: rows) = body s r >>= fun x => visit body x.1 rows := by
  simp only [visit, List.foldlM_cons, map_eq_pure_bind, bind_assoc, pure_bind]

/-- Which rows the body deletes, whatever its state. -/
def Deletes {R σ ε : Type} (body : σ → R → Except ε (σ × Bool)) (p : R → Bool) : Prop :=
  ∀ s r s' b, body s r = .ok (s', b) → b = p r

namespace Cursor

variable {sort : V → S} {σ ε : Type}

theorem key?_of_row {c : Cursor K sort} (hg : c.gone = none) {r : K × V} (h : c.row? = some r) :
    c.key? = some r.1 := by
  simp [key?, hg, h]

theorem key?_del {c : Cursor K sort} {r : K × V} (h : c.row? = some r) : c.del.key? = some r.1 := by
  simp [key?, del, h]

theorem ahead_del {c : Cursor K sort} {r : K × V} (h : c.row? = some r) : c.del.ahead = c.pos := by
  simp [ahead, del, h]

theorem ahead_of_row {c : Cursor K sort} (hg : c.gone = none) : c.ahead = c.pos + 1 := by
  simp [ahead, hg]

/-- A move that goes one row ahead while the row there satisfies `on`. -/
def Steps (move : Cursor K sort → Option (Cursor K sort)) (on : K × V → Bool) : Prop :=
  ∀ (c : Cursor K sort) (r : K × V), c.key? = some r.1 → on r = true →
    move c = match c.table.rows[c.ahead]? with
      | some x => if on x then some ⟨c.table, c.ahead, none⟩ else none
      | none => none

theorem goto_eq {c : Cursor K sort} {i : Nat} :
    c.goto i = match c.table.rows[i]? with | some _ => some ⟨c.table, i, none⟩ | none => none := by
  unfold goto
  by_cases h : i < c.table.rows.length
  · rw [if_pos h, List.getElem?_eq_getElem h]
  · rw [if_neg h, List.getElem?_eq_none (by omega)]

theorem steps_next : Steps (next : Cursor K sort → _) (fun _ => true) := by
  intro c r _ _
  rw [next, goto_eq]
  rcases c.table.rows[c.ahead]? with _ | x <;> rfl

theorem steps_nextDup (k : K) : Steps (nextDup : Cursor K sort → _) (fun r => decide (r.1 = k)) := by
  intro c r hk hr
  have hr := of_decide_eq_true hr
  rw [nextDup, hk, hr]
  rcases hx : c.table.rows[c.ahead]? with _ | x
  · rfl
  · by_cases e : k = x.1
    · simp [goto_eq, hx, e]
    · simp [e, Ne.symm e]

theorem steps_nextDup_or_nodup :
    Steps (fun c : Cursor K sort => c.nextDup <|> c.nextNodup) (fun _ => true) := by
  intro c r hk _
  rcases hx : c.table.rows[c.ahead]? with _ | x
  · have hlen : c.table.rows.length ≤ c.ahead := List.getElem?_eq_none_iff.mp hx
    simp [nextDup, nextNodup, hx, List.drop_eq_nil_of_le hlen, goto_eq]
  · obtain ⟨hlt, hget⟩ := List.getElem?_eq_some_iff.mp hx
    by_cases e : r.1 = x.1
    · simp [nextDup, hx, hk, e, goto_eq]
    · simp [nextDup, nextNodup, hx, hk, e, goto_eq, List.drop_eq_getElem_cons hlt, hget]

section Walk

variable {c : Cursor K sort} {r : K × V} {rs : List (K × V)}

theorem row?_of_drop (hdrop : c.table.rows.drop c.pos = r :: rs) : c.row? = some r := by
  rw [row?, ← List.head?_drop, hdrop]
  rfl

theorem drop_succ_of_drop (hdrop : c.table.rows.drop c.pos = r :: rs) : c.table.rows.drop (c.pos + 1) = rs := by
  rw [← List.drop_drop, hdrop]
  rfl

theorem pos_lt_of_drop (hdrop : c.table.rows.drop c.pos = r :: rs) : c.pos < c.table.rows.length :=
  (List.getElem?_eq_some_iff.mp (row?_of_drop hdrop)).1

theorem rows_del : c.del.table.rows = c.table.rows.take c.pos ++ c.table.rows.drop (c.pos + 1) :=
  List.eraseIdx_eq_take_drop_succ _ _

theorem split_after (gone : Bool) (hg : c.gone = none) (hdrop : c.table.rows.drop c.pos = r :: rs) :
    let c' := if gone then c.del else c
    c'.key? = some r.1 ∧ c'.table.rows.take c'.ahead = c.table.rows.take c.pos ++ (if gone then [] else [r]) ∧
      c'.table.rows.drop c'.ahead = rs := by
  have hrow := row?_of_drop hdrop
  have hnext := drop_succ_of_drop hdrop
  cases gone with
  | true =>
    have hlen : (c.table.rows.take c.pos).length = c.pos := List.length_take_of_le (pos_lt_of_drop hdrop).le
    refine ⟨key?_del hrow, ?_, ?_⟩
    · simp only [if_true, ahead_del hrow, rows_del, List.append_nil]
      rw [List.take_append_of_le_length hlen.ge, List.take_of_length_le hlen.le]
    · simp only [if_true, ahead_del hrow, rows_del]
      rw [List.drop_append_of_le_length hlen.ge, List.drop_of_length_le hlen.le, List.nil_append, hnext]
  | false =>
    refine ⟨key?_of_row hg hrow, ?_, ?_⟩
    · simp only [Bool.false_eq_true, if_false, ahead_of_row hg]
      rw [List.take_add_one, show c.table.rows[c.pos]? = some r from hrow]
      rfl
    · simp only [Bool.false_eq_true, if_false, ahead_of_row hg]
      exact hnext

theorem walk_succ {move : Cursor K sort → Option (Cursor K sort)} {body : σ → K × V → Except ε (σ × Bool)}
    {p : K × V → Bool} (hp : Deletes body p) (hrow : c.row? = some r) (n : Nat) (s : σ) :
    walk move body (n + 1) s c = body s r >>= fun x =>
      match move (if p r then c.del else c) with
      | none => .ok (x.1, (if p r then c.del else c).table)
      | some c' => walk move body n x.1 c' := by
  simp only [walk, hrow]
  rcases hbody : body s r with e | ⟨s', b⟩
  · rfl
  · obtain rfl := hp _ _ _ _ hbody
    rfl

/-- A walk whose move follows `on`, started at the head of a run of such rows, visits
    the run in order and leaves the rows around it alone. -/
theorem walk_run {move : Cursor K sort → Option (Cursor K sort)} {on : K × V → Bool} (hm : Steps move on)
    {body : σ → K × V → Except ε (σ × Bool)} {p : K × V → Bool} (hp : Deletes body p) (rest : List (K × V))
    (hrest : ∀ x ∈ rest.head?, on x = false) : ∀ (n : Nat) (run : List (K × V)) (c : Cursor K sort),
      run ≠ [] → run.length ≤ n → c.gone = none → c.table.rows.drop c.pos = run ++ rest → (∀ r ∈ run, on r = true) →
      ∃ t : Table K sort, t.rows = c.table.rows.take c.pos ++ run.filter (fun r => !p r) ++ rest ∧
        ∀ s, walk move body n s c = visit body s run >>= fun s' => .ok (s', t) := by
  intro n
  induction n with
  | zero =>
    intro run c hne hlen
    exact absurd (List.eq_nil_of_length_eq_zero (by omega)) hne
  | succ n ih =>
    intro run c hne hlen hg hdrop hon
    obtain ⟨r, run, rfl⟩ := List.exists_cons_of_ne_nil hne
    obtain ⟨hkey, htake, hnext⟩ := split_after (p r) hg hdrop
    have hwalk := fun s => @walk_succ _ _ _ _ _ _ _ _ c r move body p hp (row?_of_drop hdrop) n s
    have hmove := hm _ r hkey (hon r List.mem_cons_self)
    rw [← List.head?_drop, hnext] at hmove
    cases run with
    | nil =>
      have hstop : move (if p r then c.del else c) = none := by
        rw [hmove]
        cases rest with
        | nil => rfl
        | cons x rest => simp [hrest x rfl]
      refine ⟨(if p r then c.del else c).table, ?_, fun s => ?_⟩
      · conv_lhs => rw [← List.take_append_drop (if p r then c.del else c).ahead (if p r then c.del else c).table.rows]
        rw [htake, hnext]
        cases hb : p r <;> simp [hb]
      · rw [hwalk, hstop]
        simp only [visit_cons, visit_nil, bind_assoc]
        rfl
    | cons x run =>
      have hgo : move (if p r then c.del else c) =
          some ⟨(if p r then c.del else c).table, (if p r then c.del else c).ahead, none⟩ := by
        rw [hmove]
        simp [hon x (List.mem_cons_of_mem _ List.mem_cons_self)]
      obtain ⟨t, ht, hw⟩ := ih (x :: run) ⟨(if p r then c.del else c).table, (if p r then c.del else c).ahead, none⟩
        (List.cons_ne_nil _ _) (Nat.le_of_succ_le_succ hlen) rfl hnext fun y hy => hon y (List.mem_cons_of_mem _ hy)
      refine ⟨t, ?_, fun s => ?_⟩
      · rw [ht]
        show (if p r then c.del else c).table.rows.take (if p r then c.del else c).ahead ++ _ ++ _ = _
        rw [htake]
        cases hb : p r <;> simp [hb]
      · rw [hwalk, hgo, visit_cons]
        simp only [bind_assoc, hw]

end Walk

end Cursor

/-! ## What the loops do -/

namespace Table

variable {sort : V → S} {σ ε : Type}

theorem seek_none {t : Table K sort} {p : K × V → Bool} (h : t.seek p = none) : ∀ r ∈ t, p r = false := by
  simpa [seek, List.findIdx?_eq_none_iff] using h

/-- A found position splits the rows: none before it satisfies `p`, the one at it does. -/
theorem seek_some {t : Table K sort} {p : K × V → Bool} {c : Cursor K sort} (h : t.seek p = some c) :
    c.table = t ∧ c.gone = none ∧ (∀ r ∈ t.rows.take c.pos, p r = false) ∧
      ∃ r rs, t.rows.drop c.pos = r :: rs ∧ p r = true := by
  obtain ⟨i, hi, rfl⟩ := Option.map_eq_some_iff.mp h
  obtain ⟨hlt, hpi, hbefore⟩ := List.findIdx?_eq_some_iff_getElem.mp hi
  refine ⟨rfl, rfl, fun r hr => ?_, t.rows[i], t.rows.drop (i + 1), List.drop_eq_getElem_cons hlt, hpi⟩
  obtain ⟨j, hj, rfl⟩ := List.mem_iff_getElem.mp hr
  have hji : j < i := (List.length_take_le _ _).trans_lt' hj
  rw [List.getElem_take]
  simpa using hbefore j hji

/-- A walk from a found position: `q` says which rows of the table it visits. -/
theorem seek_walk {t : Table K sort} {p q on : K × V → Bool} {c : Cursor K sort} (hc : t.seek p = some c)
    {move : Cursor K sort → Option (Cursor K sort)} (hm : Cursor.Steps move on)
    {body : σ → K × V → Except ε (σ × Bool)} {d : K × V → Bool} (hd : Deletes body d)
    {run rest : List (K × V)} (hdrop : t.rows.drop c.pos = run ++ rest) (hne : run ≠ [])
    (hon : ∀ r ∈ run, on r = true) (hrest : ∀ x ∈ rest.head?, on x = false)
    (hq0 : ∀ r ∈ t.rows.take c.pos, q r = false) (hq1 : ∀ r ∈ run, q r = true) (hq2 : ∀ r ∈ rest, q r = false) (s : σ) :
    c.walk move body t.rows.length s =
      visit body s (t.rows.filter q) >>= fun s' => .ok (s', t.filter fun r => !(q r && d r)) := by
  obtain ⟨ht, hg, -, -⟩ := seek_some hc
  have hlen : run.length ≤ t.rows.length := by
    have := congrArg List.length hdrop
    rw [List.length_drop, List.length_append] at this
    omega
  obtain ⟨t', hrows, hw⟩ := Cursor.walk_run hm hd rest hrest t.rows.length run c hne hlen hg (by rw [ht]; exact hdrop) hon
  have hsplit : t.rows = t.rows.take c.pos ++ (run ++ rest) := by
    rw [← hdrop, List.take_append_drop]
  have hvis : t.rows.filter q = run := by
    rw [hsplit, List.filter_append, List.filter_append, List.filter_eq_nil_iff.mpr (by simpa using hq0),
      List.filter_eq_self.mpr hq1, List.filter_eq_nil_iff.mpr (by simpa using hq2)]
    simp
  have hkeep : t' = t.filter fun r => !(q r && d r) := by
    apply eq_of_rows
    rw [hrows, ht]
    change _ = t.rows.filter _
    conv_rhs => rw [hsplit]
    rw [List.filter_append, List.filter_append, List.append_assoc]
    congr 1
    · exact (List.filter_eq_self.mpr fun r hr => by simp [hq0 r hr]).symm
    congr 1
    · exact List.filter_congr fun r hr => by simp [hq1 r hr]
    · exact (List.filter_eq_self.mpr fun r hr => by simp [hq2 r hr]).symm
  rw [hw s, hvis, hkeep]

/-- The rows of `k` from a position on are those before the next key. -/
theorem drop_dups {t : Table K sort} {i : Nat} {r : K × V} {rs : List (K × V)} (h : t.rows.drop i = r :: rs) :
    ∃ run rest, t.rows.drop i = run ++ rest ∧ run.head? = some r ∧ (∀ x ∈ run, x.1 = r.1) ∧
      (∀ x ∈ rest, r.1 < x.1) ∧ ∀ x ∈ run, x = r ∨ sort r.2 < sort x.2 := by
  have hs : (t.rows.drop i).Pairwise fun a b => rowKey sort a < rowKey sort b :=
    t.sorted.sublist (List.drop_sublist _ _)
  rw [h] at hs ⊢
  rw [List.pairwise_cons] at hs
  refine ⟨r :: rs.takeWhile (fun x => decide (x.1 = r.1)), rs.dropWhile (fun x => decide (x.1 = r.1)),
    by simp [List.takeWhile_append_dropWhile], rfl, ?_, ?_, ?_⟩
  · intro x hx
    rcases List.mem_cons.mp hx with rfl | hx
    · rfl
    · simpa using List.mem_takeWhile_imp hx
  · intro x hx
    have hge : ∀ y ∈ rs, r.1 ≤ y.1 := fun y hy => by
      rcases rowKey_lt.mp (hs.1 y hy) with h | h
      · exact h.le
      · exact h.1.le
    -- the first row of the rest has a larger key, and the keys only grow
    rcases hd : rs.dropWhile (fun x => decide (x.1 = r.1)) with _ | ⟨y, ys⟩
    · rw [hd] at hx; cases hx
    · have hy : ¬ decide (y.1 = r.1) = true := by
        have := List.head?_dropWhile_not (fun x => decide (x.1 = r.1)) rs
        rw [hd] at this
        simpa using this
      have hmem : ∀ z ∈ y :: ys, z ∈ rs := fun z hz => by
        rw [← hd] at hz; exact (List.dropWhile_sublist _).subset hz
      have hylt : r.1 < y.1 := lt_of_le_of_ne (hge y (hmem y (by simp))) (by simpa [eq_comm] using hy)
      rw [hd] at hx
      rcases List.mem_cons.mp hx with rfl | hx
      · exact hylt
      · have hs2 : (y :: ys).Pairwise fun a b => rowKey sort a < rowKey sort b := by
          rw [← hd]; exact hs.2.sublist (List.dropWhile_sublist _)
        rcases rowKey_lt.mp ((List.pairwise_cons.mp hs2).1 x hx) with h | h
        · exact hylt.trans h
        · rw [← h.1]; exact hylt
  · intro x hx
    rcases List.mem_cons.mp hx with rfl | hx
    · exact Or.inl rfl
    · refine Or.inr ?_
      have hk : x.1 = r.1 := by simpa using List.mem_takeWhile_imp hx
      rcases rowKey_lt.mp (hs.1 x ((List.takeWhile_sublist _).subset hx)) with h | h
      · rw [hk] at h; exact absurd h (lt_irrefl _)
      · exact h.2

/-- The last value of a key, from any row of it, and the move to the next key. -/
theorem lastDup_run {c : Cursor K sort} {r : K × V} (hg : c.gone = none) (hr : c.row? = some r) :
    ∃ run rest last, c.table.rows.drop c.pos = run ++ rest ∧ last ∈ run ∧ c.lastDup.row? = some last ∧
      (∀ x ∈ run, x.1 = r.1 ∧ sort x.2 ≤ sort last.2) ∧ (∀ x ∈ rest, r.1 < x.1) ∧
      c.lastDup.nextNodup = if rest = [] then none else some ⟨c.table, c.pos + run.length, none⟩ := by
  obtain ⟨hpos, hget⟩ := List.getElem?_eq_some_iff.mp (show c.table.rows[c.pos]? = some r from hr)
  have hdrop : c.table.rows.drop c.pos = r :: c.table.rows.drop (c.pos + 1) := by
    rw [List.drop_eq_getElem_cons hpos, hget]
  obtain ⟨run, rest, hsplit, hhead, hkey, hrest, -⟩ := drop_dups hdrop
  obtain ⟨run', rfl⟩ : ∃ run', run = r :: run' := by
    cases run with
    | nil => cases hhead
    | cons x run' => exact ⟨run', by rw [Option.some.inj hhead]⟩
  have hrest0 : rest.takeWhile (fun x => decide (some r.1 = some x.1)) = [] := by
    cases rest with
    | nil => rfl
    | cons x xs => simp [(hrest x List.mem_cons_self).ne]
  have hafter : c.table.rows.drop (c.pos + 1) = run' ++ rest := by
    rw [hdrop, List.cons_append] at hsplit
    exact (List.cons.inj hsplit).2
  have htake : (c.table.rows.drop (c.pos + 1)).takeWhile (fun x => decide (c.key? = some x.1)) = run' := by
    rw [Cursor.key?_of_row hg hr, hafter, List.takeWhile_append_of_pos fun x hx => by
      simp [hkey x (List.mem_cons_of_mem _ hx)], hrest0, List.append_nil]
  have hlastpos : c.lastDup = ⟨c.table, c.pos + run'.length, none⟩ := by
    unfold Cursor.lastDup; rw [htake]
  have hlast : c.lastDup.row? = some ((r :: run').getLast (by simp)) := by
    rw [hlastpos]
    show c.table.rows[c.pos + run'.length]? = _
    rw [← List.getElem?_drop, hsplit, List.getElem?_append_left (by simp), List.getLast_eq_getElem,
      List.getElem?_eq_getElem (by simp)]
    simp
  refine ⟨r :: run', rest, (r :: run').getLast (by simp), hsplit, List.getLast_mem _, hlast, fun x hx => ?_, hrest, ?_⟩
  · refine ⟨hkey x hx, ?_⟩
    have hs : (r :: run').Pairwise fun a b => rowKey sort a < rowKey sort b := by
      refine c.table.sorted.sublist (List.Sublist.trans ?_ (List.drop_sublist c.pos _))
      rw [hsplit]; exact List.sublist_append_left _ _
    rw [← List.dropLast_append_getLast (List.cons_ne_nil r run'), List.mem_append, List.mem_singleton] at hx
    rcases hx with hx | hx
    · rw [← List.dropLast_append_getLast (List.cons_ne_nil r run'), List.pairwise_append] at hs
      rcases rowKey_lt.mp (hs.2.2 x hx _ (List.mem_singleton_self _)) with h | h
      · rw [hkey x (List.dropLast_subset _ hx), hkey _ (List.getLast_mem _)] at h
        exact absurd h (lt_irrefl _)
      · exact h.2.le
    · rw [hx]
  · have hkl : c.lastDup.key? = some r.1 := by
      rw [Cursor.key?_of_row (by rw [hlastpos]) hlast, hkey _ (List.getLast_mem _)]
    have hrestdrop : c.table.rows.drop (c.pos + run'.length + 1) = rest := by
      rw [show c.pos + run'.length + 1 = c.pos + 1 + run'.length by omega, ← List.drop_drop, hafter]
      simp
    unfold Cursor.nextNodup
    rw [hkl, Cursor.ahead_of_row (by rw [hlastpos]), hlastpos]
    show Cursor.goto _ (c.pos + run'.length + 1 + ((c.table.rows.drop (c.pos + run'.length + 1)).takeWhile _).length) = _
    rw [hrestdrop, hrest0]
    unfold Cursor.goto
    simp only [List.length_nil, Nat.add_zero]
    have hlen := congrArg List.length hrestdrop
    rw [List.length_drop] at hlen
    by_cases e : rest = []
    · subst e
      simp only [List.length_nil] at hlen
      rw [if_pos rfl, if_neg (by omega)]
    · have : 0 < rest.length := List.length_pos_of_ne_nil e
      rw [if_neg e, if_pos (by omega)]
      simp [Nat.add_assoc]

/-- `notBelow` cuts the values of a key once: it holds from some value on. -/
def UpClosed (sort : V → S) (p : V → Bool) : Prop := ∀ v w, sort v < sort w → p v = true → p w = true

theorem eachFrom_eq (t : Table K sort) (k : K) {notBelow : V → Bool} (hup : UpClosed sort notBelow)
    {body : σ → K × V → Except ε (σ × Bool)} {d : K × V → Bool} (hd : Deletes body d) (s : σ) :
    t.eachFrom k notBelow body s =
      visit body s (t.rows.filter fun r => decide (r.1 = k) && notBelow r.2) >>= fun s' =>
        .ok (s', t.filter fun r => !(decide (r.1 = k) && notBelow r.2 && d r)) := by
  unfold eachFrom
  rcases hc : t.getBothRange k notBelow with _ | c
  · have hnone := seek_none hc
    rw [List.filter_eq_nil_iff.mpr (by simpa using hnone), filter_eq_self fun r hr => by simp [hnone r hr]]
    rfl
  · obtain ⟨-, -, hbefore, r, rs, hdrop, hr⟩ := seek_some hc
    obtain ⟨run, rest, hsplit, hhead, hkey, hrest, hsort⟩ := drop_dups hdrop
    simp only [Bool.and_eq_true, decide_eq_true_eq] at hr
    refine seek_walk hc (Cursor.steps_nextDup k) hd hsplit (by intro e; simp [e] at hhead)
      (fun x hx => by simp [hkey x hx, hr.1]) (fun x hx => ?_) hbefore (fun x hx => ?_) (fun x hx => ?_) s
    · have := hrest x (List.mem_of_mem_head? hx)
      simp only [decide_eq_false_iff_not]
      rw [← hr.1]; exact this.ne'
    · rw [hkey x hx, hr.1]
      rcases hsort x hx with rfl | hlt
      · simp [hr.2]
      · simp [hup _ _ hlt hr.2]
    · have := hrest x hx
      rw [hr.1] at this
      simp [this.ne']

theorem eachDup_eq (t : Table K sort) (k : K) {body : σ → K × V → Except ε (σ × Bool)} {d : K × V → Bool}
    (hd : Deletes body d) (s : σ) :
    t.eachDup k body s = visit body s (t.rows.filter fun r => decide (r.1 = k)) >>= fun s' =>
      .ok (s', t.filter fun r => !(decide (r.1 = k) && d r)) := by
  have hup : UpClosed sort fun _ => true := fun _ _ _ _ => rfl
  have h := eachFrom_eq t k hup hd s
  simpa only [eachFrom, eachDup, getBothRange, set, Bool.and_true] using h

theorem eachRow_eq (t : Table K sort) {body : σ → K × V → Except ε (σ × Bool)} {d : K × V → Bool}
    (hd : Deletes body d) (s : σ) :
    t.eachRow body s = visit body s t.rows >>= fun s' => .ok (s', t.filter fun r => !d r) := by
  rcases hrows : t.rows with _ | ⟨r, rs⟩
  · have ht : t.filter (fun r => !d r) = t := filter_eq_self fun r hr => by
      rw [← mem_rows, hrows] at hr; cases hr
    simp [eachRow, first, Cursor.goto, hrows, ht]; rfl
  · have hc : t.seek (fun _ => true) = some ⟨t, 0, none⟩ := by simp [seek, hrows, List.findIdx?_cons]
    have hf : t.first = some ⟨t, 0, none⟩ := by simp [first, Cursor.goto, hrows]
    rw [eachRow, hf]
    have hdrop : t.rows.drop 0 = (r :: rs) ++ [] := by simp [hrows]
    have h := seek_walk (q := fun _ => true) hc Cursor.steps_next hd hdrop
      (by simp) (fun _ _ => rfl) (fun _ hx => by cases hx) (fun _ hx => by simp at hx) (fun _ _ => rfl)
      (fun _ hx => by cases hx) s
    simpa [hrows] using h

theorem eachKeyFrom_eq (t : Table K sort) (k : K) {body : σ → K × V → Except ε (σ × Bool)} {d : K × V → Bool}
    (hd : Deletes body d) (s : σ) :
    t.eachKeyFrom k body s = visit body s (t.rows.filter fun r => decide (k ≤ r.1)) >>= fun s' =>
      .ok (s', t.filter fun r => !(decide (k ≤ r.1) && d r)) := by
  unfold eachKeyFrom
  rcases hc : t.setRange k with _ | c
  · have hnone := seek_none hc
    rw [List.filter_eq_nil_iff.mpr (by simpa using hnone), filter_eq_self fun r hr => by simp [hnone r hr]]
    rfl
  · obtain ⟨-, -, hbefore, r, rs, hdrop, hr⟩ := seek_some hc
    have hs : (t.rows.drop c.pos).Pairwise fun a b => rowKey sort a < rowKey sort b :=
      t.sorted.sublist (List.drop_sublist _ _)
    rw [hdrop, List.pairwise_cons] at hs
    have hdrop' : t.rows.drop c.pos = (r :: rs) ++ [] := by simp [hdrop]
    refine seek_walk hc Cursor.steps_nextDup_or_nodup hd hdrop' (by simp)
      (fun _ _ => rfl) (fun _ hx => by cases hx) hbefore (fun x hx => ?_) (fun _ hx => by cases hx) s
    simp only [decide_eq_true_eq] at hr ⊢
    rcases List.mem_cons.mp hx with rfl | hx
    · exact hr
    · rcases rowKey_lt.mp (hs.1 x hx) with h | h
      · exact hr.trans h.le
      · rw [← h.1]; exact hr

/-! ## The backward walk -/

/-- `keep` cuts the values of a key once: it holds up to some value. -/
def DownClosed (sort : V → S) (p : V → Bool) : Prop := ∀ v w, sort v < sort w → p w = true → p v = true

end Table

namespace Cursor

variable {sort : V → S}

theorem skipped_key {t : Table K sort} {i : Nat} {k : K} :
    let skip := ((t.rows.take i).reverse.takeWhile fun r => decide (some k = some r.1)).length
    ∀ x ∈ (t.rows.take i).drop (i - skip), x.1 = k := by
  intro skip x hx
  set l := t.rows.take i with hl
  have hle : skip ≤ l.length := by
    have := (List.takeWhile_sublist (l := l.reverse) fun r => decide (some k = some r.1)).length_le
    rwa [List.length_reverse] at this
  have hli : l.length ≤ i := List.length_take_le _ _
  have hx' : x ∈ l.drop (l.length - skip) := (List.drop_sublist_drop_left l (by omega)).subset hx
  have hrev : x ∈ l.reverse.take skip := by
    rw [List.take_reverse]; exact List.mem_reverse.mpr hx'
  have hw : l.reverse.take skip = l.reverse.takeWhile fun r => decide (some k = some r.1) :=
    (List.prefix_iff_eq_take.mp (List.takeWhile_prefix _)).symm
  rw [hw] at hrev
  have := List.mem_takeWhile_imp hrev
  simpa [eq_comm] using this

theorem prevNodup_cases {c : Cursor K sort} {k : K} (hkey : c.key? = some k) (hpos : c.pos < c.table.rows.length) :
    (c.prevNodup = none ∧ ∀ x ∈ c.table.rows.take c.pos, x.1 = k) ∨
      ∃ i < c.pos, c.prevNodup = some ⟨c.table, i, none⟩ ∧ ∀ x ∈ (c.table.rows.take c.pos).drop (i + 1), x.1 = k := by
  have hskipped := @skipped_key K V S _ _ sort c.table c.pos k
  unfold prevNodup
  rw [hkey]
  dsimp only at hskipped ⊢
  split
  · rename_i hle
    rw [Nat.sub_eq_zero_of_le hle] at hskipped
    exact Or.inl ⟨rfl, hskipped⟩
  · rename_i hlt
    refine Or.inr ⟨_, ?_, if_pos ?_, ?_⟩
    · omega
    · omega
    · rwa [Nat.sub_add_cancel (by omega)]

theorem prev_del {c : Cursor K sort} (hpos : c.pos < c.table.rows.length) :
    c.del.prev = if c.pos = 0 then none else some ⟨c.del.table, c.pos - 1, none⟩ := by
  show (if c.pos = 0 then none else c.del.goto (c.pos - 1)) = _
  by_cases h0 : c.pos = 0
  · rw [if_pos h0, if_pos h0]
  · have hlt : c.pos - 1 < c.del.table.rows.length := by
      rw [rows_del, List.length_append, List.length_take_of_le hpos.le]
      omega
    rw [if_neg h0, if_neg h0, goto, if_pos hlt]

theorem kept_before {c : Cursor K sort} {keep : V → Bool} (hk : Table.DownClosed sort keep)
    (hpos : c.pos < c.table.rows.length) (hkeep : keep c.table.rows[c.pos].2 = true) :
    ∀ x ∈ c.table.rows.take (c.pos + 1), x.1 = c.table.rows[c.pos].1 → keep x.2 = true := by
  intro x hx hxk
  rw [List.take_add_one, List.getElem?_eq_getElem hpos] at hx
  rcases List.mem_append.mp hx with hx | hx
  · have hlt : rowKey sort x < rowKey sort c.table.rows[c.pos] := by
      have hs := c.table.sorted
      rw [← List.take_append_drop c.pos c.table.rows, List.pairwise_append] at hs
      exact hs.2.2 x hx _ (by rw [List.drop_eq_getElem_cons hpos]; exact List.mem_cons_self)
    rcases rowKey_lt.mp hlt with h | h
    · rw [hxk] at h
      exact absurd h (lt_irrefl _)
    · exact hk _ _ h.2 hkeep
  · rw [List.mem_singleton.mp hx]
    exact hkeep

/-- A filter that takes nothing between two places may end at either. -/
theorem filter_take_drop {R : Type} {p : R → Bool} {l : List R} {i j : Nat} (hij : i ≤ j)
    (h : ∀ x ∈ (l.take j).drop i, p x = true) : (l.take i).filter p ++ l.drop i = (l.take j).filter p ++ l.drop j := by
  have htake : l.take j = l.take i ++ (l.take j).drop i := by
    conv_lhs => rw [← List.take_append_drop i (l.take j), List.take_take, Nat.min_eq_left hij]
  have hdrop : l.drop i = (l.take j).drop i ++ l.drop j := by
    rw [List.drop_take]
    conv_lhs => rw [← List.take_append_drop (j - i) (l.drop i), List.drop_drop, Nat.add_sub_cancel' hij]
  conv_rhs => rw [htake]
  rw [List.filter_append, List.filter_eq_self.mpr h, hdrop, List.append_assoc]

theorem trim_eq {keep : V → Bool} (hk : Table.DownClosed sort keep) : ∀ (n : Nat) (c : Cursor K sort),
    c.gone = none → c.pos < c.table.rows.length → c.pos < n →
      (c.trim keep n).rows =
        (c.table.rows.take (c.pos + 1)).filter (fun r => keep r.2) ++ c.table.rows.drop (c.pos + 1) := by
  intro n
  induction n with
  | zero => intro c _ _ h; omega
  | succ n ih =>
    intro c hg hpos hn
    have hrow : c.row? = some c.table.rows[c.pos] := List.getElem?_eq_getElem hpos
    have htake : c.table.rows.take (c.pos + 1) = c.table.rows.take c.pos ++ [c.table.rows[c.pos]] := by
      rw [List.take_add_one, List.getElem?_eq_getElem hpos]
      rfl
    simp only [trim, hrow]
    split
    · rename_i hkeep
      -- the cursor is next where the last row before those of its key is
      have hkept : ∀ i, (∀ x ∈ (c.table.rows.take c.pos).drop i, x.1 = c.table.rows[c.pos].1) →
          ∀ x ∈ (c.table.rows.take (c.pos + 1)).drop i, keep x.2 = true := by
        intro i hsame x hx
        refine kept_before hk hpos hkeep x (List.mem_of_mem_drop hx) ?_
        rw [htake, List.drop_append] at hx
        rcases List.mem_append.mp hx with hx | hx
        · exact hsame x hx
        · rw [List.mem_singleton.mp (List.mem_of_mem_drop hx)]
      rcases prevNodup_cases (key?_of_row hg hrow) hpos with ⟨hprev, hsame⟩ | ⟨i, hi, hprev, hsame⟩
      · simp only [hprev]
        exact filter_take_drop (Nat.zero_le _) (hkept 0 hsame)
      · simp only [hprev]
        rw [ih _ rfl (hi.trans hpos) (show i < n by omega)]
        exact filter_take_drop (Nat.succ_le_succ hi.le) (hkept (i + 1) hsame)
    · rename_i hkeep
      have hlen : (c.table.rows.take c.pos).length = c.pos := List.length_take_of_le hpos.le
      have hnone : [c.table.rows[c.pos]].filter (fun r => keep r.2) = [] := by simp [hkeep]
      rw [htake, List.filter_append, hnone, List.append_nil, prev_del hpos]
      by_cases h0 : c.pos = 0
      · simp only [if_pos h0, rows_del]
        rw [h0]
        rfl
      · simp only [if_neg h0]
        rw [ih _ rfl (by rw [rows_del, List.length_append, hlen]; show c.pos - 1 < _; omega) (show c.pos - 1 < n by omega)]
        dsimp only
        rw [Nat.sub_add_cancel (Nat.pos_of_ne_zero h0), rows_del, List.take_append_of_le_length hlen.ge,
          List.take_of_length_le hlen.le, List.drop_append_of_le_length hlen.ge, List.drop_of_length_le hlen.le]
        rfl

end Cursor

theorem Table.trimBack_eq {sort : V → S} (t : Table K sort) {keep : V → Bool} (hk : Table.DownClosed sort keep) :
    t.trimBack keep = t.filter fun r => keep r.2 := by
  apply Table.eq_of_rows
  unfold trimBack last
  rcases hrows : t.rows with _ | ⟨r, rs⟩
  · simp [Table.filter, hrows]
  · simp only [List.isEmpty_cons, Bool.false_eq_true, if_false]
    have hlen : t.rows.length = rs.length + 1 := by rw [hrows]; rfl
    rw [Cursor.trim_eq hk _ _ rfl (by simp [hlen]) (by simp)]
    change (t.rows.take _).filter _ ++ t.rows.drop _ = t.rows.filter _
    rw [List.take_of_length_le (by simp [hlen]), List.drop_of_length_le (by simp [hlen]), List.append_nil]

end Lws.Lmdb
