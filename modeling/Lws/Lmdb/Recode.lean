/-
  Lws.Lmdb.Recode — changing what is in the values of a table and not how they are sorted.

  The operations look at keys and sort fields only, so it makes no difference whether the
  values are changed before or after one (`putAllAbsent_recode`, `get?_recode`,
  `dups_recode`). A walk does not look at what its body collects (`eachDup_map`).

  The values of a table may be read as values of another type that are sorted the same
  (`reread`); walking what was read is reading what the walk leaves (`eachFrom_reread`).
-/

import Lws.Lmdb.Cursor

namespace Lws.Lmdb

variable {K V S : Type} {sort : V → S}

/-- A change of values that keeps the sort fields. -/
structure Recode (sort : V → S) where
  apply : V → V
  sort_apply : ∀ v, sort (apply v) = sort v

namespace Recode

variable (f : Recode sort)

def row (r : K × V) : K × V := (r.1, f.apply r.2)

theorem rowKey_row (r : K × V) : rowKey sort (f.row r) = rowKey sort r :=
  rowKey_eq.mpr ⟨rfl, f.sort_apply r.2⟩

end Recode

/-- A row whose value is read as another. -/
def rereadRow {W : Type} (read : V → W) (r : K × V) : K × W := (r.1, read r.2)

theorem rowKey_reread {W : Type} {sort' : W → S} (read : V → W) (hread : ∀ v, sort' (read v) = sort v) (r : K × V) :
    rowKey sort' (rereadRow read r) = rowKey sort r :=
  congrArg (fun s => toLex (r.1, s)) (hread r.2)

theorem visit_reread {W σ ε : Type} (read : V → W) (body : σ → K × W → Except ε (σ × Bool)) (s : σ)
    (rows : List (K × V)) :
    visit body s (rows.map (rereadRow read)) = visit (fun s r => body s (rereadRow read r)) s rows :=
  List.foldlM_map ..

variable [LinearOrder K] [LinearOrder S]

namespace Table

def recode (t : Table K sort) (f : Recode sort) : Table K sort where
  rows := t.rows.map f.row
  sorted := by
    rw [List.pairwise_map]
    exact t.sorted.imp fun h => by rwa [f.rowKey_row, f.rowKey_row]

variable (t : Table K sort) (f : Recode sort)

theorem recode_idem (hf : ∀ v, f.apply (f.apply v) = f.apply v) : (t.recode f).recode f = t.recode f := by
  apply eq_of_rows
  show (t.rows.map f.row).map f.row = t.rows.map f.row
  rw [List.map_map]
  exact List.map_congr_left fun r _ => Prod.ext rfl (hf r.2)

theorem get?_recode (k : K) (s : S) : (t.recode f).get? k s = (t.get? k s).map f.apply := by
  show ((t.rows.map f.row).find? _).map _ = ((t.rows.find? _).map _).map _
  rw [List.find?_map, Option.map_map, Option.map_map]
  refine congrArg (Option.map _) (congrArg (List.find? · t.rows) (funext fun r => ?_))
  have hsort : sort (f.row r).2 = sort r.2 := f.sort_apply r.2
  show (decide ((f.row r).1 = k) && decide (sort (f.row r).2 = s)) = _
  rw [hsort]
  rfl

theorem dups_recode (k : K) : (t.recode f).dups k = (t.dups k).map f.apply := by
  show ((t.rows.map f.row).filter _).map _ = ((t.rows.filter _).map _).map _
  rw [List.filter_map, List.map_map, List.map_map]
  rfl

theorem insertRow_recode (r : K × V) (rows : List (K × V)) :
    insertRow sort (f.row r) (rows.map f.row) = (insertRow sort r rows).map f.row := by
  induction rows with
  | nil => rfl
  | cons x rows ih =>
    simp only [List.map_cons, insertRow, f.rowKey_row]
    split
    · rfl
    · split
      · rfl
      · rw [ih, List.map_cons]

theorem putAbsent_recode (k : K) (v : V) :
    (t.recode f).putAbsent k (f.apply v) = (t.putAbsent k v).recode f := by
  unfold putAbsent putNew
  rw [get?_recode, f.sort_apply, Option.isSome_map]
  split
  · rfl
  · exact eq_of_rows (insertRow_recode f (k, v) t.rows)

theorem putAllAbsent_recode (k : K) (values : List V) :
    (t.recode f).putAllAbsent k (values.map f.apply) = (t.putAllAbsent k values).recode f := by
  induction values generalizing t with
  | nil => rfl
  | cons v values ih =>
    show ((t.recode f).putAbsent k (f.apply v)).putAllAbsent k (values.map f.apply) = _
    rw [putAbsent_recode, ih]
    rfl

end Table

section Walk

variable {σ ε : Type} {g : σ → σ} {body body' : σ → K × V → Except ε (σ × Bool)}

theorem walk_map (hbody : ∀ s r, body' (g s) r = (body s r).map fun x => (g x.1, x.2))
    (move : Cursor K sort → Option (Cursor K sort)) (n : Nat) (s : σ) (c : Cursor K sort) :
    c.walk move body' n (g s) = (c.walk move body n s).map fun x => (g x.1, x.2) := by
  induction n generalizing s c with
  | zero => rfl
  | succ n ih =>
    unfold Cursor.walk
    split
    · rfl
    · rename_i r hr
      rw [hbody]
      rcases body s r with e | ⟨s', gone⟩
      · rfl
      · simp only [Except.map, bind, Except.bind]
        split
        · rfl
        · exact ih s' _

theorem eachDup_map (hbody : ∀ s r, body' (g s) r = (body s r).map fun x => (g x.1, x.2)) (t : Table K sort)
    (k : K) (s : σ) :
    t.eachDup k body' (g s) = (t.eachDup k body s).map fun x => (g x.1, x.2) := by
  unfold Table.eachDup
  split
  · rfl
  · exact walk_map hbody _ _ s _

end Walk

/-! ## Reading the values as others -/

section Reread

variable {W σ ε : Type} {sort' : W → S} (read : V → W) (hread : ∀ v, sort' (read v) = sort v)

def Table.reread (t : Table K sort) : Table K sort' where
  rows := t.rows.map (rereadRow read)
  sorted := by
    rw [List.pairwise_map]
    exact t.sorted.imp fun h => by rwa [rowKey_reread read hread, rowKey_reread read hread]

theorem Table.filter_reread (t : Table K sort) (p : K × W → Bool) :
    (t.reread read hread).filter p = (t.filter fun r => p (rereadRow read r)).reread read hread :=
  eq_of_rows List.filter_map

theorem Table.eachFrom_reread (t : Table K sort) (k : K) {notBelow : W → Bool} (hup : UpClosed sort' notBelow)
    {body : σ → K × W → Except ε (σ × Bool)} {d : K × W → Bool} (hd : Deletes body d) (s : σ) :
    (t.reread read hread).eachFrom k notBelow body s =
      (t.eachFrom k (fun v => notBelow (read v)) (fun s r => body s (rereadRow read r)) s).map
        fun x => (x.1, x.2.reread read hread) := by
  have hup' : UpClosed sort fun v => notBelow (read v) := by
    intro v w hlt
    apply hup
    rwa [hread, hread]
  have hd' : Deletes (fun s r => body s (rereadRow read r)) fun r => d (rereadRow read r) :=
    fun s r s' b h => hd s (rereadRow read r) s' b h
  have hrows : (t.reread read hread).rows.filter (fun r => decide (r.1 = k) && notBelow r.2)
      = (t.rows.filter fun r => decide (r.1 = k) && notBelow (read r.2)).map (rereadRow read) := List.filter_map
  rw [eachFrom_eq _ k hup hd, eachFrom_eq t k hup' hd', hrows, visit_reread, filter_reread]
  rcases visit (fun s r => body s (rereadRow read r)) s (t.rows.filter fun r => decide (r.1 = k) && notBelow (read r.2))
    with e | s' <;> rfl

end Reread

end Lws.Lmdb
