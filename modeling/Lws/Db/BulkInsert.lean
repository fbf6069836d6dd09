/-
  Lws.Db.BulkInsert — `bulk_insert`, and the loops that write through a buffer with it
  (`append_block_hashes`, `append_pow` and the height index of `storage::update` in
  `src/db/storage.cpp`).

  The library's call is a parameter (`MultiplePut`). Each is about one value at least, the one
  it stopped at included, so as many rounds as there are values are enough, whatever the
  library does (`bulkInsertWith_ends`). What is left when no call failed does not depend on
  where the calls stopped: it is `bulkInsert`.

  The three loops are one (`Lws.Buffered`): with a log beside it, each writes all that it
  pushes, once and in order, in batches no larger than its buffer (`bulk_writes`).
-/

import Lws.Buffered
import Lws.Lmdb.Multiple
import Lws.Db.PowProofs
import Lws.Db.UpdateProofs

namespace Lws.Db

open Lws.Lmdb Lws.Buffered

/-! ## The loop of `bulk_insert` -/

section Bulk

variable {K V S : Type} [LinearOrder K] [LinearOrder S] {sort : V → S}

/-- `bulk_insert`, with at most as many rounds as the fuel says. -/
def bulkInsertWith (lmdb : MultiplePut K sort) (noDup : Bool) (k : K) :
    Nat → List V → Table K sort → Option (Except Int (Table K sort))
  | _, [], t => some (.ok t)
  | 0, _ :: _, _ => none
  | n + 1, v :: vs, t =>
    let r := lmdb.put noDup k (v :: vs) t
    match r.ended with
    | .failed code => some (.error code)
    | _ => bulkInsertWith lmdb noDup k n ((v :: vs).drop r.consumed) r.table

theorem bulkInsert_drop {r : PutResult K sort} {noDup : Bool} {k : K} {vs : List V} {t : Table K sort}
    (h : r.Honest noDup k vs t) (hfailed : ∀ code, r.ended ≠ .failed code) :
    bulkInsert r.table k (vs.drop r.consumed) noDup = bulkInsert t k vs noDup := by
  cases noDup with
  | true =>
    rw [bulkInsert_noDup, bulkInsert_noDup, h.absent hfailed]
    conv_rhs => rw [← List.take_append_drop r.consumed vs]
    simp only [Table.putAllAbsent, List.foldl_append]
  | false =>
    obtain ⟨hall, htable⟩ := h.overwrites hfailed
    rw [bulkInsert_over, bulkInsert_over, hall, List.drop_length, htable]
    rfl

def Unfailing (lmdb : MultiplePut K sort) : Prop := ∀ noDup k vs t code, (lmdb.put noDup k vs t).ended ≠ .failed code

/-- The loop ends, with `bulkInsert` if no call failed. -/
theorem bulkInsertWith_ends (lmdb : MultiplePut K sort) (noDup : Bool) (k : K) {n : Nat} {vs : List V}
    (t : Table K sort) (hfuel : vs.length ≤ n) :
    ∃ r, bulkInsertWith lmdb noDup k n vs t = some r ∧ (∀ t', r = .ok t' → t' = bulkInsert t k vs noDup) ∧
      (Unfailing lmdb → ∃ t', r = .ok t') := by
  induction n generalizing vs t with
  | zero =>
    obtain rfl := List.length_eq_zero_iff.mp (Nat.le_zero.mp hfuel)
    exact ⟨.ok t, rfl, fun t' h => (Except.ok.inj h).symm, fun _ => ⟨t, rfl⟩⟩
  | succ n ih =>
    cases vs with
    | nil => exact ⟨.ok t, rfl, fun t' h => (Except.ok.inj h).symm, fun _ => ⟨t, rfl⟩⟩
    | cons v vs =>
      unfold bulkInsertWith
      dsimp only
      split
      · rename_i code hend
        refine ⟨.error code, rfl, fun _ h => ?_, fun h => absurd hend (h _ _ _ _ _)⟩
        cases h
      · rename_i hend
        have hfailed : ∀ code, (lmdb.put noDup k (v :: vs) t).ended ≠ .failed code := fun code h => hend code h
        have honest := lmdb.honest noDup k (v :: vs) t hfailed
        have hpos := honest.progress hfailed (List.cons_ne_nil v vs)
        have hrest : ((v :: vs).drop (lmdb.put noDup k (v :: vs) t).consumed).length ≤ n := by
          simp only [List.length_drop, List.length_cons] at hfuel ⊢
          omega
        obtain ⟨r, hrun, hok, hdone⟩ := ih _ hrest
        rw [bulkInsert_drop honest hfailed] at hok
        exact ⟨r, hrun, hok, hdone⟩

theorem bulkInsertWith_tablePut (noDup : Bool) (k : K) (vs : List V) (t : Table K sort) :
    bulkInsertWith tablePut noDup k vs.length vs t = some (.ok (bulkInsert t k vs noDup)) := by
  obtain ⟨r, hrun, hok, hdone⟩ := bulkInsertWith_ends tablePut noDup k t (le_refl vs.length)
  have hunfailing : Unfailing (tablePut : MultiplePut K sort) := by
    intro noDup k vs t code
    simp only [tablePut]
    split <;> simp
  obtain ⟨t', rfl⟩ := hdone hunfailing
  rw [hrun, hok t' rfl]

/-- A row with the sort fields of each value is there. -/
def Present (k : K) (vs : List V) (t : Table K sort) : Prop := ∀ v ∈ vs, ∃ w, (k, w) ∈ t ∧ sort w = sort v

theorem present_put {k : K} {s : S} {t : Table K sort} (v : V) (h : ∃ w, (k, w) ∈ t ∧ sort w = s) :
    ∃ w, (k, w) ∈ t.put k v ∧ sort w = s := by
  obtain ⟨w, hw, hsort⟩ := h
  by_cases hv : sort v = s
  · exact ⟨v, t.mem_put_self k v, hv⟩
  · refine ⟨w, Table.mem_put.mpr (Or.inr ⟨hw, fun he => hv ?_⟩), hsort⟩
    rw [← he.2, hsort]

theorem putAll_present {k : K} {vs : List V} (t : Table K sort) : Present k vs (t.putAll k vs) := by
  have hkeep : ∀ (vs : List V) (s : S) (t : Table K sort), (∃ w, (k, w) ∈ t ∧ sort w = s) →
      ∃ w, (k, w) ∈ t.putAll k vs ∧ sort w = s := by
    intro vs s
    induction vs with
    | nil => intro t h; exact h
    | cons v vs ih => intro t h; exact ih (t.put k v) (present_put v h)
  induction vs generalizing t with
  | nil => intro v hv; cases hv
  | cons x vs ih =>
    intro v hv
    rcases List.mem_cons.mp hv with rfl | hv
    · exact hkeep vs _ (t.put k v) ⟨v, t.mem_put_self k v, rfl⟩
    · exact ih (t.put k x) v hv

theorem bulkInsert_present (t : Table K sort) (k : K) (vs : List V) (noDup : Bool) :
    Present k vs (bulkInsert t k vs noDup) := by
  cases noDup with
  | true =>
    rw [bulkInsert_noDup]
    exact fun v hv => Table.putAllAbsent_stores hv
  | false =>
    rw [bulkInsert_over]
    exact putAll_present t

theorem bulkInsert_keeps {t : Table K sort} {k : K} {vs : List V} {r : K × V} (h : r ∈ t) : r ∈ bulkInsert t k vs := by
  rw [bulkInsert_noDup]
  exact Table.mem_putAllAbsent_of_mem h

theorem Present.insert {k : K} {vs more : List V} {t : Table K sort} (h : Present k vs t) :
    Present k (vs ++ more) (bulkInsert t k more) := by
  intro v hv
  rcases List.mem_append.mp hv with hv | hv
  · obtain ⟨w, hw, hsort⟩ := h v hv
    exact ⟨w, bulkInsert_keeps hw, hsort⟩
  · exact bulkInsert_present t k more true v hv

end Bulk

/-! ## The loops that append -/

/-- The writes of `append_block_hashes`, which replace. -/
def writeHashes (hashes : List BlockInfo) (blocks : Blocks) : Blocks := bulkInsert blocks () hashes false

/-- The writes of `append_pow`, which do not. -/
def writePows (buffer : List BlockPow) (pows : Pows) : Pows := bulkInsert pows () buffer

def hashAt (height : Nat) (hash : Hash) : BlockInfo := ⟨height, hash⟩

def powAt (height : Nat) (pow : PowSync) : BlockPow := ⟨height, pow.timestamp, pow.cumulativeDiff⟩

theorem appendBlockHashesLoop_buffered (chain : List Hash) (height : Nat) (hashes : List BlockInfo) (blocks : Blocks) :
    loop 25 (always writeHashes : _ → _ → Except Error _) (count hashAt) chain hashes (height, blocks) =
      .ok (height + chain.length, appendBlockHashesLoop height hashes chain blocks) := by
  induction chain generalizing height hashes blocks with
  | nil => rfl
  | cons hash chain ih =>
    have hlen : height + (hash :: chain).length = height + 1 + chain.length := by
      rw [List.length_cons]
      omega
    unfold loop room appendBlockHashesLoop
    rw [hlen]
    by_cases hfull : hashes.length = 25
    · simp only [if_pos hfull]
      exact ih (height + 1) [⟨height, hash⟩] (bulkInsert blocks () hashes false)
    · simp only [if_neg hfull]
      exact ih (height + 1) (hashes ++ [⟨height, hash⟩]) blocks

theorem appendPowLoop_buffered (chain : List PowSync) (height : Nat) (buffer : List BlockPow) (pows : Pows) :
    loop 31 (always writePows : _ → _ → Except Error _) (count powAt) chain buffer (height, pows) =
      .ok (height + chain.length, appendPowLoop height buffer chain pows) := by
  induction chain generalizing height buffer pows with
  | nil => rfl
  | cons pow chain ih =>
    have hlen : height + (pow :: chain).length = height + 1 + chain.length := by
      rw [List.length_cons]
      omega
    unfold loop room appendPowLoop
    rw [hlen]
    by_cases hfull : buffer.length = 31
    · simp only [if_pos hfull]
      exact ih (height + 1) [powAt height pow] (bulkInsert pows () buffer)
    · simp only [if_neg hfull]
      exact ih (height + 1) (buffer ++ [powAt height pow]) pows

/-- Each element of a chain was written once, under consecutive heights, in batches of the buffer's size at most. -/
structure Appended {α β : Type} (capacity first : Nat) (chain : List α) (at_ : Nat → α → β) (log : Log β) : Prop where
  batched : log.Batched capacity
  consecutive : log.pushed = (chain.zipIdx first).map fun x => at_ x.2 x.1

theorem appendBlockHashes_appended (first : Nat) (chain : List Hash) (blocks : Blocks) :
    ∃ log, logged 25 (always writeHashes : _ → _ → Except Error _) (count hashAt) chain (first, blocks) =
        .ok ((first + chain.length, appendBlockHashes first chain blocks), log) ∧
      Appended 25 first chain hashAt log ∧ ∀ b ∈ log.pushed, ((), b) ∈ appendBlockHashes first chain blocks := by
  obtain ⟨log, hlog⟩ := logged_of_loop (appendBlockHashesLoop_buffered chain first [] blocks)
  have hpushed := counted_pushed (by decide) hlog
  refine ⟨log, hlog, ⟨logged_batched (by decide) hlog, hpushed⟩, fun b hb => ?_⟩
  rw [hpushed] at hb
  obtain ⟨⟨hash, height⟩, hin, rfl⟩ := List.mem_map.mp hb
  obtain ⟨hle, hget⟩ := List.mem_zipIdx_iff_le_and_getElem?_sub.mp hin
  exact mem_appendBlockHashes_over.mpr (Or.inr ⟨height - first, (Nat.add_sub_cancel' hle).symm, hget⟩)

/-- Each height has a proof of work, and those that were there stay. -/
theorem appendPow_appended (first : Nat) (chain : List PowSync) (pows : Pows) :
    ∃ log, logged 31 (always writePows : _ → _ → Except Error _) (count powAt) chain (first, pows) =
        .ok ((first + chain.length, appendPow first chain pows), log) ∧
      Appended 31 first chain powAt log ∧ Present () log.pushed (appendPow first chain pows) ∧
      ∀ row ∈ pows, row ∈ appendPow first chain pows := by
  obtain ⟨log, hlog⟩ := logged_of_loop (appendPowLoop_buffered chain first [] pows)
  refine ⟨log, hlog, ⟨logged_batched (by decide) hlog, counted_pushed (by decide) hlog⟩, ?_, fun row hrow => ?_⟩
  · refine @logged_keeps _ _ _ _ _ _ _ _ _ _ _ (fun s written => Present () written s.2) (by decide) ?_ ?_ ?_ hlog
    · intro batch s s' written hP hflush
      cases hflush
      exact hP.insert
    · intro x s s' pushed written hP hstep
      cases hstep
      exact hP
    · intro b hb
      cases hb
  · rw [appendPow_eq]
    exact Table.mem_putAllAbsent_of_mem hrow

/-! ## The height index of `update` -/

def writeHeights (lastUpdate : Nat) (heights : List AccountLookup) (s : Updated × Storage) :
    Except Error (Updated × Storage) :=
  .ok (s.1, { s.2 with accountsBh := bulkInsert s.2.accountsBh lastUpdate heights })

/-- One account of `update`, and the row it adds to the buffer, if it adds one. -/
def raiseUser (height lastUpdate : Nat) (user : Lws.Account) (s : Updated × Storage) :
    Except Error ((Updated × Storage) × Option AccountLookup) := do
  let (db, out, heights) ← updateUser height lastUpdate user s.1 [] s.2
  .ok ((out, db), heights.head?)

/-- What is in the buffer does not matter to an account, which adds one row to it at most. -/
theorem updateUser_buffer (height lastUpdate : Nat) (user : Lws.Account) (out : Updated) (heights : List AccountLookup)
    (db : Storage) :
    updateUser height lastUpdate user out heights db =
      (fun x => (x.1.2, x.1.1, heights ++ x.2.toList)) <$> raiseUser height lastUpdate user (out, db) := by
  unfold raiseUser updateUser
  rcases existingAccount db user with e | ⟨_ | ⟨status, existing⟩⟩
  · rfl
  · exact congrArg (fun l => Except.ok (db, out, l)) (List.append_nil heights).symm
  · show updateExisting height lastUpdate user status existing out heights db =
      (fun x => (x.1.2, x.1.1, heights ++ x.2.toList)) <$>
        (updateExisting height lastUpdate user status existing out [] db >>= fun x => .ok ((x.2.1, x.1), x.2.2.head?))
    unfold updateExisting
    by_cases h1 : existing.scanHeight < user.scanHeight
    · rw [if_pos h1, if_pos h1]
      exact congrArg (fun l => Except.ok (db, out, l)) (List.append_nil heights).symm
    · rw [if_neg h1, if_neg h1]
      by_cases h2 : lastUpdate ≤ existing.scanHeight
      · simp only [if_pos h2]
        exact congrArg (fun l => Except.ok (db, _, l)) (List.append_nil heights).symm
      · simp only [if_neg h2]
        rcases storeUser height lastUpdate user status existing _ db with e | ⟨db', out'⟩ <;> rfl

theorem updateUsers_buffered (height lastUpdate : Nat) (users : List Lws.Account) (out : Updated)
    (heights : List AccountLookup) (db : Storage) :
    updateUsers height lastUpdate users out heights db =
      (fun s => (s.2, s.1)) <$> loop 127 (writeHeights lastUpdate) (raiseUser height lastUpdate)
        users heights (out, db) := by
  induction users generalizing out heights db with
  | nil => rfl
  | cons user users ih =>
    -- whatever room was made in the buffer, the account and the rest are the same
    have hround : ∀ (heights : List AccountLookup) (db : Storage),
        (updateUser height lastUpdate user out heights db >>=
          fun x => updateUsers height lastUpdate users x.2.1 x.2.2 x.1) =
          (fun s => (s.2, s.1)) <$> (raiseUser height lastUpdate user (out, db) >>= fun x =>
            loop 127 (writeHeights lastUpdate) (raiseUser height lastUpdate) users (heights ++ x.2.toList) x.1) := by
      intro heights db
      rw [updateUser_buffer]
      rcases raiseUser height lastUpdate user (out, db) with e | ⟨⟨out', db'⟩, pushed⟩
      · rfl
      · exact ih out' (heights ++ pushed.toList) db'
    unfold updateUsers loop room
    by_cases hfull : heights.length = 127
    · simp only [if_pos hfull]
      exact hround [] { db with accountsBh := bulkInsert db.accountsBh lastUpdate heights }
    · simp only [if_neg hfull]
      exact hround heights db

/-- A raised account's row goes to the buffer, and the rows at `lastUpdate` stay. -/
theorem raiseUser_ok {height lastUpdate : Nat} {user : Lws.Account} {s s' : Updated × Storage}
    {pushed : Option AccountLookup} (h : raiseUser height lastUpdate user s = .ok (s', pushed)) :
    (∀ l, pushed = some l → l.id = user.id) ∧
      ∀ l, (lastUpdate, l) ∈ s.2.accountsBh → (lastUpdate, l) ∈ s'.2.accountsBh := by
  obtain ⟨⟨db', out', heights⟩, hu, h⟩ := bind_ok.mp h
  cases h
  rcases updateUser_cases hu with ⟨rfl, rfl, -⟩ | ⟨status, existing, l, events, -, -, hlt, -, -, -, rfl, rfl⟩
  · exact ⟨fun l h => by simp at h, fun l h => h⟩
  · refine ⟨fun l h => ?_, fun l h => ?_⟩
    · obtain rfl : ⟨user.id, status⟩ = l := by simpa using h
      rfl
    · exact Table.mem_erase.mpr ⟨h, fun he => absurd he.1 hlt.ne'⟩

def heightRow (lastUpdate : Nat) (db : Storage) (user : Lws.Account) : Option AccountLookup :=
  match existingAccount db user with
  | .ok (some (status, existing)) =>
    if user.scanHeight ≤ existing.scanHeight ∧ existing.scanHeight < lastUpdate then some ⟨user.id, status⟩ else none
  | _ => none

theorem heightRow_eq_some {lastUpdate : Nat} {db : Storage} {user : Lws.Account} {row : AccountLookup} :
    heightRow lastUpdate db user = some row ↔ ∃ status existing, existingAccount db user = .ok (some (status, existing)) ∧
      user.scanHeight ≤ existing.scanHeight ∧ existing.scanHeight < lastUpdate ∧ row = ⟨user.id, status⟩ := by
  unfold heightRow
  rcases existingAccount db user with e | ⟨_ | ⟨status, existing⟩⟩
  · simp
  · simp
  · dsimp only
    split
    · rename_i h
      constructor
      · rintro ⟨⟩
        exact ⟨status, existing, rfl, h.1, h.2, rfl⟩
      · rintro ⟨_, _, ⟨⟩, -, -, rfl⟩
        rfl
    · rename_i h
      refine ⟨nofun, ?_⟩
      rintro ⟨_, _, ⟨⟩, hscan, hlt, -⟩
      exact absurd ⟨hscan, hlt⟩ h

/-- An account after the rows in `pushed` were raised. -/
def liftedTo (lastUpdate : Nat) (pushed : List AccountLookup) (status : AccountStatus) (a : Account) : Account :=
  if ⟨a.id, status⟩ ∈ pushed then { a with scanHeight := lastUpdate } else a

/-- What the rounds of `update` change of the accounts: those in `pushed` are at `lastUpdate`. -/
structure Lifted (lastUpdate : Nat) (pushed : List AccountLookup) (db db' : Storage) : Prop where
  accountsBa : db'.accountsBa = db.accountsBa
  accounts : ∀ status id, db'.accounts.get? status id =
    (db.accounts.get? status id).map (liftedTo lastUpdate pushed status)

theorem Lifted.existing {lastUpdate : Nat} {pushed : List AccountLookup} {db db' : Storage}
    (h : Lifted lastUpdate pushed db db') (user : Lws.Account) :
    existingAccount db' user =
      (existingAccount db user).map (Option.map fun x => (x.1, liftedTo lastUpdate pushed x.1 x.2)) := by
  unfold existingAccount require
  rw [h.accountsBa, h.accounts]
  rcases db.accounts.get? .active user.id with _ | active
  · dsimp only [Option.map_none]
    rcases db.accountsBa.get? () user.address.viewPublic with _ | byAddress
    · rfl
    · dsimp only
      rw [h.accounts]
      rcases db.accounts.get? byAddress.lookup.status user.id with _ | existing <;> rfl
  · rfl

theorem Lifted.existing_ok {lastUpdate : Nat} {pushed : List AccountLookup} {db db' : Storage}
    (h : Lifted lastUpdate pushed db db') {user : Lws.Account} {status : AccountStatus} {existing : Account}
    (he : existingAccount db' user = .ok (some (status, existing))) :
    ∃ a, existingAccount db user = .ok (some (status, a)) ∧ a.id = user.id ∧
      existing = liftedTo lastUpdate pushed status a := by
  rw [h.existing] at he
  rcases hfound : existingAccount db user with e | ⟨_ | ⟨status', a⟩⟩
  · rw [hfound] at he
    cases he
  · rw [hfound] at he
    cases he
  · rw [hfound] at he
    cases he
    exact ⟨a, rfl, (existingAccount_ok hfound).2, rfl⟩

/-- The account of a row that is not in `pushed` is as it was. -/
theorem Lifted.existing_iff {lastUpdate : Nat} {pushed : List AccountLookup} {db db' : Storage}
    (h : Lifted lastUpdate pushed db db') {user : Lws.Account} {status : AccountStatus} {existing : Account}
    (hnew : ⟨user.id, status⟩ ∉ pushed) :
    existingAccount db' user = .ok (some (status, existing)) ↔ existingAccount db user = .ok (some (status, existing)) := by
  have hkept : ∀ {a : Account}, a.id = user.id → liftedTo lastUpdate pushed status a = a := by
    intro a ha
    unfold liftedTo
    rw [ha, if_neg hnew]
  constructor
  · intro he
    obtain ⟨a, ha, hid, rfl⟩ := h.existing_ok he
    rw [ha, hkept hid]
  · intro he
    rw [h.existing, he]
    show Except.ok (some (status, liftedTo lastUpdate pushed status existing)) = _
    rw [hkept (existingAccount_ok he).2]

/-- A row in `pushed` is at `lastUpdate`, so it is not raised again. -/
theorem Lifted.scanHeight {lastUpdate : Nat} {pushed : List AccountLookup} {db db' : Storage}
    (h : Lifted lastUpdate pushed db db') {user : Lws.Account} {status : AccountStatus} {existing : Account}
    (hold : ⟨user.id, status⟩ ∈ pushed) (he : existingAccount db' user = .ok (some (status, existing))) :
    existing.scanHeight = lastUpdate := by
  obtain ⟨a, -, hid, rfl⟩ := h.existing_ok he
  unfold liftedTo
  rw [hid, if_pos hold]

theorem Lifted.raise {lastUpdate : Nat} {pushed : List AccountLookup} {db db' : Storage}
    (h : Lifted lastUpdate pushed db db') {user : Lws.Account} {status : AccountStatus} {existing : Account}
    (he : existingAccount db' user = .ok (some (status, existing))) (events : Events) :
    Lifted lastUpdate (pushed ++ [⟨user.id, status⟩]) db (raised lastUpdate user status existing events db') := by
  obtain ⟨hmem, hid⟩ := existingAccount_ok he
  refine ⟨h.accountsBa, fun status' id => ?_⟩
  show (db'.accounts.put status { existing with scanHeight := lastUpdate }).get? status' id = _
  by_cases hrow : status' = status ∧ id = existing.id
  · obtain ⟨rfl, rfl⟩ := hrow
    have hget := h.accounts status' existing.id
    rw [Table.get?_of_mem hmem] at hget
    obtain ⟨a, ha, hraised⟩ := Option.map_eq_some_iff.mp hget.symm
    have haid : a.id = existing.id := (Table.get?_eq_some.mp ha).2
    have hput : (db'.accounts.put status' { existing with scanHeight := lastUpdate }).get? status' existing.id =
        some { existing with scanHeight := lastUpdate } := Table.get?_put_self _ _ _
    rw [hput, ha, Option.map_some, Option.some_inj]
    have hnow : liftedTo lastUpdate (pushed ++ [⟨user.id, status'⟩]) status' a = { a with scanHeight := lastUpdate } := by
      unfold liftedTo
      rw [haid, hid, if_pos (List.mem_append_right _ List.mem_cons_self)]
    rw [hnow, ← hraised]
    unfold liftedTo
    split <;> rfl
  · have hput : (db'.accounts.put status { existing with scanHeight := lastUpdate }).get? status' id =
        db'.accounts.get? status' id := Table.get?_put_of_ne hrow
    rw [hput, h.accounts]
    rcases hget : db.accounts.get? status' id with _ | a
    · rfl
    · have haid : a.id = id := (Table.get?_eq_some.mp hget).2
      have hother : (⟨a.id, status'⟩ : AccountLookup) ≠ ⟨user.id, status⟩ := by
        intro he
        obtain ⟨huser, hstatus⟩ := AccountLookup.mk.inj he
        exact hrow ⟨hstatus, by omega⟩
      have hmem : (⟨a.id, status'⟩ : AccountLookup) ∈ pushed ++ [⟨user.id, status⟩] ↔ ⟨a.id, status'⟩ ∈ pushed := by
        rw [List.mem_append, List.mem_singleton]
        exact or_iff_left hother
      rw [Option.map_some, Option.map_some]
      unfold liftedTo
      simp only [hmem]

theorem raiseUser_pushed {height lastUpdate : Nat} {user : Lws.Account} {s s' : Updated × Storage}
    {pushed? : Option AccountLookup} {pushed : List AccountLookup} {db : Storage} (hdb : Lifted lastUpdate pushed db s.2)
    (h : raiseUser height lastUpdate user s = .ok (s', pushed?)) :
    pushed?.toList = (heightRow lastUpdate db user).toList.removeAll pushed ∧
      Lifted lastUpdate (pushed ++ pushed?.toList) db s'.2 := by
  obtain ⟨⟨db', out', heights⟩, hu, h⟩ := bind_ok.mp h
  cases h
  rcases updateUser_cases hu with ⟨rfl, rfl, -, hleft⟩ | ⟨status, existing, l, events, he, hscan, hlt, -, -, -, rfl, rfl⟩
  · refine ⟨?_, by simpa using hdb⟩
    rcases hrow : heightRow lastUpdate db user with _ | row
    · rfl
    · obtain ⟨status, existing, he, hscan, hlt, rfl⟩ := heightRow_eq_some.mp hrow
      have hold : ⟨user.id, status⟩ ∈ pushed := by
        by_contra hnew
        have := hleft status existing ((hdb.existing_iff hnew).mpr he)
        omega
      simp [List.removeAll, hold]
  · have hnew : ⟨user.id, status⟩ ∉ pushed := fun hold => (hdb.scanHeight hold he ▸ hlt).false
    have hrow : heightRow lastUpdate db user = some ⟨user.id, status⟩ :=
      heightRow_eq_some.mpr ⟨status, existing, (hdb.existing_iff hnew).mp he, hscan, hlt, rfl⟩
    refine ⟨?_, by simpa using hdb.raise he events⟩
    rw [hrow]
    simp [List.removeAll, hnew]

/-- Exactly one row is pushed for each account that is raised. -/
theorem logged_heightRows {height lastUpdate : Nat} {users : List Lws.Account} {s s' : Updated × Storage}
    {log : Log AccountLookup}
    (h : logged 127 (writeHeights lastUpdate) (raiseUser height lastUpdate) users s = .ok (s', log)) :
    log.pushed = (users.filterMap (heightRow lastUpdate s.2)).eraseDups := by
  have hI := loop_invariant (fun done _ t log => log.pushed = (done.filterMap (heightRow lastUpdate s.2)).eraseDups ∧
      Lifted lastUpdate log.pushed s.2 t.2) (by decide) ?_ ?_ users [] ⟨rfl, rfl, fun status id => ?_⟩ h
  · exact hI.1
  · rintro done buffer t t' log ⟨hpushed, hraised⟩ hflush
    cases hflush
    exact ⟨hpushed, hraised.accountsBa, hraised.accounts⟩
  · rintro done user buffer t t' pushed? log - ⟨hpushed, hraised⟩ hrun
    obtain ⟨hone, hnext⟩ := raiseUser_pushed hraised hrun
    refine ⟨?_, hnext⟩
    have hdups : pushed?.toList.eraseDups = pushed?.toList := by cases pushed? <;> rfl
    have hsame : (heightRow lastUpdate s.2 user).toList.removeAll log.pushed =
        (heightRow lastUpdate s.2 user).toList.removeAll (done.filterMap (heightRow lastUpdate s.2)) := by
      unfold List.removeAll
      simp [hpushed]
    have hlast : [user].filterMap (heightRow lastUpdate s.2) = (heightRow lastUpdate s.2 user).toList := by
      rw [List.filterMap_cons]
      cases heightRow lastUpdate s.2 user <;> rfl
    rw [List.filterMap_append, hlast, List.eraseDups_append, ← hsame, ← hone, hdups, ← hpushed]
  · rcases s.2.accounts.get? status id with _ | a
    · rfl
    · simp [liftedTo]

/-- The rows of the raised accounts are written once each, in batches of the buffer's size at most, and stay. -/
structure RaisedRows (lastUpdate : Nat) (users : List Lws.Account) (db db' : Storage) (log : Log AccountLookup) :
    Prop where
  batched : log.Batched 127
  rows : log.pushed = (users.filterMap (heightRow lastUpdate db)).eraseDups
  ids : (log.pushed.map (·.id)).Sublist (users.map (·.id))
  present : Present lastUpdate log.pushed db'.accountsBh

theorem updateUsers_raised {height lastUpdate : Nat} {users : List Lws.Account} {out out' : Updated} {db db' : Storage}
    (h : updateUsers height lastUpdate users out [] db = .ok (db', out')) :
    ∃ log, logged 127 (writeHeights lastUpdate) (raiseUser height lastUpdate) users (out, db) = .ok ((out', db'), log) ∧
      RaisedRows lastUpdate users db db' log := by
  rw [updateUsers_buffered] at h
  rcases hrun : loop 127 (writeHeights lastUpdate) (raiseUser height lastUpdate) users [] (out, db) with e | ⟨out₁, db₁⟩
  · rw [hrun] at h
    cases h
  · rw [hrun] at h
    cases h
    obtain ⟨log, hlog⟩ := logged_of_loop hrun
    refine ⟨log, hlog, logged_batched (by decide) hlog, logged_heightRows hlog, ?_, ?_⟩
    · apply logged_sublist (·.id) (·.id) (by decide) _ hlog
      intro user s s' l hstep
      exact (raiseUser_ok hstep).1 l rfl
    · refine @logged_keeps _ _ _ _ _ _ _ _ _ _ _
          (fun s written => Present lastUpdate written s.2.accountsBh) (by decide)
        ?_ ?_ ?_ hlog
      · intro batch s s' written hP hflush
        cases hflush
        exact hP.insert
      · intro user s s' pushed written hP hstep l hl
        obtain ⟨w, hw, hsort⟩ := hP l hl
        exact ⟨w, (raiseUser_ok hstep).2 w hw, hsort⟩
      · intro l hl
        cases hl

/-- Whatever calls of the library keep to its contract, `bulk_insert` ends, every value is there, and with
    `MDB_NODUPDATA` no row is replaced; the loops that use it write all that they push once. -/
theorem bulk_writes {K V S : Type} [LinearOrder K] [LinearOrder S] {sort : V → S} (lmdb : MultiplePut K sort)
    (noDup : Bool)
    (k : K) (values : List V) (t : Table K sort)
    (first : Nat) (chain : List Hash) (blocks : Blocks) (pow : List PowSync)
    (pows : Pows) (height lastUpdate : Nat) (users : List Lws.Account) (out : Updated) (db : Storage) :
    (∀ fuel, values.length ≤ fuel → ∃ r, bulkInsertWith lmdb noDup k fuel values t = some r ∧
      (∀ t', r = .ok t' → Present k values t' ∧ (noDup = true → ∀ row ∈ t, row ∈ t')) ∧
      (Unfailing lmdb → ∃ t', r = .ok t')) ∧
    (∃ log, logged 25 (always writeHashes : _ → _ → Except Error _) (count hashAt) chain (first, blocks) =
        .ok ((first + chain.length, appendBlockHashes first chain blocks), log) ∧
      Appended 25 first chain hashAt log ∧ ∀ b ∈ log.pushed, ((), b) ∈ appendBlockHashes first chain blocks) ∧
    (∃ log, logged 31 (always writePows : _ → _ → Except Error _) (count powAt) pow (first, pows) =
        .ok ((first + pow.length, appendPow first pow pows), log) ∧
      Appended 31 first pow powAt log ∧ Present () log.pushed (appendPow first pow pows) ∧
      ∀ row ∈ pows, row ∈ appendPow first pow pows) ∧
    ∀ db' out', updateUsers height lastUpdate users out [] db = .ok (db', out') →
      ∃ log, logged 127 (writeHeights lastUpdate) (raiseUser height lastUpdate) users (out, db) =
          .ok ((out', db'), log) ∧
        RaisedRows lastUpdate users db db' log := by
  refine ⟨fun fuel hfuel => ?_, appendBlockHashes_appended first chain blocks, appendPow_appended first pow pows,
    fun db' out' => updateUsers_raised⟩
  obtain ⟨r, hrun, hok, hdone⟩ := bulkInsertWith_ends lmdb noDup k t hfuel
  refine ⟨r, hrun, fun t' ht => ?_, hdone⟩
  obtain rfl := hok t' ht
  refine ⟨bulkInsert_present t k values noDup, ?_⟩
  rintro rfl row hrow
  exact bulkInsert_keeps hrow

end Lws.Db
