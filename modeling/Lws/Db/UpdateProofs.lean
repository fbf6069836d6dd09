/-
  Lws.Db.UpdateProofs — what `update` writes for the accounts of a batch
  (`existingAccount_ok`, `storeUser_ok`), and that its buffer of height rows is the same
  as writing each row at once (`updateUsers_eq`).
-/

import Lws.Db.AccountsProofs
import Lws.Db.Update

namespace Lws.Db

open Lws.Lmdb

theorem existingAccount_ok {db : Storage} {user : Lws.Account} {status : AccountStatus} {existing : Account}
    (h : existingAccount db user = .ok (some (status, existing))) :
    (status, existing) ∈ db.accounts ∧ existing.id = user.id := by
  unfold existingAccount at h
  split at h
  · rename_i e he
    cases h
    exact Table.get?_eq_some.mp he
  · split at h
    · cases h
    · obtain ⟨e, he, h⟩ := bind_ok.mp h
      cases h
      exact require_ok.mp he

def addImages (list : List Spend) (images : Images) : Images :=
  list.foldl (fun images entry => images.putAbsent entry.source ⟨entry.image, entry.link⟩) images

theorem addSpends_eq (user : Nat) (list : List Spend) (spends : Spends) (images : Images) :
    addSpends user list spends images = (spends.putAllAbsent user list, addImages list images) := by
  unfold addSpends addImages
  rw [bulkInsert_noDup]

/-- The database after `update` raised `existing` to `lastUpdate`, its height row aside. -/
def raised (lastUpdate : Nat) (user : Lws.Account) (status : AccountStatus) (existing : Account) (events : Events)
    (db : Storage) : Storage :=
  { db with
    accounts := db.accounts.put status { existing with scanHeight := lastUpdate }
    accountsBh := db.accountsBh.erase existing.scanHeight user.id
    outputs := db.outputs.putAllAbsent user.id user.outputs
    spends := db.spends.putAllAbsent user.id user.spends
    images := addImages user.spends db.images
    events }

/-- The first height whose blocks are new to `existing` in a batch from `height`. -/
def ongoingStart (height : Nat) (existing : Account) : Nat := max (height + 1) (existing.scanHeight + 1)

theorem storeUser_ok {height lastUpdate : Nat} {user : Lws.Account} {status : AccountStatus} {existing : Account}
    {out out' : Updated} {db db' : Storage}
    (h : storeUser height lastUpdate user status existing out db = .ok (db', out')) :
    ∃ l pubs events, (existing.scanHeight, l) ∈ db.accountsBh ∧ l.id = user.id ∧
      addOngoingHooks db.webhooks (db.outputs.putAllAbsent user.id user.outputs) user.id
        (ongoingStart height existing) (lastUpdate + 1) out.confirmPubs (checkHooks db.webhooks user db.events) =
          .ok (pubs, events) ∧
      out'.confirmPubs = pubs ∧ db' = raised lastUpdate user status existing events db := by
  unfold storeUser at h
  obtain ⟨l, hl, h⟩ := bind_ok.mp h
  obtain ⟨hl1, hl2⟩ := require_ok.mp hl
  rw [addSpends_eq, bulkInsert_noDup] at h
  obtain ⟨⟨pubs, events⟩, hev, h⟩ := bind_ok.mp h
  obtain ⟨spendPubs, -, h⟩ := bind_ok.mp h
  cases h
  exact ⟨l, pubs, events, hl1, hl2, hev, rfl, rfl⟩

/-! ## The buffer of height rows -/

def Storage.withHeights (db : Storage) (lastUpdate : Nat) (heights : List AccountLookup) : Storage :=
  { db with accountsBh := db.accountsBh.putAllAbsent lastUpdate heights }

@[simp] theorem withHeights_nil (db : Storage) (lastUpdate : Nat) : db.withHeights lastUpdate [] = db := rfl

theorem withHeights_append (db : Storage) (lastUpdate : Nat) (l l' : List AccountLookup) :
    (db.withHeights lastUpdate l).withHeights lastUpdate l' = db.withHeights lastUpdate (l ++ l') := by
  simp only [Storage.withHeights, Table.putAllAbsent, List.foldl_append]

/-- One account of `update`, with its height row written at once. -/
def updateUserNow (height lastUpdate : Nat) (user : Lws.Account) (out : Updated) (db : Storage) :
    Except Error (Storage × Updated) := do
  let (db, out, heights) ← updateUser height lastUpdate user out [] db
  .ok (db.withHeights lastUpdate heights, out)

def updateUsersNow (height lastUpdate : Nat) : List Lws.Account → Updated → Storage → Except Error (Storage × Updated)
  | [], out, db => .ok (db, out)
  | user :: users, out, db => do
    let (db, out) ← updateUserNow height lastUpdate user out db
    updateUsersNow height lastUpdate users out db

/-- Rows pending at `lastUpdate` do not touch the row an account leaves below it. -/
theorem storeUser_withHeights {height lastUpdate : Nat} {user : Lws.Account} {status : AccountStatus}
    {existing : Account}
    (out : Updated) (db : Storage) (heights : List AccountLookup) (hlt : existing.scanHeight < lastUpdate) :
    storeUser height lastUpdate user status existing out (db.withHeights lastUpdate heights) =
      (fun x => (x.1.withHeights lastUpdate heights, x.2)) <$> storeUser height lastUpdate user status existing out db := by
  have hne : existing.scanHeight ≠ lastUpdate := by omega
  have hreq : require (db.withHeights lastUpdate heights).accountsBh existing.scanHeight user.id =
      require db.accountsBh existing.scanHeight user.id := by
    unfold require
    rw [show (db.withHeights lastUpdate heights).accountsBh = db.accountsBh.putAllAbsent lastUpdate heights from rfl,
      Table.get?_putAllAbsent_of_ne hne]
  unfold storeUser
  simp only [map_bind]
  rw [hreq]
  refine congrArg (require db.accountsBh existing.scanHeight user.id >>= ·) (funext fun _ => ?_)
  show (_ >>= _) = (_ >>= _)
  refine congrArg (addOngoingHooks db.webhooks (bulkInsert db.outputs user.id user.outputs) user.id _ _ _ _ >>= ·)
    (funext fun x => ?_)
  refine congrArg (checkSpends db.webhooks (bulkInsert db.outputs user.id user.outputs) user >>= ·) (funext fun y => ?_)
  show Except.ok _ = Except.ok _
  simp only [Storage.withHeights, Table.putAllAbsent_erase_of_ne hne]

theorem updateUser_withHeights (height lastUpdate : Nat) (user : Lws.Account) (out : Updated) (db : Storage)
    (heights : List AccountLookup) :
    (do
      let (db, out, heights) ← updateUser height lastUpdate user out heights db
      .ok (db.withHeights lastUpdate heights, out)) =
      updateUserNow height lastUpdate user out (db.withHeights lastUpdate heights) := by
  unfold updateUserNow updateUser
  rw [show existingAccount (db.withHeights lastUpdate heights) user = existingAccount db user from rfl]
  rcases existingAccount db user with e | ⟨_ | ⟨status, existing⟩⟩
  · rfl
  · rfl
  · show (updateExisting height lastUpdate user status existing out heights db >>= _) =
      (updateExisting height lastUpdate user status existing out [] (db.withHeights lastUpdate heights) >>= _)
    unfold updateExisting
    by_cases h1 : existing.scanHeight < user.scanHeight
    · rw [if_pos h1, if_pos h1]; rfl
    · rw [if_neg h1, if_neg h1]
      by_cases h2 : lastUpdate ≤ existing.scanHeight
      · simp only [if_pos h2]; rfl
      · simp only [if_neg h2]
        rw [storeUser_withHeights _ _ _ (by omega)]
        rcases storeUser height lastUpdate user status existing _ db with e | ⟨db', out'⟩
        · rfl
        · show Except.ok _ = Except.ok _
          rw [withHeights_append]; rfl

/-- Buffering the height rows of the accounts changes nothing. -/
theorem updateUsers_eq (height lastUpdate : Nat) : ∀ (users : List Lws.Account) (out : Updated)
    (heights : List AccountLookup) (db : Storage),
    updateUsers height lastUpdate users out heights db =
      updateUsersNow height lastUpdate users out (db.withHeights lastUpdate heights) := by
  intro users
  induction users with
  | nil =>
    intro out heights db
    unfold updateUsers updateUsersNow
    rw [bulkInsert_noDup]; rfl
  | cons user users ih =>
    intro out heights db
    -- whatever is in the buffer, the rest of the loop sees its rows
    have key : ∀ (heights : List AccountLookup) (db : Storage),
        (do
          let (db, out, heights) ← updateUser height lastUpdate user out heights db
          updateUsers height lastUpdate users out heights db) =
          updateUsersNow height lastUpdate (user :: users) out (db.withHeights lastUpdate heights) := by
      intro heights db
      unfold updateUsersNow
      rw [← updateUser_withHeights, bind_assoc]
      refine congrArg (updateUser height lastUpdate user out heights db >>= ·) (funext fun x => ?_)
      exact ih _ _ _
    unfold updateUsers
    by_cases e : heights.length = 127
    · simp only [if_pos e, bulkInsert_noDup]
      exact key [] (db.withHeights lastUpdate heights)
    · simp only [if_neg e]
      exact key heights db

/-- One account of `update`: it is left as it was, or raised to `lastUpdate` and its height row buffered. -/
theorem updateUser_cases {height lastUpdate : Nat} {user : Lws.Account} {out out' : Updated} {db db' : Storage}
    {heights heights' : List AccountLookup}
    (h : updateUser height lastUpdate user out heights db = .ok (db', out', heights')) :
    (db' = db ∧ heights' = heights ∧ out'.confirmPubs = out.confirmPubs ∧ ∀ status existing,
      existingAccount db user = .ok (some (status, existing)) →
        existing.scanHeight < user.scanHeight ∨ lastUpdate ≤ existing.scanHeight) ∨
    ∃ status existing l events, existingAccount db user = .ok (some (status, existing)) ∧
      user.scanHeight ≤ existing.scanHeight ∧ existing.scanHeight < lastUpdate ∧
      (existing.scanHeight, l) ∈ db.accountsBh ∧ l.id = user.id ∧
      addOngoingHooks db.webhooks (db.outputs.putAllAbsent user.id user.outputs) user.id
        (ongoingStart height existing) (lastUpdate + 1) out.confirmPubs (checkHooks db.webhooks user db.events) =
          .ok (out'.confirmPubs, events) ∧
      db' = raised lastUpdate user status existing events db ∧ heights' = heights ++ [⟨user.id, status⟩] := by
  obtain ⟨existing?, hex, hu⟩ := bind_ok.mp h
  rw [hex]
  rcases existing? with _ | ⟨status, existing⟩
  · cases hu
    exact Or.inl ⟨rfl, rfl, rfl, fun _ _ he => by cases he⟩
  · dsimp only at hu
    unfold updateExisting at hu
    split at hu
    · rename_i hlt
      cases hu
      refine Or.inl ⟨rfl, rfl, rfl, fun _ _ he => ?_⟩
      cases he
      exact Or.inl hlt
    · dsimp only at hu
      split at hu
      · rename_i hle
        cases hu
        refine Or.inl ⟨rfl, rfl, rfl, fun _ _ he => ?_⟩
        cases he
        exact Or.inr hle
      · obtain ⟨⟨db₂, out₂⟩, hst, hu⟩ := bind_ok.mp hu
        cases hu
        obtain ⟨l, pubs, events, hl, hl', hev, rfl, rfl⟩ := storeUser_ok hst
        exact Or.inr ⟨status, existing, l, events, rfl, by omega, by omega, hl, hl', hev, rfl, rfl⟩

/-- The same with the height row written at once. -/
theorem updateUserNow_cases {height lastUpdate : Nat} {user : Lws.Account} {out out' : Updated} {db db' : Storage}
    (h : updateUserNow height lastUpdate user out db = .ok (db', out')) :
    (db' = db ∧ out'.confirmPubs = out.confirmPubs ∧ ∀ status existing,
      existingAccount db user = .ok (some (status, existing)) →
        existing.scanHeight < user.scanHeight ∨ lastUpdate ≤ existing.scanHeight) ∨
    ∃ status existing l events, existingAccount db user = .ok (some (status, existing)) ∧
      user.scanHeight ≤ existing.scanHeight ∧ existing.scanHeight < lastUpdate ∧
      (existing.scanHeight, l) ∈ db.accountsBh ∧ l.id = user.id ∧
      addOngoingHooks db.webhooks (db.outputs.putAllAbsent user.id user.outputs) user.id
        (ongoingStart height existing) (lastUpdate + 1) out.confirmPubs (checkHooks db.webhooks user db.events) =
          .ok (out'.confirmPubs, events) ∧
      db' = (raised lastUpdate user status existing events db).withHeights lastUpdate [⟨user.id, status⟩] := by
  obtain ⟨⟨db₁, out₁, heights⟩, hu, h⟩ := bind_ok.mp h
  cases h
  rcases updateUser_cases hu with ⟨rfl, rfl, hleft⟩ | ⟨status, existing, l, events, hex, hscan, hlt, hl, hl', hev, rfl, rfl⟩
  · exact Or.inl ⟨rfl, hleft⟩
  · exact Or.inr ⟨status, existing, l, events, hex, hscan, hlt, hl, hl', hev, rfl⟩

end Lws.Db
