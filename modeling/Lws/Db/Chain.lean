/-
  Lws.Db.Chain — block hashes, and rolling the database back to a fork point
  (`src/db/storage.cpp`: `bulk_insert`, `check_blockchain`, `check_pow`,
  `rollback_spends`, `rollback_outputs`, `rollback_accounts`, `rollback_events`,
  `rollback_chain`, `append_block_hashes`, `append_pow`, `storage::rollback`,
  `storage::sync_chain`, `storage::sync_pow`).

  Each function takes the tables it touches and returns them; a write transaction
  (`try_write`) commits them on success and drops them on an error. MDB_MAP_FULL and
  its retries are left out.
-/

import Lws.Db.Data

namespace Lws.Db

open Lws.Lmdb

/-! ## Bulk writes -/

section Bulk

variable {K V S : Type} [LinearOrder K] [LinearOrder S] {sort : V → S}

/-- The loop of `bulk_insert`: put the rest of the values, skip the one that exists. -/
def bulkInsertLoop (noDup : Bool) (k : K) : Nat → List V → Table K sort → Table K sort
  | _, [], t => t
  | 0, _, t => t
  | n + 1, v :: vs, t =>
    let (t', written, exists_) := Table.putMultiple noDup k (v :: vs) t
    bulkInsertLoop noDup k n ((v :: vs).drop (written + if exists_ then 1 else 0)) t'

/-- `bulk_insert` with `MDB_NODUPDATA` (`noDup`) or with no flag. -/
def bulkInsert (t : Table K sort) (k : K) (values : List V) (noDup : Bool := true) : Table K sort :=
  bulkInsertLoop noDup k values.length values t

theorem bulkInsertLoop_noDup (k : K) : ∀ (n : Nat) (vs : List V) (t : Table K sort), vs.length ≤ n →
    bulkInsertLoop true k n vs t = t.putAllAbsent k vs := by
  intro n
  induction n with
  | zero =>
    intro vs t h
    rw [List.eq_nil_of_length_eq_zero (by omega : vs.length = 0)]; rfl
  | succ n ih =>
    intro vs t h
    cases vs with
    | nil => rfl
    | cons v vs =>
      obtain ⟨h1, h2, h3, h4⟩ := Table.putMultiple_noDup k (v :: vs) t
      simp only [bulkInsertLoop]
      have key : ∀ m : Nat, 0 < m → Table.putAllAbsent t k ((v :: vs).take m) = (Table.putMultiple true k (v :: vs) t).1 →
          bulkInsertLoop true k n ((v :: vs).drop m) (Table.putMultiple true k (v :: vs) t).1 =
            t.putAllAbsent k (v :: vs) := by
        intro m hm hput
        rw [ih _ _ (by simp only [List.length_drop, List.length_cons] at h ⊢; omega), ← hput]
        conv_rhs => rw [← List.take_append_drop m (v :: vs)]
        simp only [Table.putAllAbsent, List.foldl_append]
      cases hs : (Table.putMultiple true k (v :: vs) t).2.2 with
      | true => simpa [hs] using key _ (Nat.succ_pos _) (h3 hs).1
      | false => simpa [hs] using key _ (by rw [h4 hs]; simp) h1.symm

theorem bulkInsert_noDup (t : Table K sort) (k : K) (vs : List V) : bulkInsert t k vs = t.putAllAbsent k vs :=
  bulkInsertLoop_noDup k _ vs t (Nat.le_refl _)

theorem bulkInsert_over (t : Table K sort) (k : K) (vs : List V) : bulkInsert t k vs false = t.putAll k vs := by
  unfold bulkInsert
  cases vs with
  | nil => rfl
  | cons v vs =>
    simp only [List.length_cons, bulkInsertLoop, Table.putMultiple_over, Bool.false_eq_true, if_false, Nat.add_zero]
    rw [List.drop_of_length_le (by simp)]
    cases vs.length <;> rfl

end Bulk

/-! ## A fresh database -/

/-- `check_blockchain` and `check_pow` on empty tables. -/
def fresh (env : Env) : Storage :=
  { (default : Storage) with
    blocks :=
      match env.checkpoints with
      | [] => Table.empty
      | (height, hash) :: rest =>
        let blocks : Blocks := Table.empty.put () ⟨height, hash⟩
        match rest.getLast? with
        | none => blocks
        | some (height, hash) => blocks.put () ⟨height, hash⟩
    pows := Table.empty.put () ⟨0, 0, ⟨0, 1⟩⟩ }

/-! ## Rolling back -/

def rollbackSpends (user : Nat) (height : Nat) (spends : Spends) (images : Images) :
    Except Error (Spends × Images) := do
  let (images, spends) ← spends.eachFrom user (fun s => decide (height ≤ s.link.height))
    (fun images r => do
      let _ ← require images r.2.source r.2.image
      .ok (images.erase r.2.source r.2.image, true)) images
  .ok (spends, images)

def rollbackOutputs (user : Nat) (height : Nat) (outputs : Outputs) : Except Error Outputs := do
  let (_, outputs) ← outputs.eachFrom user (fun o => decide (height ≤ o.link.height)) (fun _ _ => .ok ((), true)) ()
  .ok outputs

/-- What `rollback_accounts` writes to an account. -/
def Account.rolledBack (user : Account) (newHeight : Nat) : Account :=
  { user with scanHeight := newHeight, startHeight := min newHeight user.startHeight }

/-- One row of `accounts_by_height` at or above the fork point. -/
def rollbackAccount (height newHeight : Nat) (s : Storage × List AccountLookup) (r : Nat × AccountLookup) :
    Except Error ((Storage × List AccountLookup) × Bool) := do
  let (db, newByHeights) := s
  let lookup := r.2
  let user ← require db.accounts lookup.status lookup.id
  let accounts := db.accounts.put lookup.status (user.rolledBack newHeight)
  let outputs ← rollbackOutputs user.id height db.outputs
  let (spends, images) ← rollbackSpends user.id height db.spends db.images
  .ok (({ db with accounts, outputs, spends, images }, newByHeights ++ [⟨user.id, lookup.status⟩]), true)

def rollbackAccounts (height : Nat) (db : Storage) : Except Error Storage := do
  let newHeight := max height 1 - 1
  let ((db, newByHeights), accountsBh) ← db.accountsBh.eachKeyFrom height (rollbackAccount height newHeight) (db, [])
  .ok { db with accountsBh := bulkInsert accountsBh newHeight newByHeights }

def rollbackEvents (height : Nat) (events : Events) : Events :=
  events.trimBack fun e => decide (e.link.tx.height < height)

/-- Delete from the cursor on, along the values of its key. -/
def dropFrom {V S : Type} [LinearOrder S] {sort : V → S} (cur : Cursor Version sort) :
    Except Error (Table Version sort) := do
  let (_, t) ← cur.walk Cursor.nextDup (fun _ _ => .ok ((), true)) cur.table.rows.length ()
  .ok t

/-- `cur` is at the first block of the old fork. -/
def rollbackChain (cur : Cursor Version BlockInfo.id) (height : Nat) (db : Storage) : Except Error Storage := do
  let blocks ← dropFrom cur
  let pows ← match db.pows.getBoth () height with
    | none => .ok db.pows
    | some powCur => dropFrom powCur
  let db ← rollbackAccounts height { db with blocks, pows }
  .ok { db with events := rollbackEvents height db.events }

/-! ## Appending -/

/-- The loop of `append_block_hashes`, with its buffer of 25. -/
def appendBlockHashesLoop : Nat → List BlockInfo → List Hash → Blocks → Blocks
  | _, hashes, [], blocks => bulkInsert blocks () hashes false
  | height, hashes, h :: chain, blocks =>
    if hashes.length = 25 then
      appendBlockHashesLoop (height + 1) [⟨height, h⟩] chain (bulkInsert blocks () hashes false)
    else appendBlockHashesLoop (height + 1) (hashes ++ [⟨height, h⟩]) chain blocks

def appendBlockHashes (first : Nat) (chain : List Hash) (blocks : Blocks) : Blocks :=
  appendBlockHashesLoop first [] chain blocks

/-- The loop of `append_pow`, with its buffer of 31. -/
def appendPowLoop : Nat → List BlockPow → List PowSync → Pows → Pows
  | _, buffer, [], pows => bulkInsert pows () buffer
  | height, buffer, p :: chain, pows =>
    if buffer.length = 31 then
      appendPowLoop (height + 1) [⟨height, p.timestamp, p.cumulativeDiff⟩] chain (bulkInsert pows () buffer)
    else appendPowLoop (height + 1) (buffer ++ [⟨height, p.timestamp, p.cumulativeDiff⟩]) chain pows

def appendPow (first : Nat) (chain : List PowSync) (pows : Pows) : Pows := appendPowLoop first [] chain pows

/-! ## The operations -/

def getBlockHash (blocks : Blocks) (id : Nat) : Except Error Hash := do
  let block ← require blocks () id
  .ok block.hash

def Storage.rollback (height : Nat) (db : Storage) : Except Error Storage :=
  match db.blocks.getBoth () height with
  | none => .ok db
  | some cur => rollbackChain cur height db

/-- The loop of `sync_chain` over the hashes after the first: the database, the height
    and the hashes where it stops comparing. -/
def syncChainLoop (env : Env) (regtest : Bool) (db : Storage) :
    Cursor Version BlockInfo.id → Nat → List Hash → Except Error (Storage × Nat × List Hash)
  | _, current, [] => .ok (db, current, [])
  | cur, current, h :: chain =>
    match cur.nextDup with
    | none => .ok (db, current, h :: chain)
    | some cur =>
      match cur.row? with
      | none => .error .notFound
      | some r =>
        if r.2.hash ≠ h then
          if !regtest && decide (current ≤ env.maxHeight) then .error .badBlockchain
          else do
            let db ← rollbackChain cur current db
            .ok (db, current, h :: chain)
        else syncChainLoop env regtest db cur (current + 1) chain

def Storage.syncChain (env : Env) (height : Nat) (hashes : List Hash) (regtest : Bool) (db : Storage) :
    Except Error Storage :=
  match hashes with
  | [] => .error .invalidArgument
  | first :: chain => do
    let hash ← getBlockHash db.blocks height
    if hash ≠ first then .error .badBlockchain
    else
      match db.blocks.getBoth () height with
      | none => .error .notFound
      | some cur => do
        let (db, current, chain) ← syncChainLoop env regtest db cur (height + 1) chain
        .ok { db with blocks := appendBlockHashes current chain db.blocks }

def Env.checkpointOk (env : Env) (height : Nat) (hash : Hash) : Bool :=
  match env.checkpoints.find? fun c => decide (c.1 = height) with
  | none => true
  | some checkpoint => decide (checkpoint.2 = hash)

/-- The scan of `sync_pow` over the hashes it is about to append. -/
def checkpointsOk (env : Env) : Nat → List Hash → Bool
  | _, [] => true
  | current, h :: chain => env.checkpointOk current h && checkpointsOk env (current + 1) chain

/-- The loop of `sync_pow` over the hashes after the first: the database, the height
    and the hashes where it stops comparing. -/
def syncPowLoop (env : Env) (db : Storage) :
    Cursor Version BlockInfo.id → Nat → List Hash → Except Error (Storage × Nat × List Hash)
  | _, current, [] => .ok (db, current, [])
  | cur, current, h :: chain =>
    if !env.checkpointOk current h then .error .badBlockchain
    else
      match cur.nextDup with
      | none => .ok (db, current, h :: chain)
      | some cur =>
        match cur.row? with
        | none => .error .notFound
        | some r =>
          -- hit a checkpoint or other block that is ahead of pow
          if r.2.id ≠ current then .ok (db, current, h :: chain)
          else if r.2.hash ≠ h then
            if current ≤ env.maxHeight then .error .badBlockchain
            else do
              let db ← rollbackChain cur current db
              .ok (db, current, h :: chain)
          else syncPowLoop env db cur (current + 1) chain

def Storage.syncPow (env : Env) (height : Nat) (hashes : List Hash) (pow : List PowSync) (db : Storage) :
    Except Error Storage :=
  match hashes with
  | [] => .error .invalidArgument
  | first :: chain =>
    if chain.length + 1 ≠ pow.length then .error .invalidArgument
    else do
      let hash ← getBlockHash db.blocks height
      if hash ≠ first then .error .badBlockchain
      else
        match db.blocks.getBoth () height with
        | none => .error .notFound
        | some cur => do
          let (db, current, rest) ← syncPowLoop env db cur (height + 1) chain
          if !checkpointsOk env current rest then .error .badBlockchain
          else
            -- as many proofs of work are skipped as hashes were
            let blocks := appendBlockHashes current rest db.blocks
            let pows := appendPow current (pow.drop (chain.length + 1 - rest.length)) db.pows
            .ok { db with blocks, pows }

end Lws.Db
