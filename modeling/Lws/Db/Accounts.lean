/-
  Lws.Db.Accounts — accounts and requests (`src/db/storage.cpp`: `find_last_id`,
  `update_access_time`, `change_status`, `do_add_account`, `add_account`,
  `change_height`, `rescan`, `creation_request`, `import_request`, `shrink_lookahead`,
  `create_accounts`, `import_accounts`, `accept_requests`, `reject_requests`,
  `upsert_subaddresses`, `update_lookahead`).

  An account has a row in three tables: `accounts` by status and id,
  `accounts_by_address` by its public view key, and `accounts_by_height` by its scan
  height and id. An address is looked up by its view key alone. `clock` is the system
  clock's count of seconds.
-/

import Lws.Db.Subaddress

namespace Lws.Db

open Lws.Lmdb

/-! ## Finding accounts -/

def findLastIdLoop : Nat → Nat → Cursor AccountStatus Account.id → Nat
  | 0, best, _ => best
  | n + 1, best, cur =>
    let cur := cur.lastDup
    match cur.row? with
    | none => best
    | some r =>
      let best := max best r.2.id
      match cur.nextNodup with
      | none => best
      | some cur => findLastIdLoop n best cur

def findLastId (accounts : Accounts) : Nat :=
  match accounts.first with
  | none => 0
  | some cur => findLastIdLoop accounts.rows.length 0 cur

/-- The id after `last`, at 32 bits. -/
def nextId (last : Nat) : Nat := (last + 1) % 2 ^ 32

/-- The account an address is looked up as, and its index row. -/
def findAccount (db : Storage) (address : AccountAddress) : Except Error (AccountLookup × Account) :=
  match db.accountsBa.get? () address.viewPublic with
  | none => .error .accountNotFound
  | some byAddress => do
    let user ← require db.accounts byAddress.lookup.status byAddress.lookup.id
    .ok (byAddress.lookup, user)

/-- The height of the last block (`MDB_SET`, then `MDB_LAST_DUP`). -/
def lastHeight (blocks : Blocks) : Except Error Nat :=
  match blocks.set () with
  | none => .error .notFound
  | some cur =>
    match cur.lastDup.row? with
    | none => .error .notFound
    | some r => .ok r.2.id

def Storage.updateAccessTime (clock : Int) (address : AccountAddress) (db : Storage) : Except Error Storage := do
  let access ← getAccountTime clock
  let (lookup, user) ← findAccount db address
  .ok { db with accounts := db.accounts.put lookup.status { user with access } }

/-! ## Status -/

def changeStatusOf (status : AccountStatus) (address : AccountAddress) (db : Storage) :
    Except Error (Storage × List AccountAddress) :=
  match db.accountsBa.get? () address.viewPublic with
  | none => .ok (db, [])
  | some byAddress =>
    let current := byAddress.lookup.status
    if current ≠ status then do
      let lookup := { byAddress.lookup with status }
      let accountsBa := db.accountsBa.put () { byAddress with lookup }
      let user ← require db.accounts current lookup.id
      let accounts ← putNewOr .keyExist (db.accounts.erase current lookup.id) status user
      let _ ← require db.accountsBh user.scanHeight user.id
      let accountsBh := db.accountsBh.put user.scanHeight lookup
      .ok ({ db with accounts, accountsBa, accountsBh }, [address])
    else .ok (db, [address])

/-- `storage::change_status`: the addresses found. -/
def Storage.changeStatus (status : AccountStatus) : List AccountAddress → Storage →
    Except Error (Storage × List AccountAddress)
  | [], db => .ok (db, [])
  | address :: addresses, db => do
    let (db, changed) ← changeStatusOf status address db
    let (db, rest) ← Storage.changeStatus status addresses db
    .ok (db, changed ++ rest)

/-! ## Adding -/

def doAddAccount (env : Env) (user : Account) (db : Storage) : Except Error Storage := do
  if env.secretKeyToPublicKey user.key ≠ some user.address.viewPublic then .error .badViewKey
  else
    let status := if user.flags = adminAccount then AccountStatus.hidden else AccountStatus.active
    let lookup : AccountLookup := ⟨user.id, status⟩
    let accountsBa ← putNewOr .accountExists db.accountsBa () ⟨user.address, lookup⟩
    let accountsBh ← putNewOr .keyExist db.accountsBh user.scanHeight lookup
    let accounts ← putNewOr .keyExist db.accounts status user
    .ok { db with accounts, accountsBa, accountsBh }

def Storage.addAccount (env : Env) (clock : Int) (address : AccountAddress) (key : SecretKey) (flags : Nat)
    (db : Storage) : Except Error Storage := do
  let currentTime ← getAccountTime clock
  let lastId := findLastId db.accounts
  let height ← lastHeight db.blocks
  doAddAccount env
    { id := nextId lastId
      access := currentTime
      address, key
      scanHeight := height
      startHeight := height
      creation := currentTime
      flags
      lookahead := ⟨0, 0⟩
      lookaheadFail := 0 } db

/-! ## Changing the height -/

/-- What `change_height` writes to an account before the lookahead. -/
def Account.lowered (user : Account) (height : Nat) : Account :=
  { user with
    scanHeight := min height user.scanHeight
    startHeight := min height user.startHeight
    lookaheadFail := if height ≤ user.lookaheadFail then 0 else user.lookaheadFail }

/-- The lookahead of `change_height` and `create_accounts`, which is run where one is
    asked for and the caller gives a limit. -/
def applyLookahead (env : Env) (limit : Option Nat) (user : Account) (lookahead : AddressIndex) (outputs : Outputs)
    (ranges : SubaddressRanges) (indexes : SubaddressIndexes) :
    Except Error (Account × SubaddressRanges × SubaddressIndexes) :=
  match limit with
  | none => .ok (user, ranges, indexes)
  | some maxSubaddresses =>
    if lookahead.isZero then .ok (user, ranges, indexes)
    else
      let looked := doLookaheadFor env user lookahead maxSubaddresses outputs ranges indexes
      match looked.result with
      | .ok user => .ok (user, looked.ranges, looked.indexes)
      | .error e => .error e

/-- `change_height`; `limit` is the lookahead limit, `none` where the caller gives no
    subaddress cursors. -/
def changeHeight (env : Env) (height : Nat) (address : AccountAddress) (lookahead : AddressIndex)
    (limit : Option Nat) (db : Storage) : Except Error Storage := do
  let (lookup, user) ← findAccount db address
  let currentHeight := user.scanHeight
  let newHeight := min height currentHeight
  let user := user.lowered height
  -- rollback before lookahead
  let outputs ← rollbackOutputs user.id height db.outputs
  let (spends, images) ← rollbackSpends user.id height db.spends db.images
  let (user, subaddressRanges, subaddressIndexes) ←
    applyLookahead env limit user lookahead outputs db.subaddressRanges db.subaddressIndexes
  let accounts := db.accounts.put lookup.status user
  let _ ← require db.accountsBh currentHeight user.id
  -- index must match `scan_height`, which never moves forward here
  let accountsBh ← putNewOr .keyExist (db.accountsBh.erase currentHeight user.id) newHeight lookup
  .ok { db with accounts, accountsBh, outputs, spends, images, subaddressRanges, subaddressIndexes }

def rescanLoop (env : Env) (height : Nat) : List AccountAddress → Storage →
    Except Error (Storage × List AccountAddress)
  | [], db => .ok (db, [])
  | address :: addresses, db =>
    match changeHeight env height address ⟨0, 0⟩ none db with
    | .ok db => do
      let (db, updated) ← rescanLoop env height addresses db
      .ok (db, address :: updated)
    | .error .accountNotFound => rescanLoop env height addresses db
    | .error e => .error e

def Storage.rescan (env : Env) (height : Nat) (addresses : List AccountAddress) (db : Storage) :
    Except Error (Storage × List AccountAddress) := do
  let currentHeight ← lastHeight db.blocks
  if currentHeight < height then .error .badHeight
  else rescanLoop env height addresses db

/-! ## Requests -/

def Storage.creationRequest (env : Env) (clock : Int) (address : AccountAddress) (key : SecretKey)
    (flags : Nat) (lookahead : AddressIndex) (db : Storage) :
    Except Error (Storage × List WebhookNewAccount) := do
  if env.createQueueMax = 0 then .error .createQueueMax
  else
    let currentTime ← getAccountTime clock
    if (db.accountsBa.get? () address.viewPublic).isSome then .error .accountExists
    else
      let count := db.requests.count .create
      if count ≠ 0 ∧ env.createQueueMax ≤ count then .error .createQueueMax
      else
        let height ← lastHeight db.blocks
        let requests ←
          putNewOr .duplicateRequest db.requests .create ⟨address, key, height, currentTime, flags, lookahead⟩
        let hooks := (db.webhooks.dups ⟨invalidId, .newAccount⟩).map fun hook => ⟨hook, address⟩
        .ok ({ db with requests }, hooks)

def Storage.importRequest (clock : Int) (address : AccountAddress) (height : Nat) (lookahead : AddressIndex)
    (db : Storage) : Except Error Storage := do
  let _ ← getAccountTime clock
  if (db.accountsBa.get? () address.viewPublic).isNone then .error .accountNotFound
  else
    let requests ← putNewOr .duplicateRequest db.requests .importScan ⟨address, 0, height, 0, 0, lookahead⟩
    .ok { db with requests }

def Storage.shrinkLookahead (address : AccountAddress) (lookahead : AddressIndex) (db : Storage) :
    Except Error Storage := do
  let (lookup, user) ← findAccount db address
  if user.lookaheadFail ≠ 0 ∨ user.lookahead.majI < lookahead.majI ∨ user.lookahead.minI < lookahead.minI then
    .error .maxSubaddresses
  else .ok { db with accounts := db.accounts.put lookup.status { user with lookahead } }

/-- The account `create_accounts` makes of a request, before the lookahead. -/
def requestedAccount (id : Nat) (currentTime : Nat) (address : AccountAddress) (info : RequestInfo) : Account :=
  { id
    access := currentTime
    address
    key := info.key
    scanHeight := info.startHeight
    startHeight := info.startHeight
    creation := info.creation
    flags := info.creationFlags
    lookahead := ⟨0, 0⟩
    lookaheadFail := 0 }

/-- The loop of `create_accounts`. A request whose account exists or whose view key is
    bad is dropped after its lookahead, and the loop goes on with the tables as they are. -/
def createAccountsLoop (env : Env) (currentTime : Nat) (maxSubaddresses : Nat) :
    Nat → List AccountAddress → Storage → Except Error (Storage × List AccountAddress)
  | _, [], db => .ok (db, [])
  | lastId, address :: addresses, db =>
    match db.requests.get? .create address.spendPublic with
    | none => createAccountsLoop env currentTime maxSubaddresses lastId addresses db
    | some info => do
      let db := { db with requests := db.requests.erase .create address.spendPublic }
      let next := nextId lastId
      if next = invalidId then .error .accountMax
      else
        let (user, subaddressRanges, subaddressIndexes) ←
          applyLookahead env (some maxSubaddresses) (requestedAccount next currentTime address info) info.lookahead
            db.outputs db.subaddressRanges db.subaddressIndexes
        let db := { db with subaddressRanges, subaddressIndexes }
        match doAddAccount env user db with
        | .ok db => do
          let (db, stored) ← createAccountsLoop env currentTime maxSubaddresses next addresses db
          .ok (db, address :: stored)
        | .error .accountExists => createAccountsLoop env currentTime maxSubaddresses lastId addresses db
        | .error .badViewKey => createAccountsLoop env currentTime maxSubaddresses lastId addresses db
        | .error e => .error e

def createAccounts (env : Env) (clock : Int) (addresses : List AccountAddress) (maxSubaddresses : Nat) (db : Storage) :
    Except Error (Storage × List AccountAddress) := do
  let currentTime ← getAccountTime clock
  createAccountsLoop env currentTime maxSubaddresses (findLastId db.accounts) addresses db

/-- The loop of `import_accounts`. The code reads the lookahead after it deleted the
    row; it is taken as the row's. -/
def importAccounts (env : Env) (maxSubaddresses : Nat) : List AccountAddress → Storage →
    Except Error (Storage × List AccountAddress)
  | [], db => .ok (db, [])
  | address :: addresses, db =>
    match db.requests.get? .importScan address.spendPublic with
    | none => importAccounts env maxSubaddresses addresses db
    | some info =>
      let db := { db with requests := db.requests.erase .importScan address.spendPublic }
      match changeHeight env info.startHeight address info.lookahead (some maxSubaddresses) db with
      | .ok db => do
        let (db, updated) ← importAccounts env maxSubaddresses addresses db
        .ok (db, address :: updated)
      | .error .accountNotFound => importAccounts env maxSubaddresses addresses db
      | .error e => .error e

def Storage.acceptRequests (env : Env) (clock : Int) (req : Request) (addresses : List AccountAddress)
    (maxSubaddresses : Nat) (db : Storage) : Except Error (Storage × List AccountAddress) :=
  match req with
  | .create => if addresses.isEmpty then .ok (db, []) else createAccounts env clock addresses maxSubaddresses db
  | .importScan => importAccounts env maxSubaddresses addresses db

def Storage.rejectRequests (req : Request) : List AccountAddress → Storage → Storage × List AccountAddress
  | [], db => (db, [])
  | address :: addresses, db =>
    match db.requests.get? req address.spendPublic with
    | none => Storage.rejectRequests req addresses db
    | some _ =>
      let (db, rejected) :=
        Storage.rejectRequests req addresses { db with requests := db.requests.erase req address.spendPublic }
      (db, address :: rejected)

/-! ## Subaddresses -/

/-- `operator<` of the entries, on which `upsert_subaddresses` sorts. -/
def dictLe (a b : SubaddressDict) : Bool :=
  decide (a.1 < b.1) || (decide (a.1 = b.1) &&
    !List.lex b.2 a.2 fun x y => decide (x.1 < y.1) || (decide (x.1 = y.1) && decide (x.2 < y.2)))

def Storage.upsertSubaddresses (env : Env) (id : Nat) (address : AccountAddress) (viewKey : SecretKey)
    (subaddrs : List SubaddressDict) (maxSubaddr : Nat) (db : Storage) : Except Error (Storage × List SubaddressDict) :=
  let upserted := doUpsert env id address viewKey (subaddrs.mergeSort dictLe) maxSubaddr
    db.subaddressRanges db.subaddressIndexes
  match upserted.result with
  | .ok out => .ok ({ db with subaddressRanges := upserted.ranges, subaddressIndexes := upserted.indexes }, out)
  | .error e => .error e

/-- The entries `update_lookahead` upserts after an output at `fresh`. -/
def lookaheadUpsertions (fresh : AddressIndex) (major minor : Nat) : List SubaddressDict :=
  (List.range (addAndClamp fresh.majI major)).map fun i =>
    if i = fresh.majI then (i, [(0, addAndClamp fresh.minI (minor - 1))]) else (i, [(0, minor - 1)])

/-- The lookahead of `update_lookahead`, which runs into the limit without writing when
    the account's own lookahead does not fit. -/
def updateLookaheadUpsert (env : Env) (user : Account) (address : AccountAddress) (fresh : AddressIndex)
    (maxSubaddresses : Nat) (db : Storage) : Upsert (List SubaddressDict) :=
  let major := user.lookahead.majI
  let minor := user.lookahead.minI
  if major ≤ uint32Max / minor ∧ major * minor ≤ maxSubaddresses then
    doUpsert env user.id address user.key (lookaheadUpsertions fresh major minor) maxSubaddresses
      db.subaddressRanges db.subaddressIndexes
  else ⟨db.subaddressRanges, db.subaddressIndexes, .error .maxSubaddresses⟩

/-- What `update_lookahead` writes to an account past the limit. -/
def Account.lookaheadFailedAt (user : Account) (height : Nat) : Account :=
  { user with
    lookaheadFail := if user.lookaheadFail = 0 then max 1 height else max 1 (min user.lookaheadFail height) }

/-- `storage::update_lookahead`; `-1` past the limit. -/
def Storage.updateLookahead (env : Env) (address : AccountAddress) (height : Nat) (fresh : AddressIndex)
    (maxSubaddresses : Nat) (db : Storage) : Except Error (Storage × Int) := do
  let (lookup, user) ← findAccount db address
  if user.lookahead.majI = 0 ∨ user.lookahead.minI = 0 then .ok (db, 0)
  else
    let upserted := updateLookaheadUpsert env user address fresh maxSubaddresses db
    let db := { db with subaddressRanges := upserted.ranges, subaddressIndexes := upserted.indexes }
    match upserted.result with
    | .ok out => .ok (db, min uint32Max out.length)
    | .error .maxSubaddresses =>
      .ok ({ db with accounts := db.accounts.put lookup.status (user.lookaheadFailedAt height) }, -1)
    | .error e => .error e

end Lws.Db
