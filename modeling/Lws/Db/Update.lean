/-
  Lws.Db.Update — storing a batch of scan results (`src/db/storage.cpp`: `add_spends`,
  `check_hooks`, `add_ongoing_hooks`, `check_spends`, `storage::update`), and the
  webhooks it serves (`add_webhook`, both `clear_webhooks`).
-/

import Lws.Account
import Lws.Db.Accounts

namespace Lws.Db

open Lws.Lmdb

/-! ## Spends and webhooks of one account -/

def addSpends (user : Nat) (list : List Spend) (spends : Spends) (images : Images) : Spends × Images :=
  (bulkInsert spends user list,
    list.foldl (fun images entry => images.putAbsent entry.source ⟨entry.image, entry.link⟩) images)

/-- The events of one output: one for each webhook of its payment id. -/
def hookEvents (webhooks : Webhooks) (user : Nat) (out : Output) : List WebhookEvent :=
  let sorter : WebhookDupsort := ⟨out.shortId, 0⟩
  let hooks := webhooks.dupsFrom ⟨user, .txConfirmation⟩ fun hook => decide (sorter ≤ hook.1)
  (hooks.takeWhile fun hook => decide (hook.1.paymentId = sorter.paymentId)).map fun hook =>
    ⟨⟨out.link, out.spendMeta.id⟩, hook.1⟩

def checkHooks (webhooks : Webhooks) (user : Lws.Account) (events : Events) : Events :=
  user.outputs.foldl (fun events out => events.putAll user.id (hookEvents webhooks user.id out)) events

/-- The confirmation counts of an event over `n` more blocks, from `current` up to the
    count asked for (32 bits). -/
def confirmationsFrom (requested : Nat) : Nat → Nat → List Nat
  | 0, current => [current]
  | n + 1, current =>
    if requested ≤ current then [current] else current :: confirmationsFrom requested n ((current + 1) % 2 ^ 32)

/-- One event of `add_ongoing_hooks`: what it publishes, and whether it is complete. -/
def ongoingHook (webhooks : Webhooks) (outputs : Outputs) (user : Nat) (begin_ end_ : Nat)
    (pubs : List WebhookTxConfirmation) (r : Nat × WebhookEvent) :
    Except Error (List WebhookTxConfirmation × Bool) :=
  let event := r.2
  let thisBegin := max begin_ event.link.tx.height
  if thisBegin < end_ then do
    let hookKey : WebhookKey := ⟨user, .txConfirmation⟩
    let hook ← require webhooks hookKey event.linkWebhook
    let out ← require outputs user event.link.sort
    let requested := hook.2.confirmations
    let confirmations :=
      confirmationsFrom requested (end_ - (thisBegin + 1)) ((thisBegin - event.link.tx.height + 1) % 2 ^ 32)
    let pub (n : Nat) : WebhookTxConfirmation := ⟨hookKey, (hook.1, { hook.2 with confirmations := n }), out⟩
    .ok (pubs ++ confirmations.map pub, decide (requested ≤ confirmations.getLast?.getD 0))
  else .ok (pubs, false)

def addOngoingHooks (webhooks : Webhooks) (outputs : Outputs) (user : Nat) (begin_ end_ : Nat)
    (pubs : List WebhookTxConfirmation) (events : Events) : Except Error (List WebhookTxConfirmation × Events) :=
  if begin_ = end_ then .ok (pubs, events)
  else events.eachDup user (ongoingHook webhooks outputs user begin_ end_) pubs

/-- The search of `check_spends` for the output a spend names. -/
def findSource (s : Spend) : List Output → Except Error SpendMeta
  | [] => .error .notFound
  | out :: outputs =>
    if out.spendMeta.id = s.source then .ok out.spendMeta
    else if s.link.height < out.link.height then .error .notFound
    else findSource s outputs

def checkSpends (webhooks : Webhooks) (outputs : Outputs) (user : Lws.Account) : Except Error (List WebhookTxSpend) :=
  let received := outputs.dups user.id
  if received.isEmpty then .ok []
  else do
    let hookKey : WebhookKey := ⟨user.id, .txSpend⟩
    let pubs ← (webhooks.dups hookKey).mapM fun hook => user.spends.mapM fun s => do
      let source ← findSource s received
      .ok (⟨hookKey, hook, s, source⟩ : WebhookTxSpend)
    .ok pubs.flatten

/-! ## Update -/

structure Updated where
  confirmPubs : List WebhookTxConfirmation
  spendPubs : List WebhookTxSpend
  accountsUpdated : Nat
  deriving DecidableEq, Repr

/-- The chain part of `update`: the batch is checked against the stored blocks, and its
    new blocks are stored. -/
def updateChain (env : Env) (height : Nat) (chain : List Hash) (pow : List PowSync) (regtest : Bool) (db : Storage) :
    Except Error Storage :=
  let lastUpdate := height + chain.length - 1
  if regtest || decide (env.maxHeight ≤ lastUpdate) then do
    let lastBlock ← lastHeight db.blocks
    if lastBlock < height then .error .badBlockchain
    else
      let lastSame := min lastBlock lastUpdate
      let offset := lastSame - height
      let hash ← getBlockHash db.blocks lastSame
      if chain[offset]? ≠ some hash then .error .blockchainReorg
      else
        let blocks := appendBlockHashes (height + offset + 1) (chain.drop (offset + 1)) db.blocks
        let pows := if pow.isEmpty then db.pows else appendPow (height + offset + 1) (pow.drop (offset + 1)) db.pows
        .ok { db with blocks, pows }
  else
    match db.blocks.get? () lastUpdate with
    | none => .ok db
    | some block => if chain.getLast? ≠ some block.hash then .error .badBlockchain else .ok db

/-- The row `update` finds for a scanned account, and its status; `none` skips it. -/
def existingAccount (db : Storage) (user : Lws.Account) : Except Error (Option (AccountStatus × Account)) :=
  match db.accounts.get? .active user.id with
  | some existing => .ok (some (.active, existing))
  | none =>
    match db.accountsBa.get? () user.address.viewPublic with
    | none => .ok none
    | some byAddress => do
      let existing ← require db.accounts byAddress.lookup.status user.id
      .ok (some (byAddress.lookup.status, existing))

/-- What `update` writes for an account it raises from `existing` to `lastUpdate`. -/
def storeUser (height lastUpdate : Nat) (user : Lws.Account) (status : AccountStatus) (existing : Account)
    (out : Updated) (db : Storage) : Except Error (Storage × Updated) := do
  let accounts := db.accounts.put status { existing with scanHeight := lastUpdate }
  let _ ← require db.accountsBh existing.scanHeight user.id
  let accountsBh := db.accountsBh.erase existing.scanHeight user.id
  let outputs := bulkInsert db.outputs user.id user.outputs
  let (spends, images) := addSpends user.id user.spends db.spends db.images
  let ongoingStart := max (height + 1) (existing.scanHeight + 1)
  let events := checkHooks db.webhooks user db.events
  let (confirmPubs, events) ←
    addOngoingHooks db.webhooks outputs user.id ongoingStart (lastUpdate + 1) out.confirmPubs events
  let spendPubs ← checkSpends db.webhooks outputs user
  .ok ({ db with accounts, accountsBh, outputs, spends, images, events },
    { out with confirmPubs, spendPubs := out.spendPubs ++ spendPubs })

/-- One account of `update` that has a row; `heights` collects the rows of
    `accounts_by_height`. -/
def updateExisting (height lastUpdate : Nat) (user : Lws.Account) (status : AccountStatus) (existing : Account)
    (out : Updated) (heights : List AccountLookup) (db : Storage) : Except Error (Storage × Updated × List AccountLookup) :=
  if existing.scanHeight < user.scanHeight then .ok (db, out, heights)
  else
    let out := { out with accountsUpdated := out.accountsUpdated + 1 }
    -- Don't re-store data if already scanned
    if lastUpdate ≤ existing.scanHeight then .ok (db, out, heights)
    else do
      let (db, out) ← storeUser height lastUpdate user status existing out db
      .ok (db, out, heights ++ [⟨user.id, status⟩])

def updateUser (height lastUpdate : Nat) (user : Lws.Account) (out : Updated) (heights : List AccountLookup)
    (db : Storage) : Except Error (Storage × Updated × List AccountLookup) := do
  match ← existingAccount db user with
  | none => .ok (db, out, heights)
  | some (status, existing) => updateExisting height lastUpdate user status existing out heights db

/-- The loop of `update` over the accounts, with its buffer of 127 heights. -/
def updateUsers (height lastUpdate : Nat) : List Lws.Account → Updated → List AccountLookup → Storage →
    Except Error (Storage × Updated)
  | [], out, heights, db => .ok ({ db with accountsBh := bulkInsert db.accountsBh lastUpdate heights }, out)
  | user :: users, out, heights, db => do
    let (heights, db) :=
      if heights.length = 127 then ([], { db with accountsBh := bulkInsert db.accountsBh lastUpdate heights })
      else (heights, db)
    let (db, out, heights) ← updateUser height lastUpdate user out heights db
    updateUsers height lastUpdate users out heights db

def Storage.update (env : Env) (height : Nat) (chain : List Hash) (users : List Lws.Account) (pow : List PowSync)
    (regtest : Bool) (db : Storage) : Except Error (Storage × Updated) :=
  if users.isEmpty && chain.isEmpty then .ok (db, ⟨[], [], 0⟩)
  else if chain.isEmpty then .error .invalidArgument
  else if !pow.isEmpty && decide (chain.length ≠ pow.length) then .error .invalidArgument
  else do
    let db ← updateChain env height chain pow regtest db
    updateUsers height (height + chain.length - 1) users ⟨[], [], 0⟩ [] db

/-! ## Webhooks -/

def webhookUser (accountsBa : AccountsByAddress) : Option AccountAddress → Nat
  | none => invalidId
  | some address => ((accountsBa.get? () address.viewPublic).map (·.lookup.id)).getD invalidId

def Storage.addWebhook (env : Env) (type : WebhookType) (address : Option AccountAddress) (event : WebhookValue)
    (db : Storage) : Except Error Storage :=
  let badUrl := event.2.url ≠ "zmq" ∧
    (event.2.url = "" ∨ (env.urlSchema event.2.url ≠ some "http" ∧ env.urlSchema event.2.url ≠ some "https"))
  if badUrl then .error .badUrl
  else
    let user := webhookUser db.accountsBa address
    if user = invalidId ∧ (type = .txConfirmation ∨ type = .txSpend) then .error .badWebhook
    else .ok { db with webhooks := db.webhooks.put ⟨user, type⟩ event }

def Storage.clearWebhooks : List AccountAddress → Storage → Except Error Storage
  | [], db => .ok db
  | address :: addresses, db => do
    let byAddress ← require db.accountsBa () address.viewPublic
    let user := byAddress.lookup.id
    Storage.clearWebhooks addresses
      { db with
        webhooks := db.webhooks.eraseKey ⟨user, .txConfirmation⟩
        events := db.events.eraseKey user }

def Storage.clearWebhookIds (ids : List Uuid) (db : Storage) : Except Error Storage :=
  if ids.isEmpty then .ok db
  else do
    let (_, webhooks) ← db.webhooks.eachRow (fun _ r => .ok ((), decide (r.2.1.eventId ∈ ids))) ()
    let (_, events) ← db.events.eachRow (fun _ r => .ok ((), decide (r.2.linkWebhook.eventId ∈ ids))) ()
    .ok { db with webhooks, events }

end Lws.Db
