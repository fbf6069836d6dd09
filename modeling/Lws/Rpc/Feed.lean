/-
  Lws.Rpc.Feed — the websocket feed of an account (`src/rpc/feed.h`, `src/rpc/feed.inl`,
  `src/rpc/feed_tcp.cpp`), and what the scanner publishes for it (`src/rpc/client.cpp`).

  The scanner publishes the progress of each account, and warnings for everyone, on an
  internal ZeroMQ socket. A connection that has logged in reads both, and turns each
  message into one for the client (`prepUpdate`). ZeroMQ may drop a message: the
  connection remembers the height of the last update and the number of the last warning
  to notice.

  A message is kept as the record that is written; the transactions of a message are kept
  as the outputs and spends they are merged from.
-/

import Lws.Mempool

namespace Lws.Rpc.Feed

open Lws.Db

/-! ## Errors -/

/-- `feed::status`, in the order clients know. -/
inductive Status where
  | unspecifiedError
  | accountNotFound
  | badAddress
  | badViewKey
  | blockchainReorg
  | daemonUnresponsive
  | parseError
  | protocolError
  | queueError
  | schemaError
  deriving DecidableEq, Repr

/-- The `std::error_code`s that `feed::map` tells apart, with the text of the others. -/
inductive ErrorCode where
  | missedMessages
  | protocol
  | queueMax
  | accountNotFound
  | badAddress
  | badViewKey
  | blockchainReorg
  | daemonTimeout
  | schema (message : String)
  | msgpack (message : String)
  | rapidjson (message : String)
  | other (message : String)
  deriving DecidableEq, Repr

def ErrorCode.message : ErrorCode → String
  | .missedMessages => "Internal client thread missed internal ZeroMQ messages"
  | .protocol => "Client did not follow protocool"
  | .queueMax => "Max queue for outgoing push messages was reached"
  | .accountNotFound => "No account with the specified address exists"
  | .badAddress => "Invalid base58 public address - wrong --network ?"
  | .badViewKey => "Address/viewkey mismatch"
  | .blockchainReorg => "A blockchain reorg has been detected"
  | .daemonTimeout => "Connection failed with daemon"
  | .schema message | .msgpack message | .rapidjson message | .other message => message

/-- `feed::map`. -/
def ErrorCode.status : ErrorCode → Status
  | .blockchainReorg => .blockchainReorg
  | .daemonTimeout => .daemonUnresponsive
  | .queueMax | .missedMessages => .queueError
  | .badAddress => .badAddress
  | .badViewKey => .badViewKey
  | .accountNotFound => .accountNotFound
  | .protocol => .protocolError
  | .schema _ => .schemaError
  | .msgpack _ | .rapidjson _ => .parseError
  | .other _ => .unspecifiedError

/-- `expect` cannot fail with a code that is no error: it takes this one instead. -/
def invalidErrorCode : ErrorCode := .other "common_error::kInvalidErrorCode"

/-- A database error as the feed sees it. -/
def ErrorCode.ofDb : Db.Error → ErrorCode
  | .accountNotFound => .accountNotFound
  | .badViewKey => .badViewKey
  | .blockchainReorg => .blockchainReorg
  | e => .other (reprStr e)

/-! ## Messages -/

structure FeedWarning where
  msg : String
  code : Status
  counter : UInt32
  height : Nat
  deriving DecidableEq, Repr

/-- `account::update`; `mempool_receive` has the same format. -/
structure Update where
  spends : List Spend
  outputs : List Output
  oldHeight : Nat
  newHeight : Nat
  deriving DecidableEq, Repr

inductive Message where
  | blocks (scanStart scanEnd blockchainHeight lookaheadFail : Nat) (lookahead : AddressIndex) (outputs : List Output)
      (spends : List Spend)
  | error (msg : String) (code : Status)
  | mempool (received : Output)
  | txSync (user : Db.Account) (blockchainHeight : Nat) (outputs : List Output) (spends : List Spend)
  | warning (w : FeedWarning)
  deriving DecidableEq, Repr

def prepError (e : ErrorCode) : Message := .error e.message e.status

def Message.isError : Message → Bool
  | .error _ _ => true
  | _ => false

/-- An `expect<epee::byte_slice>`, or an exception from `LWS_VERIFY`. -/
inductive Prepared where
  | message (m : Message)
  /-- The empty slice: there is nothing to send. -/
  | nothing
  | failed (e : ErrorCode)
  | thrown
  deriving DecidableEq, Repr

/-- What is read from the internal socket, once parsed. A warning that does not parse holds
    the fields read before the error. -/
inductive Source where
  | warning (error : Option ErrorCode) (w : FeedWarning)
  | update (parsed : Except ErrorCode Update)

/-! ## The connection's side -/

structure ConnectionSync where
  /-- The height of the last update, `txpool` before the first. -/
  height : Nat
  /-- The end of the last `blocks` message, `txpool` before the first. -/
  lastReported : Nat
  lastUpdate : Int
  id : Nat
  warnings : UInt32
  onTip : Bool
  receivesOnly : Bool
  deriving DecidableEq, Repr

def ConnectionSync.init : ConnectionSync := ⟨txpool, txpool, 0, invalidId, -1, false, false⟩

/-- `scanner_busy`, in nanoseconds. -/
def scannerBusy : Int := 10 * 10 ^ 9

/-- `feed::on_tip`. -/
def onTipBlocks : Nat := 10

def queueMax : Nat := 100

/-- The world when a message is handled: the database, whether a read of it can start, and
    the steady clock before and after the read. -/
structure Moment where
  db : Storage
  startRead : Option ErrorCode
  now : Int
  later : Int

def getLastBlock (db : Storage) : Except ErrorCode BlockInfo :=
  match db.blocks.set () with
  | none => .error (.ofDb .notFound)
  | some cur =>
    match cur.lastDup.row? with
    | none => .error (.ofDb .notFound)
    | some r => .ok r.2

def getAccount (db : Storage) (status : AccountStatus) (id : Nat) : Except ErrorCode Db.Account :=
  match db.accounts.get? status id with
  | some user => .ok user
  | none => .error .accountNotFound

/-- `storage_reader::get_account` by address: the index is by view key only. -/
def getAccountAt (db : Storage) (address : AccountAddress) : Except ErrorCode (AccountStatus × Db.Account) :=
  match db.accountsBa.get? () address.viewPublic with
  | none => .error .accountNotFound
  | some found =>
    if found.address ≠ address then .error .accountNotFound
    else (getAccount db found.lookup.status found.lookup.id).map fun user => (found.lookup.status, user)

def Moment.read (m : Moment) : Except ErrorCode Storage :=
  match m.startRead with
  | some e => .error e
  | none => .ok m.db

/-- What an update reads: the last block, and the account unless it is hidden. -/
def Moment.lookup (m : Moment) (id : Nat) : Except ErrorCode (BlockInfo × Db.Account) := do
  let db ← m.read
  let lastBlock ← getLastBlock db
  match getAccount db .active id with
  | .ok user => .ok (lastBlock, user)
  | .error .accountNotFound => (getAccount db .inactive id).map fun user => (lastBlock, user)
  | .error e => .error e

/-- A warning in `prep_update`. The check of the parse is the wrong way round in the source:
    one that parses is returned as the error code it has none of. -/
def prepWarning (error : Option ErrorCode) (w : FeedWarning) (sync : ConnectionSync) : Prepared × ConnectionSync :=
  if sync.receivesOnly then (.nothing, sync)
  else
    match error with
    | none => (.failed invalidErrorCode, sync)
    | some _ =>
      if sync.warnings ≠ w.counter then (.message (prepError .missedMessages), sync)
      else
        let height := if w.code = .blockchainReorg ∧ sync.height ≠ txpool then min sync.height w.height else sync.height
        (.message (.warning w), { sync with warnings := sync.warnings + 1, height })

/-- Whether `prep_update` has nothing to send for an update of blocks. -/
def ConnectionSync.suppresses (sync : ConnectionSync) (now : Int) (u : Update) : Bool :=
  (sync.receivesOnly && u.outputs.isEmpty) ||
    (!sync.onTip && u.outputs.isEmpty && u.spends.isEmpty && decide (now - sync.lastUpdate ≤ scannerBusy))

def prepBlocks (m : Moment) (u : Update) (sync : ConnectionSync) : Prepared × ConnectionSync :=
  match m.lookup sync.id with
  | .error e => (.failed e, sync)
  | .ok (lastBlock, user) =>
    (.message (.blocks (min sync.lastReported u.oldHeight) u.newHeight lastBlock.id user.lookaheadFail user.lookahead
        u.outputs u.spends),
      { sync with
        onTip := decide (lastBlock.id - min lastBlock.id u.newHeight ≤ onTipBlocks)
        lastUpdate := m.later
        lastReported := u.newHeight })

def prepUpdate (m : Moment) (source : Source) (sync : ConnectionSync) : Prepared × ConnectionSync :=
  match source with
  | .warning error w => prepWarning error w sync
  | .update (.error e) => (.failed e, sync)
  | .update (.ok u) =>
    if u.newHeight ≠ txpool then
      if sync.height ≠ txpool ∧ sync.height ≠ u.oldHeight then (.message (prepError .missedMessages), sync)
      else if sync.suppresses m.now u then (.nothing, { sync with height := u.newHeight })
      else prepBlocks m u { sync with height := u.newHeight }
    else
      match u.outputs with
      | [received] => (.message (.mempool received), sync)
      | _ => (.thrown, sync)

/-- Whether `prep_update` answers with `missed_messages`. -/
def ConnectionSync.misses (sync : ConnectionSync) : Source → Bool
  | .warning error w => !sync.receivesOnly && error.isSome && sync.warnings != w.counter
  | .update (.ok u) => u.newHeight != txpool && sync.height != txpool && sync.height != u.oldHeight
  | .update (.error _) => false

/-! ## The scanner's side -/

/-- What `account::updated` returns. -/
def updateOf (user : Lws.Account) (newHeight : Nat) : Update := ⟨user.spends, user.outputs, user.scanHeight, newHeight⟩

def mempoolReceive (receive : Output) : Update := ⟨[], [receive], txpool, txpool⟩

/-- A message on the internal socket, with its topic. -/
inductive Published where
  | warning (w : FeedWarning)
  | update (address : AccountAddress) (u : Update)
  deriving DecidableEq, Repr

/-- The scanner as the feed sees it: the accounts being scanned, and `warning_count`. -/
structure Publisher where
  users : List Lws.Account
  warningCount : UInt32

inductive PublishEvent where
  /-- `client::push_updates` after blocks were stored. -/
  | pushUpdates (newHeight : Nat)
  /-- `client::push_update` of an output found in the pool. -/
  | pushUpdate (address : AccountAddress) (receive : Output)
  /-- `push_warning`, from a sync of the chain with the height it began at or from a lost
      daemon with the height `txpool`. -/
  | pushWarning (error : ErrorCode) (height : Nat)
  /-- The scanner restarts: the accounts are those of the database, which a sync may have
      rolled back. -/
  | reload (users : List Lws.Account)

def Publisher.publish (p : Publisher) : PublishEvent → List Published × Publisher
  | .pushUpdates newHeight =>
    ((p.users.filter fun user => !decide (newHeight < user.scanHeight)).map fun user =>
        .update user.address (updateOf user newHeight),
      { p with users := pushUpdates true newHeight p.users })
  | .pushUpdate address receive => ([.update address (mempoolReceive receive)], p)
  | .pushWarning error height =>
    ([.warning ⟨error.message, error.status, p.warningCount, height⟩], { p with warningCount := p.warningCount + 1 })
  | .reload users => ([], { p with users })

def Publisher.published : Publisher → List PublishEvent → List Published
  | _, [] => []
  | p, e :: events => (p.publish e).1 ++ (p.publish e).2.published events

/-- What `account_sub::watch` subscribes to. -/
def Published.isFor (address : AccountAddress) : Published → Bool
  | .warning _ => true
  | .update topic _ => decide (topic = address)

/-- What a reader of the message parses. -/
def Published.source : Published → Source
  | .warning w => .warning none w
  | .update _ u => .update (.ok u)

/-! ## Login -/

structure FeedLogin where
  address : AccountAddress
  key : SecretKey
  txSync : Bool
  receivesOnly : Bool

/-- The client's first message: it has another prefix than `login:`, or it is parsed. -/
inductive LoginSource where
  | badPrefix
  | login (parsed : Except ErrorCode FeedLogin)

def openAccount (env : Env) (m : Moment) (login : FeedLogin) : Except ErrorCode (Db.Account × Storage) := do
  if env.secretKeyToPublicKey login.key ≠ some login.address.viewPublic then .error .badViewKey
  else
    let db ← m.read
    let (status, user) ← getAccountAt db login.address
    if status = .hidden then .error .accountNotFound else .ok (user, db)

def loginMessage (db : Storage) (user : Db.Account) (txSync : Bool) : Except ErrorCode Message := do
  let lastBlock ← getLastBlock db
  if txSync then
    .ok (.txSync user lastBlock.id ((db.outputs.rows.filter (·.1 = user.id)).map (·.2))
      ((db.spends.rows.filter (·.1 = user.id)).map (·.2)))
  else .ok (.blocks user.startHeight user.scanHeight lastBlock.id user.lookaheadFail user.lookahead [] [])

/-- `prep_login`, where `watch` is what the subscription answers. -/
def prepLogin (env : Env) (m : Moment) (watch : Except ErrorCode UInt32) (source : LoginSource)
    (sync : ConnectionSync) :
    Prepared × ConnectionSync :=
  match source with
  | .badPrefix => (.failed .protocol, sync)
  | .login (.error e) => (.failed e, sync)
  | .login (.ok login) =>
    match watch with
    | .error e => (.failed e, sync)
    | .ok watcher =>
      match openAccount env m login with
      | .error e => (.failed e, sync)
      | .ok (user, db) =>
        let sync := { sync with receivesOnly := login.receivesOnly, id := user.id, warnings := watcher }
        match loginMessage db user login.txSync with
        | .error e => (.failed e, sync)
        | .ok message => (.message message, sync)

/-! ## The loop -/

/-- Where the coroutine `zmq_loop` waits. -/
inductive LoopPhase where
  | handshake
  | login
  | reading
  | stopped
  deriving DecidableEq, Repr

structure Connection where
  sync : ConnectionSync
  /-- `write_queue_`, the message being written first. -/
  queue : List Message
  phase : LoopPhase
  /-- `is_closing()`: the subscription was shut down. -/
  closing : Bool
  /-- Everything put in the queue so far. -/
  queued : List Message

def Connection.init : Connection := ⟨.init, [], .handshake, false, []⟩

/-- `write_queue_.push_back`. -/
def Connection.enqueue (c : Connection) (m : Message) : Connection :=
  { c with queue := c.queue ++ [m], queued := c.queued ++ [m] }

/-- `do_write`: the connection, and whether the loop goes on. An exception leaves the loop. -/
def Connection.doWrite (c : Connection) : Prepared → Connection × Bool
  | .message m => (c.enqueue m, true)
  | .nothing => (c, true)
  | .failed e => (c.enqueue (prepError e), false)
  | .thrown => (c, false)

def Connection.login (c : Connection) (env : Env) (m : Moment) (watch : Except ErrorCode UInt32)
    (source : LoginSource) :
    Connection × Bool :=
  let (prepared, sync) := prepLogin env m watch source c.sync
  { c with sync }.doWrite prepared

def Connection.push (c : Connection) (m : Moment) (source : Source) : Connection × Bool :=
  if queueMax < c.queue.length then (c.enqueue (prepError .queueMax), false)
  else
    let (prepared, sync) := prepUpdate m source c.sync
    { c with sync }.doWrite prepared

/-- What completes on the strand of a connection. -/
inductive FeedEvent where
  /-- The handshake, with or without an error. -/
  | handshake (ok : Bool)
  /-- The read of the login fails or times out. -/
  | loginFailure
  | login (env : Env) (m : Moment) (watch : Except ErrorCode UInt32) (source : LoginSource)
  /-- A message arrives on the internal socket. -/
  | update (m : Moment) (source : Source)
  /-- The internal socket fails, or was shut down. -/
  | readFailure
  /-- The write of the first message in the queue completes. -/
  | written
  /-- A close frame, a frame the client may not send, a failed write or a timeout. -/
  | close

/-- The loop goes on with the next read, or stops: `client_close`, `close_check` and
    `async_close` all shut the subscription down. -/
def Connection.continue (next : Connection × Bool) : Connection :=
  if next.2 then { next.1 with phase := .reading } else { next.1 with phase := .stopped, closing := true }

def Connection.stop (c : Connection) : Connection := { c with phase := .stopped, closing := true }

/-- One completion. Those the loop does not wait for are stale copies and do nothing. -/
def Connection.step (c : Connection) : FeedEvent → Connection
  | .handshake ok => if c.phase = .handshake then (if ok then { c with phase := .login } else c.stop) else c
  | .loginFailure => if c.phase = .login then c.stop else c
  | .login env m watch source => if c.phase = .login then Connection.continue (c.login env m watch source) else c
  | .update m source => if c.phase = .reading then Connection.continue (c.push m source) else c
  | .readFailure => if c.phase = .reading then c.stop else c
  | .written => { c with queue := c.queue.tail }
  | .close => { c with closing := true }

def Connection.run (c : Connection) (events : List FeedEvent) : Connection := events.foldl Connection.step c

end Lws.Rpc.Feed
