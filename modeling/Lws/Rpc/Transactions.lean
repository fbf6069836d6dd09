/-
  Lws.Rpc.Transactions — the transactions and the balance of an account
  (`src/rpc/light_wallet.cpp`: `find_metadata`, `merge_into_txes` and both
  `get_address_txs_response::load`; `src/rest_server.cpp`: `is_locked`,
  `get_address_info`).

  Outputs and spends are stored apart, each ordered by the transaction they are in.
  `merge_into_txes` walks both and gathers what belongs to one transaction; a spend shows
  the metadata of the output it may spend, so the metadata of the outputs passed is kept,
  sorted by output id. `get_address_info` goes through the same rows a second time.

  Amounts are added at 64 bits. A failed `LWS_VERIFY` and the `std::logic_error` of
  `get_address_info` are exceptions. The loop of `merge_into_txes` takes a number of rounds:
  it is `running` when they do not suffice. The constants of the daemon that `is_locked`
  compares with are its first argument.
-/

import Lws.Rpc.Feed

namespace Lws.Rpc

open Lws.Db Lws.Rpc.Feed

structure TransactionSpend where
  spendMeta : SpendMeta
  possibleSpend : Spend
  deriving DecidableEq, Repr, Inhabited

structure GetTransaction where
  info : Output
  receives : List Output
  spends : List TransactionSpend
  spent : Nat
  deriving DecidableEq, Repr, Inhabited

inductive Thrown where
  | verify
  | logicError (message : String)
  | running
  deriving DecidableEq, Repr

def add64 (a b : Nat) : Nat := (a + b) % 2 ^ 64

def modifyBack {α : Type} (f : α → α) (xs : List α) : List α :=
  match xs.getLast? with
  | none => xs
  | some x => xs.dropLast ++ [f x]

/-! ## Metadata -/

/-- `find_metadata`: the position `std::lower_bound` finds. -/
def findMetadata (metas : List SpendMeta) (id : OutputId) : Nat := (metas.takeWhile fun m => decide (m.id < id)).length

/-- The metadata at that position, where it has the id. -/
def sourceMeta (metas : List SpendMeta) (id : OutputId) : Option SpendMeta :=
  metas[findMetadata metas id]?.filter fun m => m.id == id

/-- Outputs are usually in order: the metadata goes to the end, or to its place. -/
def addMeta (metas : List SpendMeta) (m : SpendMeta) : List SpendMeta :=
  if metas.getLast?.all fun last => decide (last.id < m.id) then metas ++ [m] else metas.insertIdx (findMetadata metas m.id) m

/-! ## Merging -/

structure MergeOptions where
  hasPool : Bool
  allOutputs : Bool
  skipSpendMeta : Bool

/-- The locals of `merge_into_txes`: what is left of the two lists, and what was gathered. -/
structure Merge where
  outputs : List Output
  spends : List Spend
  out : List GetTransaction
  metas : List SpendMeta
  receives : List (OutputId × AddressIndex)
  processed : List Hash
  total : Nat
  deriving DecidableEq, Repr

/-- `out` is empty or its last transaction is another one. -/
def Merge.isNew (m : Merge) (hash : Hash) : Bool := m.out.getLast?.all fun last => last.info.link.txHash != hash

def Merge.ordered (m : Merge) : Bool :=
  m.out.getLast?.all fun last =>
    m.outputs.head?.all (fun output => decide (last.info.link ≤ output.link)) &&
      m.spends.head?.all (fun spend => decide (last.info.link ≤ spend.link))

def GetTransaction.ofOutput (output : Output) : GetTransaction := ⟨output, [], [], 0⟩

def GetTransaction.receive (output : Output) (tx : GetTransaction) : GetTransaction :=
  { tx with receives := tx.receives ++ [output] }

def GetTransaction.addAmount (amount : Nat) (tx : GetTransaction) : GetTransaction :=
  { tx with info := { tx.info with spendMeta := { tx.info.spendMeta with amount := add64 tx.info.spendMeta.amount amount } } }

def Merge.takeOutput (o : MergeOptions) (output : Output) (outputs : List Output) (m : Merge) : Merge :=
  let fresh := m.isNew output.link.txHash
  let out := if fresh then m.out ++ [.ofOutput output] else modifyBack (.addAmount output.spendMeta.amount) m.out
  { m with
    outputs
    out := if o.allOutputs then modifyBack (.receive output) out else out
    metas := addMeta m.metas output.spendMeta
    receives := if o.hasPool then m.receives ++ [(output.spendMeta.id, output.recipient)] else m.receives
    processed := if o.hasPool && fresh then m.processed ++ [output.link.txHash] else m.processed
    total := add64 m.total output.spendMeta.amount }

def spendInfo (spend : Spend) : Output :=
  { (default : Output) with
    link := spend.link
    spendMeta := { (default : SpendMeta) with mixinCount := spend.mixinCount }
    timestamp := spend.timestamp
    unlockTime := spend.unlockTime }

def GetTransaction.ofSpend (spend : Spend) : GetTransaction := ⟨spendInfo spend, [], [], 0⟩

def GetTransaction.addSpend (spent : TransactionSpend) (amount : Nat) (tx : GetTransaction) : GetTransaction :=
  { tx with spends := tx.spends ++ [spent], spent := add64 tx.spent amount }

/-- The metadata a spend is shown with; its source must be known unless it is skipped. -/
def Merge.spendMeta (o : MergeOptions) (m : Merge) (spend : Spend) : Option SpendMeta :=
  if o.skipSpendMeta then some default else sourceMeta m.metas spend.source

def Merge.takeSpend (o : MergeOptions) (spend : Spend) (spends : List Spend) (m : Merge) : Except Thrown Merge :=
  match m.spendMeta o spend with
  | none => .error .verify
  | some source =>
    let fresh := m.isNew spend.link.txHash
    let out := if fresh then m.out ++ [.ofSpend spend] else m.out
    .ok { m with
      spends
      out := modifyBack (.addSpend ⟨source, spend⟩ source.amount) out
      processed := if o.hasPool && fresh then m.processed ++ [spend.link.txHash] else m.processed }

def Merge.step (o : MergeOptions) (m : Merge) : Except Thrown Merge :=
  if !m.ordered then .error .verify
  else
    match m.outputs, m.spends with
    | [], [] => .ok m
    | output :: outputs, [] => .ok (m.takeOutput o output outputs)
    | [], spend :: spends => m.takeSpend o spend spends
    | output :: outputs, spend :: spends =>
      if output.link ≤ spend.link then .ok (m.takeOutput o output outputs)
      else if spend.link < output.link then m.takeSpend o spend spends
      else .ok m

def Merge.loop (o : MergeOptions) : Nat → Merge → Except Thrown Merge
  | rounds, m =>
    if m.outputs.isEmpty && m.spends.isEmpty then .ok m
    else
      match rounds with
      | 0 => .error .running
      | rounds + 1 => do
        let m ← m.step o
        Merge.loop o rounds m

/-! ## The mempool -/

/-- The spends of a pool transaction up to one of an unknown output, which is from the future. -/
def poolSpends (metas : List SpendMeta) : List Spend → List TransactionSpend × Bool
  | [] => ([], false)
  | spend :: spends =>
    match sourceMeta metas spend.source with
    | none => ([], true)
    | some source =>
      let (rest, fromFuture) := poolSpends metas spends
      (⟨source, spend⟩ :: rest, fromFuture)

def poolInfo (row : FoundPoolTx) (txTotal : Nat) (fromFuture : Bool) : Output :=
  let info :=
    match row.outputs, row.spends with
    | output :: _, _ => output
    | [], [] => { (default : Output) with link := ⟨txpool, row.hash⟩ }
    | [], spend :: _ =>
      if fromFuture then { (default : Output) with link := ⟨txpool, row.hash⟩ }
      else { spendInfo spend with link := ⟨txpool, row.hash⟩ }
  { info with spendMeta := { info.spendMeta with amount := txTotal } }

def poolTransaction (metas : List SpendMeta) (row : FoundPoolTx) : GetTransaction :=
  let (spends, fromFuture) := poolSpends metas row.spends
  let txTotal := (row.outputs.map (·.spendMeta.amount)).foldl add64 0
  ⟨poolInfo row txTotal fromFuture, row.outputs, spends, (spends.map (·.spendMeta.amount)).foldl add64 0⟩

/-- The pool transactions that are not confirmed yet, and the total with their outputs. -/
def Merge.addPool (m : Merge) (rows : List FoundPoolTx) : List GetTransaction × Nat :=
  let rows := rows.filter fun row => !m.processed.contains row.hash
  (m.out ++ rows.map (poolTransaction m.metas),
    ((rows.flatMap (·.outputs)).map (·.spendMeta.amount)).foldl add64 m.total)

/-- `merge_into_txes`, in at most `rounds` rounds; `pool` is what the mempool finds for an
    account with the given receives. -/
def mergeIntoTxes (rounds : Nat) (pool : Option (List (OutputId × AddressIndex) → List FoundPoolTx))
    (allOutputs skipSpendMeta : Bool) (outputs : List Output) (spends : List Spend) :
    Except Thrown (List GetTransaction × Nat) := do
  let m ← Merge.loop ⟨pool.isSome, allOutputs, skipSpendMeta⟩ rounds ⟨outputs, spends, [], [], [], [], 0⟩
  match pool with
  | none => .ok (m.out, m.total)
  | some scan => .ok (m.addPool (scan m.receives))

/-! ## The responses -/

structure GetAddressTxsResponse where
  totalReceived : Nat
  scannedHeight : Nat
  scannedBlockHeight : Nat
  startHeight : Nat
  transactionHeight : Nat
  blockchainHeight : Nat
  lookaheadFail : Nat
  transactions : List GetTransaction
  lookahead : AddressIndex
  deriving DecidableEq, Repr

/-- The error of a response: an error code that is returned, or an exception. -/
inductive ResponseError where
  | code (e : ErrorCode)
  | thrown (e : Thrown)
  deriving DecidableEq, Repr

def ResponseError.ofCode {α : Type} : Except ErrorCode α → Except ResponseError α
  | .ok a => .ok a
  | .error e => .error (.code e)

def ResponseError.ofThrown {α : Type} : Except Thrown α → Except ResponseError α
  | .ok a => .ok a
  | .error e => .error (.thrown e)

/-- `load` of what the scanner found, for the feed. `std::sort` leaves the order of the rows
    of one transaction open. -/
def loadFound (outputs : List Output) (spends : List Spend) : Except Thrown (List GetTransaction) :=
  (mergeIntoTxes (outputs.length + spends.length) none true true
    (outputs.mergeSort fun a b => decide (a.link ≤ b.link)) (spends.mergeSort fun a b => decide (a.link ≤ b.link))).map (·.1)

def loadTxs (db : Storage) (acct : Db.Account) (pool : Option (List (OutputId × AddressIndex) → List FoundPoolTx))
    (allOutputs : Bool) : Except ResponseError GetAddressTxsResponse := do
  let outputs := db.outputs.dups acct.id
  let spends := db.spends.dups acct.id
  let last ← ResponseError.ofCode (getLastBlock db)
  let out ← ResponseError.ofThrown (mergeIntoTxes (outputs.length + spends.length) pool allOutputs false outputs spends)
  .ok
    { totalReceived := out.2
      scannedHeight := acct.scanHeight
      scannedBlockHeight := acct.scanHeight
      startHeight := acct.startHeight
      transactionHeight := last.id
      blockchainHeight := last.id
      lookaheadFail := acct.lookaheadFail
      transactions := out.1
      lookahead := acct.lookahead }

/-- `CRYPTONOTE_MAX_BLOCK_NUMBER`, `CRYPTONOTE_LOCKED_TX_ALLOWED_DELTA_SECONDS_V2`,
    `CRYPTONOTE_LOCKED_TX_ALLOWED_DELTA_BLOCKS` and `CRYPTONOTE_DEFAULT_TX_SPENDABLE_AGE`. -/
structure LockConstants where
  maxBlockNumber : Nat
  deltaSeconds : Nat
  deltaBlocks : Nat
  spendableAge : Nat

/-- A number of signed 64 bits. What is past them is undefined in a sum or a product of the source, and wraps here. -/
def int64 (value : Int) : Int := value.bmod (2 ^ 64)

/-- `std::chrono::seconds` of a count, as nanoseconds. -/
def nanoseconds (seconds : Int) : Int := int64 (int64 seconds * 10 ^ 9)

/-- `is_locked`; `now` is the system clock's count of nanoseconds. -/
def isLocked (c : LockConstants) (now : Int) (unlockTime last txHeight : Nat) : Bool :=
  if c.maxBlockNumber < unlockTime then decide (int64 (now + nanoseconds c.deltaSeconds) < nanoseconds unlockTime)
  else if (last + (2 ^ 64 - 1) + c.deltaBlocks) % 2 ^ 64 < unlockTime then true
  else decide (last < (txHeight + c.spendableAge) % 2 ^ 64)

/-- The last unlock time is a second before the epoch. -/
example : isLocked ⟨500000000, 120, 1, 10⟩ 0 (2 ^ 64 - 1) 100 0 = false := by decide

structure GetAddressInfoResponse where
  lockedFunds : Nat
  totalReceived : Nat
  totalSent : Nat
  scannedHeight : Nat
  scannedBlockHeight : Nat
  startHeight : Nat
  transactionHeight : Nat
  blockchainHeight : Nat
  lookaheadFail : Nat
  spentOutputs : List TransactionSpend
  lookahead : AddressIndex
  deriving DecidableEq, Repr

structure Received where
  metas : List SpendMeta
  totalReceived : Nat
  lockedFunds : Nat
  deriving DecidableEq, Repr

def receiveOutput (locked : Output → Bool) (r : Received) (output : Output) : Received :=
  { metas := addMeta r.metas output.spendMeta
    totalReceived := add64 r.totalReceived output.spendMeta.amount
    lockedFunds := if locked output then add64 r.lockedFunds output.spendMeta.amount else r.lockedFunds }

/-- The second loop of `get_address_info`: the spends with their metadata. -/
def spentOutputs (metas : List SpendMeta) : List Spend → Except Thrown (List TransactionSpend)
  | [] => .ok []
  | spend :: spends =>
    match sourceMeta metas spend.source with
    | none => .error (.logicError "Serious database error, no receive for spend")
    | some source => do
      let rest ← spentOutputs metas spends
      .ok (⟨source, spend⟩ :: rest)

/-- `get_address_info::handle`, once the account is open. -/
def getAddressInfo (c : LockConstants) (now : Int) (db : Storage) (acct : Db.Account) :
    Except ResponseError GetAddressInfoResponse := do
  let last ← ResponseError.ofCode (getLastBlock db)
  let received := (db.outputs.dups acct.id).foldl
    (receiveOutput fun output => isLocked c now output.unlockTime last.id output.link.height) ⟨[], 0, 0⟩
  let spent ← ResponseError.ofThrown (spentOutputs received.metas (db.spends.dups acct.id))
  .ok
    { lockedFunds := received.lockedFunds
      totalReceived := received.totalReceived
      totalSent := (spent.map (·.spendMeta.amount)).foldl add64 0
      scannedHeight := acct.scanHeight
      scannedBlockHeight := acct.scanHeight
      startHeight := acct.startHeight
      transactionHeight := last.id
      blockchainHeight := last.id
      lookaheadFail := acct.lookaheadFail
      spentOutputs := spent
      lookahead := acct.lookahead }

end Lws.Rpc
