/-
  Lws.Db.Operations — the write operations of `db::storage` as one system.

  Each operation is a write transaction: it commits the database it returns, and a
  failed one leaves the database as it was. `Reached env ok db` says that `db` is
  reached from a fresh database by operations that each met `ok`.
-/

import Lws.Transition
import Lws.Db.Update

namespace Lws.Db

open Lws.Lmdb Lws.Transition

inductive Op where
  | addAccount (clock : Int) (address : AccountAddress) (key : SecretKey) (flags : Nat)
  | updateAccessTime (clock : Int) (address : AccountAddress)
  | changeStatus (status : AccountStatus) (addresses : List AccountAddress)
  | creationRequest (clock : Int) (address : AccountAddress) (key : SecretKey) (flags : Nat) (lookahead : AddressIndex)
  | importRequest (clock : Int) (address : AccountAddress) (height : Nat) (lookahead : AddressIndex)
  | acceptRequests (clock : Int) (req : Request) (addresses : List AccountAddress) (maxSubaddresses : Nat)
  | rejectRequests (req : Request) (addresses : List AccountAddress)
  | rescan (height : Nat) (addresses : List AccountAddress)
  | shrinkLookahead (address : AccountAddress) (lookahead : AddressIndex)
  | upsertSubaddresses (id : Nat) (address : AccountAddress) (viewKey : SecretKey) (subaddrs : List SubaddressDict)
      (maxSubaddr : Nat)
  | updateLookahead (address : AccountAddress) (height : Nat) (fresh : AddressIndex) (maxSubaddresses : Nat)
  | syncChain (height : Nat) (hashes : List Hash) (regtest : Bool)
  | syncPow (height : Nat) (hashes : List Hash) (pow : List PowSync)
  | rollback (height : Nat)
  | update (height : Nat) (chain : List Hash) (users : List Lws.Account) (pow : List PowSync) (regtest : Bool)
  | addWebhook (type : WebhookType) (address : Option AccountAddress) (event : WebhookValue)
  | clearWebhooks (addresses : List AccountAddress)
  | clearWebhookIds (ids : List Uuid)

/-- The database an operation commits. -/
def Op.run (env : Env) : Op → Storage → Except Error Storage
  | .addAccount clock address key flags, db => db.addAccount env clock address key flags
  | .updateAccessTime clock address, db => db.updateAccessTime clock address
  | .changeStatus status addresses, db => (·.1) <$> db.changeStatus status addresses
  | .creationRequest clock address key flags lookahead, db =>
    (·.1) <$> db.creationRequest env clock address key flags lookahead
  | .importRequest clock address height lookahead, db => db.importRequest clock address height lookahead
  | .acceptRequests clock req addresses maxSubaddresses, db =>
    (·.1) <$> db.acceptRequests env clock req addresses maxSubaddresses
  | .rejectRequests req addresses, db => .ok (db.rejectRequests req addresses).1
  | .rescan height addresses, db => (·.1) <$> db.rescan env height addresses
  | .shrinkLookahead address lookahead, db => db.shrinkLookahead address lookahead
  | .upsertSubaddresses id address viewKey subaddrs maxSubaddr, db =>
    (·.1) <$> db.upsertSubaddresses env id address viewKey subaddrs maxSubaddr
  | .updateLookahead address height fresh maxSubaddresses, db =>
    (·.1) <$> db.updateLookahead env address height fresh maxSubaddresses
  | .syncChain height hashes regtest, db => db.syncChain env height hashes regtest
  | .syncPow height hashes pow, db => db.syncPow env height hashes pow
  | .rollback height, db => db.rollback height
  | .update height chain users pow regtest, db => (·.1) <$> db.update env height chain users pow regtest
  | .addWebhook type address event, db => db.addWebhook env type address event
  | .clearWebhooks addresses, db => db.clearWebhooks addresses
  | .clearWebhookIds ids, db => db.clearWebhookIds ids

def Op.batch : Op → Option (Nat × List Lws.Account)
  | .update height chain users _ _ => some (height + chain.length - 1, users)
  | _ => none

def Reached (env : Env) (ok : Storage → Op → Prop) (db : Storage) : Prop := Steps (Op.run env) ok (fresh env) db

def Op.runs (env : Env) (ops : List Op) : Storage := runAll (Op.run env) ops (fresh env)

theorem reached_runs {env : Env} {ok : Storage → Op → Prop} {ops : List Op}
    (h : AllOk (Op.run env) ok ops (fresh env)) :
    Reached env ok (Op.runs env ops) := steps_runAll ops _ h

/-- A small environment: a view key is 1000 below its public key, and the subaddress
    keys of an account follow its spend key. -/
def sampleEnv : Env where
  checkpoints := [(0, 100)]
  createQueueMax := 10
  secretKeyToPublicKey key := some (key + 1000)
  subaddressKey spend _ i := spend + 1 + Nat.pair i.majI i.minI
  urlSchema _ := some "http"

def checkpointEnv : Env := { sampleEnv with checkpoints := [(0, 100), (2, 102)] }

/-- Proofs of work for a batch of `n` blocks. -/
def samplePow (n : Nat) : List PowSync := (List.range n).map fun i => ⟨10 * i, ⟨0, i + 1⟩⟩

def sampleOutput (height id : Nat) : Output :=
  { (default : Output) with link := ⟨height, 900 + height⟩, spendMeta := { (default : SpendMeta) with id := ⟨0, id⟩ } }

def sampleSpend (height source image : Nat) : Spend :=
  { (default : Spend) with link := ⟨height, 900 + height⟩, image, source := ⟨0, source⟩ }

def sampleUser (scanHeight : Nat) (outputs : List Output) (spends : List Spend) : Lws.Account :=
  ⟨1, ⟨1007, 50⟩, 7, scanHeight, [], [], spends, outputs⟩

end Lws.Db
