/-
  Lws.Rest.Server — what a request to the REST server does to the database
  (`src/rest_server.cpp`: `login`, `upsert_subaddrs`, `call_admin`; `src/rpc/admin.cpp`),
  with the endpoints of `Lws.Rest.Handlers`.

  A client gives an address and its view key with each request. An administrator gives a
  key, and is one where the database has an account for it: with the public view key of the
  key, a spend key of zeros, and the flag. Endpoints that only read the database are
  `look`.
-/

import Lws.Rest.Handlers
import Lws.Db.Operations

namespace Lws.Rest

open Lws.Db Lws.Rpc.Feed

/-- `runtime_options`, as far as the database depends on them. -/
structure ServerOptions extends Options where
  autoAcceptCreation : Bool
  disableAdminAuth : Bool
  deriving DecidableEq, Repr

/-- The world when a request is handled. -/
structure Instant where
  clock : Int
  /-- What starting a read fails with. -/
  startRead : Option ErrorCode
  /-- What starting the read after a write fails with. -/
  startReadAll : Option ErrorCode
  deriving DecidableEq, Repr

/-! ## Logging in -/

structure LoginRequest where
  creds : AccountCredentials
  lookahead : AddressIndex
  createAccount : Bool
  generatedLocally : Bool
  deriving DecidableEq, Repr

structure LoginResponse where
  newAddress : Bool
  generatedLocally : Bool
  lookahead : AddressIndex
  /-- The hooks that are sent. -/
  hooks : List WebhookNewAccount
  deriving DecidableEq, Repr

def accountGeneratedLocally : Nat := 2

/-- The account is filed for creation, and created where the server accepts it by itself. -/
def loginCreate (env : Env) (options : ServerOptions) (clock : Int) (req : LoginRequest) (db : Storage) :
    Storage × Except ErrorCode LoginResponse :=
  let flags := if req.generatedLocally then accountGeneratedLocally else 0
  match db.creationRequest env clock req.creds.address req.creds.key flags req.lookahead with
  | .error e => (db, .error (.ofDb e))
  | .ok (db, hooks) =>
    if options.autoAcceptCreation then
      match db.acceptRequests env clock .create [req.creds.address] options.maxSubaddresses with
      | .error _ => (db, .ok ⟨true, req.generatedLocally, ⟨0, 0⟩, hooks⟩)
      | .ok (db, _) => (db, .ok ⟨true, req.generatedLocally, req.lookahead, hooks⟩)
    else (db, .ok ⟨true, req.generatedLocally, ⟨0, 0⟩, hooks⟩)

/-- `login::handle`. -/
def login (env : Env) (options : ServerOptions) (now : Instant) (req : LoginRequest) (db : Storage) :
    Storage × Except ErrorCode LoginResponse :=
  if env.secretKeyToPublicKey req.creds.key ≠ some req.creds.address.viewPublic then (db, .error .badViewKey)
  else
    match now.startRead with
    | some e => (db, .error e)
    | none =>
      match getAccountAt db req.creds.address with
      | .ok (status, account) =>
        if status = .hidden then (db, .error .accountNotFound)
        else (db, .ok ⟨false, account.flags &&& accountGeneratedLocally != 0, account.lookahead, []⟩)
      | .error e =>
        if req.createAccount = false ∨ e ≠ .accountNotFound then (db, .error e)
        else if checkLookahead options.maxSubaddresses req.lookahead then loginCreate env options now.clock req db
        else (db, .error (.ofDb .maxSubaddresses))

/-! ## Upserting subaddresses -/

structure UpsertRequest where
  creds : AccountCredentials
  subaddrs : List SubaddressDict
  getAll : Option Bool
  deriving DecidableEq, Repr

/-- `upsert_subaddrs::handle`. -/
def upsertSubaddrs (env : Env) (options : ServerOptions) (now : Instant) (req : UpsertRequest) (db : Storage) :
    Storage × Except ErrorCode NewSubaddrsResponse :=
  if options.maxSubaddresses = 0 then (db, .error (.ofDb .maxSubaddresses))
  else
    match openAccount env now.startRead req.creds db with
    | .error e => (db, .error e)
    | .ok user =>
      match db.upsertSubaddresses env user.id req.creds.address req.creds.key req.subaddrs options.maxSubaddresses with
      | .error e => (db, .error (.ofDb e))
      | .ok (db, newRanges) =>
        if req.getAll.getD true then
          match now.startReadAll with
          | some e => (db, .error e)
          | none => (db, .ok ⟨newRanges, db.subaddressRanges.dups user.id⟩)
        else (db, .ok ⟨newRanges, []⟩)

/-! ## Administration -/

/-- `webhook_add_req`, with the id that is drawn for it. -/
structure WebhookAdd where
  type : WebhookType
  url : String
  token : Option String
  address : Option AccountAddress
  paymentId : Option Nat
  confirmations : Option Nat
  eventId : Uuid
  deriving DecidableEq, Repr

inductive AdminCommand where
  | acceptRequests (type : Request) (addresses : List AccountAddress)
  | addAccount (address : AccountAddress) (key : SecretKey)
  | modifyAccount (status : AccountStatus) (addresses : List AccountAddress)
  | rejectRequests (type : Request) (addresses : List AccountAddress)
  | rescan (height : Nat) (addresses : List AccountAddress)
  | webhookAdd (req : WebhookAdd)
  | webhookDelete (addresses : List AccountAddress)
  | webhookDelUuid (eventIds : List Uuid)
  /-- `list_accounts`, `list_requests`, `validate` and `webhook_list`. -/
  | look
  deriving DecidableEq, Repr

structure AdminRequest where
  auth : Option SecretKey
  command : AdminCommand
  deriving DecidableEq, Repr

/-- `webhook_add_`: a payment needs an address, a new account has none. -/
def WebhookAdd.event (req : WebhookAdd) : Option WebhookValue :=
  if req.address.isSome = (req.type == .newAccount) then none
  else some (⟨req.paymentId.getD 0, req.eventId⟩, ⟨req.url, req.token.getD "", req.confirmations.getD 1⟩)

def AdminCommand.op (options : ServerOptions) (clock : Int) : AdminCommand → Except ErrorCode (Option Op)
  | .acceptRequests type addresses => .ok (some (.acceptRequests clock type addresses options.maxSubaddresses))
  | .addAccount address key => .ok (some (.addAccount clock address key 0))
  | .modifyAccount status addresses => .ok (some (.changeStatus status addresses))
  | .rejectRequests type addresses => .ok (some (.rejectRequests type addresses))
  | .rescan height addresses => .ok (some (.rescan height addresses))
  | .webhookAdd req =>
    match req.event with
    | none => .error (.ofDb .badWebhook)
    | some event => .ok (some (.addWebhook req.type req.address event))
  | .webhookDelete addresses => .ok (some (.clearWebhooks addresses))
  | .webhookDelUuid eventIds => .ok (some (.clearWebhookIds eventIds))
  | .look => .ok none

/-- The check of `call_admin`. -/
def authorize (env : Env) (options : ServerOptions) (now : Instant) (auth : Option SecretKey) (db : Storage) :
    Except ErrorCode Unit :=
  if options.disableAdminAuth then .ok ()
  else
    match auth with
    | none => .error .accountNotFound
    | some key =>
      match env.secretKeyToPublicKey key with
      | none => .error (.other "A cryptographic function failed")
      | some viewPublic =>
        match now.startRead with
        | some e => .error e
        | none =>
          match getAccountAt db ⟨viewPublic, 0⟩ with
          | .error e => .error e
          | .ok (status, account) =>
            if status = .inactive then .error .accountNotFound
            else if account.flags &&& adminAccount = 0 then .error .accountNotFound
            else .ok ()

def callAdmin (env : Env) (options : ServerOptions) (now : Instant) (req : AdminRequest) (db : Storage) :
    Storage × Except ErrorCode Unit :=
  match authorize env options now req.auth db with
  | .error e => (db, .error e)
  | .ok () =>
    match req.command.op options now.clock with
    | .error e => (db, .error e)
    | .ok none => (db, .ok ())
    | .ok (some op) =>
      match op.run env db with
      | .error e => (db, .error (.ofDb e))
      | .ok db => (db, .ok ())

/-! ## Requests -/

inductive ClientRequest where
  | login (req : LoginRequest)
  | importRequest (req : ImportRequest)
  | provisionSubaddrs (req : ProvisionRequest)
  | upsertSubaddrs (req : UpsertRequest)
  /-- `get_address_info`, `get_address_txs`, `get_subaddrs` and `get_unspent_outs`. -/
  | look (creds : AccountCredentials)

def ClientRequest.creds : ClientRequest → AccountCredentials
  | .login req => req.creds
  | .importRequest req => req.creds
  | .provisionSubaddrs req => req.creds
  | .upsertSubaddrs req => req.creds
  | .look creds => creds

def serveClient (env : Env) (options : ServerOptions) (now : Instant) (db : Storage) : ClientRequest → Storage
  | .login req => (login env options now req db).1
  | .importRequest req => (importRequest env options.toOptions now.clock now.startRead req db).1
  | .provisionSubaddrs req => (provisionSubaddrs env options.toOptions now.startRead now.startReadAll req db).1
  | .upsertSubaddrs req => (upsertSubaddrs env options now req db).1
  | .look _ => db

end Lws.Rest
