/-
  Lws.Rest.Handlers — two endpoints of the REST server that write to an account
  (`src/rest_server.cpp`: `check_lookahead`, `import_request`, `provision_subaddrs`), with
  the requests and responses of `src/rpc/light_wallet.h`.

  A handler opens the account for reading, closes the reader, and then calls the database,
  one transaction after the other: what a transaction wrote stays when a later one fails. So
  a handler returns the database beside its result. `startRead` is what starting a read
  fails with. The four numbers of `provision_subaddrs` are 32-bit and wrap as in the source.
-/

import Lws.Db.Accounts
import Lws.Rpc.Feed

namespace Lws.Rest

open Lws.Db Lws.Rpc.Feed

structure AccountCredentials where
  address : AccountAddress
  key : SecretKey
  deriving DecidableEq, Repr

structure Options where
  maxSubaddresses : Nat
  autoAcceptImport : Bool
  deriving DecidableEq, Repr

def openAccount (env : Env) (startRead : Option ErrorCode) (creds : AccountCredentials) (db : Storage) :
    Except ErrorCode Db.Account :=
  (Rpc.Feed.openAccount env ⟨db, startRead, 0, 0⟩ ⟨creds.address, creds.key, false, false⟩).map (·.1)

def checkLookahead (maxSubaddresses : Nat) (lookahead : AddressIndex) : Bool :=
  if lookahead.minI ≠ 0 then
    if uint32Max / lookahead.minI < lookahead.majI then false
    else decide (lookahead.majI * lookahead.minI ≤ maxSubaddresses)
  else true

/-! ## Importing -/

structure ImportRequest where
  creds : AccountCredentials
  fromHeight : Nat
  lookahead : AddressIndex
  deriving DecidableEq, Repr

structure ImportResponse where
  importFee : Nat
  status : String
  lookahead : AddressIndex
  newRequest : Bool
  requestFulfilled : Bool
  deriving DecidableEq, Repr

/-- The locals of `import_request::handle`. -/
structure ImportState where
  newRequest : Bool
  fulfilled : Bool
  lookahead : AddressIndex
  deriving DecidableEq, Repr

def expandedDepth (req : ImportRequest) (record : Db.Account) : Bool := decide (req.fromHeight < record.startHeight)

def changeLookahead (req : ImportRequest) (record : Db.Account) : Bool :=
  record.lookahead.majI != req.lookahead.majI || record.lookahead.minI != req.lookahead.minI

/-- The part of `import_request::handle` with the reader open: a request that asks for
    nothing new is fulfilled, a pending one is left alone, and a smaller lookahead is shrunk
    at once. -/
def importDecide (req : ImportRequest) (user : Db.Account) (db : Storage) : Storage × Except ErrorCode ImportState :=
  let lookaheadFail := user.lookaheadFail != 0
  if !expandedDepth req user && !changeLookahead req user && !lookaheadFail then (db, .ok ⟨false, true, user.lookahead⟩)
  else
    match db.requests.get? .importScan req.creds.address.spendPublic with
    | some _ => (db, .ok ⟨false, false, user.lookahead⟩)
    | none =>
      -- shrink immediately if possible
      if lookaheadFail = false ∧ req.lookahead.majI ≤ user.lookahead.majI ∧ req.lookahead.minI ≤ user.lookahead.minI then
        let fulfilled := !expandedDepth req user
        if user.lookahead.majI ≠ req.lookahead.majI ∧ user.lookahead.minI ≠ req.lookahead.minI then
          match db.shrinkLookahead req.creds.address req.lookahead with
          | .error e => (db, .error (.ofDb e))
          | .ok db => (db, .ok ⟨!fulfilled, fulfilled, req.lookahead⟩)
        else (db, .ok ⟨!fulfilled, fulfilled, user.lookahead⟩)
      else (db, .ok ⟨true, false, user.lookahead⟩)

/-- The part of `import_request::handle` that files the request, and accepts it where the
    server does so by itself. -/
def importQueue (env : Env) (options : Options) (clock : Int) (req : ImportRequest) (state : ImportState)
    (db : Storage) :
    Storage × Except ErrorCode ImportState :=
  if state.newRequest then
    match db.importRequest clock req.creds.address req.fromHeight req.lookahead with
    | .error e => (db, .error (.ofDb e))
    | .ok db =>
      if options.autoAcceptImport then
        match db.acceptRequests env clock .importScan [req.creds.address] options.maxSubaddresses with
        | .error _ => (db, .ok { state with lookahead := ⟨0, 0⟩ })
        | .ok (db, _) => (db, .ok { state with lookahead := req.lookahead, fulfilled := true })
      else (db, .ok state)
  else (db, .ok state)

def ImportState.response (state : ImportState) : ImportResponse :=
  { importFee := 0
    status :=
      if state.newRequest then "Accepted, waiting for approval"
      else if state.fulfilled then "Approved" else "Waiting for Approval"
    lookahead := state.lookahead
    newRequest := state.newRequest
    requestFulfilled := state.fulfilled }

/-- `import_request::handle`. -/
def importRequest (env : Env) (options : Options) (clock : Int) (startRead : Option ErrorCode) (req : ImportRequest)
    (db : Storage) : Storage × Except ErrorCode ImportResponse :=
  match openAccount env startRead req.creds db with
  | .error e => (db, .error e)
  | .ok user =>
    if checkLookahead options.maxSubaddresses req.lookahead then
      match importDecide req user db with
      | (db, .error e) => (db, .error e)
      | (db, .ok state) =>
        match importQueue env options clock req state db with
        | (db, .error e) => (db, .error e)
        | (db, .ok state) => (db, .ok state.response)
    else (db, .error (.ofDb .maxSubaddresses))

/-! ## Provisioning subaddresses -/

structure ProvisionRequest where
  creds : AccountCredentials
  majI : Option UInt32
  minI : Option UInt32
  nMaj : Option UInt32
  nMin : Option UInt32
  getAll : Option Bool

structure NewSubaddrsResponse where
  newSubaddrs : List SubaddressDict
  allSubaddrs : List SubaddressDict
  deriving DecidableEq, Repr

def invalidRange : ErrorCode := .other "Invalid subaddress range provided"

/-- The entries `provision_subaddrs` upserts. The majors are counted at 64 bits and each
    becomes a 32-bit `major_index`; the last minor is computed at 32 bits. -/
def provisionRanges (majorI minorI nMajor nMinor : UInt32) : List SubaddressDict :=
  (List.range' majorI.toNat nMajor.toNat).map fun elem =>
    ((UInt32.ofNat elem).toNat, [(minorI.toNat, (minorI + nMinor - 1).toNat)])

/-- The upsert of `provision_subaddrs::handle`. -/
def provisionUpsert (env : Env) (options : Options) (req : ProvisionRequest) (id : Nat)
    (majorI minorI nMajor nMinor : UInt32) (db : Storage) : Except ErrorCode (Storage × List SubaddressDict) :=
  if nMajor ≠ 0 ∧ nMinor ≠ 0 then
    if uint32Max / nMajor.toNat < nMinor.toNat then .error (.ofDb .maxSubaddresses)
    else if options.maxSubaddresses < (nMajor * nMinor).toNat then .error (.ofDb .maxSubaddresses)
    else
      match db.upsertSubaddresses env id req.creds.address req.creds.key (provisionRanges majorI minorI nMajor nMinor)
        options.maxSubaddresses with
      | .error e => .error (.ofDb e)
      | .ok upserted => .ok upserted
  else .ok (db, [])

/-- `provision_subaddrs::handle`; `startReadAll` is for the read after the write. -/
def provisionSubaddrs (env : Env) (options : Options) (startRead startReadAll : Option ErrorCode)
    (req : ProvisionRequest) (db : Storage) : Storage × Except ErrorCode NewSubaddrsResponse :=
  if req.majI = none ∧ req.minI = none ∧ req.nMin = none ∧ req.nMaj = none then (db, .error invalidRange)
  else
    match openAccount env startRead req.creds db with
    | .error e => (db, .error e)
    | .ok user =>
      match provisionUpsert env options req user.id (req.majI.getD 0) (req.minI.getD 0) (req.nMaj.getD 50)
        (req.nMin.getD 500) db with
      | .error e => (db, .error e)
      | .ok (db, newRanges) =>
        if req.getAll.getD true then
          match startReadAll with
          | some e => (db, .error e)
          | none => (db, .ok ⟨newRanges, db.subaddressRanges.dups user.id⟩)
        else (db, .ok ⟨newRanges, []⟩)

end Lws.Rest
