/-
  Lws.Rest.Access — who can change what through the REST server.

  - `administrators_fixed`: whatever the server serves and the scanner writes, in any
    order, the administrators are those of the start. So while administrators are checked, a
    command is done only for a key of one of them.
  - `client_isolated`: a client's request changes no account but the one that its view key
    looks up, no request under another spend key, and not the chain. With a key that is not
    the address's it changes nothing.
-/

import Lws.Db.Admins
import Lws.Rest.Denotes
import Lws.Rest.Server

namespace Lws.Rest

open Lws.Db Lws.Lmdb Lws.Rpc.Feed Lws.Transition

/-! ## Requests as writes -/

section Writes

variable {env : Env} {options : ServerOptions} {now : Instant} {db db' : Storage}

/-- The writes of the server, and of the scanner beside it. -/
def Writes (env : Env) : Storage → Storage → Prop := Steps (Op.run env) fun _ op => op.Unprivileged

theorem writes_one {op : Op} (hop : op.Unprivileged) (h : op.run env db = .ok db') : Writes env db db' :=
  Steps.snoc .refl op hop h

theorem fst_run {α : Type} {x : Except Db.Error (Storage × α)} {a : α} (h : x = .ok (db', a)) :
    (·.1) <$> x = .ok db' := by
  rw [h]
  rfl

theorem acceptRequests_writes {clock : Int} {req : Request} {addresses stored : List AccountAddress}
    {maxSubaddresses : Nat} (h : db.acceptRequests env clock req addresses maxSubaddresses = .ok (db', stored)) :
    Writes env db db' :=
  @writes_one _ _ _ (.acceptRequests clock req addresses maxSubaddresses) trivial (fst_run h)

theorem login_writes (req : LoginRequest) : Writes env db (login env options now req db).1 := by
  have hcreate : Writes env db (loginCreate env options now.clock req db).1 := by
    have hflags : (if req.generatedLocally then accountGeneratedLocally else 0) &&& adminAccount = 0 := by
      split <;> rfl
    unfold loginCreate
    dsimp only
    split
    · exact .refl
    · rename_i filed hooks hfile
      have hfiled : Writes env db filed :=
        @writes_one _ _ _ (.creationRequest now.clock req.creds.address req.creds.key _ req.lookahead) hflags
          (fst_run hfile)
      split
      · split
        · exact hfiled
        · rename_i created stored haccept
          exact hfiled.trans (acceptRequests_writes haccept)
      · exact hfiled
  unfold login
  split
  · exact .refl
  · split
    · exact .refl
    · split
      · split <;> exact .refl
      · split
        · exact .refl
        · split
          · exact hcreate
          · exact .refl

theorem importDecide_writes (req : ImportRequest) (user : Db.Account) :
    Writes env db (importDecide req user db).1 := by
  unfold importDecide
  dsimp only
  split
  · exact .refl
  · split
    · exact .refl
    · split
      · split
        · split
          · exact .refl
          · rename_i shrunk hshrink
            exact @writes_one _ _ _ (.shrinkLookahead req.creds.address req.lookahead) trivial hshrink
        · exact .refl
      · exact .refl

theorem importQueue_writes (options : Options) (clock : Int) (req : ImportRequest) (state : ImportState) :
    Writes env db (importQueue env options clock req state db).1 := by
  unfold importQueue
  split
  · split
    · exact .refl
    · rename_i filed hfile
      have hfiled : Writes env db filed :=
        @writes_one _ _ _ (.importRequest clock req.creds.address req.fromHeight req.lookahead) trivial hfile
      split
      · split
        · exact hfiled
        · rename_i accepted updated haccept
          exact hfiled.trans (acceptRequests_writes haccept)
      · exact hfiled
  · exact .refl

theorem importRequest_writes (options : Options) (clock : Int) (startRead : Option ErrorCode) (req : ImportRequest) :
    Writes env db (importRequest env options clock startRead req db).1 := by
  unfold importRequest
  split
  · exact .refl
  · rename_i user _
    split
    · have hdecide := @importDecide_writes env db req user
      split
      · rename_i mid e he
        rw [he] at hdecide
        exact hdecide
      · rename_i mid state he
        rw [he] at hdecide
        have hqueue := @importQueue_writes env mid options clock req state
        split
        · rename_i last e he'
          rw [he'] at hqueue
          exact hdecide.trans hqueue
        · rename_i last state' he'
          rw [he'] at hqueue
          exact hdecide.trans hqueue
    · exact .refl

theorem upsert_writes {id : Nat} {address : AccountAddress} {viewKey : SecretKey} {subaddrs out : List SubaddressDict}
    {maxSubaddr : Nat} (h : db.upsertSubaddresses env id address viewKey subaddrs maxSubaddr = .ok (db', out)) :
    Writes env db db' :=
  @writes_one _ _ _ (.upsertSubaddresses id address viewKey subaddrs maxSubaddr) trivial (fst_run h)

theorem provisionUpsert_writes {options : Options} {req : ProvisionRequest} {id : Nat}
    {majorI minorI nMajor nMinor : UInt32} {out : List SubaddressDict}
    (h : provisionUpsert env options req id majorI minorI nMajor nMinor db = .ok (db', out)) : Writes env db db' := by
  unfold provisionUpsert at h
  split at h
  · split at h
    · cases h
    · split at h
      · cases h
      · split at h
        · cases h
        · rename_i upserted hupsert
          cases h
          exact upsert_writes hupsert
  · cases h
    exact .refl

theorem provisionSubaddrs_writes (options : Options) (startRead startReadAll : Option ErrorCode)
    (req : ProvisionRequest) : Writes env db (provisionSubaddrs env options startRead startReadAll req db).1 := by
  unfold provisionSubaddrs
  split
  · exact .refl
  · split
    · exact .refl
    · split
      · exact .refl
      · rename_i mid newRanges hupsert
        have hwrites := provisionUpsert_writes hupsert
        split
        · split <;> exact hwrites
        · exact hwrites

theorem upsertSubaddrs_writes (req : UpsertRequest) : Writes env db (upsertSubaddrs env options now req db).1 := by
  unfold upsertSubaddrs
  split
  · exact .refl
  · split
    · exact .refl
    · split
      · exact .refl
      · rename_i mid newRanges hupsert
        have hwrites := upsert_writes hupsert
        split
        · split <;> exact hwrites
        · exact hwrites

theorem serveClient_writes (req : ClientRequest) : Writes env db (serveClient env options now db req) := by
  cases req with
  | login req => exact login_writes req
  | importRequest req => exact importRequest_writes _ _ _ req
  | provisionSubaddrs req => exact provisionSubaddrs_writes _ _ _ req
  | upsertSubaddrs req => exact upsertSubaddrs_writes req
  | look creds => exact .refl

/-- No command asks for the flag of an administrator. -/
theorem op_unprivileged {command : AdminCommand} {clock : Int} {op : Op}
    (h : command.op options clock = .ok (some op)) : op.Unprivileged := by
  cases command with
  | addAccount address key =>
    cases h
    exact Nat.zero_and _
  | webhookAdd req =>
    rcases hevent : req.event with _ | event
    · simp only [AdminCommand.op, hevent] at h
      cases h
    · simp only [AdminCommand.op, hevent] at h
      cases h
      trivial
  | look => cases h
  | _ =>
    cases h
    trivial

theorem callAdmin_writes (req : AdminRequest) : Writes env db (callAdmin env options now req db).1 := by
  unfold callAdmin
  split
  · exact .refl
  · split
    · exact .refl
    · exact .refl
    · rename_i op hop
      split
      · exact .refl
      · rename_i mid hrun
        exact writes_one (op_unprivileged hop) hrun

end Writes

/-! ## Administrators -/

/-- What happens to the database: a request is served, or the scanner writes. -/
inductive Event where
  | client (now : Instant) (req : ClientRequest)
  | admin (now : Instant) (req : AdminRequest)
  | scanner (op : Op) (unprivileged : op.Unprivileged)

def serve (env : Env) (options : ServerOptions) (db : Storage) : Event → Storage
  | .client now req => serveClient env options now db req
  | .admin now req => (callAdmin env options now req db).1
  | .scanner op _ => commit (Op.run env) op db

def HasKey (env : Env) (admins : Set Holder) (auth : Option SecretKey) : Prop :=
  ∃ key, ∃ admin ∈ admins, auth = some key ∧ env.secretKeyToPublicKey key = some admin.address.viewPublic ∧
    admin.address.spendPublic = 0

section Administrators

variable {env : Env} {options : ServerOptions} {now : Instant} {db : Storage}

theorem serve_writes (event : Event) : Writes env db (serve env options db event) := by
  cases event with
  | client now req => exact serveClient_writes req
  | admin now req => exact callAdmin_writes req
  | scanner op unprivileged => exact .step op .refl unprivileged

theorem foldl_writes (events : List Event) (db : Storage) : Writes env db (events.foldl (serve env options) db) := by
  induction events generalizing db with
  | nil => exact .refl
  | cons event events ih => exact (serve_writes event).trans (ih _)

/-- Where the account tables agree, a key is let through exactly when it is that of an account
    with the flag, which is not inactive and whose spend key is zero. -/
theorem authorize_iff (hagree : db.Agree env) (hauth : options.disableAdminAuth = false) {auth : Option SecretKey} :
    authorize env options now auth db = .ok () ↔
      now.startRead = none ∧ ∃ key status a, auth = some key ∧ (status, a) ∈ db.accounts ∧ status ≠ .inactive ∧
        a.flags &&& adminAccount ≠ 0 ∧ env.secretKeyToPublicKey key = some a.address.viewPublic ∧
        a.address.spendPublic = 0 := by
  unfold authorize
  rw [hauth, if_neg Bool.false_ne_true]
  constructor
  · intro h
    split at h
    · cases h
    · rename_i key
      split at h
      · cases h
      · rename_i viewPublic hkey
        split at h
        · cases h
        · rename_i hread
          split at h
          · cases h
          · rename_i status a hget
            split at h
            · cases h
            · rename_i hstatus
              split at h
              · cases h
              · rename_i hflags
                obtain ⟨hba, hmem⟩ := getAccountAt_ok.mp hget
                have hrow : ⟨viewPublic, 0⟩ = a.address :=
                  congrArg AccountByAddress.address (hagree.address_row hmem hba rfl)
                refine ⟨hread, key, status, a, rfl, hmem, hstatus, hflags, ?_, ?_⟩
                · rw [← hrow]
                  exact hkey
                · rw [← hrow]
  · rintro ⟨hread, key, status, a, rfl, hmem, hstatus, hflags, hkey, hspend⟩
    have hba : ((), (⟨⟨a.address.viewPublic, 0⟩, ⟨a.id, status⟩⟩ : AccountByAddress)) ∈ db.accountsBa := by
      rw [← hspend]
      exact hagree.byAddress status a hmem
    simp only [hkey, hread, getAccountAt_ok.mpr ⟨hba, hmem⟩, if_neg hstatus, if_neg hflags]

theorem authorize_key (hagree : db.Agree env) (hauth : options.disableAdminAuth = false) {auth : Option SecretKey}
    (h : authorize env options now auth db = .ok ()) : HasKey env (admins db) auth := by
  obtain ⟨-, key, status, a, hkey, hmem, -, hflags, hpublic, hspend⟩ := (authorize_iff hagree hauth).mp h
  exact ⟨key, a.holder, ⟨⟨status, a, hmem, rfl⟩, hflags⟩, hkey, hpublic, hspend⟩

/-- The administrators of a server are those it was started with, and without a key of one
    of them a command does nothing, as long as administrators are checked. -/
theorem administrators_fixed {start : Storage} (hstart : Reached env (fun _ _ => True) start) (hquiet : Quiet start)
    (events : List Event) (hcount : (events.foldl (serve env options) start).accounts.rows.length < 2 ^ 32 - 2) :
    admins (events.foldl (serve env options) start) = admins start ∧
      (options.disableAdminAuth = false → ∀ now req, ¬ HasKey env (admins start) req.auth →
        ∃ e, callAdmin env options now req (events.foldl (serve env options) start) =
          (events.foldl (serve env options) start, .error e)) := by
  have hwrites := @foldl_writes env options events start
  have hadmins := (admins_steps hquiet hwrites).admins
  refine ⟨hadmins, fun hauth now req hkey => ?_⟩
  have hreached : Reached env (fun _ _ => True) (events.foldl (serve env options) start) :=
    hstart.trans (hwrites.mono fun _ _ _ => trivial)
  have hagree := agree_reached hreached hcount
  rcases hresult : authorize env options now req.auth (events.foldl (serve env options) start) with e | u
  · refine ⟨e, ?_⟩
    unfold callAdmin
    rw [hresult]
  · exact absurd (hadmins ▸ authorize_key hagree hauth hresult) hkey

/-- One administrator, with the key 7. -/
def oneAdmin : Storage := Op.runs sampleEnv [.addAccount 5 ⟨1007, 0⟩ 7 adminAccount]

def sampleServer : ServerOptions := ⟨⟨20, true⟩, true, false⟩

/-- A client logs in for the first time, and the administrator adds an account. -/
def sampleEvents : List Event :=
  [.client ⟨6, none, none⟩ (.login ⟨⟨⟨1008, 51⟩, 8⟩, ⟨0, 0⟩, true, true⟩),
    .admin ⟨7, none, none⟩ ⟨some 7, .addAccount ⟨1009, 52⟩ 9⟩, .scanner (.rollback 0) trivial]

/-- The administrator's key adds an account, and the client's does not. -/
theorem administrators_fixed_sample :
    admins (sampleEvents.foldl (serve sampleEnv sampleServer) oneAdmin) = admins oneAdmin ∧
      (sampleEvents.foldl (serve sampleEnv sampleServer) oneAdmin).accounts.rows.length = 3 ∧
      ∃ e, callAdmin sampleEnv sampleServer ⟨8, none, none⟩ ⟨some 8, .addAccount ⟨1010, 53⟩ 10⟩
        (sampleEvents.foldl (serve sampleEnv sampleServer) oneAdmin) =
          (sampleEvents.foldl (serve sampleEnv sampleServer) oneAdmin, .error e) := by
  have hquiet : Quiet oneAdmin := by
    intro info hinfo
    have hnone : ∀ r ∈ oneAdmin.requests, r.2.creationFlags &&& adminAccount = 0 := by decide +kernel
    exact hnone _ hinfo
  have hcount : (sampleEvents.foldl (serve sampleEnv sampleServer) oneAdmin).accounts.rows.length = 3 := by
    decide +kernel
  obtain ⟨hadmins, hrefused⟩ := @administrators_fixed sampleEnv sampleServer oneAdmin
    (reached_runs (by simp [AllOk])) hquiet sampleEvents (by rw [hcount]; decide)
  refine ⟨hadmins, hcount, hrefused rfl ⟨8, none, none⟩ ⟨some 8, .addAccount ⟨1010, 53⟩ 10⟩ ?_⟩
  rintro ⟨key, admin, ⟨⟨st, a, ha, rfl⟩, -⟩, hkey, hpublic, -⟩
  have hall : ∀ r ∈ oneAdmin.accounts, some r.2.address.viewPublic ≠ sampleEnv.secretKeyToPublicKey 8 := by
    decide +kernel
  cases hkey
  exact hall _ ha hpublic.symm

end Administrators

/-! ## Clients -/

/-- The account numbered `id`, the requests under another spend key than that of `address`,
    and the chain are the same. -/
structure Isolated (db db' : Storage) (address : AccountAddress) (id : Nat) : Prop extends SameAccount db db' id where
  requests : ∀ type info, info.address.spendPublic ≠ address.spendPublic →
    ((type, info) ∈ db'.requests ↔ (type, info) ∈ db.requests)
  blocks : db'.blocks = db.blocks
  pows : db'.pows = db.pows

section Clients

variable {env : Env} {options : ServerOptions} {now : Instant} {db mid db' : Storage} {address : AccountAddress} {id : Nat}

theorem Isolated.refl (db : Storage) (address : AccountAddress) (id : Nat) : Isolated db db address id :=
  { SameAccount.refl db id with
    requests := fun _ _ _ => Iff.rfl
    blocks := rfl
    pows := rfl }

theorem Isolated.trans (h : Isolated db mid address id) (h' : Isolated mid db' address id) :
    Isolated db db' address id where
  accounts := fun st a ha => (h'.accounts st a ha).trans (h.accounts st a ha)
  accountsBa := fun b hb => (h'.accountsBa b hb).trans (h.accountsBa b hb)
  accountsBh := fun height l hl => (h'.accountsBh height l hl).trans (h.accountsBh height l hl)
  outputs := fun o => (h'.outputs o).trans (h.outputs o)
  spends := fun s => (h'.spends s).trans (h.spends s)
  subaddressRanges := fun d => (h'.subaddressRanges d).trans (h.subaddressRanges d)
  subaddressIndexes := fun m => (h'.subaddressIndexes m).trans (h.subaddressIndexes m)
  webhooks := fun type v ht => (h'.webhooks type v ht).trans (h.webhooks type v ht)
  events := fun e => (h'.events e).trans (h.events e)
  requests := fun type info hi => (h'.requests type info hi).trans (h.requests type info hi)
  blocks := h'.blocks.trans h.blocks
  pows := h'.pows.trans h.pows

theorem erase_isolated (db : Storage) (address : AccountAddress) (id : Nat) (req : Request) :
    Isolated db { db with requests := db.requests.erase req address.spendPublic } address id :=
  { Isolated.refl db address id with
    requests := fun type info hi => by
      show (type, info) ∈ db.requests.erase req address.spendPublic ↔ _
      rw [Table.mem_erase]
      exact and_iff_left fun e => hi e.2 }

theorem filed_isolated {req : Request} {info : RequestInfo} {requests : Requests} (id : Nat)
    (hput : putNewOr .duplicateRequest db.requests req info = .ok requests) :
    Isolated db { db with requests } info.address id := by
  obtain ⟨-, rfl⟩ := putNewOr_ok.mp hput
  exact
    { Isolated.refl db info.address id with
      requests := fun type x hx => Table.mem_put_of_ne fun e => hx e.2 }

theorem creationRequest_isolated {clock : Int} {key : SecretKey} {flags : Nat} {lookahead : AddressIndex}
    {hooks : List WebhookNewAccount} (id : Nat)
    (h : db.creationRequest env clock address key flags lookahead = .ok (db', hooks)) :
    Isolated db db' address id ∧ db'.accounts = db.accounts := by
  obtain ⟨height, time, requests, hput, rfl⟩ := creationRequest_files h
  exact ⟨filed_isolated id hput, rfl⟩

theorem importRequest_isolated {clock : Int} {height : Nat} {lookahead : AddressIndex} (id : Nat)
    (h : db.importRequest clock address height lookahead = .ok db') :
    Isolated db db' address id ∧ db'.accountsBa = db.accountsBa := by
  obtain ⟨requests, hput, rfl⟩ := importRequest_files h
  exact ⟨filed_isolated id hput, rfl⟩

theorem shrinkLookahead_isolated {lookahead : AddressIndex} (h : db.shrinkLookahead address lookahead = .ok db')
    (hne : lookupId db.accountsBa address ≠ some id) :
    Isolated db db' address id ∧ db'.accountsBa = db.accountsBa := by
  obtain ⟨lookup, user, hfind, -, -, -, rfl⟩ := shrinkLookahead_ok h
  have hlooked := findAccount_looked hfind
  have hsame : SameAccount db { db with accounts := db.accounts.put lookup.status { user with lookahead } } id :=
    same_put fun e => hne (hlooked.trans (congrArg some e))
  exact ⟨{ hsame with requests := fun _ _ _ => Iff.rfl, blocks := rfl, pows := rfl }, rfl⟩

theorem acceptImport_isolated {clock : Int} {maxSubaddresses : Nat} {updated : List AccountAddress}
    (h : db.acceptRequests env clock .importScan [address] maxSubaddresses = .ok (db', updated))
    (hne : lookupId db.accountsBa address ≠ some id) : Isolated db db' address id := by
  rcases importAccounts_one h with ⟨-, rfl, -⟩ | ⟨info, mid, -, rfl, ⟨hchange, -⟩ | ⟨-, rfl, -⟩⟩
  · exact Isolated.refl _ _ _
  · have hsame := same_changeHeight hchange hne
    obtain ⟨b, a, a', l, spends, images, ranges, indexes, -, -, -, -, -, -, -, -, rfl⟩ := changeHeight_ok hchange
    exact (erase_isolated db address id .importScan).trans
      { hsame with requests := fun _ _ _ => Iff.rfl, blocks := rfl, pows := rfl }
  · exact erase_isolated db address id .importScan

/-- Adding an account changes no account under another id. -/
theorem added_isolated {user : Db.Account} (hid : user.id ≠ id)
    (hfree : ∀ b, ((), b) ∈ db.accountsBa → b.address.viewPublic ≠ user.address.viewPublic) :
    Isolated db (added user db) address id :=
  { Isolated.refl db address id with
    accounts := fun st a ha => Table.mem_put_of_ne fun e => hid (e.2.symm.trans ha)
    accountsBh := fun height l hl => Table.mem_put_of_ne fun e => hid (e.2.symm.trans hl)
    accountsBa := fun b hb => by
      show ((), b) ∈ db.accountsBa.put () _ ↔ _
      constructor
      · intro hm
        rcases Table.mem_put.mp hm with hm | ⟨hm, -⟩
        · cases hm
          exact absurd hb hid
        · exact hm
      · exact fun hm => Table.mem_put.mpr (Or.inr ⟨hm, fun e => hfree b hm e.2⟩) }

theorem create_isolated {clock : Int} {maxSubaddresses : Nat} {stored : List AccountAddress}
    (h : db.acceptRequests env clock .create [address] maxSubaddresses = .ok (db', stored))
    (hlast : findLastId db.accounts + 1 < 2 ^ 32) (hid : id ≤ findLastId db.accounts) :
    Isolated db db' address id := by
  obtain ⟨time, -, h⟩ := bind_ok.mp h
  unfold createAccountsLoop at h
  split at h
  · cases h
    exact Isolated.refl _ _ _
  · rename_i info hinfo
    dsimp only at h
    split at h
    · cases h
    · obtain ⟨⟨user, ranges, indexes⟩, hlook, h⟩ := bind_ok.mp h
      have huser : user.id = findLastId db.accounts + 1 := (applyLookahead_same hlook).id.trans (nextId_of_lt hlast)
      have hnext : (requestedAccount (nextId (findLastId db.accounts)) time address info).id =
        findLastId db.accounts + 1 := nextId_of_lt hlast
      obtain ⟨hranges, hindexes⟩ := applyLookahead_others hlook
      have hsubs : Isolated db { db with
          requests := db.requests.erase .create address.spendPublic
          subaddressRanges := ranges
          subaddressIndexes := indexes } address id :=
        (erase_isolated db address id .create).trans
          { Isolated.refl _ address id with
            subaddressRanges := fun d => hranges (id, d) (by show id ≠ _; omega)
            subaddressIndexes := fun m => hindexes (id, m) (by show id ≠ _; omega) }
      dsimp only at h
      split at h
      · rename_i mid hadd
        cases h
        obtain ⟨-, hfree, -, -, rfl⟩ := doAddAccount_ok hadd
        exact hsubs.trans (added_isolated (by omega) hfree)
      · cases h
        exact hsubs
      · cases h
        exact hsubs
      · cases h

theorem login_isolated (req : LoginRequest) (hlast : findLastId db.accounts + 1 < 2 ^ 32)
    (hid : id ≤ findLastId db.accounts) : Isolated db (login env options now req db).1 req.creds.address id := by
  have hcreate : Isolated db (loginCreate env options now.clock req db).1 req.creds.address id := by
    unfold loginCreate
    dsimp only
    split
    · exact Isolated.refl _ _ _
    · rename_i filed hooks hfile
      obtain ⟨hfiled, haccounts⟩ := creationRequest_isolated id hfile
      split
      · split
        · exact hfiled
        · rename_i created stored haccept
          exact hfiled.trans (create_isolated haccept (haccounts ▸ hlast) (haccounts ▸ hid))
      · exact hfiled
  unfold login
  split
  · exact Isolated.refl _ _ _
  · split
    · exact Isolated.refl _ _ _
    · split
      · split <;> exact Isolated.refl _ _ _
      · split
        · exact Isolated.refl _ _ _
        · split
          · exact hcreate
          · exact Isolated.refl _ _ _

theorem importDecide_isolated (req : ImportRequest) (user : Db.Account)
    (hne : lookupId db.accountsBa req.creds.address ≠ some id) :
    Isolated db (importDecide req user db).1 req.creds.address id ∧
      (importDecide req user db).1.accountsBa = db.accountsBa := by
  have hsame := And.intro (Isolated.refl db req.creds.address id) (Eq.refl db.accountsBa)
  unfold importDecide
  dsimp only
  split
  · exact hsame
  · split
    · exact hsame
    · split
      · split
        · split
          · exact hsame
          · rename_i shrunk hshrink
            exact shrinkLookahead_isolated hshrink hne
        · exact hsame
      · exact hsame

theorem importQueue_isolated (options : Options) (clock : Int) (req : ImportRequest) (state : ImportState)
    (hne : lookupId db.accountsBa req.creds.address ≠ some id) :
    Isolated db (importQueue env options clock req state db).1 req.creds.address id := by
  unfold importQueue
  split
  · split
    · exact Isolated.refl _ _ _
    · rename_i filed hfile
      obtain ⟨hfiled, hba⟩ := importRequest_isolated id hfile
      split
      · split
        · exact hfiled
        · rename_i accepted updated haccept
          exact hfiled.trans (acceptImport_isolated haccept (hba ▸ hne))
      · exact hfiled
  · exact Isolated.refl _ _ _

theorem importRequest_handled (options : Options) (clock : Int) (startRead : Option ErrorCode) (req : ImportRequest)
    (hne : lookupId db.accountsBa req.creds.address ≠ some id) :
    Isolated db (importRequest env options clock startRead req db).1 req.creds.address id := by
  unfold importRequest
  split
  · exact Isolated.refl _ _ _
  · rename_i user _
    split
    · have hdecide := importDecide_isolated req user hne
      split
      · rename_i mid e he
        rw [he] at hdecide
        exact hdecide.1
      · rename_i mid state he
        rw [he] at hdecide
        have hqueue := @importQueue_isolated env mid id options clock req state (hdecide.2 ▸ hne)
        split
        · rename_i last e he'
          rw [he'] at hqueue
          exact hdecide.1.trans hqueue
        · rename_i last state' he'
          rw [he'] at hqueue
          exact hdecide.1.trans hqueue
    · exact Isolated.refl _ _ _

theorem upsert_isolated {user : Nat} {viewKey : SecretKey} {subaddrs out : List SubaddressDict} {maxSubaddr : Nat}
    (h : db.upsertSubaddresses env user address viewKey subaddrs maxSubaddr = .ok (db', out)) (hne : id ≠ user) :
    Isolated db db' address id := by
  obtain ⟨-, rfl⟩ := upsertSubaddresses_ok h
  obtain ⟨hup, -⟩ := @doUpsert_upserted env user address viewKey maxSubaddr db.subaddressRanges
    db.subaddressIndexes (subaddrs.mergeSort dictLe)
  exact
    { Isolated.refl db address id with
      subaddressRanges := fun d => hup.otherRanges (id, d) hne
      subaddressIndexes := fun m => hup.otherIndexes (id, m) hne }

/-- An account that is opened is the one that its address looks up. -/
theorem openAccount_looked {startRead : Option ErrorCode} {creds : AccountCredentials} {user : Db.Account}
    (h : openAccount env startRead creds db = .ok user) : lookupId db.accountsBa creds.address = some user.id := by
  obtain ⟨-, status, -, hget⟩ := openAccount_ok h
  exact lookupId_eq (getAccountAt_ok.mp hget).1 rfl

theorem provisionSubaddrs_isolated (options : Options) (startRead startReadAll : Option ErrorCode)
    (req : ProvisionRequest) (hne : lookupId db.accountsBa req.creds.address ≠ some id) :
    Isolated db (provisionSubaddrs env options startRead startReadAll req db).1 req.creds.address id := by
  unfold provisionSubaddrs
  split
  · exact Isolated.refl _ _ _
  · split
    · exact Isolated.refl _ _ _
    · rename_i user hopen
      have hother : id ≠ user.id := fun e => hne (e ▸ openAccount_looked hopen)
      split
      · exact Isolated.refl _ _ _
      · rename_i mid newRanges hupsert
        have hisolated : Isolated db mid req.creds.address id := by
          unfold provisionUpsert at hupsert
          split at hupsert
          · split at hupsert
            · cases hupsert
            · split at hupsert
              · cases hupsert
              · split at hupsert
                · cases hupsert
                · rename_i upserted hdone
                  cases hupsert
                  exact upsert_isolated hdone hother
          · cases hupsert
            exact Isolated.refl _ _ _
        split
        · split <;> exact hisolated
        · exact hisolated

theorem upsertSubaddrs_isolated (req : UpsertRequest) (hne : lookupId db.accountsBa req.creds.address ≠ some id) :
    Isolated db (upsertSubaddrs env options now req db).1 req.creds.address id := by
  unfold upsertSubaddrs
  split
  · exact Isolated.refl _ _ _
  · split
    · exact Isolated.refl _ _ _
    · rename_i user hopen
      have hother : id ≠ user.id := fun e => hne (e ▸ openAccount_looked hopen)
      split
      · exact Isolated.refl _ _ _
      · rename_i mid newRanges hupsert
        have hisolated : Isolated db mid req.creds.address id := upsert_isolated hupsert hother
        split
        · split <;> exact hisolated
        · exact hisolated

/-- With a key that is not that of the address, nothing is opened. -/
theorem openAccount_key {startRead : Option ErrorCode} {creds : AccountCredentials}
    (hkey : env.secretKeyToPublicKey creds.key ≠ some creds.address.viewPublic) :
    ∃ e, openAccount env startRead creds db = .error e := by
  rcases hopen : openAccount env startRead creds db with e | user
  · exact ⟨e, rfl⟩
  · exact absurd (openAccount_ok hopen).1 hkey

theorem serveClient_key (req : ClientRequest)
    (hkey : env.secretKeyToPublicKey req.creds.key ≠ some req.creds.address.viewPublic) :
    serveClient env options now db req = db := by
  cases req with
  | login req =>
    have hkey' : env.secretKeyToPublicKey req.creds.key ≠ some req.creds.address.viewPublic := hkey
    show (login env options now req db).1 = db
    unfold login
    rw [if_pos hkey']
  | importRequest req =>
    show (importRequest env options.toOptions now.clock now.startRead req db).1 = db
    obtain ⟨e, he⟩ := @openAccount_key env db now.startRead req.creds hkey
    unfold importRequest
    rw [he]
  | provisionSubaddrs req =>
    show (provisionSubaddrs env options.toOptions now.startRead now.startReadAll req db).1 = db
    obtain ⟨e, he⟩ := @openAccount_key env db now.startRead req.creds hkey
    unfold provisionSubaddrs
    rw [he]
    split <;> rfl
  | upsertSubaddrs req =>
    show (upsertSubaddrs env options now req db).1 = db
    obtain ⟨e, he⟩ := @openAccount_key env db now.startRead req.creds hkey
    unfold upsertSubaddrs
    rw [he]
    split <;> rfl
  | look creds => rfl

/-- A client's request changes nothing without the view key of its address. With it, it
    changes no account but the one with that view key, no request under another spend key,
    and not the chain. -/
theorem client_isolated (req : ClientRequest) (hlast : findLastId db.accounts + 1 < 2 ^ 32) :
    (env.secretKeyToPublicKey req.creds.key ≠ some req.creds.address.viewPublic →
      serveClient env options now db req = db) ∧
    ∀ id ≤ findLastId db.accounts, lookupId db.accountsBa req.creds.address ≠ some id →
      Isolated db (serveClient env options now db req) req.creds.address id := by
  refine ⟨serveClient_key req, fun id hid hne => ?_⟩
  cases req with
  | login req => exact login_isolated req hlast hid
  | importRequest req => exact importRequest_handled _ _ _ req hne
  | provisionSubaddrs req => exact provisionSubaddrs_isolated _ _ _ req hne
  | upsertSubaddrs req => exact upsertSubaddrs_isolated req hne
  | look creds => exact Isolated.refl _ _ _

/-- The client of `sampleEvents` imports, and the account beside its own stays. -/
theorem client_isolated_sample :
    ∃ db, lookupId db.accountsBa ⟨1008, 51⟩ = some 2 ∧ findLastId db.accounts = 3 ∧
      Isolated db (serveClient sampleEnv sampleServer ⟨9, none, none⟩ db
        (.importRequest ⟨⟨⟨1008, 51⟩, 8⟩, 0, ⟨2, 3⟩⟩)) ⟨1008, 51⟩ 3 ∧
      ¬ SameAccount db (serveClient sampleEnv sampleServer ⟨9, none, none⟩ db
        (.importRequest ⟨⟨⟨1008, 51⟩, 8⟩, 0, ⟨2, 3⟩⟩)) 2 := by
  let db := sampleEvents.foldl (serve sampleEnv sampleServer) oneAdmin
  have hlooked : lookupId db.accountsBa ⟨1008, 51⟩ = some 2 := by decide +kernel
  have hlast : findLastId db.accounts = 3 := by decide +kernel
  obtain ⟨-, hothers⟩ := @client_isolated sampleEnv sampleServer ⟨9, none, none⟩ db
    (.importRequest ⟨⟨⟨1008, 51⟩, 8⟩, 0, ⟨2, 3⟩⟩) (by rw [hlast]; decide)
  refine ⟨db, hlooked, hlast, hothers 3 (by rw [hlast]) ?_, fun hsame => ?_⟩
  · show lookupId db.accountsBa ⟨1008, 51⟩ ≠ some 3
    rw [hlooked]
    decide
  · have hbefore : ∃ r ∈ db.accounts, r.2.id = 2 ∧ r.2.lookahead = ⟨0, 0⟩ := by decide +kernel
    have hafter : ∀ r ∈ (serveClient sampleEnv sampleServer ⟨9, none, none⟩ db
        (.importRequest ⟨⟨⟨1008, 51⟩, 8⟩, 0, ⟨2, 3⟩⟩)).accounts, r.2.id = 2 → r.2.lookahead = ⟨2, 3⟩ := by
      decide +kernel
    obtain ⟨⟨st, a⟩, ha, hid, hzero⟩ := hbefore
    have hnow := hafter _ ((hsame.accounts st a hid).mpr ha) hid
    exact absurd (hzero.symm.trans hnow) (by decide)

end Clients

end Lws.Rest
