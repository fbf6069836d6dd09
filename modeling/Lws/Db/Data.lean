/-
  Lws.Db.Data — the records of the database (`src/db/data.h`, and the account index
  records of `src/db/storage.cpp`), the tables they are stored in and how each table
  sorts them.

  Hashes, public and secret keys, key images and event ids are byte strings the code
  compares with `memcmp`: each is held as the number its bytes spell, so that `<` is
  that comparison. Heights, ids and indexes are numbers; where the width of the code's
  integer decides something, the definition that uses it says so. A payment id is the
  32 bytes of the union as a little-endian number, whose low 64 bits are `short_`.
  Padding (`reserved`) is left out.

  `Env` is what the database reads and does not store: the checkpoints, the create
  queue's limit, and the functions of libraries outside the repository (the curve
  operations behind a public view key and a subaddress, and the URL parser).
-/

import Lws.Lmdb.Cursor

namespace Lws.Db

open Lws.Lmdb

abbrev Hash := Nat
abbrev PublicKey := Nat
abbrev SecretKey := Nat
abbrev KeyImage := Nat
abbrev Uuid := Nat

def invalidId : Nat := 2 ^ 32 - 1

def uint32Max : Nat := 2 ^ 32 - 1

def adminAccount : Nat := 1

structure OutputId where
  high : Nat
  low : Nat
  deriving DecidableEq, Repr, Inhabited

inductive AccountStatus where
  | active
  | inactive
  | hidden
  deriving DecidableEq, Repr, Inhabited

inductive Request where
  | create
  | importScan
  deriving DecidableEq, Repr, Inhabited

structure AccountAddress where
  viewPublic : PublicKey
  spendPublic : PublicKey
  deriving DecidableEq, Repr, Inhabited

structure AddressIndex where
  majI : Nat
  minI : Nat
  deriving DecidableEq, Repr, Inhabited

def AddressIndex.isZero (i : AddressIndex) : Bool := i.majI == 0 && i.minI == 0

/-- First and last minor index, both included. -/
abbrev IndexRange := Nat × Nat

abbrev SubaddressDict := Nat × List IndexRange

structure SubaddressMap where
  subaddress : PublicKey
  index : AddressIndex
  deriving DecidableEq, Repr, Inhabited

structure Account where
  id : Nat
  access : Nat
  address : AccountAddress
  key : SecretKey
  scanHeight : Nat
  startHeight : Nat
  creation : Nat
  flags : Nat
  lookahead : AddressIndex
  lookaheadFail : Nat
  deriving DecidableEq, Repr, Inhabited

structure BlockInfo where
  id : Nat
  hash : Hash
  deriving DecidableEq, Repr, Inhabited

structure BlockDifficulty where
  high : Nat
  low : Nat
  deriving DecidableEq, Repr, Inhabited

structure BlockPow where
  id : Nat
  timestamp : Nat
  cumulativeDiff : BlockDifficulty
  deriving DecidableEq, Repr, Inhabited

structure PowSync where
  timestamp : Nat
  cumulativeDiff : BlockDifficulty
  deriving DecidableEq, Repr, Inhabited

structure TransactionLink where
  height : Nat
  txHash : Hash
  deriving DecidableEq, Repr, Inhabited

structure SpendMeta where
  id : OutputId
  amount : Nat
  mixinCount : Nat
  index : Nat
  txPublic : PublicKey
  deriving DecidableEq, Repr, Inhabited

structure Output where
  link : TransactionLink
  spendMeta : SpendMeta
  timestamp : Nat
  unlockTime : Nat
  txPrefixHash : Hash
  pub : PublicKey
  ringctMask : Nat
  extra : Nat
  paymentId : Nat
  fee : Nat
  recipient : AddressIndex
  deriving DecidableEq, Repr, Inhabited

def Output.shortId (o : Output) : Nat := o.paymentId % 2 ^ 64

structure Spend where
  link : TransactionLink
  image : KeyImage
  source : OutputId
  timestamp : Nat
  unlockTime : Nat
  mixinCount : Nat
  length : Nat
  paymentId : Nat
  sender : AddressIndex
  deriving DecidableEq, Repr, Inhabited

structure ImageRow where
  value : KeyImage
  link : TransactionLink
  deriving DecidableEq, Repr, Inhabited

structure RequestInfo where
  address : AccountAddress
  key : SecretKey
  startHeight : Nat
  creation : Nat
  creationFlags : Nat
  lookahead : AddressIndex
  deriving DecidableEq, Repr, Inhabited

inductive WebhookType where
  | txConfirmation
  | newAccount
  | txSpend
  deriving DecidableEq, Repr, Inhabited

structure WebhookKey where
  user : Nat
  type : WebhookType
  deriving DecidableEq, Repr, Inhabited

structure WebhookDupsort where
  paymentId : Nat
  eventId : Uuid
  deriving DecidableEq, Repr, Inhabited

structure WebhookData where
  url : String
  token : String
  confirmations : Nat
  deriving DecidableEq, Repr, Inhabited

abbrev WebhookValue := WebhookDupsort × WebhookData

structure WebhookTxConfirmation where
  key : WebhookKey
  value : WebhookValue
  txInfo : Output
  deriving DecidableEq, Repr

structure WebhookTxSpend where
  key : WebhookKey
  value : WebhookValue
  input : Spend
  source : SpendMeta
  deriving DecidableEq, Repr

structure WebhookOutput where
  tx : TransactionLink
  out : OutputId
  deriving DecidableEq, Repr, Inhabited

structure WebhookEvent where
  link : WebhookOutput
  linkWebhook : WebhookDupsort
  deriving DecidableEq, Repr, Inhabited

structure WebhookNewAccount where
  value : WebhookValue
  account : AccountAddress
  deriving DecidableEq, Repr

/-- Finds an account from another index. -/
structure AccountLookup where
  id : Nat
  status : AccountStatus
  deriving DecidableEq, Repr, Inhabited

structure AccountByAddress where
  address : AccountAddress
  lookup : AccountLookup
  deriving DecidableEq, Repr, Inhabited

/-! ## Orders of the keys -/

def AccountStatus.toNat : AccountStatus → Nat
  | active => 0
  | inactive => 1
  | hidden => 2

def Request.toNat : Request → Nat
  | create => 0
  | importScan => 1

def WebhookType.toNat : WebhookType → Nat
  | txConfirmation => 0
  | newAccount => 1
  | txSpend => 2

theorem WebhookType.toNat_inj : ∀ {a b : WebhookType}, a.toNat = b.toNat → a = b := by
  intro a b; cases a <;> cases b <;> simp [toNat]

instance : LinearOrder AccountStatus := orderBy AccountStatus.toNat (by
  intro a b; cases a <;> cases b <;> simp [AccountStatus.toNat])

instance : LinearOrder Request := orderBy Request.toNat (by
  intro a b; cases a <;> cases b <;> simp [Request.toNat])

instance : LinearOrder OutputId := orderBy (fun o => toLex (o.high, o.low)) (by
  rintro ⟨_, _⟩ ⟨_, _⟩ h; simpa using h)

instance : LinearOrder AddressIndex := orderBy (fun i => toLex (i.majI, i.minI)) (by
  rintro ⟨_, _⟩ ⟨_, _⟩ h; simpa using h)

instance : LinearOrder WebhookKey := orderBy (fun k => toLex (k.user, k.type.toNat)) (by
  rintro ⟨_, _⟩ ⟨_, _⟩ h
  simp only [EmbeddingLike.apply_eq_iff_eq, Prod.mk.injEq] at h
  rw [h.1, WebhookType.toNat_inj h.2])

instance : LinearOrder TransactionLink := orderBy (fun l => toLex (l.height, l.txHash)) (by
  rintro ⟨_, _⟩ ⟨_, _⟩ h; simpa using h)

instance : LinearOrder WebhookDupsort := orderBy (fun d => toLex (d.paymentId, d.eventId)) (by
  rintro ⟨_, _⟩ ⟨_, _⟩ h; simpa using h)

/-! ## Sort fields -/

def Output.sort (o : Output) : TransactionLink ×ₗ OutputId := toLex (o.link, o.spendMeta.id)

def Spend.sort (s : Spend) : TransactionLink ×ₗ (KeyImage ×ₗ OutputId) := toLex (s.link, toLex (s.image, s.source))

def AccountByAddress.sort (a : AccountByAddress) : PublicKey := a.address.viewPublic

def RequestInfo.sort (r : RequestInfo) : PublicKey := r.address.spendPublic

def WebhookEvent.sort (e : WebhookEvent) : (TransactionLink ×ₗ OutputId) ×ₗ WebhookDupsort :=
  toLex (toLex (e.link.tx, e.link.out), e.linkWebhook)

/-- The output an event is about, as `outputs` sorts it. -/
def WebhookOutput.sort (o : WebhookOutput) : TransactionLink ×ₗ OutputId := toLex (o.tx, o.out)

theorem link_le_height {a b : TransactionLink} (h : a ≤ b) : a.height ≤ b.height := by
  change toLex (a.height, a.txHash) ≤ toLex (b.height, b.txHash) at h
  rw [Prod.Lex.toLex_le_toLex] at h
  rcases h with h | h
  · exact Nat.le_of_lt h
  · exact Nat.le_of_eq h.1

theorem link_lt_height {a b : TransactionLink} (h : a < b) : a.height ≤ b.height := link_le_height (le_of_lt h)

/-! ## The tables -/

/-- The version keys of `blocks`, `pows` and `accounts_by_address` have one value. -/
abbrev Version := Unit

abbrev Blocks := Table Version BlockInfo.id
abbrev Pows := Table Version BlockPow.id
abbrev Accounts := Table AccountStatus Account.id
abbrev AccountsByAddress := Table Version AccountByAddress.sort
abbrev AccountsByHeight := Table Nat AccountLookup.id
abbrev Outputs := Table Nat Output.sort
abbrev Spends := Table Nat Spend.sort
abbrev Images := Table OutputId ImageRow.value
abbrev Requests := Table Request RequestInfo.sort
abbrev Webhooks := Table WebhookKey (Prod.fst : WebhookValue → WebhookDupsort)
abbrev Events := Table Nat WebhookEvent.sort
abbrev SubaddressRanges := Table Nat (Prod.fst : SubaddressDict → Nat)
abbrev SubaddressIndexes := Table Nat SubaddressMap.subaddress

structure Storage where
  blocks : Blocks
  pows : Pows
  accounts : Accounts
  accountsBa : AccountsByAddress
  accountsBh : AccountsByHeight
  outputs : Outputs
  spends : Spends
  images : Images
  requests : Requests
  webhooks : Webhooks
  events : Events
  subaddressRanges : SubaddressRanges
  subaddressIndexes : SubaddressIndexes
  deriving Inhabited

/-! ## Errors and the environment -/

inductive Error where
  | notFound
  | keyExist
  | accountExists
  | accountMax
  | accountNotFound
  | badBlockchain
  | badHeight
  | badUrl
  | badViewKey
  | badWebhook
  | blockchainReorg
  | createQueueMax
  | duplicateRequest
  | invalidArgument
  | maxSubaddresses
  | outOfRange
  | schemaArray
  | systemClockInvalidRange
  deriving DecidableEq, Repr

structure Env where
  /-- `get_checkpoints().get_points()`, by height; genesis is the first. -/
  checkpoints : List (Nat × Hash)
  createQueueMax : Nat
  secretKeyToPublicKey : SecretKey → Option PublicKey
  /-- The spend key `B + Hs(a ‖ major ‖ minor)G` of a subaddress other than the primary. -/
  subaddressKey : PublicKey → SecretKey → AddressIndex → PublicKey
  /-- The schema `parse_url` finds. -/
  urlSchema : String → Option String

def Env.maxHeight (env : Env) : Nat := (env.checkpoints.getLast?.map (·.1)).getD 0

def Env.getSpendPublic (env : Env) (base : AccountAddress) (view : SecretKey) (i : AddressIndex) : PublicKey :=
  if i.isZero then base.spendPublic else env.subaddressKey base.spendPublic view i

theorem bind_ok {ε α β : Type} {x : Except ε α} {f : α → Except ε β} {b : β} :
    (x >>= f) = .ok b ↔ ∃ a, x = .ok a ∧ f a = .ok b := by
  rcases x with e | a
  · simp [bind, Except.bind]
  · simp [bind, Except.bind]

/-- `mdb_cursor_get` with `MDB_GET_BOTH` where MDB_NOTFOUND is an error. -/
def require {K V S : Type} [LinearOrder K] [LinearOrder S] {sort : V → S} (t : Table K sort) (k : K) (s : S) :
    Except Error V :=
  match t.get? k s with
  | some v => .ok v
  | none => .error .notFound

theorem require_ok {K V S : Type} [LinearOrder K] [LinearOrder S] {sort : V → S} {t : Table K sort} {k : K} {s : S}
    {v : V} : require t k s = .ok v ↔ (k, v) ∈ t ∧ sort v = s := by
  unfold require
  split
  · rename_i w hw
    rw [← Table.get?_eq_some, hw, Except.ok.injEq, Option.some.injEq]
  · rename_i hn
    rw [← Table.get?_eq_some, hn]
    simp

/-- `mdb_cursor_put` with `MDB_NODUPDATA` where MDB_KEYEXIST is the error `e`. -/
def putNewOr {K V S : Type} [LinearOrder K] [LinearOrder S] {sort : V → S} (e : Error) (t : Table K sort) (k : K)
    (v : V) :
    Except Error (Table K sort) :=
  match t.putNew k v with
  | some t => .ok t
  | none => .error e

theorem putNewOr_ok {K V S : Type} [LinearOrder K] [LinearOrder S] {sort : V → S} {e : Error} {t u : Table K sort}
    {k : K} {v : V} : putNewOr e t k v = .ok u ↔ (∀ w, (k, w) ∈ t → sort w ≠ sort v) ∧ u = t.put k v := by
  unfold putNewOr
  split
  · rename_i w hw
    rw [← Table.putNew_eq_some, hw, Except.ok.injEq, Option.some.injEq]
  · rename_i hn
    rw [← Table.putNew_eq_some, hn]
    simp

theorem putNewOr_error {K V S : Type} [LinearOrder K] [LinearOrder S] {sort : V → S} {e e' : Error} {t : Table K sort}
    {k : K} {v : V} (h : putNewOr e t k v = .error e') : e' = e ∧ ∃ w, (k, w) ∈ t ∧ sort w = sort v := by
  unfold putNewOr at h
  split at h
  · cases h
  · rename_i hn
    cases h
    exact ⟨rfl, Table.putNew_eq_none.mp hn⟩

/-- `get_account_time` at the system clock's count of seconds. -/
def getAccountTime (clock : Int) : Except Error Nat :=
  if clock < 0 then .error .systemClockInvalidRange
  else if (uint32Max : Int) < clock then .error .systemClockInvalidRange
  else .ok clock.toNat

end Lws.Db
