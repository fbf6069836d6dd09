/-
  Lws.Db.Change — what a write operation can do, said once.

  Every operation is a sequence of changes of a few kinds (`Change`), most of them to one
  account; `Op.Acts` says which kinds an operation makes, and in which states. An
  invariant of the database is proved for one change at a time and holds after every
  operation by `Changes.keeps`.
-/

import Lws.Db.UpdateProofs
import Lws.Db.PowProofs
import Lws.Db.Operations

namespace Lws.Db

open Lws.Lmdb

inductive Act where
  | aside
  | chain
  | subs
  | hook
  | unhook
  | touch
  | move
  | add
  | lower (user height : Nat)
  | rewind (height : Nat)
  | store (height lastUpdate : Nat) (user : Lws.Account)

inductive Change (env : Env) : Act → Storage → Storage → Prop where
  | aside (db : Storage) (requests : Requests) : Change env .aside db { db with requests }
  | chain (db : Storage) (blocks : Blocks) (pows : Pows) : Change env .chain db { db with blocks, pows }
  | subs (db : Storage) (ranges : SubaddressRanges) (indexes : SubaddressIndexes) :
      Change env .subs db { db with subaddressRanges := ranges, subaddressIndexes := indexes }
  | hook {db : Storage} {user : Nat} {type : WebhookType} (event : WebhookValue)
      (owner : type = .newAccount ∨ ∃ b, ((), b) ∈ db.accountsBa ∧ b.lookup.id = user) :
      Change env .hook db { db with webhooks := db.webhooks.put ⟨user, type⟩ event }
  | unhook (db : Storage) (user : Nat) :
      Change env .unhook db
        { db with webhooks := db.webhooks.eraseKey ⟨user, .txConfirmation⟩, events := db.events.eraseKey user }
  | unhookIds (db : Storage) (ids : List Uuid) :
      Change env .unhook db
        { db with
          webhooks := db.webhooks.filter fun r => !decide (r.2.1.eventId ∈ ids)
          events := db.events.filter fun r => !decide (r.2.linkWebhook.eventId ∈ ids) }
  | touch {db : Storage} {status : AccountStatus} {a a' : Account} (stored : (status, a) ∈ db.accounts) (same : a.Same a') :
      Change env .touch db { db with accounts := db.accounts.put status a' }
  | move {db : Storage} {b : AccountByAddress} {a : Account} {l : AccountLookup} {status : AccountStatus}
      (byAddress : ((), b) ∈ db.accountsBa) (other : b.lookup.status ≠ status)
      (stored : (b.lookup.status, a) ∈ db.accounts) (id : a.id = b.lookup.id)
      (byHeight : (a.scanHeight, l) ∈ db.accountsBh) (lookup : l.id = a.id)
      (free : ∀ x, (status, x) ∈ db.accounts → x.id ≠ a.id) :
      Change env .move db (moved b a status db)
  | add {db : Storage} {user : Account} (key : env.secretKeyToPublicKey user.key = some user.address.viewPublic)
      (id : findLastId db.accounts + 1 < 2 ^ 32 → user.id = findLastId db.accounts + 1)
      (start : user.startHeight = user.scanHeight)
      (freeBa : ∀ b, ((), b) ∈ db.accountsBa → b.address.viewPublic ≠ user.address.viewPublic)
      (freeBh : ∀ l, (user.scanHeight, l) ∈ db.accountsBh → l.id ≠ user.id)
      (free : ∀ x, (newStatus user, x) ∈ db.accounts → x.id ≠ user.id) :
      Change env .add db (added user db)
  | lower {db : Storage} {b : AccountByAddress} {a a' : Account} {l : AccountLookup} {height : Nat} {spends : Spends}
      {images : Images} (byAddress : ((), b) ∈ db.accountsBa) (stored : (b.lookup.status, a) ∈ db.accounts)
      (id : a.id = b.lookup.id) (same : (a.lowered height).Same a')
      (rolled : rollbackSpends a.id height db.spends db.images = .ok (spends, images))
      (byHeight : (a.scanHeight, l) ∈ db.accountsBh) (lookup : l.id = a.id) :
      Change env (.lower a.id height) db (lowered b a a' height spends images db)
  | rewind {db db' : Storage} {height : Nat} (rewound : Rewound height db db') : Change env (.rewind height) db db'
  | store {db : Storage} {height lastUpdate : Nat} {user : Lws.Account} {status : AccountStatus} {existing : Account}
      {l : AccountLookup} {pubs pubs' : List WebhookTxConfirmation} {events : Events}
      (stored : (status, existing) ∈ db.accounts) (id : existing.id = user.id)
      (scanned : user.scanHeight ≤ existing.scanHeight) (raises : existing.scanHeight < lastUpdate)
      (byHeight : (existing.scanHeight, l) ∈ db.accountsBh) (lookup : l.id = user.id)
      (hooks : addOngoingHooks db.webhooks (db.outputs.putAllAbsent user.id user.outputs) user.id
        (ongoingStart height existing) (lastUpdate + 1) pubs (checkHooks db.webhooks user db.events) =
          .ok (pubs', events)) :
      Change env (.store height lastUpdate user) db
        ((raised lastUpdate user status existing events db).withHeights lastUpdate [⟨user.id, status⟩])

/-- A sequence of changes, each allowed in the state it starts from. -/
def Changes (env : Env) (allowed : Storage → Act → Prop) : Storage → Storage → Prop :=
  Relation.ReflTransGen fun db db' => ∃ act, allowed db act ∧ Change env act db db'

section Changes

variable {env : Env} {allowed : Storage → Act → Prop} {db mid db' : Storage}

theorem Changes.refl (db : Storage) : Changes env allowed db db := Relation.ReflTransGen.refl

theorem Changes.one {act : Act} (h : Change env act db db') (ha : allowed db act) : Changes env allowed db db' :=
  Relation.ReflTransGen.single ⟨act, ha, h⟩

theorem Changes.trans (h : Changes env allowed db mid) (h' : Changes env allowed mid db') :
    Changes env allowed db db' :=
  Relation.ReflTransGen.trans h h'

/-- What every allowed change keeps is kept by a sequence of them. -/
theorem Changes.keeps (inv : Storage → Prop)
    (hstep : ∀ {u u' act}, inv u → allowed u act → Change env act u u' → inv u') (h : Changes env allowed db db')
    (h0 : inv db) : inv db' := by
  induction h with
  | refl => exact h0
  | tail _ hc ih =>
    obtain ⟨act, ha, hc⟩ := hc
    exact hstep ih ha hc

theorem Changes.mono {allowed' : Storage → Act → Prop} (hsub : ∀ u act, allowed u act → allowed' u act)
    (h : Changes env allowed db db') : Changes env allowed' db db' := by
  induction h with
  | refl => exact Changes.refl db
  | tail _ hc ih =>
    obtain ⟨act, ha, hc⟩ := hc
    exact ih.trans (Changes.one hc (hsub _ act ha))

end Changes

/-! ## Which changes an operation makes -/

def lookupId (ba : AccountsByAddress) (address : AccountAddress) : Option Nat :=
  (ba.get? () address.viewPublic).map (·.lookup.id)

theorem lookupId_eq {ba : AccountsByAddress} {b : AccountByAddress} {address : AccountAddress} (hb : ((), b) ∈ ba)
    (hview : b.address.viewPublic = address.viewPublic) : lookupId ba address = some b.lookup.id := by
  rw [lookupId, Table.get?_eq_some.mpr ⟨hb, hview⟩]
  rfl

theorem lookupId_some {ba : AccountsByAddress} {address : AccountAddress} {id : Nat}
    (h : lookupId ba address = some id) :
    ∃ b, ((), b) ∈ ba ∧ b.address.viewPublic = address.viewPublic ∧ b.lookup.id = id := by
  obtain ⟨b, hb, hid⟩ := Option.map_eq_some_iff.mp h
  obtain ⟨hm, hview⟩ := Table.get?_eq_some.mp hb
  exact ⟨b, hm, hview, hid⟩

def rescanTargets (ba : AccountsByAddress) (height : Nat) (addresses : List AccountAddress) : List (Nat × Nat) :=
  addresses.filterMap fun address => (lookupId ba address).map (·, height)

/-- A request is deleted when it is accepted, so an address that is given twice counts once. -/
def importTargets (ba : AccountsByAddress) : Requests → List AccountAddress → List (Nat × Nat)
  | _, [] => []
  | requests, address :: addresses =>
    match requests.get? .importScan address.spendPublic with
    | none => importTargets ba requests addresses
    | some info =>
      ((lookupId ba address).map (·, info.startHeight)).toList ++
        importTargets ba (requests.erase .importScan address.spendPublic) addresses

/-- The accounts an operation takes back, each with the height it is given. -/
def Op.targets (db : Storage) : Op → List (Nat × Nat)
  | .rescan height addresses => rescanTargets db.accountsBa height addresses
  | .acceptRequests _ .importScan addresses _ => importTargets db.accountsBa db.requests addresses
  | _ => []

/-- The first block an operation drops from the chain. -/
def Op.forkAt (db : Storage) : Op → Option Nat
  | .syncChain height hashes _ => forkPoint db.blocks height hashes
  | .syncPow height hashes _ => powFork db.blocks height hashes
  | .rollback height => if (db.blocks.get? () height).isSome then some height else none
  | _ => none

def Op.upserts : Op → Bool
  | .upsertSubaddresses .. | .updateLookahead .. | .acceptRequests .. => true
  | _ => false

def Op.chains : Op → Bool
  | .syncChain .. | .syncPow .. | .rollback .. | .update .. => true
  | _ => false

structure Lowered (db mid : Storage) : Prop where
  accountsBa : mid.accountsBa = db.accountsBa
  events : mid.events = db.events
  accounts : ∀ st a', (st, a') ∈ mid.accounts → ∃ a, (st, a) ∈ db.accounts ∧ a.id = a'.id ∧ a'.scanHeight ≤ a.scanHeight
  outputs : ∀ r ∈ mid.outputs, r ∈ db.outputs

/-- `mid` is `db` with outputs and spends of a batch added. -/
structure Grown (users : List Lws.Account) (db mid : Storage) : Prop where
  outputs : ∀ r ∈ mid.outputs, r ∈ db.outputs ∨ ∃ u ∈ users, u.id = r.1 ∧ r.2 ∈ u.outputs
  spends : ∀ r ∈ mid.spends, r ∈ db.spends ∨ ∃ u ∈ users, u.id = r.1 ∧ r.2 ∈ u.spends
  keeps : ∀ r ∈ db.outputs, r ∈ mid.outputs

/-- The changes an operation on `db` makes, in a state `mid` it passes through. -/
def Op.Acts (db : Storage) : Op → Storage → Act → Prop
  | .update height chain users _ _, mid, .store h lastUpdate user =>
    h = height ∧ lastUpdate = height + chain.length - 1 ∧ user ∈ users ∧ Grown users db mid
  | op, mid, .lower user h => (user, h) ∈ op.targets db ∧ Lowered db mid
  | op, mid, .rewind h => mid = db ∧ op.forkAt db = some h
  | op, _, .subs => op.upserts = true
  | op, _, .chain => op.chains = true
  | _, _, .store _ _ _ => False
  | _, _, _ => True

theorem acts_lower {db mid : Storage} {op : Op} {user height : Nat} :
    op.Acts db mid (.lower user height) ↔ (user, height) ∈ op.targets db ∧ Lowered db mid := by
  cases op <;> rfl

theorem acts_rewind {db mid : Storage} {op : Op} {height : Nat} :
    op.Acts db mid (.rewind height) ↔ mid = db ∧ op.forkAt db = some height := by
  cases op <;> rfl

theorem acts_subs {db mid : Storage} {op : Op} : op.Acts db mid .subs ↔ op.upserts = true := by
  cases op <;> rfl

theorem acts_chain {db mid : Storage} {op : Op} : op.Acts db mid .chain ↔ op.chains = true := by
  cases op <;> rfl

theorem acts_store {db mid : Storage} {op : Op} {height lastUpdate : Nat} {user : Lws.Account}
    (h : op.Acts db mid (.store height lastUpdate user)) :
    ∃ chain users pow regtest, op = .update height chain users pow regtest ∧ lastUpdate = height + chain.length - 1 ∧
      user ∈ users ∧ Grown users db mid := by
  cases op with
  | update height' chain users pow regtest =>
    obtain ⟨rfl, hl, hu, hg⟩ := h
    exact ⟨chain, users, pow, regtest, rfl, hl, hu, hg⟩
  | _ => exact h.elim

theorem Lowered.refl (db : Storage) : Lowered db db :=
  ⟨rfl, rfl, fun _ a ha => ⟨a, ha, rfl, Nat.le_refl _⟩, fun _ hr => hr⟩

theorem Grown.refl (users : List Lws.Account) (db : Storage) : Grown users db db :=
  ⟨fun _ h => Or.inl h, fun _ h => Or.inl h, fun _ h => h⟩

/-! ## Status and new accounts -/

section Runs

variable {env : Env} {db db' : Storage}

/-- Changes of the kinds that no condition is asked of. -/
def Plain (_ : Storage) : Act → Prop
  | .store _ _ _ => False
  | .lower _ _ => False
  | .rewind _ => False
  | .subs => False
  | .chain => False
  | _ => True

theorem plain_acts (db : Storage) (op : Op) : ∀ mid act, Plain mid act → op.Acts db mid act := by
  intro mid act ha
  cases act with
  | store _ _ _ => exact ha.elim
  | lower _ _ => exact ha.elim
  | rewind _ => exact ha.elim
  | subs => exact ha.elim
  | chain => exact ha.elim
  | _ => cases op <;> trivial

theorem changeStatus_changes {status : AccountStatus} : ∀ (addresses : List AccountAddress) {db db' : Storage}
    {changed : List AccountAddress}, db.changeStatus status addresses = .ok (db', changed) →
      Changes env (fun _ act => act = .move) db db' := by
  intro addresses
  induction addresses with
  | nil =>
    intro db db' changed h
    cases h
    exact Changes.refl _
  | cons address addresses ih =>
    intro db db' changed h
    unfold Storage.changeStatus at h
    obtain ⟨⟨mid, c⟩, h1, h⟩ := bind_ok.mp h
    obtain ⟨⟨db₂, rest⟩, h2, h⟩ := bind_ok.mp h
    cases h
    refine Changes.trans ?_ (ih h2)
    rcases changeStatusOf_ok h1 with rfl | ⟨b, a, l, hb, -, hne, ha, hid, hl, hl', hfree, rfl⟩
    · exact Changes.refl _
    · exact Changes.one (.move hb hne ha hid hl hl' hfree) rfl

/-- The next id of `create_accounts` is the one after the largest, short of 32 bits. -/
theorem findLastId_put {accounts : Accounts} {user : Account}
    (hid : findLastId accounts + 1 < 2 ^ 32 → user.id = findLastId accounts + 1)
    (hlt : findLastId (accounts.put (newStatus user) user) + 1 < 2 ^ 32) :
    findLastId (accounts.put (newStatus user) user) = user.id := by
  obtain ⟨hmax, hin⟩ := findLastId_spec accounts
  obtain ⟨hmax', hin'⟩ := findLastId_spec (accounts.put (newStatus user) user)
  have huser : user.id ≤ findLastId (accounts.put (newStatus user) user) := hmax' _ (Table.mem_put_self _ _ _)
  have hold : ∀ x ∈ accounts, x.2.id ≤ findLastId (accounts.put (newStatus user) user) := by
    intro x hx
    by_cases e : x.1 = newStatus user ∧ x.2.id = user.id
    · rw [e.2]; exact huser
    · exact hmax' x (Table.mem_put.mpr (Or.inr ⟨hx, e⟩))
  have hle : findLastId accounts ≤ findLastId (accounts.put (newStatus user) user) := by
    rcases hin with h | ⟨x, hx, h⟩
    · omega
    · rw [← h]; exact hold x hx
  have hid' := hid (by omega)
  rcases hin' with h | ⟨x, hx, h⟩
  · omega
  · rcases Table.mem_put.mp hx with rfl | ⟨hx, -⟩
    · exact h.symm
    · have := hmax x hx
      omega

theorem doAddAccount_change {user : Account} (h : doAddAccount env user db = .ok db')
    (hid : findLastId db.accounts + 1 < 2 ^ 32 → user.id = findLastId db.accounts + 1)
    (hstart : user.startHeight = user.scanHeight) : Change env .add db db' ∧ db' = added user db := by
  obtain ⟨hkey, hba, hbh, hfree, rfl⟩ := doAddAccount_ok h
  exact ⟨.add hkey hid hstart hba hbh hfree, rfl⟩

theorem nextId_of_lt {last : Nat} (h : last + 1 < 2 ^ 32) : nextId last = last + 1 := Nat.mod_eq_of_lt h

theorem addAccount_changes {clock : Int} {address : AccountAddress} {key : SecretKey} {flags : Nat}
    (h : db.addAccount env clock address key flags = .ok db') : Changes env Plain db db' := by
  unfold Storage.addAccount at h
  obtain ⟨time, -, h⟩ := bind_ok.mp h
  obtain ⟨height, -, h⟩ := bind_ok.mp h
  obtain ⟨hc, -⟩ := doAddAccount_change h (fun hlt => nextId_of_lt hlt) rfl
  exact Changes.one hc trivial

theorem createAccountsLoop_changes {clock : Int} {all : List AccountAddress} {currentTime maxSubaddresses : Nat}
    {start : Storage} :
    ∀ (addresses : List AccountAddress) {lastId : Nat} {db db' : Storage} {stored : List AccountAddress},
    (findLastId db.accounts + 1 < 2 ^ 32 → lastId = findLastId db.accounts) →
    createAccountsLoop env currentTime maxSubaddresses lastId addresses db = .ok (db', stored) →
      Changes env ((Op.acceptRequests clock .create all maxSubaddresses).Acts start) db db' := by
  intro addresses
  induction addresses with
  | nil =>
    intro lastId db db' stored _ h
    cases h
    exact Changes.refl _
  | cons address addresses ih =>
    intro lastId db db' stored hlast h
    unfold createAccountsLoop at h
    split at h
    · exact ih hlast h
    · rename_i info _
      dsimp only at h
      split at h
      · cases h
      · obtain ⟨⟨user, ranges, indexes⟩, hlook, h⟩ := bind_ok.mp h
        have hsame := applyLookahead_same hlook
        have haside := @Change.aside env db (db.requests.erase .create address.spendPublic)
        refine Changes.trans (Changes.one haside trivial) (Changes.trans (Changes.one (.subs _ ranges indexes) rfl) ?_)
        dsimp only at h
        split at h
        · rename_i db₁ hadd
          obtain ⟨⟨db₂, stored'⟩, hloop, h⟩ := bind_ok.mp h
          cases h
          have hid : findLastId db.accounts + 1 < 2 ^ 32 → user.id = findLastId db.accounts + 1 := by
            intro hlt
            rw [hsame.id, ← hlast hlt]
            exact nextId_of_lt (by rw [hlast hlt]; exact hlt)
          obtain ⟨hc, rfl⟩ := doAddAccount_change hadd hid (by rw [hsame.startHeight, hsame.scanHeight]; rfl)
          refine Changes.trans (Changes.one hc trivial) (ih (fun hlt => ?_) hloop)
          exact hsame.id.symm.trans (findLastId_put hid hlt).symm
        · exact ih hlast h
        · exact ih hlast h
        · cases h

/-! ## Changing heights -/

theorem changeHeight_change {height : Nat} {address : AccountAddress} {lookahead : AddressIndex} {limit : Option Nat}
    (h : changeHeight env height address lookahead limit db = .ok db') :
    ∃ user mid, lookupId db.accountsBa address = some user ∧ Change env (.lower user height) db mid ∧ Lowered db mid ∧
      mid.requests = db.requests ∧ (limit = none → db' = mid) ∧
      db' = { mid with subaddressRanges := db'.subaddressRanges, subaddressIndexes := db'.subaddressIndexes } := by
  obtain ⟨b, a, a', l, spends, images, ranges, indexes, hb, hview, ha, hid, hs, hl, hl', hlook, rfl⟩ := changeHeight_ok h
  have hsame := applyLookahead_same hlook
  have hlookup : lookupId db.accountsBa address = some a.id := by
    rw [hid]
    exact lookupId_eq hb hview
  refine ⟨a.id, _, hlookup, .lower hb ha hid hsame hs hl hl', ⟨rfl, rfl, fun st x hx => ?_, fun r hr => ?_⟩, rfl,
    fun hnone => ?_, rfl⟩
  · rcases Table.mem_put.mp hx with hx | ⟨hx, -⟩
    · cases hx
      refine ⟨a, ha, hsame.id.symm, ?_⟩
      rw [hsame.scanHeight]
      exact Nat.min_le_right _ _
    · exact ⟨x, hx, rfl, Nat.le_refl _⟩
  · exact (Table.mem_filter.mp hr).1
  · rw [hnone] at hlook
    cases hlook
    rfl

theorem Lowered.trans {mid : Storage} (h : Lowered db mid) (h' : Lowered mid db') : Lowered db db' := by
  refine ⟨h'.accountsBa.trans h.accountsBa, h'.events.trans h.events, fun st a' ha' => ?_,
    fun r hr => h.outputs r (h'.outputs r hr)⟩
  obtain ⟨b, hb, hid, hle⟩ := h'.accounts st a' ha'
  obtain ⟨a, ha, hid', hle'⟩ := h.accounts st b hb
  exact ⟨a, ha, hid'.trans hid, hle.trans hle'⟩

theorem rescanLoop_changes {height : Nat} {all : List AccountAddress} : ∀ (addresses : List AccountAddress)
    {mid db' : Storage} {updated : List AccountAddress}, (∀ x ∈ addresses, x ∈ all) → Lowered db mid →
    rescanLoop env height addresses mid = .ok (db', updated) →
      Changes env ((Op.rescan height all).Acts db) mid db' := by
  intro addresses
  induction addresses with
  | nil =>
    intro mid db' updated _ _ h
    cases h
    exact Changes.refl _
  | cons address addresses ih =>
    intro mid db' updated hall hlow h
    rw [List.forall_mem_cons] at hall
    unfold rescanLoop at h
    split at h
    · rename_i db₁ hch
      obtain ⟨⟨db₂, u⟩, hloop, h⟩ := bind_ok.mp h
      cases h
      obtain ⟨user, mid', hlookup, hc, hlow', -, hmid, -⟩ := changeHeight_change hch
      obtain rfl := hmid rfl
      rw [hlow.accountsBa] at hlookup
      have hin : (user, height) ∈ (Op.rescan height all).targets db :=
        List.mem_filterMap.mpr ⟨address, hall.1, by rw [hlookup]; rfl⟩
      exact (Changes.one hc ⟨hin, hlow⟩).trans (ih hall.2 (hlow.trans hlow') hloop)
    · exact ih hall.2 hlow h
    · cases h

theorem importAccounts_changes {clock : Int} {maxSubaddresses : Nat} {all : List AccountAddress} :
    ∀ (addresses : List AccountAddress) {mid db' : Storage} {updated : List AccountAddress}, Lowered db mid →
    (∀ t ∈ importTargets db.accountsBa mid.requests addresses,
      t ∈ (Op.acceptRequests clock .importScan all maxSubaddresses).targets db) →
    importAccounts env maxSubaddresses addresses mid = .ok (db', updated) →
      Changes env ((Op.acceptRequests clock .importScan all maxSubaddresses).Acts db) mid db' := by
  intro addresses
  induction addresses with
  | nil =>
    intro mid db' updated _ _ h
    cases h
    exact Changes.refl _
  | cons address addresses ih =>
    intro mid db' updated hlow hall h
    unfold importAccounts at h
    unfold importTargets at hall
    split at h
    · rename_i hnone
      rw [hnone] at hall
      exact ih hlow hall h
    · rename_i info hinfo
      rw [hinfo] at hall
      have haside := @Change.aside env mid (mid.requests.erase .importScan address.spendPublic)
      refine Changes.trans (Changes.one haside trivial) ?_
      have hlow₁ : Lowered db { mid with requests := mid.requests.erase .importScan address.spendPublic } :=
        ⟨hlow.accountsBa, hlow.events, hlow.accounts, hlow.outputs⟩
      have hrest := fun t ht => hall t (List.mem_append_right _ ht)
      dsimp only at h
      split at h
      · rename_i db₁ hch
        obtain ⟨⟨db₂, u⟩, hloop, h⟩ := bind_ok.mp h
        cases h
        obtain ⟨user, mid', hlookup, hc, hlow', hreq, -, hdb₁⟩ := changeHeight_change hch
        rw [hlow₁.accountsBa] at hlookup
        have hin := hall _ (List.mem_append_left _ (by rw [hlookup]; exact List.mem_singleton.mpr rfl))
        have hsubs := @Change.subs env mid' db₁.subaddressRanges db₁.subaddressIndexes
        rw [← hdb₁] at hsubs
        have hlow₂ : Lowered db db₁ := by
          rw [hdb₁]
          exact ⟨(hlow₁.trans hlow').accountsBa, (hlow₁.trans hlow').events, (hlow₁.trans hlow').accounts,
              (hlow₁.trans hlow').outputs⟩
        refine Changes.trans (Changes.one hc ⟨hin, hlow₁⟩) (Changes.trans (Changes.one hsubs rfl) (ih hlow₂ ?_ hloop))
        rw [hdb₁]
        exact hreq ▸ hrest
      · exact ih hlow₁ hrest h
      · cases h

/-! ## Storing a batch -/

theorem updateUserNow_change {height lastUpdate : Nat} {user : Lws.Account} {out out' : Updated}
    (h : updateUserNow height lastUpdate user out db = .ok (db', out')) :
    db' = db ∨ Change env (.store height lastUpdate user) db db' := by
  rcases updateUserNow_cases h with ⟨rfl, -⟩ | ⟨status, existing, l, events, hex, hscan, hlt, hl, hl', hev, rfl⟩
  · exact Or.inl rfl
  · obtain ⟨hstored, hid⟩ := existingAccount_ok hex
    exact Or.inr (.store hstored hid hscan hlt hl hl' hev)

theorem Grown.store {users : List Lws.Account} {mid : Storage} {height lastUpdate : Nat} {user : Lws.Account}
    (hu : user ∈ users) (hg : Grown users db mid) (h : Change env (.store height lastUpdate user) mid db') :
    Grown users db db' := by
  cases h with
  | store _ _ _ _ _ _ _ =>
    refine ⟨fun r hr => ?_, fun r hr => ?_, fun r hr => Table.mem_putAllAbsent_of_mem (hg.keeps r hr)⟩
    · rcases Table.mem_putAllAbsent hr with hr | ⟨h1, h2⟩
      · exact hg.outputs r hr
      · exact Or.inr ⟨user, hu, h1.symm, h2⟩
    · rcases Table.mem_putAllAbsent hr with hr | ⟨h1, h2⟩
      · exact hg.spends r hr
      · exact Or.inr ⟨user, hu, h1.symm, h2⟩

/-- The changes of the loop over the accounts of a batch. -/
def Stores (db : Storage) (users : List Lws.Account) (height lastUpdate : Nat) (mid : Storage) : Act → Prop
  | .store h last user => h = height ∧ last = lastUpdate ∧ user ∈ users ∧ Grown users db mid
  | _ => False

theorem stores_acts {height : Nat} {chain : List Hash} {users : List Lws.Account} {pow : List PowSync}
    {regtest : Bool} :
    ∀ mid act, Stores db users height (height + chain.length - 1) mid act →
      (Op.update height chain users pow regtest).Acts db mid act := by
  intro mid act h
  cases act with
  | store _ _ _ => exact h
  | _ => exact h.elim

theorem updateUsersNow_changes {height lastUpdate : Nat} {all : List Lws.Account} : ∀ (users : List Lws.Account)
    {mid db' : Storage} {out out' : Updated}, (∀ u ∈ users, u ∈ all) → Grown all db mid →
    updateUsersNow height lastUpdate users out mid = .ok (db', out') →
      Changes env (Stores db all height lastUpdate) mid db' := by
  intro users
  induction users with
  | nil =>
    intro mid db' out out' _ _ h
    cases h
    exact Changes.refl _
  | cons user users ih =>
    intro mid db' out out' hall hg h
    rw [List.forall_mem_cons] at hall
    unfold updateUsersNow at h
    obtain ⟨⟨db₁, out₁⟩, hu, hrest⟩ := bind_ok.mp h
    rcases @updateUserNow_change env _ _ _ _ _ _ _ hu with rfl | hc
    · exact ih hall.2 hg hrest
    · exact (Changes.one hc ⟨rfl, rfl, hall.1, hg⟩).trans (ih hall.2 (hg.store hall.1 hc) hrest)

theorem updateChain_ok {height : Nat} {chain : List Hash} {pow : List PowSync} {regtest : Bool}
    (h : updateChain env height chain pow regtest db = .ok db') : ∃ blocks pows, db' = { db with blocks, pows } := by
  unfold updateChain at h
  by_cases e : (regtest || decide (env.maxHeight ≤ height + chain.length - 1)) = true
  · rw [if_pos e] at h
    obtain ⟨last, -, h⟩ := bind_ok.mp h
    by_cases e' : last < height
    · rw [if_pos e'] at h
      cases h
    · rw [if_neg e'] at h
      obtain ⟨hash, -, h⟩ := bind_ok.mp h
      by_cases e'' : chain[min last (height + chain.length - 1) - height]? ≠ some hash
      · rw [if_pos e''] at h
        cases h
      · rw [if_neg e''] at h
        cases h
        exact ⟨_, _, rfl⟩
  · rw [if_neg e] at h
    split at h
    · cases h
      exact ⟨db.blocks, db.pows, rfl⟩
    · split at h
      · cases h
      · cases h
        exact ⟨db.blocks, db.pows, rfl⟩

/-- An update does nothing, or checks the chain and then stores the accounts one by one. -/
theorem update_parts {height : Nat} {chain : List Hash} {users : List Lws.Account} {pow : List PowSync} {regtest : Bool}
    {out : Updated} (h : db.update env height chain users pow regtest = .ok (db', out)) :
    db' = db ∨ (chain ≠ [] ∧ (pow = [] ∨ pow.length = chain.length) ∧
      ∃ mid, updateChain env height chain pow regtest db = .ok mid ∧
        Changes env (Stores db users height (height + chain.length - 1)) mid db') := by
  unfold Storage.update at h
  split at h
  · cases h
    exact Or.inl rfl
  · split at h
    · cases h
    · rename_i hempty
      split at h
      · cases h
      · rename_i hcount
        obtain ⟨mid, hchain, h⟩ := bind_ok.mp h
        rw [updateUsers_eq, withHeights_nil] at h
        have hgrown : Grown users db mid := by
          obtain ⟨blocks, pows, rfl⟩ := updateChain_ok hchain
          exact ⟨fun _ h => Or.inl h, fun _ h => Or.inl h, fun _ h => h⟩
        refine Or.inr ⟨fun e => hempty (by rw [e]; rfl), ?_, mid, hchain,
          updateUsersNow_changes users (fun _ hu => hu) hgrown h⟩
        by_cases hpow : pow = []
        · exact Or.inl hpow
        · refine Or.inr ?_
          by_contra hlen
          refine hcount ?_
          rw [Bool.and_eq_true, decide_eq_true_eq, Bool.not_eq_true', ← Bool.not_eq_true, List.isEmpty_iff]
          exact ⟨hpow, fun e => hlen e.symm⟩

theorem update_stores {height : Nat} {chain : List Hash} {users : List Lws.Account} {pow : List PowSync}
    {regtest : Bool} {out : Updated} (h : db.update env height chain users pow regtest = .ok (db', out)) :
    db' = db ∨ ∃ blocks pows,
      Changes env (Stores db users height (height + chain.length - 1)) { db with blocks, pows } db' := by
  rcases update_parts h with rfl | ⟨-, -, mid, hchain, hstores⟩
  · exact Or.inl rfl
  · obtain ⟨blocks, pows, rfl⟩ := updateChain_ok hchain
    exact Or.inr ⟨blocks, pows, hstores⟩

theorem update_changes {height : Nat} {chain : List Hash} {users : List Lws.Account} {pow : List PowSync}
    {regtest : Bool} {out : Updated} (h : db.update env height chain users pow regtest = .ok (db', out)) :
    Changes env ((Op.update height chain users pow regtest).Acts db) db db' := by
  rcases update_stores h with rfl | ⟨blocks, pows, hc⟩
  · exact Changes.refl _
  · exact Changes.trans (Changes.one (.chain db blocks pows) rfl) (hc.mono stores_acts)

/-- The height an update leaves an account at: its own, or the last block of a batch that
    was scanned from no higher than where the account stood. -/
theorem update_heights {height : Nat} {chain : List Hash} {users : List Lws.Account} {pow : List PowSync}
    {regtest : Bool}
    {out : Updated} (h : db.update env height chain users pow regtest = .ok (db', out)) {st : AccountStatus} {a' : Account}
    (ha' : (st, a') ∈ db'.accounts) :
    ∃ a, (st, a) ∈ db.accounts ∧ a.id = a'.id ∧ (a'.scanHeight = a.scanHeight ∨
      (a.scanHeight < height + chain.length - 1 ∧ a'.scanHeight = height + chain.length - 1 ∧
        ∃ u ∈ users, u.id = a.id ∧ u.scanHeight ≤ a.scanHeight)) := by
  rcases update_stores h with rfl | ⟨blocks, pows, hc⟩
  · exact ⟨a', ha', rfl, Or.inl rfl⟩
  · refine hc.keeps (fun mid => ∀ st a', (st, a') ∈ mid.accounts → ∃ a, (st, a) ∈ db.accounts ∧ a.id = a'.id ∧
      (a'.scanHeight = a.scanHeight ∨ (a.scanHeight < height + chain.length - 1 ∧
        a'.scanHeight = height + chain.length - 1 ∧ ∃ u ∈ users, u.id = a.id ∧ u.scanHeight ≤ a.scanHeight))) ?_
      (fun st a ha => ⟨a, ha, rfl, Or.inl rfl⟩) st a' ha'
    intro mid mid' act hinv hact hchange st x hx
    cases hchange with
    | @store _ h' lastUpdate user status existing l pubs pubs' events hstored hid hscan hlt hl hl' hooks =>
      obtain ⟨rfl, rfl, huser, -⟩ := hact
      rcases Table.mem_put.mp hx with hx | ⟨hx, -⟩
      · cases hx
        obtain ⟨a, ha, hida, hcase⟩ := hinv _ _ hstored
        rcases hcase with he | ⟨_, he, _⟩
        · exact ⟨a, ha, hida, Or.inr ⟨he ▸ hlt, rfl, user, huser, hid.symm.trans hida.symm, he ▸ hscan⟩⟩
        · omega
      · exact hinv st x hx
    | _ => exact hact.elim

/-! ## Every operation -/

theorem rejectRequests_aside {req : Request} : ∀ (addresses : List AccountAddress) (db : Storage),
    ∃ requests, (db.rejectRequests req addresses).1 = { db with requests } := by
  intro addresses
  induction addresses with
  | nil => intro db; exact ⟨db.requests, rfl⟩
  | cons address addresses ih =>
    intro db
    unfold Storage.rejectRequests
    split
    · exact ih db
    · obtain ⟨requests, h⟩ := ih { db with requests := db.requests.erase req address.spendPublic }
      exact ⟨requests, h⟩

theorem clearWebhooks_changes : ∀ (addresses : List AccountAddress) {db db' : Storage},
    db.clearWebhooks addresses = .ok db' → Changes env (fun _ act => act = .unhook) db db' := by
  intro addresses
  induction addresses with
  | nil =>
    intro db db' h
    cases h
    exact Changes.refl _
  | cons address addresses ih =>
    intro db db' h
    unfold Storage.clearWebhooks at h
    obtain ⟨b, -, h⟩ := bind_ok.mp h
    exact (Changes.one (.unhook db b.lookup.id) rfl).trans (ih h)

theorem clearWebhookIds_change {ids : List Uuid} (h : db.clearWebhookIds ids = .ok db') :
    db' = db ∨ Change env .unhook db db' := by
  unfold Storage.clearWebhookIds at h
  split at h
  · cases h
    exact Or.inl rfl
  · obtain ⟨⟨u, webhooks⟩, hw, h⟩ := bind_ok.mp h
    obtain ⟨⟨v, events⟩, he, h⟩ := bind_ok.mp h
    cases h
    rw [Table.eachRow_eq _ fun _ _ _ _ h => by cases h; rfl] at hw he
    obtain ⟨_, -, hw⟩ := bind_ok.mp hw
    obtain ⟨_, -, he⟩ := bind_ok.mp he
    cases hw
    cases he
    exact Or.inr (.unhookIds db ids)

theorem addWebhook_change {type : WebhookType} {address : Option AccountAddress} {event : WebhookValue}
    (h : db.addWebhook env type address event = .ok db') : Change env .hook db db' := by
  unfold Storage.addWebhook at h
  dsimp only at h
  split at h
  · cases h
  · split at h
    · cases h
    · rename_i hne
      cases h
      refine .hook event ?_
      by_cases e : type = .newAccount
      · exact Or.inl e
      · have htype : type = .txConfirmation ∨ type = .txSpend := by
          cases type <;> simp at e ⊢
        have huser : webhookUser db.accountsBa address ≠ invalidId := fun hi => hne ⟨hi, htype⟩
        unfold webhookUser at huser ⊢
        rcases address with _ | address
        · exact absurd rfl huser
        · rcases hget : db.accountsBa.get? () address.viewPublic with _ | b
          · simp [hget] at huser
          · exact Or.inr ⟨b, (Table.get?_eq_some.mp hget).1, by simp [hget]⟩

theorem fst_ok {α β : Type} {x : Except Error (α × β)} {a : α} (h : (·.1) <$> x = .ok a) : ∃ b, x = .ok (a, b) := by
  rcases x with e | ⟨a', b⟩
  · cases h
  · cases h
    exact ⟨b, rfl⟩

section Parts

variable {clock : Int} {address : AccountAddress} {lookahead : AddressIndex} {height maxSubaddresses : Nat}
  {addresses updated : List AccountAddress} {hashes : List Hash}

theorem updateAccessTime_changes (h : db.updateAccessTime clock address = .ok db') :
    Changes env ((Op.updateAccessTime clock address).Acts db) db db' := by
  obtain ⟨access, -, h⟩ := bind_ok.mp h
  obtain ⟨⟨lookup, user⟩, hf, h⟩ := bind_ok.mp h
  cases h
  obtain ⟨b, -, -, rfl, ha, -⟩ := findAccount_ok hf
  exact Changes.one (.touch ha ⟨rfl, rfl, rfl, rfl, rfl⟩) trivial

theorem acceptRequests_changes {req : Request}
    (h : db.acceptRequests env clock req addresses maxSubaddresses = .ok (db', updated)) :
    Changes env ((Op.acceptRequests clock req addresses maxSubaddresses).Acts db) db db' := by
  cases req with
  | create =>
    rcases acceptRequests_created h with rfl | ⟨time, hloop⟩
    · exact Changes.refl _
    · exact createAccountsLoop_changes addresses (fun _ => rfl) hloop
  | importScan => exact importAccounts_changes addresses (Lowered.refl db) (fun _ ht => ht) h

theorem rescan_changes (h : db.rescan env height addresses = .ok (db', updated)) :
    Changes env ((Op.rescan height addresses).Acts db) db db' := by
  obtain ⟨last, -, h⟩ := bind_ok.mp h
  split at h
  · cases h
  · exact rescanLoop_changes addresses (fun _ hx => hx) (Lowered.refl db) h

theorem shrinkLookahead_changes (h : db.shrinkLookahead address lookahead = .ok db') :
    Changes env ((Op.shrinkLookahead address lookahead).Acts db) db db' := by
  obtain ⟨lookup, user, hf, -, -, -, rfl⟩ := shrinkLookahead_ok h
  obtain ⟨b, -, -, rfl, ha, -⟩ := findAccount_ok hf
  exact Changes.one (.touch ha ⟨rfl, rfl, rfl, rfl, rfl⟩) trivial

theorem upsertSubaddresses_changes {id : Nat} {viewKey : SecretKey} {subaddrs out : List SubaddressDict}
    {maxSubaddr : Nat} (h : db.upsertSubaddresses env id address viewKey subaddrs maxSubaddr = .ok (db', out)) :
    Changes env ((Op.upsertSubaddresses id address viewKey subaddrs maxSubaddr).Acts db) db db' := by
  obtain ⟨-, rfl⟩ := upsertSubaddresses_ok h
  exact Changes.one (.subs db _ _) rfl

theorem updateLookahead_changes {fresh : AddressIndex} {n : Int}
    (h : db.updateLookahead env address height fresh maxSubaddresses = .ok (db', n)) :
    Changes env ((Op.updateLookahead address height fresh maxSubaddresses).Acts db) db db' := by
  obtain ⟨lookup, user, hf, rfl | ⟨upserted, -, rfl | rfl⟩⟩ := updateLookahead_cases h
  · exact Changes.refl _
  · exact Changes.one (.subs db _ _) rfl
  · obtain ⟨b, -, -, rfl, ha, -⟩ := findAccount_ok hf
    have hsubs := @Change.subs env db upserted.ranges upserted.indexes
    exact (Changes.one hsubs rfl).trans (Changes.one (.touch ha ⟨rfl, rfl, rfl, rfl, rfl⟩) trivial)

theorem syncChain_changes {regtest : Bool} (h : db.syncChain env height hashes regtest = .ok db') :
    Changes env ((Op.syncChain height hashes regtest).Acts db) db db' := by
  rcases syncChain_cases h with ⟨-, blocks, rfl⟩ | ⟨current, mid, blocks, hfork, hrw, rfl⟩
  · exact Changes.one (.chain db blocks db.pows) rfl
  · refine Changes.trans (Changes.one (.rewind hrw) ⟨rfl, hfork⟩) ?_
    exact Changes.one (.chain mid blocks mid.pows) rfl

theorem syncPow_changes {pow : List PowSync} (h : db.syncPow env height hashes pow = .ok db') :
    Changes env ((Op.syncPow height hashes pow).Acts db) db db' := by
  rcases syncPow_cases h with ⟨-, blocks, pows, rfl⟩ | ⟨fork, mid, blocks, pows, hfork, hrw, rfl⟩
  · exact Changes.one (.chain db blocks pows) rfl
  · refine Changes.trans (Changes.one (.rewind hrw) ⟨rfl, hfork⟩) ?_
    exact Changes.one (.chain mid blocks pows) rfl

theorem rollback_changes (h : db.rollback height = .ok db') : Changes env ((Op.rollback height).Acts db) db db' := by
  rcases rollback_ok h with ⟨-, rfl⟩ | ⟨hsome, hrw⟩
  · exact Changes.refl _
  · exact Changes.one (.rewind hrw) ⟨rfl, if_pos hsome⟩

end Parts

/-- An operation is a sequence of the changes it may make. -/
theorem run_changes {op : Op} (h : op.run env db = .ok db') : Changes env (op.Acts db) db db' := by
  cases op with
  | addAccount clock address key flags => exact (addAccount_changes h).mono (plain_acts db _)
  | updateAccessTime clock address => exact updateAccessTime_changes h
  | changeStatus status addresses =>
    obtain ⟨changed, h⟩ := fst_ok h
    refine (changeStatus_changes addresses h).mono fun mid act ha => ?_
    rw [ha]
    trivial
  | creationRequest clock address key flags lookahead =>
    obtain ⟨hooks, h⟩ := fst_ok h
    obtain ⟨-, -, requests, -, rfl⟩ := creationRequest_files h
    exact Changes.one (.aside db requests) trivial
  | importRequest clock address height lookahead =>
    obtain ⟨requests, -, rfl⟩ := importRequest_files h
    exact Changes.one (.aside db requests) trivial
  | acceptRequests clock req addresses maxSubaddresses =>
    obtain ⟨stored, h⟩ := fst_ok h
    exact acceptRequests_changes h
  | rejectRequests req addresses =>
    obtain ⟨requests, he⟩ := @rejectRequests_aside req addresses db
    obtain rfl : { db with requests } = db' := he.symm.trans (Except.ok.inj h)
    exact Changes.one (.aside db requests) trivial
  | rescan height addresses =>
    obtain ⟨updated, h⟩ := fst_ok h
    exact rescan_changes h
  | shrinkLookahead address lookahead => exact shrinkLookahead_changes h
  | upsertSubaddresses id address viewKey subaddrs maxSubaddr =>
    obtain ⟨out, h⟩ := fst_ok h
    exact upsertSubaddresses_changes h
  | updateLookahead address height fresh maxSubaddresses =>
    obtain ⟨n, h⟩ := fst_ok h
    exact updateLookahead_changes h
  | syncChain height hashes regtest => exact syncChain_changes h
  | syncPow height hashes pow => exact syncPow_changes h
  | rollback height => exact rollback_changes h
  | update height chain users pow regtest =>
    obtain ⟨out, h⟩ := fst_ok h
    exact update_changes h
  | addWebhook type address event => exact Changes.one (addWebhook_change h) trivial
  | clearWebhooks addresses =>
    refine (clearWebhooks_changes addresses h).mono fun mid act ha => ?_
    rw [ha]
    trivial
  | clearWebhookIds ids =>
    rcases @clearWebhookIds_change env _ _ _ h with rfl | hc
    · exact Changes.refl _
    · exact Changes.one hc trivial

end Runs

end Lws.Db
