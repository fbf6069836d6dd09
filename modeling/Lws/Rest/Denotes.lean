/-
  Lws.Rest.Denotes — which account an address denotes.

  `storage_reader::get_account` looks an address up by its view key and then compares the
  whole address. The writers repeat the lookup and leave the comparison out, and requests
  are looked up by the spend key alone. So a writer given an address with the view key of
  an account and another spend key changes that account, which `get_account` says is not
  there (`other_spend_key_written`).

  - `only_looked_up`: a writer changes the account whose index row has the view key, and
    no other.
  - `writers_agree_iff`: in every reachable state, readers and writers agree on an address
    exactly when the account with its view key and the requests with its spend key are of
    that address.
-/

import Lws.Db.LookaheadRuns
import Lws.Rest.Fulfilled

namespace Lws.Rest

open Lws.Db Lws.Lmdb Lws.Rpc.Feed Lws.Transition

/-! ## Index rows and their accounts -/

/-- Every index row has its account, and no two index rows have the same one. -/
structure IndexRows (db : Storage) : Prop where
  stored : ∀ b, ((), b) ∈ db.accountsBa → ∃ a, (b.lookup.status, a) ∈ db.accounts ∧ a.id = b.lookup.id
  once : ∀ b b', ((), b) ∈ db.accountsBa → ((), b') ∈ db.accountsBa → b.lookup = b'.lookup → b = b'

section Invariant

variable {env : Env} {db db' : Storage}

/-- The index stays, and each account keeps its status and id. -/
theorem IndexRows.keeps (h : IndexRows db) (hba : db'.accountsBa = db.accountsBa)
    (hkeeps : ∀ st a, (st, a) ∈ db.accounts → ∃ a', (st, a') ∈ db'.accounts ∧ a'.id = a.id) : IndexRows db' := by
  refine ⟨fun b hb => ?_, ?_⟩
  · rw [hba] at hb
    obtain ⟨a, ha, hid⟩ := h.stored b hb
    obtain ⟨a', ha', hid'⟩ := hkeeps _ a ha
    exact ⟨a', ha', hid'.trans hid⟩
  · rw [hba]
    exact h.once

theorem kept_put (accounts : Accounts) (st : AccountStatus) (a' : Db.Account) :
    ∀ s x, (s, x) ∈ accounts → ∃ x', (s, x') ∈ accounts.put st a' ∧ x'.id = x.id := by
  intro s x hx
  by_cases e : s = st ∧ x.id = a'.id
  · obtain ⟨rfl, e⟩ := e
    exact ⟨a', Table.mem_put_self _ _ _, e.symm⟩
  · exact ⟨x, Table.mem_put.mpr (Or.inr ⟨hx, e⟩), rfl⟩

theorem IndexRows.moved {b : AccountByAddress} {a : Db.Account} {status : AccountStatus} (h : IndexRows db)
    (hb : ((), b) ∈ db.accountsBa) (hid : a.id = b.lookup.id) (hfree : ∀ x, (status, x) ∈ db.accounts → x.id ≠ a.id) :
    IndexRows (moved b a status db) := by
  -- the row that moves is the only one with its view key, and no other leads to its account
  have hrow : ∀ {c : AccountByAddress}, ((), c) ∈ (Db.moved b a status db).accountsBa →
      c = { b with lookup := { b.lookup with status } } ∨ (((), c) ∈ db.accountsBa ∧ c.lookup ≠ b.lookup ∧
        c.lookup ≠ { b.lookup with status }) := by
    intro c hc
    rcases Table.mem_put.mp hc with hc | ⟨hc, hne⟩
    · exact Or.inl (Prod.mk.inj hc).2
    · refine Or.inr ⟨hc, fun e => hne ⟨rfl, ?_⟩, fun e => ?_⟩
      · rw [h.once c b hc hb e]
        rfl
      · obtain ⟨x, hx, hxid⟩ := h.stored c hc
        rw [e] at hx hxid
        exact hfree x hx (hxid.trans hid.symm)
  refine ⟨fun c hc => ?_, fun c c' hc hc' e => ?_⟩
  · rcases hrow hc with rfl | ⟨hc, hne, -⟩
    · exact ⟨a, Table.mem_put_self _ _ _, hid⟩
    · obtain ⟨x, hx, hxid⟩ := h.stored c hc
      have hkeep : (c.lookup.status, x) ∈ db.accounts.erase b.lookup.status b.lookup.id := by
        refine Table.mem_erase.mpr ⟨hx, fun e => hne ?_⟩
        exact congrArg₂ AccountLookup.mk (hxid.symm.trans e.2) e.1
      obtain ⟨x', hx', hid'⟩ := kept_put _ status a _ x hkeep
      exact ⟨x', hx', hid'.trans hxid⟩
  · rcases hrow hc with rfl | ⟨hc, -, hne⟩ <;> rcases hrow hc' with rfl | ⟨hc', -, hne'⟩
    · rfl
    · exact absurd e.symm hne'
    · exact absurd e hne
    · exact h.once c c' hc hc' e

theorem IndexRows.added {user : Db.Account} (h : IndexRows db)
    (hfree : ∀ x, (newStatus user, x) ∈ db.accounts → x.id ≠ user.id) : IndexRows (added user db) := by
  have hrow : ∀ {c : AccountByAddress}, ((), c) ∈ (Db.added user db).accountsBa →
      c = ⟨user.address, ⟨user.id, newStatus user⟩⟩ ∨
        (((), c) ∈ db.accountsBa ∧ c.lookup ≠ ⟨user.id, newStatus user⟩) := by
    intro c hc
    rcases Table.mem_put.mp hc with hc | ⟨hc, -⟩
    · exact Or.inl (Prod.mk.inj hc).2
    · refine Or.inr ⟨hc, fun e => ?_⟩
      obtain ⟨x, hx, hxid⟩ := h.stored c hc
      rw [e] at hx hxid
      exact hfree x hx hxid
  refine ⟨fun c hc => ?_, fun c c' hc hc' e => ?_⟩
  · rcases hrow hc with rfl | ⟨hc, -⟩
    · exact ⟨user, Table.mem_put_self _ _ _, rfl⟩
    · obtain ⟨x, hx, hxid⟩ := h.stored c hc
      obtain ⟨x', hx', hid'⟩ := kept_put _ (newStatus user) user _ x hx
      exact ⟨x', hx', hid'.trans hxid⟩
  · rcases hrow hc with rfl | ⟨hc, hne⟩ <;> rcases hrow hc' with rfl | ⟨hc', hne'⟩
    · rfl
    · exact absurd e.symm hne'
    · exact absurd e hne
    · exact h.once c c' hc hc' e

theorem indexRows_change {act : Act} (h : IndexRows db) (hc : Change env act db db') : IndexRows db' := by
  cases hc with
  | touch _ _ => exact h.keeps rfl (kept_put _ _ _)
  | move hb _ _ hid _ _ hfree => exact h.moved hb hid hfree
  | add _ _ _ _ _ hfree => exact h.added hfree
  | lower _ _ _ _ _ _ _ => exact h.keeps rfl (kept_put _ _ _)
  | rewind hrw =>
    refine h.keeps (by rw [hrw.frame]) fun st a ha => ⟨_, (hrw.accounts st _).mpr ⟨a, ha, rfl⟩, ?_⟩
    split
    · rfl
    · rfl
  | store _ _ _ _ _ _ _ => exact h.keeps rfl (kept_put _ _ _)
  | _ => exact ⟨h.stored, h.once⟩

theorem indexRows_fresh (env : Env) : IndexRows (fresh env) := by
  refine ⟨fun _ h => ?_, fun _ _ h => ?_⟩ <;> exact absurd h (Table.not_mem_empty _)

theorem indexRows_reached {ok : Storage → Op → Prop} (h : Reached env ok db) : IndexRows db :=
  h.invariant IndexRows (indexRows_fresh env) fun _ _ _ hu _ hrun =>
    (run_changes hrun).keeps IndexRows (fun hu _ hc => indexRows_change hu hc) hu

end Invariant

/-! ## The rows of an account -/

/-- The rows of the account numbered `id` are the same. Hooks for new accounts are under an id and about no account. -/
structure SameAccount (db db' : Storage) (id : Nat) : Prop where
  accounts : ∀ st a, a.id = id → ((st, a) ∈ db'.accounts ↔ (st, a) ∈ db.accounts)
  accountsBa : ∀ b, b.lookup.id = id → (((), b) ∈ db'.accountsBa ↔ ((), b) ∈ db.accountsBa)
  accountsBh : ∀ height l, l.id = id → ((height, l) ∈ db'.accountsBh ↔ (height, l) ∈ db.accountsBh)
  outputs : ∀ o, (id, o) ∈ db'.outputs ↔ (id, o) ∈ db.outputs
  spends : ∀ s, (id, s) ∈ db'.spends ↔ (id, s) ∈ db.spends
  subaddressRanges : ∀ d, (id, d) ∈ db'.subaddressRanges ↔ (id, d) ∈ db.subaddressRanges
  subaddressIndexes : ∀ m, (id, m) ∈ db'.subaddressIndexes ↔ (id, m) ∈ db.subaddressIndexes
  webhooks : ∀ type v, type ≠ .newAccount → ((⟨id, type⟩, v) ∈ db'.webhooks ↔ (⟨id, type⟩, v) ∈ db.webhooks)
  events : ∀ e, (id, e) ∈ db'.events ↔ (id, e) ∈ db.events

section Same

variable {env : Env} {db db' : Storage} {id : Nat}

theorem SameAccount.refl (db : Storage) (id : Nat) : SameAccount db db id := by
  constructor <;> simp

theorem same_put {st : AccountStatus} {a : Db.Account} (hne : a.id ≠ id) :
    SameAccount db { db with accounts := db.accounts.put st a } id :=
  { SameAccount.refl db id with
    accounts := fun _ _ hx => Table.mem_put_of_ne fun e => hne (e.2.symm.trans hx) }

theorem same_moved {b : AccountByAddress} {a : Db.Account} {status : AccountStatus} (hb : ((), b) ∈ db.accountsBa)
    (hid : a.id = b.lookup.id) (hne : b.lookup.id ≠ id) : SameAccount db (moved b a status db) id :=
  { SameAccount.refl db id with
    accounts := fun st x hx => by
      have hother : ¬ x.id = a.id := fun e => hne (hid.symm.trans (e.symm.trans hx))
      show (st, x) ∈ (db.accounts.erase b.lookup.status b.lookup.id).put status a ↔ _
      rw [Table.mem_put_of_ne fun e => hother e.2, Table.mem_erase, ← hid]
      exact and_iff_left fun e => hother e.2
    accountsBa := fun c hc => by
      show ((), c) ∈ db.accountsBa.put () _ ↔ _
      by_cases e : c.address.viewPublic = b.address.viewPublic
      · -- the row with the view key of `b` is that of `b`, before and after
        constructor
        · intro hm
          rcases Table.mem_put.mp hm with hm | ⟨-, hno⟩
          · rw [(Prod.mk.inj hm).2] at hc
            exact absurd hc hne
          · exact absurd ⟨rfl, e⟩ hno
        · intro hm
          rw [Table.unique_val hm hb e] at hc
          exact absurd hc hne
      · exact Table.mem_put_of_ne fun e' => e e'.2
    accountsBh := fun height l hl => Table.mem_put_of_ne fun e => hne (e.2.symm.trans hl) }

theorem same_changeHeight {height : Nat} {address : AccountAddress} {lookahead : AddressIndex} {limit : Option Nat}
    (h : changeHeight env height address lookahead limit db = .ok db') (hne : lookupId db.accountsBa address ≠ some id) :
    SameAccount db db' id := by
  obtain ⟨b, a, a', l, spends, images, ranges, indexes, hb, hview, ha, hid, hs, hl, hl', hlook, rfl⟩ := changeHeight_ok h
  obtain ⟨rfl, -⟩ := rollbackSpends_ok hs
  have hother : b.lookup.id ≠ id := fun e => hne (e ▸ lookupId_eq hb hview)
  have hida : id ≠ a.id := fun e => hother (hid.symm.trans e.symm)
  have hida' : a'.id = a.id := (applyLookahead_same hlook).id
  obtain ⟨hranges, hindexes⟩ := applyLookahead_others hlook
  exact
    { accounts := fun st x hx => Table.mem_put_of_ne fun e => hida (hx.symm.trans (e.2.trans hida'))
      accountsBa := fun _ _ => Iff.rfl
      accountsBh := fun k x hx => by
        show (k, x) ∈ (db.accountsBh.erase a.scanHeight a.id).put _ b.lookup ↔ _
        rw [Table.mem_put_of_ne fun e => hother (e.2.symm.trans hx), Table.mem_erase]
        exact and_iff_left fun e => hida (hx.symm.trans e.2)
      outputs := fun o => by
        show (id, o) ∈ db.outputs.filter _ ↔ _
        rw [Table.mem_filter, not_outputAbove]
        exact and_iff_left fun e => hida e.1
      spends := fun x => by
        show (id, x) ∈ db.spends.filter _ ↔ _
        rw [Table.mem_filter, not_spendAbove]
        exact and_iff_left fun e => hida e.1
      subaddressRanges := fun d => hranges (id, d) hida
      subaddressIndexes := fun m => hindexes (id, m) hida
      webhooks := fun _ _ _ => Iff.rfl
      events := fun _ => Iff.rfl }

end Same

/-! ## The writers -/

/-- The writers that are given an address of an account, called with that address alone. -/
inductive Writer where
  | updateAccessTime (clock : Int)
  | changeStatus (status : AccountStatus)
  | rescan (height : Nat)
  | importRequest (clock : Int) (height : Nat) (lookahead : AddressIndex)
  | acceptImport (clock : Int) (maxSubaddresses : Nat)
  | shrinkLookahead (lookahead : AddressIndex)
  | updateLookahead (height : Nat) (fresh : AddressIndex) (maxSubaddresses : Nat)
  | addWebhook (type : WebhookType) (event : WebhookValue)
  | clearWebhooks

def Writer.op (address : AccountAddress) : Writer → Op
  | .updateAccessTime clock => .updateAccessTime clock address
  | .changeStatus status => .changeStatus status [address]
  | .rescan height => .rescan height [address]
  | .importRequest clock height lookahead => .importRequest clock address height lookahead
  | .acceptImport clock maxSubaddresses => .acceptRequests clock .importScan [address] maxSubaddresses
  | .shrinkLookahead lookahead => .shrinkLookahead address lookahead
  | .updateLookahead height fresh maxSubaddresses => .updateLookahead address height fresh maxSubaddresses
  | .addWebhook type event => .addWebhook type (some address) event
  | .clearWebhooks => .clearWebhooks [address]

/-- What a writer makes of an address. -/
inductive Outcome where
  /-- No account is taken for it. -/
  | unknown
  /-- Nothing that needs an account was asked. -/
  | idle
  | failed (error : Error)
  | wrote
  deriving DecidableEq

def Outcome.of {α : Type} (missing : Error) : Except Error α → Outcome
  | .ok _ => .wrote
  | .error e => if e = missing then .unknown else .failed e

def Outcome.listed (address : AccountAddress) : Except Error (Storage × List AccountAddress) → Outcome
  | .ok (_, found) => if address ∈ found then .wrote else .unknown
  | .error e => .failed e

def Writer.outcome (env : Env) (address : AccountAddress) (db : Storage) : Writer → Outcome
  | .updateAccessTime clock => .of .accountNotFound (db.updateAccessTime clock address)
  | .changeStatus status => .listed address (db.changeStatus status [address])
  | .rescan height => .listed address (db.rescan env height [address])
  | .importRequest clock height lookahead => .of .accountNotFound (db.importRequest clock address height lookahead)
  | .acceptImport clock maxSubaddresses =>
    if (db.requests.get? .importScan address.spendPublic).isNone then .idle
    else .listed address (db.acceptRequests env clock .importScan [address] maxSubaddresses)
  | .shrinkLookahead lookahead => .of .accountNotFound (db.shrinkLookahead address lookahead)
  | .updateLookahead height fresh maxSubaddresses =>
    .of .accountNotFound (db.updateLookahead env address height fresh maxSubaddresses)
  | .addWebhook .newAccount _ => .idle
  | .addWebhook type event => .of .badWebhook (db.addWebhook env type (some address) event)
  | .clearWebhooks => .of .notFound (db.clearWebhooks [address])

section Only

variable {env : Env} {db db' : Storage} {address : AccountAddress} {id : Nat}

theorem findAccount_looked {lookup : AccountLookup} {user : Db.Account}
    (h : findAccount db address = .ok (lookup, user)) : lookupId db.accountsBa address = some user.id := by
  obtain ⟨b, hb, hview, -, -, hid⟩ := findAccount_ok h
  rw [hid]
  exact lookupId_eq hb hview

theorem same_changeStatus {status : AccountStatus} {changed : List AccountAddress}
    (h : db.changeStatus status [address] = .ok (db', changed)) (hne : lookupId db.accountsBa address ≠ some id) :
    SameAccount db db' id := by
  unfold Storage.changeStatus at h
  obtain ⟨⟨mid, c⟩, hof, h⟩ := bind_ok.mp h
  cases h
  rcases changeStatusOf_ok hof with rfl | ⟨b, a, l, hb, hview, -, -, hid, -, -, -, rfl⟩
  · exact SameAccount.refl _ _
  · exact same_moved hb hid fun e => hne (e ▸ lookupId_eq hb hview)

theorem rescan_one {height : Nat} {updated : List AccountAddress}
    (h : db.rescan env height [address] = .ok (db', updated)) :
    (changeHeight env height address ⟨0, 0⟩ none db = .ok db' ∧ updated = [address]) ∨
      (changeHeight env height address ⟨0, 0⟩ none db = .error .accountNotFound ∧ db' = db ∧ updated = []) := by
  unfold Storage.rescan at h
  obtain ⟨current, -, h⟩ := bind_ok.mp h
  split at h
  · cases h
  · unfold rescanLoop at h
    split at h
    · rename_i mid hchange
      cases h
      exact Or.inl ⟨hchange, rfl⟩
    · rename_i hchange
      cases h
      exact Or.inr ⟨hchange, rfl, rfl⟩
    · cases h

/-- An acceptance for one address takes its request away and then does what a rescan does. -/
theorem importAccounts_one {maxSubaddresses : Nat} {updated : List AccountAddress}
    (h : importAccounts env maxSubaddresses [address] db = .ok (db', updated)) :
    (db.requests.get? .importScan address.spendPublic = none ∧ db' = db ∧ updated = []) ∨
      ∃ info mid, db.requests.get? .importScan address.spendPublic = some info ∧
        mid = { db with requests := db.requests.erase .importScan address.spendPublic } ∧
        ((changeHeight env info.startHeight address info.lookahead (some maxSubaddresses) mid = .ok db' ∧
            updated = [address]) ∨
          (changeHeight env info.startHeight address info.lookahead (some maxSubaddresses) mid =
              .error .accountNotFound ∧ db' = mid ∧ updated = [])) := by
  unfold importAccounts at h
  split at h
  · rename_i hnone
    cases h
    exact Or.inl ⟨hnone, rfl, rfl⟩
  · rename_i info hinfo
    refine Or.inr ⟨info, _, hinfo, rfl, ?_⟩
    dsimp only at h
    split at h
    · rename_i mid hchange
      cases h
      exact Or.inl ⟨hchange, rfl⟩
    · rename_i hchange
      cases h
      exact Or.inr ⟨hchange, rfl, rfl⟩
    · cases h

theorem same_rescan {height : Nat} {updated : List AccountAddress}
    (h : db.rescan env height [address] = .ok (db', updated)) (hne : lookupId db.accountsBa address ≠ some id) :
    SameAccount db db' id := by
  rcases rescan_one h with ⟨hchange, -⟩ | ⟨-, rfl, -⟩
  · exact same_changeHeight hchange hne
  · exact SameAccount.refl _ _

theorem same_importAccounts {maxSubaddresses : Nat} {updated : List AccountAddress}
    (h : importAccounts env maxSubaddresses [address] db = .ok (db', updated))
    (hne : lookupId db.accountsBa address ≠ some id) : SameAccount db db' id := by
  rcases importAccounts_one h with ⟨-, rfl, -⟩ | ⟨info, mid, -, rfl, ⟨hchange, -⟩ | ⟨-, rfl, -⟩⟩
  · exact SameAccount.refl _ _
  · -- the request is no row of the account
    exact { same_changeHeight hchange hne with }
  · exact { SameAccount.refl db id with }

theorem updateLookaheadUpsert_others (user : Db.Account) (fresh : AddressIndex) (maxSubaddresses : Nat) :
    (∀ r, r.1 ≠ user.id →
      (r ∈ (updateLookaheadUpsert env user address fresh maxSubaddresses db).ranges ↔ r ∈ db.subaddressRanges)) ∧
    ∀ r, r.1 ≠ user.id →
      (r ∈ (updateLookaheadUpsert env user address fresh maxSubaddresses db).indexes ↔ r ∈ db.subaddressIndexes) := by
  unfold updateLookaheadUpsert
  dsimp only
  split
  · obtain ⟨hup, -⟩ := @doUpsert_upserted env user.id address user.key maxSubaddresses db.subaddressRanges
      db.subaddressIndexes (lookaheadUpsertions fresh user.lookahead.majI user.lookahead.minI)
    exact ⟨hup.otherRanges, hup.otherIndexes⟩
  · exact ⟨fun _ _ => Iff.rfl, fun _ _ => Iff.rfl⟩

theorem same_updateLookahead {height maxSubaddresses : Nat} {fresh : AddressIndex} {n : Int}
    (h : db.updateLookahead env address height fresh maxSubaddresses = .ok (db', n))
    (hne : lookupId db.accountsBa address ≠ some id) : SameAccount db db' id := by
  obtain ⟨lookup, user, hfind, hcases⟩ := updateLookahead_cases h
  have hother : id ≠ user.id := fun e => hne (e ▸ findAccount_looked hfind)
  obtain ⟨hranges, hindexes⟩ := @updateLookaheadUpsert_others env db address user fresh maxSubaddresses
  have hsubs : SameAccount db { db with
      subaddressRanges := (updateLookaheadUpsert env user address fresh maxSubaddresses db).ranges
      subaddressIndexes := (updateLookaheadUpsert env user address fresh maxSubaddresses db).indexes } id :=
    { SameAccount.refl db id with
      subaddressRanges := fun d => hranges (id, d) hother
      subaddressIndexes := fun m => hindexes (id, m) hother }
  rcases hcases with rfl | ⟨upserted, rfl, rfl | rfl⟩
  · exact SameAccount.refl _ _
  · exact hsubs
  · exact { hsubs with
      accounts := fun st x hx => Table.mem_put_of_ne fun e => hother (hx.symm.trans e.2) }

/-- A hook of another type than `new_account` is stored under the account found. -/
theorem addWebhook_looked {type : WebhookType} {event : WebhookValue}
    (h : db.addWebhook env type (some address) event = .ok db') :
    (type ≠ .newAccount → lookupId db.accountsBa address = some (webhookUser db.accountsBa (some address))) ∧
      db' = { db with webhooks := db.webhooks.put ⟨webhookUser db.accountsBa (some address), type⟩ event } := by
  unfold Storage.addWebhook at h
  dsimp only at h
  split at h
  · cases h
  · split at h
    · cases h
    · rename_i huser
      cases h
      refine ⟨fun htype => ?_, rfl⟩
      rcases hlooked : lookupId db.accountsBa address with _ | user
      · have hinvalid : webhookUser db.accountsBa (some address) = invalidId := by
          show (lookupId db.accountsBa address).getD invalidId = _
          rw [hlooked]
          rfl
        exfalso
        cases type with
        | newAccount => exact htype rfl
        | txConfirmation => exact huser ⟨hinvalid, Or.inl rfl⟩
        | txSpend => exact huser ⟨hinvalid, Or.inr rfl⟩
      · show some user = some ((lookupId db.accountsBa address).getD invalidId)
        rw [hlooked]
        rfl

theorem clearWebhooks_looked (h : db.clearWebhooks [address] = .ok db') :
    ∃ user, lookupId db.accountsBa address = some user ∧
      db' = { db with
        webhooks := db.webhooks.eraseKey ⟨user, .txConfirmation⟩, events := db.events.eraseKey user } := by
  unfold Storage.clearWebhooks at h
  obtain ⟨b, hb, h⟩ := bind_ok.mp h
  cases h
  obtain ⟨hm, hview⟩ := require_ok.mp hb
  exact ⟨b.lookup.id, lookupId_eq hm hview, rfl⟩

/-- A writer changes no account but the one its lookup finds. -/
theorem only_looked_up (w : Writer) (h : (w.op address).run env db = .ok db')
    (hne : lookupId db.accountsBa address ≠ some id) : SameAccount db db' id := by
  cases w with
  | updateAccessTime clock =>
    obtain ⟨access, -, h⟩ := bind_ok.mp h
    obtain ⟨⟨lookup, user⟩, hfind, h⟩ := bind_ok.mp h
    cases h
    have hlooked := findAccount_looked hfind
    exact same_put fun e => hne (hlooked.trans (congrArg some e))
  | changeStatus status =>
    obtain ⟨changed, h⟩ := fst_ok h
    exact same_changeStatus h hne
  | rescan height =>
    obtain ⟨updated, h⟩ := fst_ok h
    exact same_rescan h hne
  | importRequest clock height lookahead =>
    obtain ⟨time, -, h⟩ := bind_ok.mp h
    split at h
    · cases h
    · obtain ⟨requests, -, h⟩ := bind_ok.mp h
      cases h
      exact { SameAccount.refl db id with }
  | acceptImport clock maxSubaddresses =>
    obtain ⟨updated, h⟩ := fst_ok h
    exact same_importAccounts h hne
  | shrinkLookahead lookahead =>
    obtain ⟨⟨lookup, user⟩, hfind, h⟩ := bind_ok.mp h
    dsimp only at h
    split at h
    · cases h
    · cases h
      have hlooked := findAccount_looked hfind
      exact same_put fun e => hne (hlooked.trans (congrArg some e))
  | updateLookahead height fresh maxSubaddresses =>
    obtain ⟨n, h⟩ := fst_ok h
    exact same_updateLookahead h hne
  | addWebhook type event =>
    obtain ⟨howner, hdb⟩ := addWebhook_looked h
    rw [hdb]
    refine { SameAccount.refl db id with webhooks := fun t v ht => Table.mem_put_of_ne fun e => ?_ }
    obtain ⟨hid, htype⟩ := WebhookKey.mk.inj e.1
    rw [← hid] at howner
    exact hne (howner fun hnew => ht (htype.trans hnew))
  | clearWebhooks =>
    obtain ⟨user, hlooked, hdb⟩ := clearWebhooks_looked h
    have hother : id ≠ user := fun e => hne (e ▸ hlooked)
    rw [hdb]
    exact { SameAccount.refl db id with
      webhooks := fun t v _ => by
        show (⟨id, t⟩, v) ∈ db.webhooks.eraseKey ⟨user, .txConfirmation⟩ ↔ _
        rw [Table.mem_eraseKey]
        exact and_iff_left fun e => hother (WebhookKey.mk.inj e).1
      events := fun e => by
        show (id, e) ∈ db.events.eraseKey user ↔ _
        rw [Table.mem_eraseKey]
        exact and_iff_left hother }

/-! ## What a writer makes of an address -/

theorem of_wrote {α : Type} {missing : Error} {x : Except Error α} (h : Outcome.of missing x = .wrote) :
    ∃ a, x = .ok a := by
  cases x with
  | ok a => exact ⟨a, rfl⟩
  | error e =>
    simp only [Outcome.of] at h
    split at h <;> cases h

theorem of_unknown {α : Type} {missing : Error} {x : Except Error α} (h : Outcome.of missing x = .unknown) :
    x = .error missing := by
  cases x with
  | ok a => cases h
  | error e =>
    simp only [Outcome.of] at h
    split at h
    · rename_i he
      rw [he]
    · cases h

theorem listed_wrote {x : Except Error (Storage × List AccountAddress)} (h : Outcome.listed address x = .wrote) :
    ∃ db' found, x = .ok (db', found) ∧ address ∈ found := by
  rcases x with e | ⟨db', found⟩
  · cases h
  · simp only [Outcome.listed] at h
    split at h
    · exact ⟨db', found, rfl, ‹_›⟩
    · cases h

theorem listed_unknown {x : Except Error (Storage × List AccountAddress)} (h : Outcome.listed address x = .unknown) :
    ∃ db' found, x = .ok (db', found) ∧ address ∉ found := by
  rcases x with e | ⟨db', found⟩
  · cases h
  · simp only [Outcome.listed] at h
    split at h
    · cases h
    · exact ⟨db', found, rfl, ‹_›⟩

/-- `change_status` lists an address exactly when its lookup finds a row. -/
theorem changeStatus_listed {status : AccountStatus} {changed : List AccountAddress}
    (h : db.changeStatus status [address] = .ok (db', changed)) :
    address ∈ changed ↔ lookupId db.accountsBa address ≠ none := by
  unfold Storage.changeStatus at h
  obtain ⟨⟨mid, c⟩, hof, h⟩ := bind_ok.mp h
  cases h
  unfold changeStatusOf at hof
  unfold lookupId
  split at hof
  · rename_i hnone
    cases hof
    simp [hnone]
  · rename_i b hb
    dsimp only at hof
    split at hof
    · obtain ⟨user, -, hof⟩ := bind_ok.mp hof
      obtain ⟨accounts, -, hof⟩ := bind_ok.mp hof
      obtain ⟨l, -, hof⟩ := bind_ok.mp hof
      cases hof
      simp [hb]
    · cases hof
      simp [hb]

theorem changeHeight_looked {height : Nat} {lookahead : AddressIndex} {limit : Option Nat}
    (h : changeHeight env height address lookahead limit db = .ok db') : lookupId db.accountsBa address ≠ none := by
  obtain ⟨b, a, a', l, spends, images, ranges, indexes, hb, hview, -⟩ := changeHeight_ok h
  rw [lookupId_eq hb hview]
  simp

theorem rescan_listed {height : Nat} {updated : List AccountAddress}
    (h : db.rescan env height [address] = .ok (db', updated)) :
    address ∈ updated ↔ lookupId db.accountsBa address ≠ none := by
  rcases rescan_one h with ⟨hchange, rfl⟩ | ⟨hchange, -, rfl⟩
  · simp [changeHeight_looked hchange]
  · simp [changeHeight_notFound hchange]

theorem importAccounts_listed {maxSubaddresses : Nat} {updated : List AccountAddress} {info : RequestInfo}
    (hinfo : db.requests.get? .importScan address.spendPublic = some info)
    (h : importAccounts env maxSubaddresses [address] db = .ok (db', updated)) :
    address ∈ updated ↔ lookupId db.accountsBa address ≠ none := by
  rcases importAccounts_one h with ⟨hnone, -⟩ | ⟨_, mid, -, rfl, ⟨hchange, rfl⟩ | ⟨hchange, -, rfl⟩⟩
  · rw [hinfo] at hnone
    cases hnone
  · have hlooked := changeHeight_looked hchange
    exact iff_of_true (List.mem_singleton_self _) hlooked
  · have hlooked := changeHeight_notFound hchange
    exact iff_of_false List.not_mem_nil (not_not.mpr hlooked)

/-- A writer goes ahead only where its lookup finds an account. -/
theorem wrote_looked (w : Writer) (h : w.outcome env address db = .wrote) : lookupId db.accountsBa address ≠ none := by
  cases w with
  | updateAccessTime clock =>
    obtain ⟨db', h⟩ := of_wrote h
    obtain ⟨access, -, h⟩ := bind_ok.mp h
    obtain ⟨⟨lookup, user⟩, hfind, -⟩ := bind_ok.mp h
    simp [findAccount_looked hfind]
  | changeStatus status =>
    obtain ⟨db', found, h, hmem⟩ := listed_wrote h
    exact (changeStatus_listed h).mp hmem
  | rescan height =>
    obtain ⟨db', found, h, hmem⟩ := listed_wrote h
    exact (rescan_listed h).mp hmem
  | importRequest clock height lookahead =>
    obtain ⟨db', h⟩ := of_wrote h
    obtain ⟨time, -, h⟩ := bind_ok.mp h
    split at h
    · cases h
    · rename_i hsome
      simpa [lookupId] using hsome
  | acceptImport clock maxSubaddresses =>
    simp only [Writer.outcome] at h
    split at h
    · cases h
    · rename_i hsome
      obtain ⟨info, hinfo⟩ := Option.ne_none_iff_exists'.mp (by simpa using hsome)
      obtain ⟨db', found, h, hmem⟩ := listed_wrote h
      exact (importAccounts_listed hinfo h).mp hmem
  | shrinkLookahead lookahead =>
    obtain ⟨db', h⟩ := of_wrote h
    obtain ⟨⟨lookup, user⟩, hfind, -⟩ := bind_ok.mp h
    simp [findAccount_looked hfind]
  | updateLookahead height fresh maxSubaddresses =>
    obtain ⟨db', h⟩ := of_wrote h
    obtain ⟨⟨lookup, user⟩, hfind, -⟩ := bind_ok.mp h
    simp [findAccount_looked hfind]
  | addWebhook type event =>
    have htype : type ≠ .newAccount := by
      rintro rfl
      cases h
    have hof : Outcome.of .badWebhook (db.addWebhook env type (some address) event) = .wrote := by
      cases type with
      | newAccount => exact absurd rfl htype
      | txConfirmation => exact h
      | txSpend => exact h
    obtain ⟨db', hof⟩ := of_wrote hof
    simp [(addWebhook_looked hof).1 htype]
  | clearWebhooks =>
    obtain ⟨db', h⟩ := of_wrote h
    obtain ⟨user, hlooked, -⟩ := clearWebhooks_looked h
    simp [hlooked]

theorem getAccountTime_error {clock : Int} {e : Error} (h : getAccountTime clock = .error e) :
    e = .systemClockInvalidRange := by
  unfold getAccountTime at h
  split at h
  · cases h
    rfl
  · split at h
    · cases h
      rfl
    · cases h

theorem updateLookahead_known {height maxSubaddresses : Nat} {fresh : AddressIndex} {lookup : AccountLookup}
    {user : Db.Account} (hfind : findAccount db address = .ok (lookup, user)) :
    db.updateLookahead env address height fresh maxSubaddresses ≠ .error .accountNotFound := by
  intro h
  unfold Storage.updateLookahead at h
  rw [hfind] at h
  simp only [bind, Except.bind] at h
  split at h
  · cases h
  · split at h
    · cases h
    · cases h
    · rename_i e hne hresult
      cases h
      unfold updateLookaheadUpsert at hresult
      dsimp only at hresult
      split at hresult
      · exact absurd (doUpsert_error hresult) (by decide)
      · cases hresult

/-- A writer does not take an account it looks up for none, unless the account has the invalid id. -/
theorem known_looked (w : Writer) {lookup : AccountLookup} {user : Db.Account}
    (hfind : findAccount db address = .ok (lookup, user)) (hvalid : user.id ≠ invalidId) :
    w.outcome env address db ≠ .unknown := by
  have hlooked := findAccount_looked hfind
  have hsome : lookupId db.accountsBa address ≠ none := by simp [hlooked]
  intro h
  cases w with
  | updateAccessTime clock =>
    rcases bind_error (of_unknown h) with he | ⟨access, -, h⟩
    · cases getAccountTime_error he
    · rw [hfind] at h
      cases h
  | changeStatus status =>
    obtain ⟨db', found, h, hmem⟩ := listed_unknown h
    exact hmem ((changeStatus_listed h).mpr hsome)
  | rescan height =>
    obtain ⟨db', found, h, hmem⟩ := listed_unknown h
    exact hmem ((rescan_listed h).mpr hsome)
  | importRequest clock height lookahead =>
    rcases bind_error (of_unknown h) with he | ⟨time, -, h⟩
    · cases getAccountTime_error he
    · split at h
      · rename_i hnone
        exact hsome (by simpa [lookupId] using hnone)
      · rcases bind_error h with hput | ⟨requests, -, h⟩
        · cases (putNewOr_error hput).1
        · cases h
  | acceptImport clock maxSubaddresses =>
    simp only [Writer.outcome] at h
    split at h
    · cases h
    · rename_i hreq
      obtain ⟨info, hinfo⟩ := Option.ne_none_iff_exists'.mp (by simpa using hreq)
      obtain ⟨db', found, h, hmem⟩ := listed_unknown h
      exact hmem ((importAccounts_listed hinfo h).mpr hsome)
  | shrinkLookahead lookahead =>
    have herror := of_unknown h
    unfold Storage.shrinkLookahead at herror
    rw [hfind] at herror
    simp only [bind, Except.bind] at herror
    split at herror <;> cases herror
  | updateLookahead height fresh maxSubaddresses => exact updateLookahead_known hfind (of_unknown h)
  | addWebhook type event =>
    have hbad : type ≠ .newAccount ∧ db.addWebhook env type (some address) event = .error .badWebhook := by
      cases type with
      | newAccount => cases h
      | txConfirmation => exact ⟨by decide, of_unknown h⟩
      | txSpend => exact ⟨by decide, of_unknown h⟩
    have huser : webhookUser db.accountsBa (some address) = user.id := by
      show (lookupId db.accountsBa address).getD invalidId = _
      rw [hlooked]
      rfl
    have herror := hbad.2
    unfold Storage.addWebhook at herror
    dsimp only at herror
    split at herror
    · cases herror
    · split at herror
      · rename_i hinvalid
        exact hvalid (huser.symm.trans hinvalid.1)
      · cases herror
  | clearWebhooks =>
    obtain ⟨b, hb, hview, -⟩ := lookupId_some hlooked
    have herror := of_unknown h
    unfold Storage.clearWebhooks at herror
    rw [require_ok.mpr ⟨hb, hview⟩] at herror
    cases herror

end Only

/-! ## Requests -/

section Requests

variable {env : Env} {db db' : Storage} {address : AccountAddress}

theorem createAccountsLoop_requests {currentTime maxSubaddresses lastId : Nat} {stored : List AccountAddress}
    (h : createAccountsLoop env currentTime maxSubaddresses lastId [address] db = .ok (db', stored)) :
    db'.requests = db.requests ∨ db'.requests = db.requests.erase .create address.spendPublic := by
  unfold createAccountsLoop at h
  split at h
  · cases h
    exact Or.inl rfl
  · right
    dsimp only at h
    split at h
    · cases h
    · obtain ⟨⟨user, ranges, indexes⟩, -, h⟩ := bind_ok.mp h
      dsimp only at h
      split at h
      · rename_i mid hadd
        obtain ⟨-, -, -, -, rfl⟩ := doAddAccount_ok hadd
        cases h
        rfl
      · cases h
        rfl
      · cases h
        rfl
      · cases h

theorem importAccounts_requests {maxSubaddresses : Nat} {updated : List AccountAddress}
    (h : importAccounts env maxSubaddresses [address] db = .ok (db', updated)) :
    db'.requests = db.requests ∨ db'.requests = db.requests.erase .importScan address.spendPublic := by
  rcases importAccounts_one h with ⟨-, rfl, -⟩ | ⟨info, mid, -, rfl, ⟨hchange, -⟩ | ⟨-, rfl, -⟩⟩
  · exact Or.inl rfl
  · obtain ⟨b, a, a', l, spends, images, ranges, indexes, -, -, -, -, -, -, -, -, rfl⟩ := changeHeight_ok hchange
    exact Or.inr rfl
  · exact Or.inr rfl

theorem acceptRequests_requests {clock : Int} {req : Request} {maxSubaddresses : Nat} {found : List AccountAddress}
    (h : db.acceptRequests env clock req [address] maxSubaddresses = .ok (db', found)) :
    db'.requests = db.requests ∨ db'.requests = db.requests.erase req address.spendPublic := by
  cases req with
  | create =>
    obtain ⟨time, -, h⟩ := bind_ok.mp h
    exact createAccountsLoop_requests h
  | importScan => exact importAccounts_requests h

theorem rejectRequests_requests (req : Request) : (db.rejectRequests req [address]).1.requests = db.requests ∨
    (db.rejectRequests req [address]).1.requests = db.requests.erase req address.spendPublic := by
  unfold Storage.rejectRequests
  split
  · exact Or.inl rfl
  · exact Or.inr rfl

/-- A row that one of the two took away has the spend key of the address. -/
theorem consumed_spend {req : Request} {requests : Requests} {r : Request × RequestInfo}
    (h : requests = db.requests ∨ requests = db.requests.erase req address.spendPublic) (hr : r ∈ db.requests)
    (hgone : r ∉ requests) : r.2.address.spendPublic = address.spendPublic := by
  rcases h with rfl | rfl
  · exact absurd hr hgone
  · by_contra hne
    exact hgone (Table.mem_erase.mpr ⟨hr, fun e => hne e.2⟩)

theorem reject_consumes {r : Request × RequestInfo} (hr : r ∈ db.requests)
    (hspend : r.2.address.spendPublic = address.spendPublic) : r ∉ (db.rejectRequests r.1 [address]).1.requests := by
  have hget : db.requests.get? r.1 address.spendPublic = some r.2 := Table.get?_eq_some.mpr ⟨hr, hspend⟩
  have hgone : (db.rejectRequests r.1 [address]).1.requests = db.requests.erase r.1 address.spendPublic := by
    unfold Storage.rejectRequests
    rw [hget]
    rfl
  rw [hgone, Table.mem_erase]
  exact fun h => h.2 ⟨rfl, hspend⟩

end Requests

/-! ## When readers and writers agree -/

def Finds (db : Storage) (address : AccountAddress) (id : Nat) : Prop :=
  ∃ status user, getAccountAt db address = .ok (status, user) ∧ user.id = id

structure Agrees (env : Env) (db : Storage) (address : AccountAddress) (w : Writer) : Prop where
  /-- No other account than the one `get_account` finds is changed. -/
  only : ∀ db', (w.op address).run env db = .ok db' → ∀ id, SameAccount db db' id ∨ Finds db address id
  wrote : w.outcome env address db = .wrote → ∃ id, Finds db address id
  known : (∃ id, Finds db address id) → w.outcome env address db ≠ .unknown

/-- Every writer agrees with `get_account`, and a request is consumed only for the address it was filed for. -/
structure Agreement (env : Env) (db : Storage) (address : AccountAddress) : Prop where
  writers : ∀ w, Agrees env db address w
  accepted : ∀ clock req maxSubaddresses db',
    (Op.acceptRequests clock req [address] maxSubaddresses).run env db = .ok db' →
      ∀ r ∈ db.requests, r ∉ db'.requests → r.2.address = address
  rejected : ∀ req db', (Op.rejectRequests req [address]).run env db = .ok db' →
    ∀ r ∈ db.requests, r ∉ db'.requests → r.2.address = address

/-- The account with the view key of the address and the requests with its spend key are of the address. -/
structure Matches (db : Storage) (address : AccountAddress) : Prop where
  account : ∀ b, ((), b) ∈ db.accountsBa → b.address.viewPublic = address.viewPublic →
    b.address = address ∧ b.lookup.id ≠ invalidId
  requests : ∀ r ∈ db.requests, r.2.address.spendPublic = address.spendPublic → r.2.address = address

section Agreement

variable {env : Env} {db : Storage} {address : AccountAddress}

theorem finds_of_row (hrows : IndexRows db) {b : AccountByAddress} (hb : ((), b) ∈ db.accountsBa)
    (haddress : b.address = address) : Finds db address b.lookup.id := by
  obtain ⟨a, ha, hid⟩ := hrows.stored b hb
  refine ⟨b.lookup.status, a, getAccountAt_ok.mpr ⟨?_, ha⟩, hid⟩
  rw [hid, ← haddress]
  exact hb

theorem Finds.row {id : Nat} (h : Finds db address id) :
    ∃ b, ((), b) ∈ db.accountsBa ∧ b.address = address ∧ b.lookup.id = id := by
  obtain ⟨status, user, hget, hid⟩ := h
  exact ⟨_, (getAccountAt_ok.mp hget).1, rfl, hid⟩

theorem agreement_of_matches (hrows : IndexRows db) (h : Matches db address) : Agreement env db address := by
  have hfinds : ∀ {id : Nat}, lookupId db.accountsBa address = some id → Finds db address id := by
    intro id hlooked
    obtain ⟨b, hb, hview, rfl⟩ := lookupId_some hlooked
    exact finds_of_row hrows hb (h.account b hb hview).1
  refine ⟨fun w => ⟨fun db' hrun id => ?_, fun hwrote => ?_, fun ⟨id, hfound⟩ => ?_⟩, ?_, ?_⟩
  · by_cases hlooked : lookupId db.accountsBa address = some id
    · exact Or.inr (hfinds hlooked)
    · exact Or.inl (only_looked_up w hrun hlooked)
  · obtain ⟨id, hlooked⟩ := Option.ne_none_iff_exists'.mp (wrote_looked w hwrote)
    exact ⟨id, hfinds hlooked⟩
  · obtain ⟨status, user, hget, -⟩ := hfound
    obtain ⟨hba, -⟩ := getAccountAt_ok.mp hget
    exact known_looked w (findAccount_of_getAccountAt hget) (h.account _ hba rfl).2
  · intro clock req maxSubaddresses db' hrun r hr hgone
    obtain ⟨found, hrun⟩ := fst_ok hrun
    exact h.requests r hr (consumed_spend (acceptRequests_requests hrun) hr hgone)
  · intro req db' hrun r hr hgone
    cases hrun
    exact h.requests r hr (consumed_spend (rejectRequests_requests req) hr hgone)

/-- Clearing the hooks of an address that is stored with another spend key goes ahead. -/
theorem clearWebhooks_wrote {b : AccountByAddress} (hb : ((), b) ∈ db.accountsBa)
    (hview : b.address.viewPublic = address.viewPublic) : Writer.clearWebhooks.outcome env address db = .wrote := by
  simp only [Writer.outcome, Storage.clearWebhooks, require_ok.mpr ⟨hb, hview⟩, bind, Except.bind]
  rfl

/-- An account with the invalid id gets no hook. -/
theorem addWebhook_unknown {b : AccountByAddress} (hb : ((), b) ∈ db.accountsBa)
    (hview : b.address.viewPublic = address.viewPublic) (hinvalid : b.lookup.id = invalidId) :
    (Writer.addWebhook .txConfirmation (⟨0, 0⟩, ⟨"zmq", "", 1⟩)).outcome env address db = .unknown := by
  have huser : webhookUser db.accountsBa (some address) = invalidId := by
    show (lookupId db.accountsBa address).getD invalidId = _
    rw [lookupId_eq hb hview, hinvalid]
    rfl
  simp [Writer.outcome, Storage.addWebhook, huser, Outcome.of]

theorem matches_of_agreement (h : Agreement env db address) : Matches db address := by
  refine ⟨fun b hb hview => ?_, fun r hr hspend => ?_⟩
  · obtain ⟨id, hfound⟩ := (h.writers .clearWebhooks).wrote (clearWebhooks_wrote hb hview)
    obtain ⟨c, hc, haddress, -⟩ := hfound.row
    have hbc : b = c := Table.unique_val hb hc (hview.trans (by rw [← haddress]; rfl))
    refine ⟨hbc ▸ haddress, fun hinvalid => ?_⟩
    exact (h.writers (.addWebhook .txConfirmation (⟨0, 0⟩, ⟨"zmq", "", 1⟩))).known ⟨id, hfound⟩
      (addWebhook_unknown hb hview hinvalid)
  · exact h.rejected r.1 _ rfl r hr (reject_consumes hr hspend)

/-- In every reachable state, readers and writers agree on an address exactly when the account and the requests that
the lookups of the writers find are of that address. -/
theorem writers_agree_iff (h : Reached env (fun _ _ => True) db) (address : AccountAddress) :
    Agreement env db address ↔ Matches db address :=
  ⟨matches_of_agreement, agreement_of_matches (indexRows_reached h)⟩

def oneAccount : Storage :=
  Op.runs sampleEnv [.addAccount 5 ⟨1007, 50⟩ 7 0, .importRequest 6 ⟨1007, 50⟩ 0 ⟨0, 0⟩]

theorem reached_oneAccount : Reached sampleEnv (fun _ _ => True) oneAccount :=
  reached_runs (by simp [AllOk])

theorem writers_agree_own_address : Agreement sampleEnv oneAccount ⟨1007, 50⟩ := by
  refine (writers_agree_iff reached_oneAccount ⟨1007, 50⟩).mpr ⟨fun b hb hview => ?_, by decide +kernel⟩
  have hall : ∀ r ∈ oneAccount.accountsBa, r.2.address = ⟨1007, 50⟩ ∧ r.2.lookup.id ≠ invalidId := by decide +kernel
  exact hall ((), b) hb

/-- The account at `⟨1007, 50⟩` is written for `⟨1007, 51⟩`, where `get_account` finds none, and its request is
rejected for `⟨1008, 50⟩`. -/
theorem other_spend_key_written :
    Reached sampleEnv (fun _ _ => True) oneAccount ∧
    getAccountAt oneAccount ⟨1007, 51⟩ = .error .accountNotFound ∧
    (∃ db', (Op.updateAccessTime 9 ⟨1007, 51⟩).run sampleEnv oneAccount = .ok db' ∧ ¬ SameAccount oneAccount db' 1) ∧
    ¬ Agreement sampleEnv oneAccount ⟨1007, 51⟩ ∧ ¬ Agreement sampleEnv oneAccount ⟨1008, 50⟩ := by
  have hnone : getAccountAt oneAccount ⟨1007, 51⟩ = .error .accountNotFound := by decide +kernel
  have hbefore : ∃ r ∈ oneAccount.accounts, r.2.id = 1 ∧ r.2.access = 5 := by decide +kernel
  have hafter : (oneAccount.updateAccessTime 9 ⟨1007, 51⟩).toOption.any
      (fun db' => decide (∀ r ∈ db'.accounts, r.2.access = 9)) = true := by decide +kernel
  obtain ⟨db', hrun, hall⟩ : ∃ db', oneAccount.updateAccessTime 9 ⟨1007, 51⟩ = .ok db' ∧
      ∀ r ∈ db'.accounts, r.2.access = 9 := by
    rcases hres : oneAccount.updateAccessTime 9 ⟨1007, 51⟩ with e | db'
    · rw [hres] at hafter
      cases hafter
    · rw [hres] at hafter
      exact ⟨db', rfl, of_decide_eq_true hafter⟩
  have hchanged : ¬ SameAccount oneAccount db' 1 := by
    intro hsame
    obtain ⟨⟨st, a⟩, ha, hid, haccess⟩ := hbefore
    have hnine := hall _ ((hsame.accounts st a hid).mpr ha)
    exact absurd (hnine.symm.trans haccess) (by decide)
  refine ⟨reached_oneAccount, hnone, ⟨db', hrun, hchanged⟩, fun h => ?_, fun h => ?_⟩
  · rcases (h.writers (.updateAccessTime 9)).only db' hrun 1 with hsame | ⟨status, user, hget, -⟩
    · exact hchanged hsame
    · rw [hnone] at hget
      cases hget
  · have hgone : ∃ r ∈ oneAccount.requests, r ∉ (oneAccount.rejectRequests .importScan [⟨1008, 50⟩]).1.requests ∧
        r.2.address ≠ ⟨1008, 50⟩ := by decide +kernel
    obtain ⟨r, hr, hnot, hne⟩ := hgone
    exact hne (h.rejected .importScan _ rfl r hr hnot)

end Agreement

end Lws.Rest
