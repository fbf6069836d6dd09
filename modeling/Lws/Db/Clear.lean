/-
  Lws.Db.Clear — what deleting webhooks deletes (`src/db/storage.cpp`: `clear_webhooks`).

  An address stands for an account: its webhooks of all types and its events should go, and
  nothing else. The operation erases the one key of `tx_confirmation`, the only type when it
  was written; the webhooks of a spend stay (`spend_hook_stays`). Events are only of
  confirmations, so none is left that is about a webhook that went.

  A list of ids walks over every webhook and every event, and deletes what has one of them.
-/

import Lws.Db.Change
import Lws.Db.Operations

namespace Lws.Db

open Lws.Lmdb

def usersOf (db : Storage) (addresses : List AccountAddress) : List Nat := addresses.filterMap (lookupId db.accountsBa)

def KnownAddresses (db : Storage) (addresses : List AccountAddress) : Prop :=
  ∀ address ∈ addresses, ∃ b, ((), b) ∈ db.accountsBa ∧ b.address = address

/-- An event of a user is about a webhook. -/
def WebhookEvent.RefersTo (user : Nat) (event : WebhookEvent) (hook : WebhookKey × WebhookValue) : Prop :=
  hook.1.user = user ∧ hook.2.1 = event.linkWebhook

/-- No event that is left is about a webhook that went. -/
def NoneDangling (db db' : Storage) : Prop :=
  ∀ row ∈ db'.events, ∀ hook ∈ db.webhooks, hook ∉ db'.webhooks → ¬row.2.RefersTo row.1 hook

/-- The webhooks and events of some accounts are gone, and all else is as it was. -/
structure ClearedUsers (users : List Nat) (db db' : Storage) : Prop where
  hooks : ∀ row ∈ db'.webhooks, row.1.user ∉ users
  events : ∀ row ∈ db'.events, row.1 ∉ users
  otherHooks : ∀ row : WebhookKey × WebhookValue, row.1.user ∉ users → (row ∈ db'.webhooks ↔ row ∈ db.webhooks)
  otherEvents : ∀ row : Nat × WebhookEvent, row.1 ∉ users → (row ∈ db'.events ↔ row ∈ db.events)
  others : db' = { db with webhooks := db'.webhooks, events := db'.events }

/-- What has one of the ids is gone, and all else is as it was. -/
structure ClearedIds (ids : List Uuid) (db db' : Storage) : Prop where
  hooks : ∀ row : WebhookKey × WebhookValue, row ∈ db'.webhooks ↔ row ∈ db.webhooks ∧ row.2.1.eventId ∉ ids
  events : ∀ row : Nat × WebhookEvent, row ∈ db'.events ↔ row ∈ db.events ∧ row.2.linkWebhook.eventId ∉ ids
  others : db' = { db with webhooks := db'.webhooks, events := db'.events }

/-! ## By address -/

/-- Without the confirmations and the events of some accounts. -/
def Storage.unhook (users : List Nat) (db : Storage) : Storage :=
  { db with
    webhooks := db.webhooks.filter fun row => !decide (row.1.user ∈ users ∧ row.1.type = .txConfirmation)
    events := db.events.filter fun row => !decide (row.1 ∈ users) }

theorem mem_unhook_webhooks {users : List Nat} {db : Storage} {row : WebhookKey × WebhookValue} :
    row ∈ (db.unhook users).webhooks ↔ row ∈ db.webhooks ∧ (row.1.user ∈ users → row.1.type ≠ .txConfirmation) := by
  simp [Storage.unhook, Table.mem_filter, imp_iff_not_or]

theorem mem_unhook_events {users : List Nat} {db : Storage} {row : Nat × WebhookEvent} :
    row ∈ (db.unhook users).events ↔ row ∈ db.events ∧ row.1 ∉ users := by
  simp [Storage.unhook, Table.mem_filter]

theorem unhook_nil (db : Storage) : db.unhook [] = db := by
  have hhooks : (db.unhook []).webhooks = db.webhooks := Table.ext_mem fun row => by simp [mem_unhook_webhooks]
  have hevents : (db.unhook []).events = db.events := Table.ext_mem fun row => by simp [mem_unhook_events]
  show { db with webhooks := (db.unhook []).webhooks, events := (db.unhook []).events } = db
  rw [hhooks, hevents]

theorem unhook_cons (user : Nat) (users : List Nat) (db : Storage) :
    db.unhook (user :: users) =
      Storage.unhook users { db with
        webhooks := db.webhooks.eraseKey ⟨user, .txConfirmation⟩, events := db.events.eraseKey user } := by
  have hkey : ∀ key : WebhookKey, key ≠ ⟨user, .txConfirmation⟩ ↔ (key.user = user → key.type ≠ .txConfirmation) := by
    rintro ⟨u, type⟩
    simp
  have hhooks : (db.unhook (user :: users)).webhooks = (Storage.unhook users { db with
      webhooks := db.webhooks.eraseKey ⟨user, .txConfirmation⟩, events := db.events.eraseKey user }).webhooks := by
    apply Table.ext_mem
    intro row
    simp only [mem_unhook_webhooks, Table.mem_eraseKey, hkey, List.mem_cons, or_imp, and_assoc]
  have hevents : (db.unhook (user :: users)).events = (Storage.unhook users { db with
      webhooks := db.webhooks.eraseKey ⟨user, .txConfirmation⟩, events := db.events.eraseKey user }).events := by
    apply Table.ext_mem
    intro row
    simp only [mem_unhook_events, Table.mem_eraseKey, List.mem_cons, not_or, and_assoc]
  show { db with webhooks := (db.unhook (user :: users)).webhooks, events := (db.unhook (user :: users)).events } = _
  rw [hhooks, hevents]
  rfl

/-- What the walk over the addresses deletes. -/
theorem clearWebhooks_eq (addresses : List AccountAddress) (db : Storage)
    (hknown : ∀ address ∈ addresses, ∃ id, lookupId db.accountsBa address = some id) :
    db.clearWebhooks addresses = .ok (db.unhook (usersOf db addresses)) := by
  induction addresses generalizing db with
  | nil => exact congrArg Except.ok (unhook_nil db).symm
  | cons address addresses ih =>
    obtain ⟨id, hid⟩ := hknown address List.mem_cons_self
    obtain ⟨b, hb, hview, rfl⟩ := lookupId_some hid
    have husers : usersOf db (address :: addresses) = b.lookup.id :: usersOf db addresses := by
      simp [usersOf, hid]
    unfold Storage.clearWebhooks
    rw [require_ok.mpr ⟨hb, hview⟩, husers, unhook_cons]
    exact ih _ fun a ha => hknown a (List.mem_cons_of_mem _ ha)

theorem KnownAddresses.lookup {addresses : List AccountAddress} {db : Storage} (h : KnownAddresses db addresses) :
    ∀ address ∈ addresses, ∃ id, lookupId db.accountsBa address = some id := by
  intro address ha
  obtain ⟨b, hb, haddress⟩ := h address ha
  exact ⟨b.lookup.id, lookupId_eq hb (congrArg AccountAddress.viewPublic haddress)⟩

/-- All of the accounts is gone exactly when they had confirmations only. -/
theorem unhook_cleared {users : List Nat} {db : Storage} :
    ClearedUsers users db (db.unhook users) ↔
      ∀ row ∈ db.webhooks, row.1.user ∈ users → row.1.type = .txConfirmation := by
  constructor
  · intro h row hrow huser
    by_contra htype
    exact h.hooks row (mem_unhook_webhooks.mpr ⟨hrow, fun _ => htype⟩) huser
  · intro h
    refine ⟨fun row hrow huser => ?_, fun row hrow => (mem_unhook_events.mp hrow).2,
      fun row huser => ?_, fun row huser => ?_, rfl⟩
    · obtain ⟨hrow, htype⟩ := mem_unhook_webhooks.mp hrow
      exact htype huser (h row hrow huser)
    · simp [mem_unhook_webhooks, huser]
    · simp [mem_unhook_events, huser]

/-- An event that is left is of an account whose webhooks are left. -/
theorem unhook_noneDangling (users : List Nat) (db : Storage) : NoneDangling db (db.unhook users) := by
  rintro row hrow hook hhook hgone ⟨huser, -⟩
  apply hgone
  rw [mem_unhook_webhooks, huser]
  exact ⟨hhook, fun hin => absurd hin (mem_unhook_events.mp hrow).2⟩

/-! ## By id -/

/-- A walk that only deletes. -/
theorem eachRow_delete {K V S : Type} [LinearOrder K] [LinearOrder S] {sort : V → S} (t : Table K sort)
    (d : K × V → Bool) :
    t.eachRow (fun _ row => (.ok ((), d row) : Except Error (Unit × Bool))) () =
      .ok ((), t.filter fun row => !d row) := by
  have hvisit : ∀ rows : List (K × V),
      visit (fun _ row => (.ok ((), d row) : Except Error (Unit × Bool))) () rows = .ok () := by
    intro rows
    induction rows with
    | nil => rfl
    | cons row rows ih => exact ih
  have hdeletes : Deletes (fun _ row => (.ok ((), d row) : Except Error (Unit × Bool))) d := by
    intro _ row _ _ h
    exact (Prod.mk.inj (Except.ok.inj h)).2.symm
  rw [Table.eachRow_eq t hdeletes, hvisit]
  rfl

theorem clearWebhookIds_cleared (ids : List Uuid) (db : Storage) :
    ∃ db', db.clearWebhookIds ids = .ok db' ∧ ClearedIds ids db db' := by
  unfold Storage.clearWebhookIds
  by_cases hnil : ids.isEmpty = true
  · obtain rfl := List.isEmpty_iff.mp hnil
    exact ⟨db, rfl, by simp, by simp, rfl⟩
  · rw [if_neg hnil, eachRow_delete, eachRow_delete]
    exact ⟨_, rfl, fun row => by simp [Table.mem_filter], fun row => by simp [Table.mem_filter], rfl⟩

theorem ClearedIds.noneDangling {ids : List Uuid} {db db' : Storage} (h : ClearedIds ids db db') :
    NoneDangling db db' := by
  rintro row hrow hook hhook hgone ⟨-, hlink⟩
  apply hgone
  rw [h.hooks, hlink]
  exact ⟨hhook, ((h.events row).mp hrow).2⟩

/-! ## Both -/

/-- By address all of the accounts is deleted, and nothing else, exactly when they have webhooks
    of confirmations only; by id it always is. After either no event is about a webhook that went. -/
theorem clear_exact_iff (db : Storage) (addresses : List AccountAddress) (ids : List Uuid)
    (hknown : KnownAddresses db addresses) :
    ((∃ db', db.clearWebhooks addresses = .ok db' ∧ ClearedUsers (usersOf db addresses) db db' ∧ NoneDangling db db') ∧
      ∃ db', db.clearWebhookIds ids = .ok db' ∧ ClearedIds ids db db' ∧ NoneDangling db db') ↔
    ∀ row ∈ db.webhooks, row.1.user ∈ usersOf db addresses → row.1.type = .txConfirmation := by
  rw [← unhook_cleared]
  have heq := clearWebhooks_eq addresses db hknown.lookup
  constructor
  · rintro ⟨⟨db', hrun, hcleared, -⟩, -⟩
    rw [heq] at hrun
    rwa [Except.ok.inj hrun]
  · intro h
    obtain ⟨db', hrun, hcleared⟩ := clearWebhookIds_cleared ids db
    exact ⟨⟨_, heq, h, unhook_noneDangling _ db⟩, db', hrun, hcleared, hcleared.noneDangling⟩

def hookedBy (type : WebhookType) : Storage :=
  Op.runs sampleEnv [.addAccount 0 ⟨1007, 50⟩ 7 0, .addWebhook type (some ⟨1007, 50⟩) (⟨0, 1⟩, ⟨"zmq", "", 1⟩)]

theorem hookedBy_known (type : WebhookType) : KnownAddresses (hookedBy type) [⟨1007, 50⟩] := by
  have hrow : ∃ r ∈ (hookedBy type).accountsBa.rows, r.2.address = ⟨1007, 50⟩ := by
    cases type <;> decide +kernel
  intro address ha
  obtain rfl := List.mem_singleton.mp ha
  obtain ⟨⟨_, b⟩, hb, haddress⟩ := hrow
  exact ⟨b, hb, haddress⟩

theorem clear_exact_confirmation :
    ∃ db', (hookedBy .txConfirmation).clearWebhooks [⟨1007, 50⟩] = .ok db' ∧
      ClearedUsers (usersOf (hookedBy .txConfirmation) [⟨1007, 50⟩]) (hookedBy .txConfirmation) db' ∧
      NoneDangling (hookedBy .txConfirmation) db' := by
  have htypes : ∀ r ∈ (hookedBy .txConfirmation).webhooks.rows, r.1.type = .txConfirmation := by decide +kernel
  exact ((clear_exact_iff _ _ [1] (hookedBy_known _)).mpr fun row hrow _ => htypes row hrow).1

theorem spend_hook_stays :
    ¬∀ (db : Storage) (addresses : List AccountAddress), KnownAddresses db addresses →
      ∀ db', db.clearWebhooks addresses = .ok db' → ∀ row ∈ db'.webhooks, row.1.user ∉ usersOf db addresses := by
  intro h
  have husers : usersOf (hookedBy .txSpend) [⟨1007, 50⟩] = [1] := by decide +kernel
  have hleft : ∃ r ∈ ((hookedBy .txSpend).unhook [1]).webhooks.rows, r.1.user = 1 := by decide +kernel
  obtain ⟨row, hin, huser⟩ := hleft
  have hrun := clearWebhooks_eq _ _ (hookedBy_known .txSpend).lookup
  rw [husers] at hrun
  apply h _ _ (hookedBy_known .txSpend) _ hrun row hin
  simp [husers, huser]

end Lws.Db
