/-
  Lws.Db.Meaningful — outputs without the fields that their flags say are not set.

  A mask is only for outputs of ringct transactions. The others have the identity there
  when they are found, and zeros when they were sent to another process. `update` never
  reads it: the accounts with and without it are stored alike, and the same is published
  (`update_meaningful`).
-/

import Lws.Lmdb.Recode
import Lws.Ownership
import Lws.Db.Update

namespace Lws.Db

open Lws.Lmdb

def Output.isRingct (o : Output) : Bool := decide ((unpackExtra o.extra).1 &&& ringctOutput ≠ 0)

def Output.meaningful (o : Output) : Output := { o with ringctMask := if o.isRingct then o.ringctMask else 0 }

theorem Output.meaningful_idem (o : Output) : o.meaningful.meaningful = o.meaningful := by
  have hmask : (if o.meaningful.isRingct then o.meaningful.ringctMask else 0) = o.meaningful.ringctMask := by
    show (if o.isRingct then (if o.isRingct then o.ringctMask else 0) else 0) = if o.isRingct then o.ringctMask else 0
    split <;> rfl
  exact congrArg (fun mask => { o.meaningful with ringctMask := mask }) hmask

/-- As a change to the rows of `outputs`. -/
def meaningfulRows : Recode Output.sort := ⟨Output.meaningful, fun _ => rfl⟩

def Storage.meaningful (db : Storage) : Storage := { db with outputs := db.outputs.recode meaningfulRows }

def WebhookTxConfirmation.meaningful (pub : WebhookTxConfirmation) : WebhookTxConfirmation :=
  { pub with txInfo := pub.txInfo.meaningful }

def Updated.meaningful (out : Updated) : Updated :=
  { out with confirmPubs := out.confirmPubs.map WebhookTxConfirmation.meaningful }

def meaningfulResult (x : Storage × Updated) : Storage × Updated := (x.1.meaningful, x.2.meaningful)

theorem Storage.meaningful_idem (db : Storage) : db.meaningful.meaningful = db.meaningful := by
  unfold meaningful
  rw [Table.recode_idem _ _ Output.meaningful_idem]

theorem Updated.meaningful_idem (out : Updated) : out.meaningful.meaningful = out.meaningful := by
  unfold meaningful
  rw [List.map_map]
  refine congrArg (fun pubs => { out with confirmPubs := pubs }) (List.map_congr_left fun pub _ => ?_)
  show WebhookTxConfirmation.mk _ _ pub.txInfo.meaningful.meaningful = _
  rw [Output.meaningful_idem]
  rfl

end Lws.Db

namespace Lws

def Account.meaningful (user : Account) : Account := { user with outputs := user.outputs.map Db.Output.meaningful }

theorem Account.meaningful_idem (user : Account) : user.meaningful.meaningful = user.meaningful := by
  unfold meaningful
  rw [List.map_map]
  exact congrArg (fun outputs => { user with outputs }) (List.map_congr_left fun o _ => Db.Output.meaningful_idem o)

end Lws

namespace Lws.Db

open Lws.Lmdb

/-! ## One account -/

theorem require_recode {K V S : Type} [LinearOrder K] [LinearOrder S] {sort : V → S} (t : Table K sort)
    (f : Recode sort) (k : K) (s : S) : require (t.recode f) k s = (require t k s).map f.apply := by
  unfold require
  rw [Table.get?_recode]
  rcases t.get? k s with _ | v
  · rfl
  · rfl

theorem checkHooks_meaningful (webhooks : Webhooks) (user : Lws.Account) (events : Events) :
    checkHooks webhooks user.meaningful events = checkHooks webhooks user events := by
  unfold checkHooks
  show (user.outputs.map Output.meaningful).foldl _ events = _
  rw [List.foldl_map]
  rfl

/-- An event is due as before, and publishes the output without the mask. -/
theorem ongoingHook_meaningful (webhooks : Webhooks) (outputs : Outputs) (user begin_ end_ : Nat)
    (pubs : List WebhookTxConfirmation) (r : Nat × WebhookEvent) :
    ongoingHook webhooks (outputs.recode meaningfulRows) user begin_ end_ (pubs.map WebhookTxConfirmation.meaningful) r =
      (ongoingHook webhooks outputs user begin_ end_ pubs r).map
        fun x => (x.1.map WebhookTxConfirmation.meaningful, x.2) := by
  unfold ongoingHook
  dsimp only
  split
  · rcases require webhooks ⟨user, .txConfirmation⟩ r.2.linkWebhook with e | hook
    · rfl
    · rw [require_recode]
      rcases require outputs user r.2.link.sort with e | out
      · rfl
      · simp only [bind, Except.bind, Except.map, List.map_append, List.map_map]
        rfl
  · rfl

theorem addOngoingHooks_meaningful (webhooks : Webhooks) (outputs : Outputs) (user begin_ end_ : Nat)
    (pubs : List WebhookTxConfirmation) (events : Events) :
    addOngoingHooks webhooks (outputs.recode meaningfulRows) user begin_ end_ (pubs.map WebhookTxConfirmation.meaningful)
        events =
      (addOngoingHooks webhooks outputs user begin_ end_ pubs events).map
        fun x => (x.1.map WebhookTxConfirmation.meaningful, x.2) := by
  unfold addOngoingHooks
  split
  · rfl
  · exact eachDup_map (ongoingHook_meaningful webhooks outputs user begin_ end_) events user pubs

theorem findSource_meaningful (s : Spend) (outputs : List Output) :
    findSource s (outputs.map Output.meaningful) = findSource s outputs := by
  induction outputs with
  | nil => rfl
  | cons o outputs ih =>
    rw [List.map_cons, findSource, findSource, ih]
    rfl

theorem checkSpends_meaningful (webhooks : Webhooks) (outputs : Outputs) (user : Lws.Account) :
    checkSpends webhooks (outputs.recode meaningfulRows) user.meaningful = checkSpends webhooks outputs user := by
  have hdups : (outputs.recode meaningfulRows).dups user.id = (outputs.dups user.id).map Output.meaningful :=
    Table.dups_recode outputs meaningfulRows user.id
  unfold checkSpends
  simp only [Account.meaningful, hdups, List.isEmpty_map, findSource_meaningful]

/-! ## A batch -/

theorem storeUser_meaningful (height lastUpdate : Nat) (user : Lws.Account) (status : AccountStatus)
    (existing : Account) (out : Updated) (db : Storage) :
    storeUser height lastUpdate user.meaningful status existing out.meaningful db.meaningful =
      (storeUser height lastUpdate user status existing out db).map meaningfulResult := by
  have houtputs : bulkInsert db.meaningful.outputs user.id user.meaningful.outputs =
      (bulkInsert db.outputs user.id user.outputs).recode meaningfulRows := by
    rw [bulkInsert_noDup, bulkInsert_noDup]
    exact Table.putAllAbsent_recode db.outputs meaningfulRows user.id user.outputs
  unfold storeUser
  simp only [show user.meaningful.id = user.id from rfl, show user.meaningful.spends = user.spends from rfl, houtputs]
  rw [show db.meaningful.accountsBh = db.accountsBh from rfl]
  rcases require db.accountsBh existing.scanHeight user.id with e | l
  · rfl
  · simp only [bind, Except.bind]
    rw [show db.meaningful.webhooks = db.webhooks from rfl, show db.meaningful.events = db.events from rfl,
      checkHooks_meaningful, show out.meaningful.confirmPubs = out.confirmPubs.map WebhookTxConfirmation.meaningful from rfl,
      addOngoingHooks_meaningful, checkSpends_meaningful]
    rcases addOngoingHooks db.webhooks (bulkInsert db.outputs user.id user.outputs) user.id _ _ out.confirmPubs _ with
      e | ⟨pubs, events⟩
    · rfl
    · simp only [Except.map]
      rcases checkSpends db.webhooks (bulkInsert db.outputs user.id user.outputs) user with e | spendPubs
      · rfl
      · rfl

theorem updateExisting_meaningful (height lastUpdate : Nat) (user : Lws.Account) (status : AccountStatus)
    (existing : Account) (out : Updated) (heights : List AccountLookup) (db : Storage) :
    updateExisting height lastUpdate user.meaningful status existing out.meaningful heights db.meaningful =
      (updateExisting height lastUpdate user status existing out heights db).map
        fun x => (x.1.meaningful, x.2.1.meaningful, x.2.2) := by
  unfold updateExisting
  rw [show user.meaningful.scanHeight = user.scanHeight from rfl]
  split
  · rfl
  · dsimp only
    split
    · rfl
    · have hstore := storeUser_meaningful height lastUpdate user status existing
        { out with accountsUpdated := out.accountsUpdated + 1 } db
      change storeUser _ _ _ _ _ { out.meaningful with accountsUpdated := out.accountsUpdated + 1 } _ = _ at hstore
      rw [show out.meaningful.accountsUpdated = out.accountsUpdated from rfl, hstore]
      rcases storeUser height lastUpdate user status existing _ db with e | ⟨db', out'⟩
      · rfl
      · rfl

theorem updateUser_meaningful (height lastUpdate : Nat) (user : Lws.Account) (out : Updated)
    (heights : List AccountLookup) (db : Storage) :
    updateUser height lastUpdate user.meaningful out.meaningful heights db.meaningful =
      (updateUser height lastUpdate user out heights db).map fun x => (x.1.meaningful, x.2.1.meaningful, x.2.2) := by
  unfold updateUser
  rw [show existingAccount db.meaningful user.meaningful = existingAccount db user from rfl]
  rcases existingAccount db user with e | ⟨_ | ⟨status, existing⟩⟩
  · rfl
  · rfl
  · exact updateExisting_meaningful height lastUpdate user status existing out heights db

theorem updateUsers_meaningful (height lastUpdate : Nat) (users : List Lws.Account) (out : Updated)
    (heights : List AccountLookup) (db : Storage) :
    updateUsers height lastUpdate (users.map Account.meaningful) out.meaningful heights db.meaningful =
      (updateUsers height lastUpdate users out heights db).map meaningfulResult := by
  induction users generalizing out heights db with
  | nil => rfl
  | cons user users ih =>
    have hstep : ∀ (heights : List AccountLookup) (db : Storage),
        (updateUser height lastUpdate user.meaningful out.meaningful heights db.meaningful >>= fun x =>
          updateUsers height lastUpdate (users.map Account.meaningful) x.2.1 x.2.2 x.1) =
          (updateUser height lastUpdate user out heights db >>= fun x =>
            updateUsers height lastUpdate users x.2.1 x.2.2 x.1).map meaningfulResult := by
      intro heights db
      rw [updateUser_meaningful]
      rcases updateUser height lastUpdate user out heights db with e | ⟨db', out', heights'⟩
      · rfl
      · exact ih out' heights' db'
    rw [List.map_cons]
    unfold updateUsers
    by_cases hfull : heights.length = 127
    · simp only [if_pos hfull]
      exact hstep [] { db with accountsBh := bulkInsert db.accountsBh lastUpdate heights }
    · simp only [if_neg hfull]
      exact hstep heights db

theorem updateChain_meaningful (env : Env) (height : Nat) (chain : List Hash) (pow : List PowSync) (regtest : Bool)
    (db : Storage) :
    updateChain env height chain pow regtest db.meaningful =
      (updateChain env height chain pow regtest db).map Storage.meaningful := by
  unfold updateChain
  rw [show db.meaningful.blocks = db.blocks from rfl, show db.meaningful.pows = db.pows from rfl]
  dsimp only
  split
  · rcases lastHeight db.blocks with e | lastBlock
    · rfl
    · dsimp only [bind, Except.bind]
      split
      · rfl
      · rcases getBlockHash db.blocks _ with e | hash
        · rfl
        · dsimp only
          split
          · rfl
          · rfl
  · split
    · rfl
    · split
      · rfl
      · rfl

/-- `update` does not read the mask of an output that has none. -/
theorem update_meaningful (env : Env) (height : Nat) (chain : List Hash) (users : List Lws.Account) (pow : List PowSync)
    (regtest : Bool) (db : Storage) :
    db.meaningful.update env height chain (users.map Account.meaningful) pow regtest =
      (db.update env height chain users pow regtest).map meaningfulResult := by
  unfold Storage.update
  rw [List.isEmpty_map]
  split
  · rfl
  · split
    · rfl
    · split
      · rfl
      · rw [updateChain_meaningful]
        rcases updateChain env height chain pow regtest db with e | db'
        · rfl
        · exact updateUsers_meaningful height _ users ⟨[], [], 0⟩ [] db'

/-- An account and what of it is meaningful are stored with the same outputs and spends. -/
theorem update_users_meaningful (env : Env) (height : Nat) (chain : List Hash) (users : List Lws.Account)
    (pow : List PowSync) (regtest : Bool) (db : Storage) :
    (db.update env height chain (users.map Account.meaningful) pow regtest).map meaningfulResult =
      (db.update env height chain users pow regtest).map meaningfulResult := by
  have hidem : (users.map Account.meaningful).map Account.meaningful = users.map Account.meaningful := by
    rw [List.map_map]
    exact List.map_congr_left fun user _ => user.meaningful_idem
  rw [← update_meaningful, ← update_meaningful, hidem]

end Lws.Db
