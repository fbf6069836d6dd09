/-
  Lws.Db.Admins — who administers, in every state of a run.

  An account has the flag of an administrator from the call that added it. No operation
  removes an account, and none writes the address, the key or the flags of one that is there:
  `holders` only grows, by `add_account` and by accepting a request to create
  (`SameHolders`, `kept_run`). So the set of administrators stays what it was at the start, as long
  as no account is added, and no request filed, with the flag (`admins_steps`).
-/

import Lws.Db.Change

namespace Lws.Db

open Lws.Lmdb Lws.Transition

/-- What an account has from the call that added it. -/
structure Holder where
  id : Nat
  address : AccountAddress
  key : SecretKey
  flags : Nat
  deriving DecidableEq, Repr

def Account.holder (a : Account) : Holder := ⟨a.id, a.address, a.key, a.flags⟩

def holders (accounts : Accounts) : Set Holder := {o | ∃ st a, (st, a) ∈ accounts ∧ a.holder = o}

def admins (db : Storage) : Set Holder := {o ∈ holders db.accounts | o.flags &&& adminAccount ≠ 0}

/-- No pending request asks for an administrator. -/
def Quiet (db : Storage) : Prop := ∀ info, (Request.create, info) ∈ db.requests → info.creationFlags &&& adminAccount = 0

/-- An operation that gives no account the flag by itself. -/
def Op.Unprivileged : Op → Prop
  | .addAccount _ _ _ flags => flags &&& adminAccount = 0
  | .creationRequest _ _ _ flags _ => flags &&& adminAccount = 0
  | _ => True

/-! ## The holders of a table -/

section Holders

variable {accounts : Accounts} {st st' : AccountStatus} {a a' : Account}

theorem holders_put_new (hfree : ∀ x, (st, x) ∈ accounts → x.id ≠ a.id) :
    holders (accounts.put st a) = insert a.holder (holders accounts) := by
  ext o
  constructor
  · rintro ⟨s, x, hx, rfl⟩
    rcases Table.mem_put.mp hx with hx | ⟨hx, -⟩
    · cases hx
      exact Or.inl rfl
    · exact Or.inr ⟨s, x, hx, rfl⟩
  · rintro (rfl | ⟨s, x, hx, rfl⟩)
    · exact ⟨st, a, Table.mem_put_self _ _ _, rfl⟩
    · refine ⟨s, x, Table.mem_put.mpr (Or.inr ⟨hx, ?_⟩), rfl⟩
      rintro ⟨rfl, hid⟩
      exact hfree x hx hid

theorem holders_put (ha : (st, a) ∈ accounts) (hsame : a'.holder = a.holder) :
    holders (accounts.put st a') = holders accounts := by
  have hid : a'.id = a.id := congrArg Holder.id hsame
  ext o
  constructor
  · rintro ⟨s, x, hx, rfl⟩
    rcases Table.mem_put.mp hx with hx | ⟨hx, -⟩
    · cases hx
      exact ⟨st, a, ha, hsame.symm⟩
    · exact ⟨s, x, hx, rfl⟩
  · rintro ⟨s, x, hx, rfl⟩
    by_cases e : s = st ∧ x.id = a'.id
    · obtain ⟨rfl, e⟩ := e
      obtain rfl := Table.unique_val hx ha (e.trans hid)
      exact ⟨s, a', Table.mem_put_self _ _ _, hsame⟩
    · exact ⟨s, x, Table.mem_put.mpr (Or.inr ⟨hx, e⟩), rfl⟩

theorem holders_move (ha : (st, a) ∈ accounts) (hfree : ∀ x, (st', x) ∈ accounts → x.id ≠ a.id) :
    holders ((accounts.erase st a.id).put st' a) = holders accounts := by
  ext o
  constructor
  · rintro ⟨s, x, hx, rfl⟩
    rcases Table.mem_put.mp hx with hx | ⟨hx, -⟩
    · cases hx
      exact ⟨st, a, ha, rfl⟩
    · exact ⟨s, x, (Table.mem_erase.mp hx).1, rfl⟩
  · rintro ⟨s, x, hx, rfl⟩
    by_cases e : s = st ∧ x.id = a.id
    · obtain ⟨rfl, e⟩ := e
      obtain rfl := Table.unique_val hx ha e
      exact ⟨st', x, Table.mem_put_self _ _ _, rfl⟩
    · refine ⟨s, x, Table.mem_put.mpr (Or.inr ⟨Table.mem_erase.mpr ⟨hx, e⟩, ?_⟩), rfl⟩
      rintro ⟨rfl, hid⟩
      exact hfree x hx hid

end Holders

/-! ## Operations that keep the holders -/

/-- The holders are the same, and no request was filed. -/
structure SameHolders (db db' : Storage) : Prop where
  holders : holders db'.accounts = holders db.accounts
  requests : ∀ r ∈ db'.requests, r ∈ db.requests

section SameHolders

variable {env : Env} {db mid db' : Storage}

theorem SameHolders.refl (db : Storage) : SameHolders db db := ⟨rfl, fun _ h => h⟩

theorem SameHolders.trans (h : SameHolders db mid) (h' : SameHolders mid db') : SameHolders db db' :=
  ⟨h'.holders.trans h.holders, fun r hr => h.requests r (h'.requests r hr)⟩

theorem SameHolders.same (haccounts : db'.accounts = db.accounts) (hrequests : db'.requests = db.requests) :
    SameHolders db db' :=
  ⟨congrArg Lws.Db.holders haccounts, fun _ hr => hrequests ▸ hr⟩

theorem SameHolders.erase (db : Storage) (req : Request) (spend : PublicKey) :
    SameHolders db { db with requests := db.requests.erase req spend } :=
  ⟨rfl, fun _ hr => (Table.mem_erase.mp hr).1⟩

theorem SameHolders.put {st : AccountStatus} {a a' : Account} (ha : (st, a) ∈ db.accounts)
    (hsame : a'.holder = a.holder) :
    SameHolders db { db with accounts := db.accounts.put st a' } :=
  ⟨holders_put ha hsame, fun _ hr => hr⟩

/-- The kinds of change that write an account that is there, and file no request. -/
def Act.inPlace : Act → Prop
  | .aside | .touch | .add | .lower _ _ => False
  | _ => True

theorem rewound_kept {height : Nat} (h : Rewound height db db') : SameHolders db db' := by
  have hholder : ∀ st (a : Account), (if (⟨a.id, st⟩ : AccountLookup) ∈ lookupsAbove db.accountsBh height
      then a.rolledBack (max height 1 - 1) else a).holder = a.holder := by
    intro st a
    split <;> rfl
  refine ⟨?_, fun r hr => by rw [h.frame] at hr; exact hr⟩
  ext o
  constructor
  · rintro ⟨st, a', ha', rfl⟩
    obtain ⟨a, ha, rfl⟩ := (h.accounts st a').mp ha'
    exact ⟨st, a, ha, (hholder st a).symm⟩
  · rintro ⟨st, a, ha, rfl⟩
    exact ⟨st, _, (h.accounts st _).mpr ⟨a, ha, rfl⟩, hholder st a⟩

theorem change_kept {act : Act} (hact : act.inPlace) (h : Change env act db db') : SameHolders db db' := by
  cases h with
  | aside _ _ => exact hact.elim
  | touch _ _ => exact hact.elim
  | add _ _ _ _ _ _ => exact hact.elim
  | lower _ _ _ _ _ _ _ => exact hact.elim
  | move _ _ hstored hid _ _ hfree =>
    refine ⟨?_, fun _ hr => hr⟩
    show holders ((db.accounts.erase _ _).put _ _) = _
    rw [← hid]
    exact holders_move hstored hfree
  | rewind hrw => exact rewound_kept hrw
  | store hstored _ _ _ _ _ _ => exact ⟨holders_put hstored rfl, fun _ hr => hr⟩
  | _ => exact SameHolders.same rfl rfl

theorem changes_kept {allowed : Storage → Act → Prop} (hallowed : ∀ u act, allowed u act → act.inPlace)
    (h : Changes env allowed db db') : SameHolders db db' :=
  h.keeps (SameHolders db) (fun hu ha hc => hu.trans (change_kept (hallowed _ _ ha) hc)) (SameHolders.refl db)

theorem applyLookahead_holder {limit : Option Nat} {user user' : Account} {lookahead : AddressIndex} {outputs : Outputs}
    {ranges ranges' : SubaddressRanges} {indexes indexes' : SubaddressIndexes}
    (h : applyLookahead env limit user lookahead outputs ranges indexes = .ok (user', ranges', indexes')) :
    user'.holder = user.holder := by
  rcases applyLookahead_ok h with ⟨rfl, -, -⟩ | ⟨maxSubaddresses, -, -, hlook⟩
  · rfl
  · have hresult := congrArg Upsert.result hlook
    unfold doLookaheadFor at hresult
    dsimp only at hresult
    split at hresult
    · cases hresult
      rfl
    · cases hresult
    · cases hresult
      rfl

theorem changeHeight_kept {height : Nat} {address : AccountAddress} {lookahead : AddressIndex} {limit : Option Nat}
    (h : changeHeight env height address lookahead limit db = .ok db') : SameHolders db db' := by
  obtain ⟨b, a, a', l, spends, images, ranges, indexes, -, -, ha, -, -, -, -, hlook, rfl⟩ := changeHeight_ok h
  have hholder : a'.holder = (a.lowered height).holder := applyLookahead_holder hlook
  exact ⟨holders_put ha hholder, fun _ hr => hr⟩

theorem rescanLoop_kept {height : Nat} : ∀ (addresses : List AccountAddress) {db db' : Storage}
    {updated : List AccountAddress}, rescanLoop env height addresses db = .ok (db', updated) → SameHolders db db' := by
  intro addresses
  induction addresses with
  | nil =>
    intro db db' updated h
    cases h
    exact SameHolders.refl _
  | cons address addresses ih =>
    intro db db' updated h
    unfold rescanLoop at h
    split at h
    · rename_i mid hchange
      obtain ⟨⟨db₂, rest⟩, hloop, h⟩ := bind_ok.mp h
      cases h
      exact (changeHeight_kept hchange).trans (ih hloop)
    · exact ih h
    · cases h

theorem importAccounts_kept {maxSubaddresses : Nat} : ∀ (addresses : List AccountAddress) {db db' : Storage}
    {updated : List AccountAddress}, importAccounts env maxSubaddresses addresses db = .ok (db', updated) →
      SameHolders db db' := by
  intro addresses
  induction addresses with
  | nil =>
    intro db db' updated h
    cases h
    exact SameHolders.refl _
  | cons address addresses ih =>
    intro db db' updated h
    unfold importAccounts at h
    split at h
    · exact ih h
    · refine SameHolders.trans (SameHolders.erase db .importScan address.spendPublic) ?_
      dsimp only at h
      split at h
      · rename_i mid hchange
        obtain ⟨⟨db₂, rest⟩, hloop, h⟩ := bind_ok.mp h
        cases h
        exact (changeHeight_kept hchange).trans (ih hloop)
      · exact ih h
      · cases h

theorem rejectRequests_kept {req : Request} : ∀ (addresses : List AccountAddress) (db : Storage),
    SameHolders db (db.rejectRequests req addresses).1 := by
  intro addresses
  induction addresses with
  | nil => intro db; exact SameHolders.refl _
  | cons address addresses ih =>
    intro db
    unfold Storage.rejectRequests
    split
    · exact ih db
    · exact (SameHolders.erase db req address.spendPublic).trans (ih _)

/-- The operations that file a request or add an account. -/
def Op.brings : Op → Bool
  | .addAccount .. | .creationRequest .. | .importRequest .. | .acceptRequests _ .create _ _ => true
  | _ => false

theorem kept_run {op : Op} (hop : op.brings = false) (h : op.run env db = .ok db') : SameHolders db db' := by
  cases op with
  | addAccount clock address key flags => cases hop
  | creationRequest clock address key flags lookahead => cases hop
  | importRequest clock address height lookahead => cases hop
  | acceptRequests clock req addresses maxSubaddresses =>
    cases req with
    | create => cases hop
    | importScan =>
      obtain ⟨updated, h⟩ := fst_ok h
      exact importAccounts_kept addresses h
  | updateAccessTime clock address =>
    obtain ⟨access, -, h⟩ := bind_ok.mp h
    obtain ⟨⟨lookup, user⟩, hfind, h⟩ := bind_ok.mp h
    cases h
    obtain ⟨b, -, -, rfl, ha, -⟩ := findAccount_ok hfind
    exact SameHolders.put ha rfl
  | changeStatus status addresses =>
    obtain ⟨changed, h⟩ := fst_ok h
    refine changes_kept (fun u act hact => ?_) (@changeStatus_changes env _ addresses _ _ _ h)
    rw [hact]
    trivial
  | rejectRequests req addresses =>
    cases h
    exact rejectRequests_kept addresses db
  | rescan height addresses =>
    obtain ⟨updated, h⟩ := fst_ok h
    obtain ⟨last, -, h⟩ := bind_ok.mp h
    split at h
    · cases h
    · exact rescanLoop_kept addresses h
  | shrinkLookahead address lookahead =>
    obtain ⟨lookup, user, hfind, -, -, -, rfl⟩ := shrinkLookahead_ok h
    obtain ⟨b, -, -, rfl, ha, -⟩ := findAccount_ok hfind
    exact SameHolders.put ha rfl
  | upsertSubaddresses id address viewKey subaddrs maxSubaddr =>
    obtain ⟨out, h⟩ := fst_ok h
    obtain ⟨-, rfl⟩ := upsertSubaddresses_ok h
    exact SameHolders.same rfl rfl
  | updateLookahead address height fresh maxSubaddresses =>
    obtain ⟨n, h⟩ := fst_ok h
    obtain ⟨lookup, user, hfind, rfl | ⟨upserted, -, rfl | rfl⟩⟩ := updateLookahead_cases h
    · exact SameHolders.refl _
    · exact SameHolders.same rfl rfl
    · obtain ⟨b, -, -, rfl, ha, -⟩ := findAccount_ok hfind
      exact ⟨holders_put ha rfl, fun _ hr => hr⟩
  | syncChain height hashes regtest =>
    rcases syncChain_cases h with ⟨-, blocks, rfl⟩ | ⟨current, mid, blocks, -, hrw, rfl⟩
    · exact SameHolders.same rfl rfl
    · exact (rewound_kept hrw).trans (SameHolders.same rfl rfl)
  | syncPow height hashes pow =>
    rcases syncPow_cases h with ⟨-, blocks, pows, rfl⟩ | ⟨fork, mid, blocks, pows, -, hrw, rfl⟩
    · exact SameHolders.same rfl rfl
    · exact (rewound_kept hrw).trans (SameHolders.same rfl rfl)
  | rollback height =>
    rcases rollback_ok h with ⟨-, rfl⟩ | ⟨-, hrw⟩
    · exact SameHolders.refl _
    · exact rewound_kept hrw
  | update height chain users pow regtest =>
    obtain ⟨out, h⟩ := fst_ok h
    rcases update_stores h with rfl | ⟨blocks, pows, hstores⟩
    · exact SameHolders.refl _
    · have hkept : SameHolders { db with blocks, pows } db' := by
        refine changes_kept (fun u act hact => ?_) hstores
        cases act with
        | store _ _ _ => trivial
        | _ => exact hact.elim
      have hchain : SameHolders db { db with blocks, pows } := SameHolders.same rfl rfl
      exact hchain.trans hkept
  | addWebhook type address event => exact @change_kept env _ _ .hook trivial (addWebhook_change h)
  | clearWebhooks addresses =>
    refine changes_kept (fun u act hact => ?_) (@clearWebhooks_changes env addresses _ _ h)
    rw [hact]
    trivial
  | clearWebhookIds ids =>
    rcases @clearWebhookIds_change env _ _ _ h with rfl | hc
    · exact SameHolders.refl _
    · exact @change_kept env _ _ .unhook trivial hc

end SameHolders

/-! ## Administrators -/

section Admins

variable {env : Env} {db mid db' : Storage}

/-- The administrators of a state reached from `db`, with no request for another. -/
structure SameAdmins (db db' : Storage) : Prop where
  admins : admins db' = admins db
  quiet : Quiet db'

theorem SameAdmins.trans (h : SameAdmins db mid) (h' : SameAdmins mid db') : SameAdmins db db' :=
  ⟨h'.admins.trans h.admins, h'.quiet⟩

theorem SameHolders.admins (h : SameHolders db db') (hq : Quiet db) : SameAdmins db db' := by
  refine ⟨?_, fun info hinfo => hq info (h.requests _ hinfo)⟩
  unfold Lws.Db.admins
  rw [h.holders]

/-- An account without the flag is added. -/
theorem added_admins {user : Account} (hq : Quiet db) (hflags : user.flags &&& adminAccount = 0)
    (hfree : ∀ x, (newStatus user, x) ∈ db.accounts → x.id ≠ user.id) : SameAdmins db (added user db) := by
  refine ⟨?_, hq⟩
  ext o
  show o ∈ holders (db.accounts.put _ _) ∧ _ ↔ o ∈ holders db.accounts ∧ _
  rw [holders_put_new hfree]
  constructor
  · rintro ⟨rfl | ho, hadmin⟩
    · exact absurd hflags hadmin
    · exact ⟨ho, hadmin⟩
  · rintro ⟨ho, hadmin⟩
    exact ⟨Or.inr ho, hadmin⟩

theorem createAccountsLoop_admins {currentTime maxSubaddresses : Nat} : ∀ (addresses : List AccountAddress)
    {lastId : Nat} {db db' : Storage} {stored : List AccountAddress}, Quiet db →
    createAccountsLoop env currentTime maxSubaddresses lastId addresses db = .ok (db', stored) →
      SameAdmins db db' := by
  intro addresses
  induction addresses with
  | nil =>
    intro lastId db db' stored hq h
    cases h
    exact ⟨rfl, hq⟩
  | cons address addresses ih =>
    intro lastId db db' stored hq h
    unfold createAccountsLoop at h
    split at h
    · exact ih hq h
    · rename_i info hinfo
      dsimp only at h
      split at h
      · cases h
      · obtain ⟨⟨user, ranges, indexes⟩, hlook, h⟩ := bind_ok.mp h
        have hflags : user.flags &&& adminAccount = 0 := by
          rw [show user.flags = info.creationFlags from congrArg Holder.flags (applyLookahead_holder hlook)]
          exact hq info (Table.get?_eq_some.mp hinfo).1
        have hrow : SameHolders db { db with
            requests := db.requests.erase .create address.spendPublic
            subaddressRanges := ranges
            subaddressIndexes := indexes } :=
          (SameHolders.erase db .create address.spendPublic).trans (SameHolders.same rfl rfl)
        have herase := hrow.admins hq
        dsimp only at h
        split at h
        · rename_i mid hadd
          obtain ⟨⟨db₂, rest⟩, hloop, h⟩ := bind_ok.mp h
          cases h
          obtain ⟨-, -, -, hfree, rfl⟩ := doAddAccount_ok hadd
          have hadded := added_admins herase.quiet hflags hfree
          exact (herase.trans hadded).trans (ih hadded.quiet hloop)
        · exact herase.trans (ih herase.quiet h)
        · exact herase.trans (ih herase.quiet h)
        · cases h

theorem filed_admins {req : Request} {info : RequestInfo} {requests : Requests} (hq : Quiet db)
    (hput : putNewOr .duplicateRequest db.requests req info = .ok requests)
    (hflags : info.creationFlags &&& adminAccount = 0) : SameAdmins db { db with requests } := by
  obtain ⟨-, rfl⟩ := putNewOr_ok.mp hput
  refine ⟨rfl, fun x hx => ?_⟩
  rcases Table.mem_put.mp hx with hx | ⟨hx, -⟩
  · cases hx
    exact hflags
  · exact hq x hx

/-- An operation adds no administrator and removes none. -/
theorem admins_run {op : Op} (hop : op.Unprivileged) (hq : Quiet db) (h : op.run env db = .ok db') :
    SameAdmins db db' := by
  rcases hbrings : op.brings with _ | _
  · exact (kept_run hbrings h).admins hq
  · cases op with
    | addAccount clock address key flags =>
      obtain ⟨time, -, h⟩ := bind_ok.mp h
      obtain ⟨height, -, h⟩ := bind_ok.mp h
      obtain ⟨-, -, -, hfree, rfl⟩ := doAddAccount_ok h
      exact added_admins hq hop hfree
    | creationRequest clock address key flags lookahead =>
      obtain ⟨hooks, h⟩ := fst_ok h
      obtain ⟨height, time, requests, hput, rfl⟩ := creationRequest_files h
      exact filed_admins hq hput hop
    | importRequest clock address height lookahead =>
      obtain ⟨requests, hput, rfl⟩ := importRequest_files h
      exact filed_admins hq hput (Nat.zero_and _)
    | acceptRequests clock req addresses maxSubaddresses =>
      cases req with
      | importScan => cases hbrings
      | create =>
        obtain ⟨stored, h⟩ := fst_ok h
        rcases acceptRequests_created h with rfl | ⟨time, hloop⟩
        · exact ⟨rfl, hq⟩
        · exact createAccountsLoop_admins addresses hq hloop
    | _ => cases hbrings

theorem admins_steps (hq : Quiet db) (h : Steps (Op.run env) (fun _ op => op.Unprivileged) db db') :
    SameAdmins db db' :=
  h.invariant (SameAdmins db) ⟨rfl, hq⟩ fun _ _ _ hu hop hrun => hu.trans (admins_run hop hu.quiet hrun)

end Admins

end Lws.Db
