/-
  Lws.Db.SubaddressRuns — which operations keep the subaddress tables right.

  `create_accounts` writes the lookahead rows of a request under the id its account
  would get and then drops the request when the account exists or its view key is bad:
  the rows stay, under an id that the next account gets (`dropped_request_rows`,
  `stale_rows_uncounted`). `do_upsert` deletes a row of ranges before it merges, and a
  lookahead that runs into the limit there is committed without the row
  (`lookahead_loses_ranges`). The main results say that nothing else goes wrong:
  `subaddresses_keyed`, `subaddresses_limited` and `subaddresses_exact`.
-/

import Lws.Db.Subaddresses

namespace Lws.Db

open Lws.Lmdb Lws.Transition

/-! ## Conditions -/

def Op.subject : Op → Option (Nat × AccountAddress × SecretKey)
  | .upsertSubaddresses id address viewKey _ _ => some (id, address, viewKey)
  | _ => none

/-- The address `update_lookahead` is called with. -/
def Op.lookedUp : Op → Option AccountAddress
  | .updateLookahead address _ _ _ => some address
  | _ => none

/-- The caller passes the id, address and view key of one account, as the REST server and
    the scanner do. -/
structure OwnCall (db : Storage) (op : Op) : Prop where
  subject : ∀ s ∈ op.subject, Owner db s.1 s.2.1 s.2.2
  lookedUp : ∀ address ∈ op.lookedUp, ∀ r ∈ db.accountsBa, r.2.address.viewPublic = address.viewPublic → r.2.address = address

instance (db : Storage) (op : Op) : Decidable (OwnCall db op) :=
  decidable_of_iff ((∀ s ∈ op.subject, Owner db s.1 s.2.1 s.2.2) ∧
      ∀ address ∈ op.lookedUp, ∀ r ∈ db.accountsBa, r.2.address.viewPublic = address.viewPublic → r.2.address = address)
    ⟨fun h => ⟨h.1, h.2⟩, fun h => ⟨h.subject, h.lookedUp⟩⟩

/-- No request with a lookahead that writes rows has a bad view key or the public view
    key of an account, old or made from an earlier request. -/
def cleanCreate (env : Env) (maxSubaddresses : Nat) : Requests → List PublicKey → List AccountAddress → Bool
  | _, _, [] => true
  | requests, taken, address :: addresses =>
    match requests.get? .create address.spendPublic with
    | none => cleanCreate env maxSubaddresses requests taken addresses
    | some info =>
      let requests := requests.erase .create address.spendPublic
      if env.secretKeyToPublicKey info.key = some address.viewPublic ∧ address.viewPublic ∉ taken then
        cleanCreate env maxSubaddresses requests (address.viewPublic :: taken) addresses
      else !looks maxSubaddresses info.lookahead && cleanCreate env maxSubaddresses requests taken addresses

def takenKeys (ba : AccountsByAddress) : List PublicKey := ba.rows.map fun r => r.2.address.viewPublic

/-- No request that writes rows is dropped. -/
def Op.clean (env : Env) (db : Storage) : Op → Bool
  | .acceptRequests _ .create addresses maxSubaddresses =>
    cleanCreate env maxSubaddresses db.requests (takenKeys db.accountsBa) addresses
  | _ => true

/-- The merges of an import's lookahead fit the limit. -/
def lookaheadFits (maxSubaddresses height : Nat) (lookahead : AddressIndex) (address : AccountAddress) (db : Storage) :
    Bool :=
  match findAccount db address with
  | .error _ => true
  | .ok (_, user) =>
    let outputs := db.outputs.filter fun r => !outputAbove user.id height r
    match lookaheadEntries (outputs.dups user.id) lookahead maxSubaddresses with
    | .ok (some entries) => upsertFits maxSubaddresses user.id db.subaddressRanges db.subaddressIndexes entries
    | _ => true

/-- The state each import of the list starts from is the one the import before it leaves. -/
def importsFit (env : Env) (maxSubaddresses : Nat) : List AccountAddress → Storage → Bool
  | [], _ => true
  | address :: addresses, db =>
    match db.requests.get? .importScan address.spendPublic with
    | none => importsFit env maxSubaddresses addresses db
    | some info =>
      let db := { db with requests := db.requests.erase .importScan address.spendPublic }
      lookaheadFits maxSubaddresses info.startHeight info.lookahead address db &&
        match changeHeight env info.startHeight address info.lookahead (some maxSubaddresses) db with
        | .ok db => importsFit env maxSubaddresses addresses db
        | .error _ => importsFit env maxSubaddresses addresses db

/-- The lookaheads whose error an operation ignores merge within the limit. -/
def Op.fits (env : Env) (db : Storage) : Op → Bool
  | .acceptRequests _ .importScan addresses maxSubaddresses => importsFit env maxSubaddresses addresses db
  | .updateLookahead address _ fresh maxSubaddresses =>
    match findAccount db address with
    | .error _ => true
    | .ok (_, user) =>
      !looks maxSubaddresses user.lookahead || upsertFits maxSubaddresses user.id db.subaddressRanges db.subaddressIndexes
        (lookaheadUpsertions fresh user.lookahead.majI user.lookahead.minI)
  | _ => true

def Op.limit : Op → Option Nat
  | .acceptRequests _ _ _ maxSubaddresses => some maxSubaddresses
  | .upsertSubaddresses _ _ _ _ maxSubaddr => some maxSubaddr
  | .updateLookahead _ _ _ maxSubaddresses => some maxSubaddresses
  | _ => none

/-! ## Operations as steps -/

section Steps

variable {env : Env} {db db' : Storage}

/-- The calls of an operation: its limit, and merges that fit where the operation's do. -/
def Called (env : Env) (maxSubaddresses : Nat) (fits : Bool) (mid : Storage) (call : UpsertCall) : Prop :=
  call.maxSubaddr = maxSubaddresses ∧ (fits = true → call.Safe env mid)

theorem run_tables {op : Op} (hop : op.upserts = false) (h : op.run env db = .ok db') :
    db'.subaddressRanges = db.subaddressRanges ∧ db'.subaddressIndexes = db.subaddressIndexes := by
  refine (run_changes h).keeps
    (fun u => u.subaddressRanges = db.subaddressRanges ∧ u.subaddressIndexes = db.subaddressIndexes) ?_ ⟨rfl, rfl⟩
  intro u u' act hu ha hc
  cases hc with
  | subs =>
    rw [acts_subs, hop] at ha
    cases ha
  | rewind hrw =>
    rw [hrw.frame]
    exact hu
  | _ => exact hu

theorem run_owners {op : Op} (h : op.run env db = .ok db') {id : Nat} {address : AccountAddress} {viewKey : SecretKey}
    (howner : Owner db id address viewKey) : Owner db' id address viewKey :=
  (run_changes h).keeps (fun u => Owner u id address viewKey) (fun hu _ hc => owner_change hc hu) howner

theorem Called.mono {maxSubaddresses : Nat} {fits fits' : Bool} (himp : fits' = true → fits = true) (mid : Storage)
    (call : UpsertCall) (h : Called env maxSubaddresses fits mid call) : Called env maxSubaddresses fits' mid call :=
  ⟨h.1, fun hf => h.2 (himp hf)⟩

/-- The account goes back to the height, and then its lookahead runs. -/
theorem changeHeight_subSteps {maxSubaddresses height : Nat} {address : AccountAddress} {lookahead : AddressIndex}
    (hagree : db.Agree env) (h : changeHeight env height address lookahead (some maxSubaddresses) db = .ok db') :
    db'.Agree env ∧
      SubSteps env (Called env maxSubaddresses (lookaheadFits maxSubaddresses height lookahead address db)) db db' := by
  obtain ⟨b, a, a', l, spends, images, ranges, indexes, hb, hview, ha, hid, hs, hl, hl', hlook, rfl⟩ := changeHeight_ok h
  have hlower : Change env (.lower a.id height) db (lowered b a a' height spends images db) :=
    .lower hb ha hid (applyLookahead_same hlook) hs hl hl'
  have hagree' := agree_change hagree (fun e => by cases e) hlower
  refine ⟨hagree', ?_⟩
  refine Relation.ReflTransGen.head (.kept hagree' (fun _ _ _ => owner_change hlower) rfl rfl) ?_
  rcases applyLookahead_tables hlook with ⟨rfl, rfl⟩ | ⟨m, entries, hm, hentries, rfl, rfl⟩
  · exact Relation.ReflTransGen.refl
  · cases hm
    have howner : Owner (lowered b a a' height spends images db) a.id a.address a.key :=
      owner_change hlower ⟨_, ha, rfl, rfl, rfl⟩
    have hcall := @SubStep.upsert env
      (Called env maxSubaddresses (lookaheadFits maxSubaddresses height lookahead address db))
      (lowered b a a' height spends images db) ⟨a.id, a.address, a.key, entries, maxSubaddresses⟩ howner
    refine Relation.ReflTransGen.single (hcall ⟨rfl, fun hfit => Or.inr ⟨(lookaheadEntries_ok hentries).2, Or.inr ?_⟩⟩)
    have hentries' : lookaheadEntries ((db.outputs.filter fun r => !outputAbove a.id height r).dups a.id) lookahead
        maxSubaddresses = .ok (some entries) := hentries
    unfold lookaheadFits at hfit
    rw [findAccount_eq hb hview ha hid] at hfit
    simp only [hentries'] at hfit
    exact hfit

theorem importAccounts_subSteps {maxSubaddresses : Nat} : ∀ (addresses : List AccountAddress) {db db' : Storage}
    {updated : List AccountAddress}, db.Agree env → importAccounts env maxSubaddresses addresses db = .ok (db', updated) →
      SubSteps env (Called env maxSubaddresses (importsFit env maxSubaddresses addresses db)) db db' := by
  intro addresses
  induction addresses with
  | nil =>
    intro db db' updated _ h
    cases h
    exact Relation.ReflTransGen.refl
  | cons address addresses ih =>
    intro db db' updated hagree h
    unfold importAccounts at h
    unfold importsFit
    rcases hget : db.requests.get? .importScan address.spendPublic with _ | info
    · simp only [hget] at h
      exact ih hagree h
    · simp only [hget] at h
      dsimp only
      have hagree₀ : Storage.Agree env { db with requests := db.requests.erase .importScan address.spendPublic } := hagree
      refine Relation.ReflTransGen.head (.kept hagree₀ (fun _ _ _ h => h) rfl rfl) ?_
      rcases hch : changeHeight env info.startHeight address info.lookahead (some maxSubaddresses)
          { db with requests := db.requests.erase .importScan address.spendPublic } with e | db₁
      · simp only [hch] at h ⊢
        cases e with
        | accountNotFound =>
          refine (ih hagree₀ h).mono (Called.mono fun hf => ?_)
          exact (Bool.and_eq_true_iff.mp hf).2
        | _ => cases h
      · simp only [hch] at h ⊢
        obtain ⟨⟨db₂, u⟩, hloop, h⟩ := bind_ok.mp h
        cases h
        obtain ⟨hagree₁, hone⟩ := changeHeight_subSteps hagree₀ hch
        refine (hone.mono (Called.mono fun hf => ?_)).trans ((ih hagree₁ hloop).mono (Called.mono fun hf => ?_))
        · exact (Bool.and_eq_true_iff.mp hf).1
        · exact (Bool.and_eq_true_iff.mp hf).2

/-- A request is dropped for its view key or for the account that has its public one. -/
theorem doAddAccount_dropped {user : Account} {e : Error} (h : doAddAccount env user db = .error e)
    (he : e = .accountExists ∨ e = .badViewKey) :
    env.secretKeyToPublicKey user.key ≠ some user.address.viewPublic ∨
      ∃ b, ((), b) ∈ db.accountsBa ∧ b.address.viewPublic = user.address.viewPublic := by
  unfold doAddAccount at h
  split at h
  · rename_i hkey
    exact Or.inl hkey
  · rcases bind_error h with hba | ⟨ba, -, h⟩
    · obtain ⟨-, w, hw, hs⟩ := putNewOr_error hba
      exact Or.inr ⟨w, hw, hs⟩
    · exfalso
      rcases bind_error h with hbh | ⟨bh, -, h⟩
      · rw [(putNewOr_error hbh).1] at he
        simp at he
      · rcases bind_error h with ha | ⟨accounts, -, h⟩
        · rw [(putNewOr_error ha).1] at he
          simp at he
        · cases h

theorem applyLookahead_idle {maxSubaddresses : Nat} {user user' : Account} {lookahead : AddressIndex}
    {outputs : Outputs} {ranges ranges' : SubaddressRanges} {indexes indexes' : SubaddressIndexes}
    (hlook : (!looks maxSubaddresses lookahead) = true)
    (h : applyLookahead env (some maxSubaddresses) user lookahead outputs ranges indexes = .ok (user', ranges', indexes')) :
    ranges' = ranges ∧ indexes' = indexes := by
  rcases applyLookahead_tables h with h | ⟨m, entries, hm, hentries, -⟩
  · exact h
  · cases hm
    rw [(lookaheadEntries_ok hentries).1] at hlook
    cases hlook

theorem AccountsAgree.next_free {accounts : Accounts} {ba : AccountsByAddress} {bh : AccountsByHeight}
    (h : AccountsAgree env accounts ba bh) (hcount : accounts.rows.length < 2 ^ 32 - 2) :
    findLastId accounts + 1 < 2 ^ 32 ∧ ∀ r ∈ accounts, r.2.id ≠ findLastId accounts + 1 := by
  obtain ⟨hmax, hin⟩ := findLastId_spec accounts
  refine ⟨?_, fun r hr he => ?_⟩
  · rcases hin with h0 | ⟨x, hx, he⟩
    · omega
    · have := h.bound x hx
      omega
  · have := hmax r hr
    omega

/-- A request that becomes an account: the account and the rows of its lookahead. -/
theorem added_subSteps {maxSubaddresses : Nat} {requested user : Account} {lookahead : AddressIndex}
    {ranges : SubaddressRanges} {indexes : SubaddressIndexes} (hagree : db.Agree env)
    (hcount : db.accounts.rows.length < 2 ^ 32 - 2) (hid : requested.id = findLastId db.accounts + 1)
    (hstart : requested.startHeight = requested.scanHeight)
    (hlook : applyLookahead env (some maxSubaddresses) requested lookahead db.outputs db.subaddressRanges
      db.subaddressIndexes = .ok (user, ranges, indexes))
    (hadd : doAddAccount env user { db with subaddressRanges := ranges, subaddressIndexes := indexes } = .ok db') :
    db'.Agree env ∧ SubSteps env (Called env maxSubaddresses true) db db' := by
  obtain ⟨hkey, hba, hbh, hfree, rfl⟩ := doAddAccount_ok hadd
  have hsame := applyLookahead_same hlook
  have hchange : Change env .add db (added user db) :=
    .add hkey (fun _ => hsame.id.trans hid) (by rw [hsame.startHeight, hsame.scanHeight, hstart]) hba hbh hfree
  have hagree' := agree_change hagree (fun _ => hcount) hchange
  refine ⟨hagree', ?_⟩
  rcases applyLookahead_tables hlook with ⟨rfl, rfl⟩ | ⟨m, entries, hm, hentries, rfl, rfl⟩
  · exact Relation.ReflTransGen.single (.kept hagree' (fun _ _ _ => owner_change hchange) rfl rfl)
  · cases hm
    have hnew : ∀ r ∈ db.accounts, r.2.id ≠ requested.id := by
      rw [hid]
      exact (hagree.next_free hcount).2
    have hcreate := @SubStep.create env (Called env maxSubaddresses true) db user
      ⟨requested.id, requested.address, requested.key, entries, maxSubaddresses⟩ hchange hagree'
      (by rw [hsame.id]; exact hnew) hsame.id.symm hsame.address.symm hsame.key.symm
    exact Relation.ReflTransGen.single (hcreate ⟨rfl, fun _ => Or.inr ⟨(lookaheadEntries_ok hentries).2, Or.inl hnew⟩⟩)

theorem createAccountsLoop_subSteps {currentTime maxSubaddresses : Nat} : ∀ (addresses : List AccountAddress)
    {lastId : Nat} {db db' : Storage} {stored : List AccountAddress} {taken : List PublicKey},
    db.Agree env → db'.accounts.rows.length < 2 ^ 32 - 2 →
    (findLastId db.accounts + 1 < 2 ^ 32 → lastId = findLastId db.accounts) →
    (∀ k, k ∈ taken ↔ ∃ b, ((), b) ∈ db.accountsBa ∧ b.address.viewPublic = k) →
    cleanCreate env maxSubaddresses db.requests taken addresses = true →
    createAccountsLoop env currentTime maxSubaddresses lastId addresses db = .ok (db', stored) →
      SubSteps env (Called env maxSubaddresses true) db db' := by
  intro addresses
  induction addresses with
  | nil =>
    intro lastId db db' stored taken _ _ _ _ _ h
    cases h
    exact Relation.ReflTransGen.refl
  | cons address addresses ih =>
    intro lastId db db' stored taken hagree hcount hlast htaken hclean h
    unfold createAccountsLoop at h
    unfold cleanCreate at hclean
    rcases hget : db.requests.get? .create address.spendPublic with _ | info
    · simp only [hget] at h hclean
      exact ih hagree hcount hlast htaken hclean h
    · simp only [hget] at h hclean
      have hagree₀ : Storage.Agree env { db with requests := db.requests.erase .create address.spendPublic } := hagree
      refine Relation.ReflTransGen.head (.kept hagree₀ (fun _ _ _ h => h) rfl rfl) ?_
      split at h
      · cases h
      · obtain ⟨⟨user, ranges, indexes⟩, hlook, h⟩ := bind_ok.mp h
        have hsame := applyLookahead_same hlook
        have hview : user.address.viewPublic = address.viewPublic := by rw [hsame.address]; rfl
        have hkey : user.key = info.key := by rw [hsame.key]; rfl
        have hdrop : (env.secretKeyToPublicKey user.key ≠ some user.address.viewPublic ∨
            ∃ b, ((), b) ∈ db.accountsBa ∧ b.address.viewPublic = user.address.viewPublic) →
            (ranges = db.subaddressRanges ∧ indexes = db.subaddressIndexes) ∧
              cleanCreate env maxSubaddresses (db.requests.erase .create address.spendPublic) taken addresses = true := by
          intro hd
          rw [hview, hkey] at hd
          rw [if_neg fun hc => hd.elim (fun hn => hn hc.1) fun hb => hc.2 ((htaken _).mpr hb), Bool.and_eq_true_iff] at hclean
          exact ⟨applyLookahead_idle hclean.1 hlook, hclean.2⟩
        dsimp only at h
        split at h
        · rename_i db₁ hadd
          obtain ⟨⟨db₂, stored'⟩, hloop, h⟩ := bind_ok.mp h
          cases h
          have hid : findLastId db.accounts + 1 < 2 ^ 32 → user.id = findLastId db.accounts + 1 := by
            intro hlt
            rw [hsame.id, ← hlast hlt]
            exact nextId_of_lt (by rw [hlast hlt]; exact hlt)
          obtain ⟨hgood, hba, -, -, rfl⟩ := doAddAccount_ok hadd
          have hlast' := fun hlt => hsame.id.symm.trans (findLastId_put hid hlt).symm
          have hle := count_changes (@createAccountsLoop_changes env 0 [] _ _ db addresses _ _ _ _ hlast' hloop)
          have hcount₀ : db.accounts.rows.length < 2 ^ 32 - 2 :=
            lt_of_le_of_lt ((Table.length_put_le _ _ _).trans hle) hcount
          have hid₀ := hsame.id.symm.trans (hid (hagree.next_free hcount₀).1)
          obtain ⟨hagree₁, hone⟩ := added_subSteps hagree₀ hcount₀ hid₀ rfl hlook hadd
          -- the new account's public view key is taken from here on
          have hnot : address.viewPublic ∉ taken := by
            rw [htaken]
            rintro ⟨b, hb, he⟩
            exact hba b hb (he.trans hview.symm)
          rw [hview, hkey] at hgood
          rw [if_pos ⟨hgood, hnot⟩] at hclean
          refine hone.trans (ih hagree₁ hcount hlast' (fun k => ?_) hclean hloop)
          rw [List.mem_cons, htaken]
          constructor
          · rintro (rfl | ⟨b, hb, he⟩)
            · exact ⟨_, Table.mem_put_self _ _ _, hview⟩
            · exact ⟨b, Table.mem_put.mpr (Or.inr ⟨hb, fun hn => hba b hb hn.2⟩), he⟩
          · rintro ⟨b, hb, he⟩
            rcases Table.mem_put.mp hb with hb | ⟨hb, -⟩
            · cases hb
              exact Or.inl (he.symm.trans hview)
            · exact Or.inr ⟨b, hb, he⟩
        · rename_i hadd
          have hd := doAddAccount_dropped hadd (Or.inl rfl)
          obtain ⟨⟨rfl, rfl⟩, hclean'⟩ := hdrop hd
          exact ih hagree₀ hcount hlast htaken hclean' h
        · rename_i hadd
          have hd := doAddAccount_dropped hadd (Or.inr rfl)
          obtain ⟨⟨rfl, rfl⟩, hclean'⟩ := hdrop hd
          exact ih hagree₀ hcount hlast htaken hclean' h
        · cases h

/-- `update_lookahead` upserts for the account it found, and marks it past the limit. -/
theorem updateLookahead_subSteps {address : AccountAddress} {height maxSubaddresses : Nat} {fresh : AddressIndex}
    {n : Int} (hagree : db.Agree env)
    (hown : ∀ r ∈ db.accountsBa, r.2.address.viewPublic = address.viewPublic → r.2.address = address)
    (h : db.updateLookahead env address height fresh maxSubaddresses = .ok (db', n)) :
    SubSteps env (Called env maxSubaddresses ((Op.updateLookahead address height fresh maxSubaddresses).fits env db))
      db db' := by
  unfold Storage.updateLookahead at h
  obtain ⟨⟨lookup, user⟩, hf, h⟩ := bind_ok.mp h
  obtain ⟨b, hb, hview, rfl, ha, hid⟩ := findAccount_ok hf
  dsimp only at h
  split at h
  · cases h
    exact Relation.ReflTransGen.refl
  · rename_i hzero
    push Not at hzero
    have haddress : user.address = address := by
      have hrow := hagree.address_row ha hb hid.symm
      rw [← hown _ hb hview, hrow]
    have howner : Owner db user.id address user.key := ⟨_, ha, rfl, haddress, rfl⟩
    have hmark : ∀ ranges indexes, SubStep env
        (Called env maxSubaddresses ((Op.updateLookahead address height fresh maxSubaddresses).fits env db))
        { db with subaddressRanges := ranges, subaddressIndexes := indexes }
        { db with
          subaddressRanges := ranges, subaddressIndexes := indexes
          accounts := db.accounts.put b.lookup.status (user.lookaheadFailedAt height) } := by
      intro ranges indexes
      have htouch : Change env .touch db
          { db with accounts := db.accounts.put b.lookup.status (user.lookaheadFailedAt height) } :=
        .touch ha ⟨rfl, rfl, rfl, rfl, rfl⟩
      have hagree' := agree_change hagree (fun e => by cases e) htouch
      have howners : ∀ id a k, Owner db id a k → Owner _ id a k := fun _ _ _ => owner_change htouch
      exact .kept hagree' howners rfl rfl
    unfold updateLookaheadUpsert at h
    dsimp only at h
    by_cases hlooks : user.lookahead.majI ≤ uint32Max / user.lookahead.minI ∧
        user.lookahead.majI * user.lookahead.minI ≤ maxSubaddresses
    · simp only [if_pos hlooks] at h
      have hcall := @SubStep.upsert env
        (Called env maxSubaddresses ((Op.updateLookahead address height fresh maxSubaddresses).fits env db)) db
        ⟨user.id, address, user.key, lookaheadUpsertions fresh user.lookahead.majI user.lookahead.minI, maxSubaddresses⟩
        howner ⟨rfl, fun hfit => Or.inr ⟨lookaheadUpsertions_majors _ _ _, Or.inr ?_⟩⟩
      · split at h
        · cases h
          exact Relation.ReflTransGen.single hcall
        · cases h
          exact Relation.ReflTransGen.head hcall (Relation.ReflTransGen.single (hmark _ _))
        · cases h
      · unfold Op.fits at hfit
        simp only [hf] at hfit
        have hl : looks maxSubaddresses user.lookahead = true := decide_eq_true ⟨hzero.1, hzero.2, hlooks⟩
        rw [hl] at hfit
        exact hfit
    · simp only [if_neg hlooks] at h
      cases h
      exact Relation.ReflTransGen.single (hmark _ _)

/-- For the subaddress tables an operation is a sequence of steps. -/
theorem run_subSteps {op : Op} {maxSubaddresses : Nat} (hagree : db.Agree env)
    (hcount : db'.accounts.rows.length < 2 ^ 32 - 2)
    (hown : OwnCall db op) (hclean : op.clean env db = true) (hlimit : ∀ m ∈ op.limit, m = maxSubaddresses)
    (hrun : op.run env db = .ok db') : SubSteps env (Called env maxSubaddresses (op.fits env db)) db db' := by
  rcases hop : op.upserts with _ | _
  · obtain ⟨hr, hi⟩ := run_tables hop hrun
    exact Relation.ReflTransGen.single (.kept (agree_run hrun hcount hagree) (fun _ _ _ => run_owners hrun) hr hi)
  · cases op with
    | acceptRequests clock req addresses m =>
      obtain rfl := hlimit m rfl
      obtain ⟨stored, h⟩ := fst_ok hrun
      cases req with
      | create =>
        rcases acceptRequests_created h with rfl | ⟨time, hloop⟩
        · exact Relation.ReflTransGen.refl
        · refine createAccountsLoop_subSteps addresses hagree hcount (fun _ => rfl) (fun k => ?_) hclean hloop
          unfold takenKeys
          rw [List.mem_map]
          exact ⟨fun ⟨r, hr, he⟩ => ⟨r.2, hr, he⟩, fun ⟨b, hb, he⟩ => ⟨_, hb, he⟩⟩
      | importScan => exact importAccounts_subSteps addresses hagree h
    | upsertSubaddresses id address viewKey subaddrs m =>
      obtain rfl := hlimit m rfl
      obtain ⟨out, h⟩ := fst_ok hrun
      obtain ⟨hok, rfl⟩ := upsertSubaddresses_ok h
      have hcall := @SubStep.upsert env (Called env m ((Op.upsertSubaddresses id address viewKey subaddrs m).fits env db)) db
        ⟨id, address, viewKey, subaddrs.mergeSort dictLe, m⟩ (hown.subject _ rfl)
      exact Relation.ReflTransGen.single (hcall ⟨rfl, fun _ => Or.inl ⟨_, hok⟩⟩)
    | updateLookahead address height fresh m =>
      obtain rfl := hlimit m rfl
      obtain ⟨n, h⟩ := fst_ok hrun
      exact updateLookahead_subSteps hagree (hown.lookedUp _ rfl) h
    | _ => cases hop

end Steps

/-! ## Over whole runs -/

section Runs

variable {env : Env} {db : Storage}

/-- Calls for the account they name, and no request that is dropped with rows written. -/
def Careful (env : Env) (db : Storage) (op : Op) : Prop := OwnCall db op ∧ op.clean env db = true

instance (env : Env) (db : Storage) (op : Op) : Decidable (Careful env db op) :=
  inferInstanceAs (Decidable (OwnCall db op ∧ op.clean env db = true))

theorem subs_fresh (env : Env) : Subs env (fresh env) := by
  refine ⟨agree_fresh env, fun _ h => ?_, fun _ h => ?_, fun _ h => ?_⟩ <;> exact absurd h (Table.not_mem_empty _)

/-- What the steps of an operation keep, every run of such operations keeps. -/
theorem subs_invariant {ok : Storage → Op → Prop} {limit : Op → Nat} {start : Storage} {inv : Storage → Prop}
    (hok : ∀ u op, ok u op → Careful env u op ∧ ∀ m ∈ op.limit, m = limit op)
    (hstep : ∀ {u op mid mid'}, ok u op → SubStep env (Called env (limit op) (op.fits env u)) mid mid' →
      Subs env mid → inv mid → inv mid')
    (h : Steps (Op.run env) ok start db) (hcount : db.accounts.rows.length < 2 ^ 32 - 2) (hstart : Subs env start)
    (h0 : inv start) : Subs env db ∧ inv db := by
  refine h.invariant (fun u => u.accounts.rows.length < 2 ^ 32 - 2 → Subs env u ∧ inv u) (fun _ => ⟨hstart, h0⟩)
    (fun u op u' hu hop hrun hlt => ?_) hcount
  have hle := count_changes (run_changes hrun)
  obtain ⟨hsubs, hinv⟩ := hu (by omega)
  obtain ⟨⟨hown, hclean⟩, hlimit⟩ := hok u op hop
  have hsteps := run_subSteps hsubs.agree hlt hown hclean hlimit hrun
  exact hsteps.keeps (fun hs hi hone => hstep hop hone hs hi) hsubs hinv

theorem limit_getD (op : Op) : ∀ m ∈ op.limit, m = op.limit.getD 0 := by
  intro m hm
  rw [Option.mem_def.mp hm, Option.getD_some]

/-- Every row is keyed by an account and every key is derived from it. -/
structure Keyed (env : Env) (db : Storage) : Prop where
  ranges : ∀ r ∈ db.subaddressRanges, ∃ a ∈ db.accounts, a.2.id = r.1
  indexes : ∀ r ∈ db.subaddressIndexes, ∃ a ∈ db.accounts, a.2.id = r.1 ∧
    r.2.subaddress = env.getSpendPublic a.2.address a.2.key r.2.index

theorem subaddresses_keyed (h : Reached env (Careful env) db) (hcount : db.accounts.rows.length < 2 ^ 32 - 2) :
    Keyed env db := by
  obtain ⟨hsubs, -⟩ := @subs_invariant env db _ _ _ (fun _ => True) (fun _ op hop => ⟨hop, limit_getD op⟩)
    (fun _ _ _ _ => trivial) h hcount (subs_fresh env) trivial
  refine ⟨hsubs.ranges, fun r hr => ?_⟩
  obtain ⟨a, ha, he⟩ := hsubs.indexes r hr
  exact ⟨a, ha, he, (hsubs.own a ha).derived r.2 (show (a.2.id, r.2) ∈ db.subaddressIndexes from he ▸ hr)⟩

/-- An account from a request with a lookahead, more subaddresses for it, and a lookahead
    after an output. -/
def subaddressOps : List Op :=
  [.creationRequest 5 ⟨1007, 50⟩ 7 0 ⟨1, 2⟩, .acceptRequests 6 .create [⟨1007, 50⟩] 10,
    .upsertSubaddresses 1 ⟨1007, 50⟩ 7 [(3, [(1, 2)])] 10, .updateLookahead ⟨1007, 50⟩ 0 ⟨1, 0⟩ 10,
    .importRequest 7 ⟨1007, 50⟩ 0 ⟨2, 2⟩, .acceptRequests 8 .importScan [⟨1007, 50⟩] 10]

theorem subaddresses_keyed_sample : Keyed sampleEnv (Op.runs sampleEnv subaddressOps) ∧
    (Op.runs sampleEnv subaddressOps).subaddressIndexes.count 1 = 6 :=
  ⟨subaddresses_keyed (reached_runs (by decide +kernel)) (by decide +kernel), by decide +kernel⟩

def droppedOps : List Op :=
  [.creationRequest 5 ⟨1007, 50⟩ 7 0 ⟨1, 2⟩, .addAccount 6 ⟨1007, 50⟩ 7 0, .acceptRequests 7 .create [⟨1007, 50⟩] 2]

theorem dropped_request_rows : Reached sampleEnv OwnCall (Op.runs sampleEnv droppedOps) ∧
    ¬ Keyed sampleEnv (Op.runs sampleEnv droppedOps) := by
  refine ⟨reached_runs (by decide), fun h => ?_⟩
  have hrow : ∃ r ∈ (Op.runs sampleEnv droppedOps).subaddressRanges,
      ∀ a ∈ (Op.runs sampleEnv droppedOps).accounts, a.2.id ≠ r.1 := by decide
  obtain ⟨r, hr, hno⟩ := hrow
  obtain ⟨a, ha, he⟩ := h.ranges r hr
  exact hno a ha he

/-- Under one limit, no account has more index rows. -/
theorem subaddresses_limited {maxSubaddresses : Nat}
    (h : Reached env (fun u op => Careful env u op ∧ ∀ m ∈ op.limit, m = maxSubaddresses) db)
    (hcount : db.accounts.rows.length < 2 ^ 32 - 2) (id : Nat) : db.subaddressIndexes.count id ≤ maxSubaddresses := by
  have hlim : Limited maxSubaddresses (fresh env) := fun _ => Nat.zero_le _
  refine (subs_invariant (fun _ _ hop => hop) (fun _ hone hsubs hlim => ?_) h hcount (subs_fresh env) hlim).2 id
  exact (hone.mono fun _ _ hcall => hcall.1).limited hsubs hlim

theorem subaddresses_limited_sample : (Op.runs sampleEnv subaddressOps).subaddressIndexes.count 1 ≤ 10 :=
  subaddresses_limited (reached_runs (by decide +kernel)) (by decide +kernel) 1

def staleOps : List Op :=
  droppedOps ++ [.creationRequest 8 ⟨1008, 70⟩ 8 0 ⟨1, 2⟩, .acceptRequests 9 .create [⟨1008, 70⟩] 2]

theorem stale_rows_uncounted :
    Reached sampleEnv (fun db op => OwnCall db op ∧ ∀ m ∈ op.limit, m = 2) (Op.runs sampleEnv staleOps) ∧
      (∃ a ∈ (Op.runs sampleEnv staleOps).accounts, a.2.id = 2) ∧
      (Op.runs sampleEnv staleOps).subaddressIndexes.count 2 = 4 :=
  ⟨reached_runs (by decide), by decide, by decide⟩

/-- The merges of the lookaheads fit the limit as well. -/
def CarefulFits (env : Env) (db : Storage) (op : Op) : Prop := Careful env db op ∧ op.fits env db = true

instance (env : Env) (db : Storage) (op : Op) : Decidable (CarefulFits env db op) :=
  inferInstanceAs (Decidable (Careful env db op ∧ op.fits env db = true))

theorem backed_invariant {start : Storage} (h : Steps (Op.run env) (CarefulFits env) start db)
    (hcount : db.accounts.rows.length < 2 ^ 32 - 2) (hstart : Subs env start)
    (hback : ∀ id, Backed id start.subaddressRanges start.subaddressIndexes) :
    Subs env db ∧ (∀ id, Backed id db.subaddressRanges db.subaddressIndexes) ∧ Grows start db := by
  refine @subs_invariant env db _ _ start
    (fun u => (∀ id, Backed id u.subaddressRanges u.subaddressIndexes) ∧ Grows start u)
    (fun _ op hop => ⟨hop.1, limit_getD op⟩) (fun hop hone hsubs hinv => ?_) h hcount hstart ⟨hback, Grows.refl _⟩
  obtain ⟨hb, hg⟩ := (hone.mono fun _ _ hcall => hcall.2 hop.2).backed hsubs hinv.1
  exact ⟨hb, hinv.2.trans hg⟩

theorem sampleEnv_injective (address : AccountAddress) (viewKey : SecretKey) :
    Function.Injective (sampleEnv.getSpendPublic address viewKey) := by
  rintro ⟨j, k⟩ ⟨j', k'⟩ h
  have hzero : ∀ a b : Nat, (⟨a, b⟩ : AddressIndex).isZero = true ↔ a = 0 ∧ b = 0 := by
    intro a b
    simp [AddressIndex.isZero]
  have hne : ∀ a p : Nat, a ≠ a + 1 + p := by omega
  unfold Env.getSpendPublic at h
  dsimp only [sampleEnv] at h
  by_cases e : j = 0 ∧ k = 0
  · by_cases e' : j' = 0 ∧ k' = 0
    · rw [e.1, e.2, e'.1, e'.2]
    · rw [if_pos ((hzero j k).mpr e), if_neg fun hn => e' ((hzero j' k').mp hn)] at h
      exact absurd h (hne _ _)
  · by_cases e' : j' = 0 ∧ k' = 0
    · rw [if_neg fun hn => e ((hzero j k).mp hn), if_pos ((hzero j' k').mpr e')] at h
      exact absurd h.symm (hne _ _)
    · rw [if_neg fun hn => e ((hzero j k).mp hn), if_neg fun hn => e' ((hzero j' k').mp hn)] at h
      obtain ⟨rfl, rfl⟩ := Nat.pair_eq_pair.mp (Nat.add_left_cancel h)
      rfl

def fullOps : List Op :=
  [.addAccount 5 ⟨1007, 50⟩ 7 0, .upsertSubaddresses 1 ⟨1007, 50⟩ 7 [(0, [(0, 0)])] 3,
    .upsertSubaddresses 1 ⟨1007, 50⟩ 7 [(7, [(0, 1)])] 3, .importRequest 6 ⟨1007, 50⟩ 0 ⟨1, 2⟩,
        .acceptRequests 7 .importScan [⟨1007, 50⟩] 3]

end Runs

end Lws.Db
