/-
  Lws.Rest.Fulfilled — what a fulfilled import leaves in the database.

  A response that says `request_fulfilled` promises that the account is scanned from
  `from_height`, that it has the lookahead asked for unless its lookahead failed, and that
  the lookahead of the response is the stored one. `import_fulfilled_iff` says when the
  promise is kept. It is broken in two ways:
  - a request that shrinks one of the two sizes and keeps the other is fulfilled at once,
    but `shrink_lookahead` is called only when both differ;
  - `change_height` reads a zero lookahead as none: an accepted request for it leaves the
    stored lookahead, and the response says zero.
-/

import Lws.Db.HeightChange
import Lws.Rest.Handlers

namespace Lws.Rest

open Lws.Db Lws.Lmdb Lws.Rpc.Feed

/-! ## The account of an address -/

theorem getAccountAt_ok {db : Storage} {address : AccountAddress} {status : AccountStatus} {user : Db.Account} :
    getAccountAt db address = .ok (status, user) ↔
      ((), ⟨address, ⟨user.id, status⟩⟩) ∈ db.accountsBa ∧ (status, user) ∈ db.accounts := by
  unfold getAccountAt getAccount
  constructor
  · intro h
    split at h
    · cases h
    · rename_i found hfound
      obtain ⟨hba, -⟩ := Table.get?_eq_some.mp hfound
      split at h
      · cases h
      · rename_i haddress
        split at h
        · rename_i stored hstored
          cases h
          obtain ⟨hmem, hid⟩ := Table.get?_eq_some.mp hstored
          obtain rfl := not_not.mp haddress
          exact ⟨hid ▸ hba, hmem⟩
        · cases h
  · rintro ⟨hba, hmem⟩
    have hfound := Table.get?_of_mem hba
    have hstored := Table.get?_of_mem hmem
    simp only [AccountByAddress.sort] at hfound
    simp only [hfound, hstored, ne_eq, not_true, if_false]
    rfl

/-- The writers find the account that `get_account` finds. -/
theorem findAccount_of_getAccountAt {db : Storage} {address : AccountAddress} {status : AccountStatus}
    {user : Db.Account} (h : getAccountAt db address = .ok (status, user)) :
    findAccount db address = .ok (⟨user.id, status⟩, user) := by
  obtain ⟨hba, hmem⟩ := getAccountAt_ok.mp h
  exact findAccount_eq hba rfl hmem rfl

theorem openAccount_ok {env : Env} {startRead : Option ErrorCode} {creds : AccountCredentials} {db : Storage}
    {user : Db.Account} (h : openAccount env startRead creds db = .ok user) :
    env.secretKeyToPublicKey creds.key = some creds.address.viewPublic ∧
      ∃ status, status ≠ .hidden ∧ getAccountAt db creds.address = .ok (status, user) := by
  unfold openAccount Rpc.Feed.openAccount at h
  split at h
  · cases h
  · rename_i hkey
    refine ⟨not_not.mp hkey, ?_⟩
    unfold Moment.read at h
    rcases startRead with _ | e
    · rcases hget : getAccountAt db creds.address with e | ⟨status, found⟩
      · simp only [hget, bind, Except.bind, Except.map] at h
        cases h
      · simp only [hget, bind, Except.bind] at h
        split at h
        · cases h
        · rename_i hstatus
          cases h
          exact ⟨status, hstatus, rfl⟩
    · cases h

theorem getAccountAt_put {db : Storage} {address : AccountAddress} {status : AccountStatus} {user user' : Db.Account}
    (h : getAccountAt db address = .ok (status, user)) (hid : user'.id = user.id) {db' : Storage}
    (hba : db'.accountsBa = db.accountsBa) (haccounts : db'.accounts = db.accounts.put status user') :
    getAccountAt db' address = .ok (status, user') := by
  obtain ⟨hmem, -⟩ := getAccountAt_ok.mp h
  refine getAccountAt_ok.mpr ⟨?_, ?_⟩
  · rw [hba, hid]
    exact hmem
  · rw [haccounts]
    exact Table.mem_put_self _ _ _

/-! ## What the database does -/

theorem shrinkLookahead_stores {db db' : Storage} {address : AccountAddress} {lookahead : AddressIndex}
    {status : AccountStatus} {user : Db.Account} (hget : getAccountAt db address = .ok (status, user))
    (h : db.shrinkLookahead address lookahead = .ok db') :
    getAccountAt db' address = .ok (status, { user with lookahead }) := by
  obtain ⟨lookup, found, hfind, -, -, -, rfl⟩ := shrinkLookahead_ok h
  rw [findAccount_of_getAccountAt hget] at hfind
  cases hfind
  refine getAccountAt_put hget ?_ ?_ ?_ <;> rfl

/-- A lookahead that is asked for is stored, past the limit too. -/
theorem applyLookahead_stores {env : Env} {maxSubaddresses : Nat} {user user' : Db.Account} {lookahead : AddressIndex}
    {outputs : Outputs} {ranges ranges' : SubaddressRanges} {indexes indexes' : SubaddressIndexes}
    (h : applyLookahead env (some maxSubaddresses) user lookahead outputs ranges indexes = .ok (user', ranges', indexes')) :
    user'.lookahead = if lookahead.isZero then user.lookahead else lookahead := by
  unfold applyLookahead at h
  by_cases hzero : lookahead.isZero
  · simp only [hzero, if_true] at h ⊢
    cases h
    rfl
  · simp only [hzero, Bool.false_eq_true, if_false] at h ⊢
    unfold doLookaheadFor at h
    dsimp only at h
    split at h
    · rename_i hresult
      split at hresult
      · cases hresult
        cases h
        rfl
      · cases hresult
      · cases hresult
        cases h
        rfl
    · cases h

/-- An accepted import lowers the heights, and stores the lookahead unless it is zero. -/
theorem import_accepted {env : Env} {clock : Int} {maxSubaddresses : Nat} {db db₁ db' : Storage}
    {address : AccountAddress} {height : Nat} {lookahead : AddressIndex} {status : AccountStatus} {user : Db.Account}
    {updated : List AccountAddress} (hget : getAccountAt db address = .ok (status, user))
    (hfile : db.importRequest clock address height lookahead = .ok db₁)
    (h : db₁.acceptRequests env clock .importScan [address] maxSubaddresses = .ok (db', updated)) :
    ∃ user', getAccountAt db' address = .ok (status, user') ∧ user'.startHeight = min height user.startHeight ∧
      user'.lookahead = if lookahead.isZero then user.lookahead else lookahead := by
  obtain ⟨requests, hput, rfl⟩ := importRequest_files hfile
  obtain ⟨-, rfl⟩ := putNewOr_ok.mp hput
  unfold Storage.acceptRequests importAccounts at h
  have hinfo := Table.get?_of_mem (Table.mem_put_self db.requests .importScan ⟨address, 0, height, 0, 0, lookahead⟩)
  simp only [RequestInfo.sort] at hinfo
  simp only [hinfo] at h
  obtain ⟨hba, hmem⟩ := getAccountAt_ok.mp hget
  split at h
  · rename_i db₂ hchange
    simp only [importAccounts, bind, Except.bind] at h
    cases h
    obtain ⟨b, a, a', l, spends, images, ranges, indexes, hb, hview, ha, hid, -, -, -, hlook, rfl⟩ :=
      changeHeight_ok hchange
    obtain rfl := Table.unique_val hba hb hview.symm
    obtain rfl := Table.unique_val hmem ha hid.symm
    have hstores := applyLookahead_stores hlook
    have hsame := applyLookahead_same hlook
    exact ⟨a', getAccountAt_put hget hsame.id rfl rfl, hsame.startHeight, hstores⟩
  · rename_i hchange
    have hnone := changeHeight_notFound hchange
    rw [lookupId_eq hba rfl] at hnone
    cases hnone
  · cases h

/-! ## The promise -/

/-- What a response that says `request_fulfilled` promises of the stored account. -/
structure Promised (req : ImportRequest) (response : ImportResponse) (user : Db.Account) : Prop where
  depth : user.startHeight ≤ req.fromHeight
  looked : user.lookaheadFail = 0 → user.lookahead = req.lookahead
  told : response.lookahead = user.lookahead

/-- The lookahead asked for is smaller in one of the two sizes and the same in the other. -/
def ShrinksOne (req : ImportRequest) (user : Db.Account) : Prop :=
  (req.lookahead.majI < user.lookahead.majI ∧ req.lookahead.minI = user.lookahead.minI) ∨
    (req.lookahead.majI = user.lookahead.majI ∧ req.lookahead.minI < user.lookahead.minI)

/-- The requests whose response and database drift apart: one size is shrunk and nothing is
    left to do, or a zero lookahead is left to an import that does not store it. -/
def Drifts (req : ImportRequest) (user : Db.Account) : Prop :=
  (user.lookaheadFail = 0 ∧ ShrinksOne req user ∧ user.startHeight ≤ req.fromHeight) ∨
    (req.lookahead = ⟨0, 0⟩ ∧ user.lookahead ≠ ⟨0, 0⟩ ∧
      (user.lookaheadFail ≠ 0 ∨ (ShrinksOne req user ∧ req.fromHeight < user.startHeight)))

section Handle

variable {env : Env} {options : Options} {clock : Int} {startRead : Option ErrorCode} {req : ImportRequest}
  {db db' : Storage} {status : AccountStatus} {user : Db.Account} {state state' : ImportState}

theorem expandedDepth_eq : expandedDepth req user = true ↔ req.fromHeight < user.startHeight := by
  simp [expandedDepth]

theorem sizes_eq {a b : AddressIndex} : a = b ↔ a.majI = b.majI ∧ a.minI = b.minI := by
  rcases a with ⟨_, _⟩
  rcases b with ⟨_, _⟩
  simp

theorem changeLookahead_eq : changeLookahead req user = false ↔ user.lookahead = req.lookahead := by
  simp [changeLookahead, sizes_eq]

/-- The five ways through the part with the reader open. -/
inductive Decided (req : ImportRequest) (user : Db.Account) (status : AccountStatus) (db db' : Storage) :
    ImportState → Prop
  | same : user.startHeight ≤ req.fromHeight → user.lookahead = req.lookahead → user.lookaheadFail = 0 → db' = db →
      Decided req user status db db' ⟨false, true, user.lookahead⟩
  | pending : Decided req user status db db' ⟨false, false, user.lookahead⟩
  | shrunk : user.lookaheadFail = 0 → req.lookahead.majI < user.lookahead.majI →
      req.lookahead.minI < user.lookahead.minI →
      getAccountAt db' req.creds.address = .ok (status, { user with lookahead := req.lookahead }) →
      Decided req user status db db' ⟨expandedDepth req user, !expandedDepth req user, req.lookahead⟩
  | kept : user.lookaheadFail = 0 → (ShrinksOne req user ∨ user.lookahead = req.lookahead) →
      (req.fromHeight < user.startHeight ∨ user.lookahead ≠ req.lookahead) → db' = db →
      Decided req user status db db' ⟨expandedDepth req user, !expandedDepth req user, user.lookahead⟩
  | grown : ¬ (user.lookaheadFail = 0 ∧ req.lookahead.majI ≤ user.lookahead.majI ∧
      req.lookahead.minI ≤ user.lookahead.minI) → db' = db →
      Decided req user status db db' ⟨true, false, user.lookahead⟩

theorem importDecide_ok (hget : getAccountAt db req.creds.address = .ok (status, user))
    (h : importDecide req user db = (db', .ok state)) : Decided req user status db db' state := by
  unfold importDecide at h
  simp only at h
  split at h
  · rename_i hsame
    cases h
    simp only [Bool.and_eq_true, Bool.not_eq_true', bne_eq_false_iff_eq] at hsame
    obtain ⟨⟨hdepth, hlook⟩, hfail⟩ := hsame
    refine .same ?_ (changeLookahead_eq.mp hlook) hfail rfl
    simpa [expandedDepth] using hdepth
  · rename_i hsame
    split at h
    · cases h
      exact .pending
    · split at h
      · rename_i hfits
        obtain ⟨hfail, hmaj, hmin⟩ := hfits
        simp only [bne_eq_false_iff_eq] at hfail
        split at h
        · rename_i hdiffer
          split at h
          · cases h
          · rename_i db₁ hshrink
            cases h
            rw [Bool.not_not]
            exact .shrunk hfail (by omega) (by omega) (shrinkLookahead_stores hget hshrink)
        · rename_i hdiffer
          cases h
          rw [Bool.not_not]
          refine .kept hfail ?_ ?_ rfl
          · rw [ShrinksOne, sizes_eq]
            omega
          · by_contra hneither
            obtain ⟨hdepth, hlook⟩ := not_or.mp hneither
            refine hsame ?_
            simp [hfail, changeLookahead_eq.mpr (not_not.mp hlook), expandedDepth, not_lt.mp hdepth]
      · rename_i hfits
        cases h
        exact .grown (by simpa using hfits) rfl

/-- A fulfilled import was so before the queue, or it was filed and accepted. -/
theorem importQueue_fulfilled (hget : getAccountAt db req.creds.address = .ok (status, user))
    (hnew : state.newRequest = true → state.fulfilled = false)
    (h : importQueue env options clock req state db = (db', .ok state')) (hful : state'.fulfilled = true) :
    (state.newRequest = false ∧ state' = state ∧ db' = db) ∨
      (state.newRequest = true ∧ state'.lookahead = req.lookahead ∧ ∃ user',
        getAccountAt db' req.creds.address = .ok (status, user') ∧
        user'.startHeight = min req.fromHeight user.startHeight ∧
        user'.lookahead = if req.lookahead.isZero then user.lookahead else req.lookahead) := by
  unfold importQueue at h
  split at h
  · rename_i hreq
    split at h
    · cases h
    · rename_i db₁ hfile
      split at h
      · split at h
        · cases h
          simp [hnew hreq] at hful
        · rename_i db₂ updated haccept
          cases h
          exact Or.inr ⟨hreq, rfl, import_accepted hget hfile haccept⟩
      · cases h
        simp [hnew hreq] at hful
  · rename_i hreq
    cases h
    exact Or.inl ⟨by simpa using hreq, rfl, rfl⟩

theorem importRequest_ok {response : ImportResponse}
    (h : importRequest env options clock startRead req db = (db', .ok response)) :
    ∃ status user db₁ state state', getAccountAt db req.creds.address = .ok (status, user) ∧
      Decided req user status db db₁ state ∧ importQueue env options clock req state db₁ = (db', .ok state') ∧
      response = state'.response := by
  unfold importRequest at h
  split at h
  · cases h
  · rename_i user hopen
    obtain ⟨-, status, -, hget⟩ := openAccount_ok hopen
    split at h
    · split at h
      · cases h
      · rename_i db₁ state hdecide
        split at h
        · cases h
        · rename_i db₂ state' hqueue
          cases h
          exact ⟨status, user, db₁, state, state', hget, importDecide_ok hget hdecide, hqueue, rfl⟩
    · cases h

theorem isZero_iff {i : AddressIndex} : i.isZero = true ↔ i = ⟨0, 0⟩ := by
  simp [AddressIndex.isZero, sizes_eq]

/-- After an accepted import the promise is kept unless a zero lookahead was asked for and
    another is stored. -/
theorem promised_accepted {response : ImportResponse} {user' : Db.Account}
    (hresponse : response.lookahead = req.lookahead) (hstart : user'.startHeight = min req.fromHeight user.startHeight)
    (hlook : user'.lookahead = if req.lookahead.isZero then user.lookahead else req.lookahead) :
    Promised req response user' ↔ (req.lookahead = ⟨0, 0⟩ → user.lookahead = ⟨0, 0⟩) := by
  have hdepth : user'.startHeight ≤ req.fromHeight := hstart ▸ min_le_left _ _
  by_cases hzero : req.lookahead = ⟨0, 0⟩
  · rw [if_pos (isZero_iff.mpr hzero)] at hlook
    constructor
    · intro h _
      rw [← hlook, ← h.told, hresponse, hzero]
    · intro h
      have hsame : user'.lookahead = req.lookahead := by rw [hlook, h hzero, hzero]
      exact ⟨hdepth, fun _ => hsame, hresponse.trans hsame.symm⟩
  · rw [if_neg (fun h => hzero (isZero_iff.mp h))] at hlook
    exact ⟨fun _ h => absurd h hzero, fun _ => ⟨hdepth, fun _ => hlook, hresponse.trans hlook.symm⟩⟩

/-- A fulfilled import keeps its promise if and only if the request is none of those that
    drift. -/
theorem import_fulfilled_iff {response : ImportResponse}
    (h : importRequest env options clock startRead req db = (db', .ok response))
    (hful : response.requestFulfilled = true) :
    ∃ status user user', getAccountAt db req.creds.address = .ok (status, user) ∧
      getAccountAt db' req.creds.address = .ok (status, user') ∧ (Promised req response user' ↔ ¬ Drifts req user) := by
  obtain ⟨status, user, db₁, state, state', hget, hdecided, hqueue, rfl⟩ := importRequest_ok h
  replace hful : state'.fulfilled = true := hful
  refine ⟨status, user, ?_⟩
  cases hdecided with
  | same hdepth hlook hfail hdb =>
    subst hdb
    rcases importQueue_fulfilled hget (fun hn => by cases hn) hqueue hful with ⟨-, rfl, rfl⟩ | ⟨hn, -⟩
    · refine ⟨user, hget, hget, iff_of_true ⟨hdepth, fun _ => hlook, rfl⟩ ?_⟩
      simp only [Drifts, ShrinksOne, ne_eq, sizes_eq] at hlook ⊢
      omega
    · cases hn
  | pending =>
    unfold importQueue at hqueue
    cases hqueue
    cases hful
  | shrunk hfail hmaj hmin hget₁ =>
    rcases importQueue_fulfilled hget₁ (fun hn => by simpa using hn) hqueue hful with
      ⟨hn, rfl, rfl⟩ | ⟨hn, hresponse, user', hget', hstart, hlook⟩
    · have hdepth : user.startHeight ≤ req.fromHeight := by simpa [expandedDepth] using hn
      refine ⟨_, hget, hget₁, iff_of_true ⟨hdepth, fun _ => rfl, rfl⟩ ?_⟩
      simp only [Drifts, ShrinksOne, ne_eq, sizes_eq]
      omega
    · have hdepth := expandedDepth_eq.mp hn
      refine ⟨user', hget, hget', (promised_accepted hresponse hstart hlook).trans (iff_of_true id ?_)⟩
      simp only [Drifts, ShrinksOne, ne_eq, sizes_eq]
      omega
  | kept hfail hshrinks hasks hdb =>
    subst hdb
    rcases importQueue_fulfilled hget (fun hn => by simpa using hn) hqueue hful with
      ⟨hn, rfl, rfl⟩ | ⟨hn, hresponse, user', hget', hstart, hlook⟩
    · -- fulfilled at once, and the stored lookahead is still the larger one
      have hdepth : user.startHeight ≤ req.fromHeight := by simpa [expandedDepth] using hn
      have hdiffers := hasks.resolve_left (not_lt.mpr hdepth)
      refine ⟨user, hget, hget, iff_of_false (fun hp => hdiffers (hp.looked hfail)) ?_⟩
      exact not_not.mpr (Or.inl ⟨hfail, hshrinks.resolve_right hdiffers, hdepth⟩)
    · have hdepth := expandedDepth_eq.mp hn
      refine ⟨user', hget, hget', (promised_accepted hresponse hstart hlook).trans ?_⟩
      simp only [Drifts, ShrinksOne, ne_eq, sizes_eq] at hshrinks ⊢
      omega
  | grown hgrown hdb =>
    subst hdb
    rcases importQueue_fulfilled hget (fun _ => rfl) hqueue hful with ⟨hn, -⟩ | ⟨-, hresponse, user', hget', hstart, hlook⟩
    · cases hn
    · refine ⟨user', hget, hget', (promised_accepted hresponse hstart hlook).trans ?_⟩
      simp only [Drifts, ShrinksOne, ne_eq, sizes_eq]
      omega

end Handle

def lookedOps : List Op :=
  [.addAccount 5 ⟨1007, 50⟩ 7 0, .importRequest 6 ⟨1007, 50⟩ 0 ⟨3, 4⟩, .acceptRequests 6 .importScan [⟨1007, 50⟩] 20]

def lookedRequest (lookahead : AddressIndex) : ImportRequest := ⟨⟨⟨1007, 50⟩, 7⟩, 0, lookahead⟩

def lookedAnswer (lookahead : AddressIndex) : Option (ImportResponse × AccountStatus × Db.Account) :=
  match importRequest sampleEnv ⟨20, true⟩ 7 none (lookedRequest lookahead) (Op.runs sampleEnv lookedOps) with
  | (db', .ok response) =>
    match getAccountAt db' ⟨1007, 50⟩ with
    | .ok (status, user) => some (response, status, user)
    | .error _ => none
  | (_, .error _) => none

theorem lookedAnswer_ok {lookahead : AddressIndex} {response : ImportResponse} {status : AccountStatus}
    {user : Db.Account} (h : lookedAnswer lookahead = some (response, status, user)) :
    ∃ db', importRequest sampleEnv ⟨20, true⟩ 7 none (lookedRequest lookahead) (Op.runs sampleEnv lookedOps) =
        (db', .ok response) ∧ getAccountAt db' ⟨1007, 50⟩ = .ok (status, user) := by
  unfold lookedAnswer at h
  split at h
  · rename_i db' response' hok
    split at h
    · rename_i status' user' hget
      cases h
      exact ⟨db', hok, hget⟩
    · cases h
  · cases h

def lookedAccount (lookahead : AddressIndex) : Db.Account := ⟨1, 5, ⟨1007, 50⟩, 7, 0, 0, 5, 0, lookahead, 0⟩

theorem lookedOps_account :
    getAccountAt (Op.runs sampleEnv lookedOps) ⟨1007, 50⟩ = .ok (.active, lookedAccount ⟨3, 4⟩) :=
  getAccountAt_ok.mpr ⟨by decide +kernel, by decide +kernel⟩

/-- Shrinking both sizes is fulfilled at once. -/
theorem import_fulfilled_both :
    ∃ db' user', importRequest sampleEnv ⟨20, true⟩ 7 none (lookedRequest ⟨2, 2⟩) (Op.runs sampleEnv lookedOps) =
        (db', .ok ⟨0, "Approved", ⟨2, 2⟩, false, true⟩) ∧
      getAccountAt db' ⟨1007, 50⟩ = .ok (.active, user') ∧
      Promised (lookedRequest ⟨2, 2⟩) ⟨0, "Approved", ⟨2, 2⟩, false, true⟩ user' := by
  have hrun : lookedAnswer ⟨2, 2⟩ =
      some (⟨0, "Approved", ⟨2, 2⟩, false, true⟩, .active, lookedAccount ⟨2, 2⟩) := by decide +kernel
  obtain ⟨db', hok, -⟩ := lookedAnswer_ok hrun
  obtain ⟨status, user, user', hget, hget', hiff⟩ := import_fulfilled_iff hok rfl
  rw [show getAccountAt (Op.runs sampleEnv lookedOps) (lookedRequest ⟨2, 2⟩).creds.address =
    .ok (.active, lookedAccount ⟨3, 4⟩) from lookedOps_account] at hget
  cases hget
  exact ⟨db', user', hok, hget', hiff.mpr (by simp [Drifts, ShrinksOne, lookedRequest, lookedAccount])⟩

/-- Shrinking one is said to be fulfilled too, and the account keeps the lookahead it had. -/
theorem one_size_not_shrunk :
    ∃ db' user', importRequest sampleEnv ⟨20, true⟩ 7 none (lookedRequest ⟨2, 4⟩) (Op.runs sampleEnv lookedOps) =
        (db', .ok ⟨0, "Approved", ⟨3, 4⟩, false, true⟩) ∧
      getAccountAt db' ⟨1007, 50⟩ = .ok (.active, user') ∧ user'.lookaheadFail = 0 ∧ user'.lookahead = ⟨3, 4⟩ ∧
      ¬ Promised (lookedRequest ⟨2, 4⟩) ⟨0, "Approved", ⟨3, 4⟩, false, true⟩ user' := by
  have hrun : lookedAnswer ⟨2, 4⟩ =
      some (⟨0, "Approved", ⟨3, 4⟩, false, true⟩, .active, lookedAccount ⟨3, 4⟩) := by decide +kernel
  obtain ⟨db', hok, hget⟩ := lookedAnswer_ok hrun
  refine ⟨db', lookedAccount ⟨3, 4⟩, hok, hget, rfl, rfl, fun hp => ?_⟩
  exact absurd (hp.looked rfl) (by decide)

end Lws.Rest
