/-
  Lws.Db.AccountsProofs — what the account functions of `Lws.Db.Accounts` read and
  write, when they succeed: `findLastId_le`, `lastHeight_ok`, `findAccount_ok`,
  `changeStatusOf_ok`, `doAddAccount_ok`, `changeHeight_ok`, `creationRequest_files`,
  `importRequest_files`, `acceptRequests_created`, `shrinkLookahead_ok`,
  `upsertSubaddresses_ok`, `updateLookahead_cases`. Nothing here assumes that the tables
  agree with each other.
-/

import Lws.Db.ChainProofs
import Lws.Db.Accounts

namespace Lws.Db

open Lws.Lmdb

/-! ## The last id and the last height -/

/-- The walk over the last account of each status finds the largest id. -/
theorem findLastIdLoop_spec : ∀ (n best : Nat) (cur : Cursor AccountStatus Account.id), cur.gone = none →
    cur.pos < cur.table.rows.length → cur.table.rows.length ≤ cur.pos + n →
      best ≤ findLastIdLoop n best cur ∧ (∀ x ∈ cur.table.rows.drop cur.pos, x.2.id ≤ findLastIdLoop n best cur) ∧
        (findLastIdLoop n best cur = best ∨ ∃ x ∈ cur.table, x.2.id = findLastIdLoop n best cur) := by
  intro n
  induction n with
  | zero => intro best cur _ h1 h2; omega
  | succ n ih =>
    intro best cur hg hpos hn
    have hrow : cur.row? = some cur.table.rows[cur.pos] := List.getElem?_eq_getElem hpos
    obtain ⟨run, rest, last, hsplit, hmem, hlast, hrun, -, hnext⟩ := Table.lastDup_run hg hrow
    have hlastin : last ∈ cur.table :=
      List.mem_of_mem_drop (i := cur.pos) (by rw [hsplit]; exact List.mem_append_left _ hmem)
    unfold findLastIdLoop
    simp only [hlast, hnext]
    by_cases e : rest = []
    · subst e
      simp only [if_true]
      refine ⟨Nat.le_max_left _ _, fun x hx => ?_, ?_⟩
      · rw [hsplit, List.append_nil] at hx
        exact (hrun x hx).2.trans (Nat.le_max_right _ _)
      · rcases Nat.le_total last.2.id best with h | h
        · exact Or.inl (Nat.max_eq_left h)
        · exact Or.inr ⟨last, hlastin, (Nat.max_eq_right h).symm⟩
    · simp only [if_neg e]
      have hlen := congrArg List.length hsplit
      rw [List.length_drop, List.length_append] at hlen
      have hrest : 0 < rest.length := List.length_pos_of_ne_nil e
      have hrunpos : 0 < run.length := List.length_pos_of_mem hmem
      obtain ⟨h1, h2, h3⟩ := ih (max best last.2.id) ⟨cur.table, cur.pos + run.length, none⟩ rfl
        (by show cur.pos + run.length < cur.table.rows.length; omega)
        (by show cur.table.rows.length ≤ cur.pos + run.length + n; omega)
      refine ⟨(Nat.le_max_left _ _).trans h1, fun x hx => ?_, ?_⟩
      · rw [hsplit, List.mem_append] at hx
        rcases hx with hx | hx
        · exact ((hrun x hx).2.trans (Nat.le_max_right _ _)).trans h1
        · refine h2 x ?_
          show x ∈ cur.table.rows.drop (cur.pos + run.length)
          rw [← List.drop_drop, hsplit]; simpa using hx
      · rcases h3 with h3 | h3
        · rcases Nat.le_total last.2.id best with h | h
          · exact Or.inl (h3.trans (Nat.max_eq_left h))
          · exact Or.inr ⟨last, hlastin, (h3.trans (Nat.max_eq_right h)).symm⟩
        · exact Or.inr h3

theorem findLastId_spec (accounts : Accounts) :
    (∀ x ∈ accounts, x.2.id ≤ findLastId accounts) ∧
      (findLastId accounts = 0 ∨ ∃ x ∈ accounts, x.2.id = findLastId accounts) := by
  unfold findLastId
  by_cases e : 0 < accounts.rows.length
  · have hfirst : accounts.first = some ⟨accounts, 0, none⟩ := by simp [Table.first, Cursor.goto, e]
    rw [hfirst]
    obtain ⟨-, h2, h3⟩ := findLastIdLoop_spec accounts.rows.length 0 ⟨accounts, 0, none⟩ rfl e (by simp)
    exact ⟨fun x hx => h2 x (by simpa using hx), h3⟩
  · have hnil : accounts.rows = [] := List.eq_nil_of_length_eq_zero (by omega)
    have hfirst : accounts.first = none := by simp [Table.first, Cursor.goto, hnil]
    rw [hfirst]
    refine ⟨fun x hx => ?_, Or.inl rfl⟩
    rw [← Table.mem_rows, hnil] at hx
    cases hx

theorem lastHeight_ok {blocks : Blocks} {height : Nat} (h : lastHeight blocks = .ok height) :
    (∃ b ∈ blocks, b.2.id = height) ∧ ∀ b ∈ blocks, b.2.id ≤ height := by
  unfold lastHeight at h
  split at h
  · cases h
  · rename_i cur hc
    obtain ⟨-, -, last, hlast, hmem, hmax⟩ := lastDup_row hc
    rw [hlast] at h
    cases h
    exact ⟨⟨last, hmem, rfl⟩, hmax⟩

/-! ## Finding and changing accounts -/

theorem findAccount_ok {db : Storage} {address : AccountAddress} {lookup : AccountLookup} {user : Account}
    (h : findAccount db address = .ok (lookup, user)) :
    ∃ b, ((), b) ∈ db.accountsBa ∧ b.address.viewPublic = address.viewPublic ∧ lookup = b.lookup ∧
      (b.lookup.status, user) ∈ db.accounts ∧ user.id = b.lookup.id := by
  unfold findAccount at h
  split at h
  · cases h
  · rename_i b hb
    obtain ⟨user', hu, h⟩ := bind_ok.mp h
    cases h
    obtain ⟨hm, hs⟩ := Table.get?_eq_some.mp hb
    obtain ⟨hu1, hu2⟩ := require_ok.mp hu
    exact ⟨b, hm, hs, rfl, hu1, hu2⟩

theorem findAccount_eq {db : Storage} {b : AccountByAddress} {a : Account} {address : AccountAddress}
    (hb : ((), b) ∈ db.accountsBa) (hview : b.address.viewPublic = address.viewPublic)
    (ha : (b.lookup.status, a) ∈ db.accounts) (hid : a.id = b.lookup.id) :
    findAccount db address = .ok (b.lookup, a) := by
  unfold findAccount
  rw [Table.get?_eq_some.mpr ⟨hb, hview⟩]
  dsimp only
  rw [require_ok.mpr ⟨ha, hid⟩]
  rfl

def moved (b : AccountByAddress) (a : Account) (status : AccountStatus) (db : Storage) : Storage :=
  { db with
    accounts := (db.accounts.erase b.lookup.status b.lookup.id).put status a
    accountsBa := db.accountsBa.put () { b with lookup := { b.lookup with status } }
    accountsBh := db.accountsBh.put a.scanHeight { b.lookup with status } }

theorem changeStatusOf_ok {status : AccountStatus} {address : AccountAddress} {db db' : Storage}
    {changed : List AccountAddress} (h : changeStatusOf status address db = .ok (db', changed)) :
    db' = db ∨ ∃ b a l, ((), b) ∈ db.accountsBa ∧ b.address.viewPublic = address.viewPublic ∧
      b.lookup.status ≠ status ∧ (b.lookup.status, a) ∈ db.accounts ∧
      a.id = b.lookup.id ∧ (a.scanHeight, l) ∈ db.accountsBh ∧ l.id = a.id ∧
      (∀ x, (status, x) ∈ db.accounts → x.id ≠ a.id) ∧ db' = moved b a status db := by
  unfold changeStatusOf at h
  split at h
  · cases h
    exact Or.inl rfl
  · rename_i b hb
    obtain ⟨hm, hview⟩ := Table.get?_eq_some.mp hb
    by_cases e : b.lookup.status = status
    · simp only [e, ne_eq, not_true, if_false] at h
      cases h
      exact Or.inl rfl
    · simp only [ne_eq, e, not_false_eq_true, if_true] at h
      obtain ⟨a, ha, h⟩ := bind_ok.mp h
      obtain ⟨ha1, ha2⟩ := require_ok.mp ha
      obtain ⟨accounts, hput, h⟩ := bind_ok.mp h
      obtain ⟨hfree, rfl⟩ := putNewOr_ok.mp hput
      obtain ⟨l, hl, h⟩ := bind_ok.mp h
      obtain ⟨hl1, hl2⟩ := require_ok.mp hl
      cases h
      refine Or.inr ⟨b, a, l, hm, hview, e, ha1, ha2, hl1, hl2, fun x hx he => ?_, rfl⟩
      exact hfree x (Table.mem_erase.mpr ⟨hx, fun hc => e hc.1.symm⟩) he

def newStatus (user : Account) : AccountStatus := if user.flags = adminAccount then .hidden else .active

def added (user : Account) (db : Storage) : Storage :=
  { db with
    accounts := db.accounts.put (newStatus user) user
    accountsBa := db.accountsBa.put () ⟨user.address, ⟨user.id, newStatus user⟩⟩
    accountsBh := db.accountsBh.put user.scanHeight ⟨user.id, newStatus user⟩ }

theorem doAddAccount_ok {env : Env} {user : Account} {db db' : Storage} (h : doAddAccount env user db = .ok db') :
    env.secretKeyToPublicKey user.key = some user.address.viewPublic ∧
      (∀ b, ((), b) ∈ db.accountsBa → b.address.viewPublic ≠ user.address.viewPublic) ∧
      (∀ l, (user.scanHeight, l) ∈ db.accountsBh → l.id ≠ user.id) ∧
      (∀ x, (newStatus user, x) ∈ db.accounts → x.id ≠ user.id) ∧ db' = added user db := by
  unfold doAddAccount at h
  split at h
  · cases h
  · rename_i hkey
    obtain ⟨ba, h1, h⟩ := bind_ok.mp h
    obtain ⟨bh, h2, h⟩ := bind_ok.mp h
    obtain ⟨accounts, h3, h⟩ := bind_ok.mp h
    obtain ⟨hf1, rfl⟩ := putNewOr_ok.mp h1
    obtain ⟨hf2, rfl⟩ := putNewOr_ok.mp h2
    obtain ⟨hf3, rfl⟩ := putNewOr_ok.mp h3
    cases h
    exact ⟨not_not.mp hkey, hf1, hf2, hf3, rfl⟩

/-! ## Changing the height -/

/-- What an account keeps when only its times, flags or lookahead are written. -/
structure Account.Same (a a' : Account) : Prop where
  id : a'.id = a.id
  address : a'.address = a.address
  key : a'.key = a.key
  scanHeight : a'.scanHeight = a.scanHeight
  startHeight : a'.startHeight = a.startHeight

theorem Account.Same.refl (a : Account) : a.Same a := ⟨rfl, rfl, rfl, rfl, rfl⟩

theorem doLookaheadFor_same {env : Env} {user user' : Account} {lookahead : AddressIndex} {maxSubaddresses : Nat}
    {outputs : Outputs} {ranges : SubaddressRanges} {indexes : SubaddressIndexes}
    (h : (doLookaheadFor env user lookahead maxSubaddresses outputs ranges indexes).result = .ok user') :
    user.Same user' := by
  unfold doLookaheadFor at h
  simp only at h
  split at h
  · cases h
    exact ⟨rfl, rfl, rfl, rfl, rfl⟩
  · cases h
  · cases h
    exact ⟨rfl, rfl, rfl, rfl, rfl⟩

theorem applyLookahead_ok {env : Env} {limit : Option Nat} {user user' : Account} {lookahead : AddressIndex}
    {outputs : Outputs} {ranges ranges' : SubaddressRanges} {indexes indexes' : SubaddressIndexes}
    (h : applyLookahead env limit user lookahead outputs ranges indexes = .ok (user', ranges', indexes')) :
    (user' = user ∧ ranges' = ranges ∧ indexes' = indexes) ∨
      ∃ maxSubaddresses, limit = some maxSubaddresses ∧ lookahead.isZero = false ∧
        doLookaheadFor env user lookahead maxSubaddresses outputs ranges indexes = ⟨ranges', indexes', .ok user'⟩ := by
  unfold applyLookahead at h
  split at h
  · cases h
    exact Or.inl ⟨rfl, rfl, rfl⟩
  · rename_i maxSubaddresses
    split at h
    · cases h
      exact Or.inl ⟨rfl, rfl, rfl⟩
    · rename_i hz
      simp only at h
      split at h
      · rename_i user'' hr
        cases h
        refine Or.inr ⟨maxSubaddresses, rfl, Bool.not_eq_true _ ▸ hz, ?_⟩
        rw [← hr]
      · cases h

theorem applyLookahead_same {env : Env} {limit : Option Nat} {user user' : Account} {lookahead : AddressIndex}
    {outputs : Outputs} {ranges ranges' : SubaddressRanges} {indexes indexes' : SubaddressIndexes}
    (h : applyLookahead env limit user lookahead outputs ranges indexes = .ok (user', ranges', indexes')) :
    user.Same user' := by
  rcases applyLookahead_ok h with ⟨rfl, -, -⟩ | ⟨_, -, -, hr⟩
  · exact Account.Same.refl _
  · exact doLookaheadFor_same (congrArg Upsert.result hr)

/-- The database after the account of `b` went back to `height`. -/
def lowered (b : AccountByAddress) (a a' : Account) (height : Nat) (spends : Spends) (images : Images) (db : Storage) :
    Storage :=
  { db with
    accounts := db.accounts.put b.lookup.status a'
    accountsBh := (db.accountsBh.erase a.scanHeight a.id).put (min height a.scanHeight) b.lookup
    outputs := db.outputs.filter fun r => !outputAbove a.id height r
    spends, images }

theorem changeHeight_ok {env : Env} {height : Nat} {address : AccountAddress} {lookahead : AddressIndex}
    {limit : Option Nat} {db db' : Storage} (h : changeHeight env height address lookahead limit db = .ok db') :
    ∃ b a a' l spends images ranges indexes, ((), b) ∈ db.accountsBa ∧
      b.address.viewPublic = address.viewPublic ∧ (b.lookup.status, a) ∈ db.accounts ∧ a.id = b.lookup.id ∧
      rollbackSpends a.id height db.spends db.images = .ok (spends, images) ∧
      (a.scanHeight, l) ∈ db.accountsBh ∧ l.id = a.id ∧
      applyLookahead env limit (a.lowered height) lookahead (db.outputs.filter fun r => !outputAbove a.id height r)
        db.subaddressRanges db.subaddressIndexes = .ok (a', ranges, indexes) ∧
      db' = { lowered b a a' height spends images db with subaddressRanges := ranges, subaddressIndexes := indexes } := by
  unfold changeHeight at h
  obtain ⟨⟨lookup, a⟩, hfind, h⟩ := bind_ok.mp h
  obtain ⟨b, hb, hview, rfl, ha, hid⟩ := findAccount_ok hfind
  obtain ⟨outputs, ho, h⟩ := bind_ok.mp h
  rw [rollbackOutputs_eq] at ho
  cases ho
  obtain ⟨⟨spends, images⟩, hs, h⟩ := bind_ok.mp h
  obtain ⟨⟨a', ranges, indexes⟩, hlook, h⟩ := bind_ok.mp h
  have hid' : a'.id = a.id := (applyLookahead_same hlook).id
  obtain ⟨l, hl, h⟩ := bind_ok.mp h
  obtain ⟨hl1, hl2⟩ := require_ok.mp hl
  obtain ⟨bh, hput, h⟩ := bind_ok.mp h
  obtain ⟨-, rfl⟩ := putNewOr_ok.mp hput
  cases h
  refine ⟨b, a, a', l, spends, images, ranges, indexes, hb, hview, ha, hid, hs, hl1, hl2.trans hid', hlook, ?_⟩
  rw [lowered, hid']; rfl

/-! ## Requests, lookahead and ranges -/

theorem creationRequest_files {env : Env} {clock : Int} {address : AccountAddress} {key : SecretKey} {flags : Nat}
    {lookahead : AddressIndex} {hooks : List WebhookNewAccount} {db db' : Storage}
    (h : db.creationRequest env clock address key flags lookahead = .ok (db', hooks)) :
    ∃ height time requests, putNewOr .duplicateRequest db.requests .create ⟨address, key, height, time, flags, lookahead⟩ =
      .ok requests ∧ db' = { db with requests } := by
  unfold Storage.creationRequest at h
  split at h
  · cases h
  · obtain ⟨time, -, h⟩ := bind_ok.mp h
    split at h
    · cases h
    · dsimp only at h
      split at h
      · cases h
      · obtain ⟨height, -, h⟩ := bind_ok.mp h
        obtain ⟨requests, hput, h⟩ := bind_ok.mp h
        cases h
        exact ⟨height, time, requests, hput, rfl⟩

theorem importRequest_files {clock : Int} {address : AccountAddress} {height : Nat} {lookahead : AddressIndex}
    {db db' : Storage} (h : db.importRequest clock address height lookahead = .ok db') :
    ∃ requests, putNewOr .duplicateRequest db.requests .importScan ⟨address, 0, height, 0, 0, lookahead⟩ = .ok requests ∧
      db' = { db with requests } := by
  unfold Storage.importRequest at h
  obtain ⟨time, -, h⟩ := bind_ok.mp h
  split at h
  · cases h
  · obtain ⟨requests, hput, h⟩ := bind_ok.mp h
    cases h
    exact ⟨requests, hput, rfl⟩

theorem acceptRequests_created {env : Env} {clock : Int} {addresses stored : List AccountAddress} {maxSubaddresses : Nat}
    {db db' : Storage} (h : db.acceptRequests env clock .create addresses maxSubaddresses = .ok (db', stored)) :
    db' = db ∨ ∃ currentTime,
      createAccountsLoop env currentTime maxSubaddresses (findLastId db.accounts) addresses db = .ok (db', stored) := by
  unfold Storage.acceptRequests at h
  dsimp only at h
  split at h
  · cases h
    exact Or.inl rfl
  · obtain ⟨time, -, h⟩ := bind_ok.mp h
    exact Or.inr ⟨time, h⟩

theorem shrinkLookahead_ok {address : AccountAddress} {lookahead : AddressIndex} {db db' : Storage}
    (h : db.shrinkLookahead address lookahead = .ok db') :
    ∃ lookup user, findAccount db address = .ok (lookup, user) ∧ user.lookaheadFail = 0 ∧
      lookahead.majI ≤ user.lookahead.majI ∧ lookahead.minI ≤ user.lookahead.minI ∧
      db' = { db with accounts := db.accounts.put lookup.status { user with lookahead } } := by
  obtain ⟨⟨lookup, user⟩, hfind, h⟩ := bind_ok.mp h
  dsimp only at h
  split at h
  · cases h
  · rename_i hle
    cases h
    exact ⟨lookup, user, hfind, by omega, by omega, by omega, rfl⟩

theorem upsertSubaddresses_ok {env : Env} {id : Nat} {address : AccountAddress} {viewKey : SecretKey}
    {subaddrs out : List SubaddressDict} {maxSubaddr : Nat} {db db' : Storage}
    (h : db.upsertSubaddresses env id address viewKey subaddrs maxSubaddr = .ok (db', out)) :
    (doUpsert env id address viewKey (subaddrs.mergeSort dictLe) maxSubaddr db.subaddressRanges
        db.subaddressIndexes).result = .ok out ∧
      db' = { db with
        subaddressRanges := (doUpsert env id address viewKey (subaddrs.mergeSort dictLe) maxSubaddr db.subaddressRanges
          db.subaddressIndexes).ranges
        subaddressIndexes := (doUpsert env id address viewKey (subaddrs.mergeSort dictLe) maxSubaddr db.subaddressRanges
          db.subaddressIndexes).indexes } := by
  unfold Storage.upsertSubaddresses at h
  dsimp only at h
  split at h
  · rename_i out' hok
    cases h
    exact ⟨hok, rfl⟩
  · cases h

/-- Without a lookahead nothing is written. Past the limit the account is marked beside what was upserted. -/
theorem updateLookahead_cases {env : Env} {address : AccountAddress} {height maxSubaddresses : Nat} {fresh : AddressIndex}
    {n : Int} {db db' : Storage} (h : db.updateLookahead env address height fresh maxSubaddresses = .ok (db', n)) :
    ∃ lookup user, findAccount db address = .ok (lookup, user) ∧ (db' = db ∨
      ∃ upserted, upserted = updateLookaheadUpsert env user address fresh maxSubaddresses db ∧
        (db' = { db with subaddressRanges := upserted.ranges, subaddressIndexes := upserted.indexes } ∨
          db' = { db with
            subaddressRanges := upserted.ranges
            subaddressIndexes := upserted.indexes
            accounts := db.accounts.put lookup.status (user.lookaheadFailedAt height) })) := by
  unfold Storage.updateLookahead at h
  obtain ⟨⟨lookup, user⟩, hfind, h⟩ := bind_ok.mp h
  refine ⟨lookup, user, hfind, ?_⟩
  dsimp only at h
  split at h
  · cases h
    exact Or.inl rfl
  · refine Or.inr ⟨_, rfl, ?_⟩
    split at h
    · cases h
      exact Or.inl rfl
    · cases h
      exact Or.inr rfl
    · cases h

end Lws.Db
