/-
  Lws.Db.AccountIndexes — the three account tables agree in every reachable state.

  `AccountsAgree` is the invariant: every account has its row in `accounts_by_address`
  and in `accounts_by_height`, every row there is that of an account, no id is used
  twice and no id is above the number of accounts. It is kept by every change
  (`agree_change`) as long as ids fit in 32 bits. The main result is
  `accounts_indexed`.
-/

import Lws.Db.Change

namespace Lws.Db

open Lws.Lmdb Lws.Transition

structure AccountsAgree (env : Env) (accounts : Accounts) (ba : AccountsByAddress) (bh : AccountsByHeight) : Prop where
  byAddress : ∀ st a, (st, a) ∈ accounts → ((), ⟨a.address, ⟨a.id, st⟩⟩) ∈ ba
  byHeight : ∀ st a, (st, a) ∈ accounts → (a.scanHeight, ⟨a.id, st⟩) ∈ bh
  ofAddress : ∀ b, ((), b) ∈ ba → ∃ a, (b.lookup.status, a) ∈ accounts ∧ b = ⟨a.address, ⟨a.id, b.lookup.status⟩⟩
  ofHeight : ∀ k l, (k, l) ∈ bh → ∃ a, (l.status, a) ∈ accounts ∧ a.id = l.id ∧ a.scanHeight = k
  ids : ∀ r ∈ accounts, ∀ s ∈ accounts, r.2.id = s.2.id → r = s
  bound : ∀ r ∈ accounts, r.2.id ≤ accounts.rows.length
  viewKey : ∀ r ∈ accounts, env.secretKeyToPublicKey r.2.key = some r.2.address.viewPublic
  start : ∀ r ∈ accounts, r.2.startHeight ≤ r.2.scanHeight

/-- The invariant of a database. -/
def Storage.Agree (env : Env) (db : Storage) : Prop := AccountsAgree env db.accounts db.accountsBa db.accountsBh

section Agree

variable {env : Env} {accounts : Accounts} {ba : AccountsByAddress} {bh : AccountsByHeight}

/-- The height row of an account is found under its scan height only. -/
theorem AccountsAgree.height_row (h : AccountsAgree env accounts ba bh) {st : AccountStatus} {a : Account} {k : Nat}
    {l : AccountLookup} (ha : (st, a) ∈ accounts) (hl : (k, l) ∈ bh) (hid : l.id = a.id) :
    k = a.scanHeight ∧ l = ⟨a.id, st⟩ := by
  obtain ⟨a', ha', hid', hk⟩ := h.ofHeight k l hl
  have he := h.ids _ ha' _ ha (hid'.trans hid)
  cases he
  refine ⟨hk.symm, ?_⟩
  rw [hid']

theorem AccountsAgree.address_row (h : AccountsAgree env accounts ba bh) {st : AccountStatus} {a : Account}
    {b : AccountByAddress} (ha : (st, a) ∈ accounts) (hb : ((), b) ∈ ba) (hid : b.lookup.id = a.id) :
    b = ⟨a.address, ⟨a.id, st⟩⟩ := by
  obtain ⟨a', ha', he⟩ := h.ofAddress b hb
  have hid' : b.lookup.id = a'.id := by rw [he]
  cases h.ids _ ha' _ ha (hid'.symm.trans hid)
  exact he

theorem AccountsAgree.same_view (h : AccountsAgree env accounts ba bh) {r s : AccountStatus × Account}
    (hr : r ∈ accounts) (hs : s ∈ accounts) (hv : r.2.address.viewPublic = s.2.address.viewPublic) : r = s := by
  have he := Table.unique_val (h.byAddress r.1 r.2 hr) (h.byAddress s.1 s.2 hs) hv
  exact h.ids r hr s hs (congrArg (fun b => b.lookup.id) he)

/-- Replacing an account by one with its id, address and key, whose height row moves along. -/
theorem AccountsAgree.replace (h : AccountsAgree env accounts ba bh) {st : AccountStatus} {a a' : Account}
    (ha : (st, a) ∈ accounts) (hid : a'.id = a.id) (haddr : a'.address = a.address) (hkey : a'.key = a.key)
    (hstart : a'.startHeight ≤ a'.scanHeight) :
    AccountsAgree env (accounts.put st a') ba ((bh.erase a.scanHeight a.id).put a'.scanHeight ⟨a.id, st⟩) := by
  -- a row of the new table is the new account or an account of another id
  have hmem : ∀ r, r ∈ accounts.put st a' → r = (st, a') ∨ (r ∈ accounts ∧ r.2.id ≠ a.id) := by
    intro r hr
    rcases Table.mem_put.mp hr with hr | ⟨hr, hne⟩
    · exact Or.inl hr
    · refine Or.inr ⟨hr, fun e => hne ?_⟩
      have := h.ids r hr _ ha e
      rw [this, hid]; exact ⟨rfl, rfl⟩
  have hkeep : ∀ r ∈ accounts, r.2.id ≠ a.id → r ∈ accounts.put st a' := by
    intro r hr hne
    exact Table.mem_put.mpr (Or.inr ⟨hr, fun e => hne (e.2.trans hid)⟩)
  refine ⟨fun s x hx => ?_, fun s x hx => ?_, fun b hb => ?_, fun k l hl => ?_, fun r hr s hs he => ?_, fun r hr => ?_,
    fun r hr => ?_, fun r hr => ?_⟩
  · rcases hmem _ hx with hx | ⟨hx, -⟩
    · cases hx
      rw [haddr, hid]; exact h.byAddress st a ha
    · exact h.byAddress s x hx
  · rcases hmem _ hx with hx | ⟨hx, hne⟩
    · cases hx
      rw [hid]; exact Table.mem_put_self _ _ _
    · refine Table.mem_put.mpr (Or.inr ⟨Table.mem_erase.mpr ⟨h.byHeight s x hx, fun e => hne e.2⟩, fun e => hne e.2⟩)
  · obtain ⟨x, hx, he⟩ := h.ofAddress b hb
    by_cases e : x.id = a.id
    · cases h.ids _ hx _ ha e
      exact ⟨a', Table.mem_put_self _ _ _, by rw [haddr, hid]; exact he⟩
    · exact ⟨x, hkeep _ hx e, he⟩
  · rcases Table.mem_put.mp hl with hl | ⟨hl, -⟩
    · cases hl
      exact ⟨a', Table.mem_put_self _ _ _, hid, rfl⟩
    · obtain ⟨hl, hne⟩ := Table.mem_erase.mp hl
      obtain ⟨x, hx, hxid, hxk⟩ := h.ofHeight k l hl
      refine ⟨x, hkeep _ hx fun e => hne ?_, hxid, hxk⟩
      obtain ⟨hk, -⟩ := h.height_row ha hl (hxid.symm.trans e)
      exact ⟨hk, hxid.symm.trans e⟩
  · rcases hmem r hr with rfl | ⟨hr, hrne⟩ <;> rcases hmem s hs with rfl | ⟨hs, hsne⟩
    · rfl
    · exact absurd (he.symm.trans hid) hsne
    · exact absurd (he.trans hid) hrne
    · exact h.ids r hr s hs he
  · refine le_trans ?_ (accounts.length_put_le st a')
    rcases hmem r hr with rfl | ⟨hr, -⟩
    · exact hid ▸ h.bound _ ha
    · exact h.bound r hr
  · rcases hmem r hr with rfl | ⟨hr, -⟩
    · show env.secretKeyToPublicKey a'.key = some a'.address.viewPublic
      rw [hkey, haddr]; exact h.viewKey _ ha
    · exact h.viewKey r hr
  · rcases hmem r hr with rfl | ⟨hr, -⟩
    · exact hstart
    · exact h.start r hr

theorem AccountsAgree.put_height (h : AccountsAgree env accounts ba bh) {st : AccountStatus} {a : Account}
    (ha : (st, a) ∈ accounts) : (bh.erase a.scanHeight a.id).put a.scanHeight ⟨a.id, st⟩ = bh := by
  apply Table.ext_mem
  intro r
  rw [Table.mem_put, Table.mem_erase]
  refine ⟨fun hr => ?_, fun hr => ?_⟩
  · rcases hr with rfl | ⟨⟨hr, -⟩, -⟩
    · exact h.byHeight st a ha
    · exact hr
  · by_cases e : r.1 = a.scanHeight ∧ r.2.id = a.id
    · refine Or.inl (Prod.ext e.1 ?_)
      exact (h.height_row ha (show (r.1, r.2) ∈ bh from hr) e.2).2
    · exact Or.inr ⟨⟨hr, e⟩, e⟩

theorem AccountsAgree.move (h : AccountsAgree env accounts ba bh) {st st' : AccountStatus} {a : Account}
    (ha : (st, a) ∈ accounts) (hfree : ∀ x, (st', x) ∈ accounts → x.id ≠ a.id) :
    AccountsAgree env ((accounts.erase st a.id).put st' a) (ba.put () ⟨a.address, ⟨a.id, st'⟩⟩)
      (bh.put a.scanHeight ⟨a.id, st'⟩) := by
  have hmem : ∀ r, r ∈ (accounts.erase st a.id).put st' a → r = (st', a) ∨ (r ∈ accounts ∧ r.2.id ≠ a.id) := by
    intro r hr
    rcases Table.mem_put.mp hr with hr | ⟨hr, -⟩
    · exact Or.inl hr
    · obtain ⟨hr, hne⟩ := Table.mem_erase.mp hr
      refine Or.inr ⟨hr, fun e => hne ?_⟩
      rw [h.ids r hr _ ha e]; exact ⟨rfl, rfl⟩
  have hkeep : ∀ r ∈ accounts, r.2.id ≠ a.id → r ∈ (accounts.erase st a.id).put st' a := by
    intro r hr hne
    exact Table.mem_put.mpr (Or.inr ⟨Table.mem_erase.mpr ⟨hr, fun e => hne e.2⟩, fun e => hne e.2⟩)
  have hself : (st', a) ∈ (accounts.erase st a.id).put st' a := Table.mem_put_self _ _ _
  have hlen : accounts.rows.length ≤ ((accounts.erase st a.id).put st' a).rows.length := by
    have h1 := accounts.length_erase_le st a.id
    have h2 := Table.length_put_free (t := accounts.erase st a.id) (k := st') (v := a)
      fun w hw => hfree w (Table.mem_erase.mp hw).1
    omega
  refine ⟨fun s x hx => ?_, fun s x hx => ?_, fun b hb => ?_, fun k l hl => ?_, fun r hr s hs he => ?_, fun r hr => ?_,
    fun r hr => ?_, fun r hr => ?_⟩
  · rcases hmem _ hx with hx | ⟨hx, hne⟩
    · cases hx
      exact Table.mem_put_self _ _ _
    · refine Table.mem_put.mpr (Or.inr ⟨h.byAddress s x hx, fun e => hne ?_⟩)
      have he := h.same_view hx ha e.2
      cases he
      rfl
  · rcases hmem _ hx with hx | ⟨hx, hne⟩
    · cases hx
      exact Table.mem_put_self _ _ _
    · exact Table.mem_put.mpr (Or.inr ⟨h.byHeight s x hx, fun e => hne e.2⟩)
  · rcases Table.mem_put.mp hb with hb | ⟨hb, hne⟩
    · cases hb
      exact ⟨a, hself, rfl⟩
    · obtain ⟨x, hx, he⟩ := h.ofAddress b hb
      refine ⟨x, hkeep _ hx fun e => hne ?_, he⟩
      cases h.ids _ hx _ ha e
      rw [he]; exact ⟨rfl, rfl⟩
  · rcases Table.mem_put.mp hl with hl | ⟨hl, hne⟩
    · cases hl
      exact ⟨a, hself, rfl, rfl⟩
    · obtain ⟨x, hx, hxid, hxk⟩ := h.ofHeight k l hl
      refine ⟨x, hkeep _ hx fun e => hne ?_, hxid, hxk⟩
      obtain ⟨hk, hl'⟩ := h.height_row ha hl (hxid.symm.trans e)
      exact ⟨hk, by rw [hl']⟩
  · rcases hmem r hr with rfl | ⟨hr, hrne⟩ <;> rcases hmem s hs with rfl | ⟨hs, hsne⟩
    · rfl
    · exact absurd he.symm hsne
    · exact absurd he hrne
    · exact h.ids r hr s hs he
  · refine le_trans ?_ hlen
    rcases hmem r hr with rfl | ⟨hr, -⟩
    · exact h.bound (st, a) ha
    · exact h.bound r hr
  · rcases hmem r hr with rfl | ⟨hr, -⟩
    · exact h.viewKey (st, a) ha
    · exact h.viewKey r hr
  · rcases hmem r hr with rfl | ⟨hr, -⟩
    · exact h.start (st, a) ha
    · exact h.start r hr

/-- Adding an account under the id after the largest. -/
theorem AccountsAgree.add (h : AccountsAgree env accounts ba bh) {st : AccountStatus} {user : Account}
    (hid : user.id = findLastId accounts + 1)
    (hkey : env.secretKeyToPublicKey user.key = some user.address.viewPublic) (hstart : user.startHeight = user.scanHeight)
    (hba : ∀ b, ((), b) ∈ ba → b.address.viewPublic ≠ user.address.viewPublic) :
    AccountsAgree env (accounts.put st user) (ba.put () ⟨user.address, ⟨user.id, st⟩⟩)
      (bh.put user.scanHeight ⟨user.id, st⟩) := by
  obtain ⟨hmax, hin⟩ := findLastId_spec accounts
  have hne : ∀ r ∈ accounts, r.2.id ≠ user.id := by
    intro r hr
    have := hmax r hr
    omega
  have hlast : findLastId accounts ≤ accounts.rows.length := by
    rcases hin with e | ⟨r, hr, e⟩
    · omega
    · rw [← e]; exact h.bound r hr
  have hmem : ∀ r, r ∈ accounts.put st user → r = (st, user) ∨ r ∈ accounts := by
    intro r hr
    exact (Table.mem_put.mp hr).imp id And.left
  have hkeep : ∀ r ∈ accounts, r ∈ accounts.put st user := by
    intro r hr
    exact Table.mem_put.mpr (Or.inr ⟨hr, fun e => hne r hr e.2⟩)
  have hlen := Table.length_put_free (t := accounts) (k := st) (v := user) fun w hw => hne _ hw
  refine ⟨fun s x hx => ?_, fun s x hx => ?_, fun b hb => ?_, fun k l hl => ?_, fun r hr s hs he => ?_, fun r hr => ?_,
    fun r hr => ?_, fun r hr => ?_⟩
  · rcases hmem _ hx with hx | hx
    · cases hx
      exact Table.mem_put_self _ _ _
    · exact Table.mem_put.mpr (Or.inr ⟨h.byAddress s x hx, fun e => hba _ (h.byAddress s x hx) e.2⟩)
  · rcases hmem _ hx with hx | hx
    · cases hx
      exact Table.mem_put_self _ _ _
    · exact Table.mem_put.mpr (Or.inr ⟨h.byHeight s x hx, fun e => hne _ hx e.2⟩)
  · rcases Table.mem_put.mp hb with hb | ⟨hb, -⟩
    · cases hb
      exact ⟨user, Table.mem_put_self _ _ _, rfl⟩
    · obtain ⟨x, hx, he⟩ := h.ofAddress b hb
      exact ⟨x, hkeep _ hx, he⟩
  · rcases Table.mem_put.mp hl with hl | ⟨hl, -⟩
    · cases hl
      exact ⟨user, Table.mem_put_self _ _ _, rfl, rfl⟩
    · obtain ⟨x, hx, hrest⟩ := h.ofHeight k l hl
      exact ⟨x, hkeep _ hx, hrest⟩
  · rcases hmem r hr with rfl | hr <;> rcases hmem s hs with rfl | hs
    · rfl
    · exact absurd he.symm (hne s hs)
    · exact absurd he (hne r hr)
    · exact h.ids r hr s hs he
  · rcases hmem r hr with rfl | hr
    · show user.id ≤ _
      omega
    · have := h.bound r hr
      omega
  · rcases hmem r hr with rfl | hr
    · exact hkey
    · exact h.viewKey r hr
  · rcases hmem r hr with rfl | hr
    · exact hstart.le
    · exact h.start r hr

/-- The accounts a rollback takes back are those scanned to `height` or beyond. -/
theorem AccountsAgree.above (h : AccountsAgree env accounts ba bh) {st : AccountStatus} {a : Account} {height : Nat}
    (ha : (st, a) ∈ accounts) : (⟨a.id, st⟩ : AccountLookup) ∈ lookupsAbove bh height ↔ height ≤ a.scanHeight := by
  rw [mem_lookupsAbove]
  refine ⟨fun ⟨k, hk, hle⟩ => ?_, fun hle => ⟨a.scanHeight, h.byHeight st a ha, hle⟩⟩
  obtain ⟨rfl, -⟩ := h.height_row ha hk rfl
  exact hle

theorem AccountsAgree.above_id (h : AccountsAgree env accounts ba bh) {st : AccountStatus} {a : Account} {height : Nat}
    (ha : (st, a) ∈ accounts) : (∃ l ∈ lookupsAbove bh height, l.id = a.id) ↔ height ≤ a.scanHeight := by
  refine ⟨fun ⟨l, hl, hid⟩ => ?_, fun hle => ⟨_, (h.above ha).mpr hle, rfl⟩⟩
  obtain ⟨k, hk, hle⟩ := mem_lookupsAbove.mp hl
  obtain ⟨rfl, -⟩ := h.height_row ha hk hid
  exact hle

/-- `accounts_by_height` after a rollback holds the accounts at their new heights. -/
theorem AccountsAgree.mem_rolledBackHeights (h : AccountsAgree env accounts ba bh) {st : AccountStatus} {a : Account}
    {height : Nat} (ha : (st, a) ∈ accounts) :
    ((if height ≤ a.scanHeight then max height 1 - 1 else a.scanHeight), (⟨a.id, st⟩ : AccountLookup)) ∈
      rolledBackHeights height bh := by
  unfold rolledBackHeights
  by_cases e : height ≤ a.scanHeight
  · rw [if_pos e]
    obtain ⟨w, hw, hid⟩ := Table.putAllAbsent_stores (t := bh.filter fun r => !decide (height ≤ r.1))
      (k := max height 1 - 1) ((h.above ha).mpr e)
    have hwbh : ∃ k, (k, w) ∈ bh := by
      rcases Table.mem_putAllAbsent hw with hw | ⟨-, hw⟩
      · exact ⟨_, (Table.mem_filter.mp hw).1⟩
      · obtain ⟨k, hk, -⟩ := mem_lookupsAbove.mp hw
        exact ⟨k, hk⟩
    obtain ⟨k, hk⟩ := hwbh
    obtain ⟨-, rfl⟩ := h.height_row ha hk hid
    exact hw
  · rw [if_neg e]
    exact Table.mem_putAllAbsent_of_mem (Table.mem_filter.mpr ⟨h.byHeight st a ha, by simpa using e⟩)

theorem AccountsAgree.rewind (h : AccountsAgree env accounts ba bh) {height : Nat} {accounts' : Accounts}
    (hmem : ∀ st a', (st, a') ∈ accounts' ↔ ∃ a, (st, a) ∈ accounts ∧
      a' = if (⟨a.id, st⟩ : AccountLookup) ∈ lookupsAbove bh height then a.rolledBack (max height 1 - 1) else a) :
    AccountsAgree env accounts' ba (rolledBackHeights height bh) := by
  have hmem' : ∀ r, r ∈ accounts' → ∃ a, (r.1, a) ∈ accounts ∧
      r.2 = if height ≤ a.scanHeight then a.rolledBack (max height 1 - 1) else a := by
    intro r hr
    obtain ⟨a, ha, he⟩ := (hmem r.1 r.2).mp hr
    refine ⟨a, ha, ?_⟩
    rw [he]
    by_cases e : height ≤ a.scanHeight
    · rw [if_pos e, if_pos ((h.above ha).mpr e)]
    · rw [if_neg e, if_neg fun hc => e ((h.above ha).mp hc)]
  have hback : ∀ st a, (st, a) ∈ accounts → ∃ a', (st, a') ∈ accounts' ∧
      a' = if height ≤ a.scanHeight then a.rolledBack (max height 1 - 1) else a := by
    intro st a ha
    have ha' := (hmem st _).mpr ⟨a, ha, rfl⟩
    obtain ⟨x, hx, he⟩ := hmem' _ ha'
    refine ⟨_, ha', ?_⟩
    by_cases e : height ≤ a.scanHeight
    · rw [if_pos e, if_pos ((h.above ha).mpr e)]
    · rw [if_neg e, if_neg fun hc => e ((h.above ha).mp hc)]
  have hid : ∀ a : Account, (if height ≤ a.scanHeight then a.rolledBack (max height 1 - 1) else a).id = a.id := by
    intro a; split <;> rfl
  have haddr : ∀ a : Account, (if height ≤ a.scanHeight then a.rolledBack (max height 1 - 1) else a).address = a.address := by
    intro a; split <;> rfl
  have hkey : ∀ a : Account, (if height ≤ a.scanHeight then a.rolledBack (max height 1 - 1) else a).key = a.key := by
    intro a; split <;> rfl
  have hscan : ∀ a : Account, (if height ≤ a.scanHeight then a.rolledBack (max height 1 - 1) else a).scanHeight =
      if height ≤ a.scanHeight then max height 1 - 1 else a.scanHeight := by
    intro a; split <;> rfl
  have hlen : accounts.rows.length ≤ accounts'.rows.length := by
    have hk := Table.length_le_of_keys (t := accounts') accounts.keys_nodup fun x hx => ?_
    · simpa using hk
    · obtain ⟨⟨st, a⟩, ha, rfl⟩ := List.mem_map.mp hx
      obtain ⟨a', ha', he⟩ := hback st a ha
      exact ⟨(st, a'), ha', rowKey_eq.mpr ⟨rfl, by rw [he, hid]⟩⟩
  refine ⟨fun st x hx => ?_, fun st x hx => ?_, fun b hb => ?_, fun k l hl => ?_, fun r hr s hs he => ?_, fun r hr => ?_,
    fun r hr => ?_, fun r hr => ?_⟩
  · obtain ⟨a, ha, he⟩ := hmem' _ hx
    dsimp only at he
    rw [he, haddr, hid]; exact h.byAddress st a ha
  · obtain ⟨a, ha, he⟩ := hmem' _ hx
    dsimp only at he
    rw [he, hscan, hid]; exact h.mem_rolledBackHeights ha
  · obtain ⟨a, ha, he⟩ := h.ofAddress b hb
    obtain ⟨a', ha', he'⟩ := hback _ a ha
    exact ⟨a', ha', by rw [he', haddr, hid]; exact he⟩
  · rcases Table.mem_putAllAbsent hl with hl | ⟨hk, hl⟩
    · obtain ⟨hl, hlt⟩ := Table.mem_filter.mp hl
      obtain ⟨a, ha, haid, rfl⟩ := h.ofHeight k l hl
      obtain ⟨a', ha', he'⟩ := hback _ a ha
      refine ⟨a', ha', by rw [he', hid, haid], ?_⟩
      rw [he', hscan, if_neg (by simpa using hlt)]
    · obtain ⟨k', hl, hle⟩ := mem_lookupsAbove.mp hl
      obtain ⟨a, ha, haid, rfl⟩ := h.ofHeight k' l hl
      obtain ⟨a', ha', he'⟩ := hback _ a ha
      refine ⟨a', ha', by rw [he', hid, haid], ?_⟩
      rw [he', hscan, if_pos hle]; exact hk.symm
  · obtain ⟨a, ha, hea⟩ := hmem' r hr
    obtain ⟨c, hc, hec⟩ := hmem' s hs
    rw [hea, hec, hid, hid] at he
    have heq := h.ids _ ha _ hc he
    simp only [Prod.mk.injEq] at heq
    exact Prod.ext heq.1 (by rw [hea, hec, heq.2])
  · obtain ⟨a, ha, he⟩ := hmem' r hr
    rw [he, hid]
    exact (h.bound _ ha).trans hlen
  · obtain ⟨a, ha, he⟩ := hmem' r hr
    rw [he, hkey, haddr]; exact h.viewKey _ ha
  · obtain ⟨a, ha, he⟩ := hmem' r hr
    rw [he]
    split
    · exact Nat.min_le_left _ _
    · exact h.start _ ha

end Agree

/-! ## Every change keeps the invariant -/

variable {env : Env} {db db' : Storage}

theorem count_change {act : Act} (h : Change env act db db') : db.accounts.rows.length ≤ db'.accounts.rows.length := by
  cases h with
  | touch _ _ => exact Table.length_put_le _ _ _
  | @move _ b a l status hb hne ha hid hl hl' hfree =>
    have h1 := db.accounts.length_erase_le b.lookup.status b.lookup.id
    have h2 := Table.length_put_free (t := db.accounts.erase b.lookup.status b.lookup.id) (k := status) (v := a)
      fun w hw => hfree w (Table.mem_erase.mp hw).1
    exact h1.trans h2
  | add _ _ _ _ _ _ => exact Table.length_put_le _ _ _
  | lower _ _ _ _ _ _ _ => exact Table.length_put_le _ _ _
  | rewind hrw =>
    have hk := Table.length_le_of_keys (t := db'.accounts) db.accounts.keys_nodup fun x hx => ?_
    · simpa using hk
    · obtain ⟨⟨st, a⟩, ha, rfl⟩ := List.mem_map.mp hx
      refine ⟨(st, _), (hrw.accounts st _).mpr ⟨a, ha, rfl⟩, rowKey_eq.mpr ⟨rfl, ?_⟩⟩
      show Account.id (if _ then _ else _) = a.id
      split <;> rfl
  | store _ _ _ _ _ _ _ => exact Table.length_put_le _ _ _
  | _ => exact Nat.le_refl _

/-- Only a new account needs ids short of 32 bits. -/
theorem agree_change {act : Act} (hagree : db.Agree env) (hcount : act = .add → db.accounts.rows.length < 2 ^ 32 - 2)
    (h : Change env act db db') : db'.Agree env := by
  cases h with
  | @touch _ st a a' ha hsame =>
    have hr := AccountsAgree.replace hagree ha hsame.id hsame.address hsame.key
      (by rw [hsame.startHeight, hsame.scanHeight]; exact hagree.start _ ha)
    rw [hsame.scanHeight, hagree.put_height ha] at hr
    exact hr
  | @move _ b a l status hb hne ha hid hl hl' hfree =>
    have hbe := hagree.address_row ha hb hid.symm
    obtain ⟨address, ⟨id, st⟩⟩ := b
    cases hbe
    exact hagree.move ha hfree
  | @add _ user hkey hid hstart hba hbh hfree =>
    have hcount := hcount rfl
    have hlast : findLastId db.accounts ≤ db.accounts.rows.length := by
      rcases (findLastId_spec db.accounts).2 with e | ⟨r, hr, e⟩
      · omega
      · rw [← e]; exact hagree.bound r hr
    exact hagree.add (hid (by omega)) hkey hstart hba
  | @lower _ b a a' l height spends images hb ha hid hsame hs hl hl' =>
    have hr := hagree.replace ha hsame.id hsame.address hsame.key (by
      rw [hsame.startHeight, hsame.scanHeight]
      have hle : a.startHeight ≤ a.scanHeight := hagree.start _ ha
      show min height a.startHeight ≤ min height a.scanHeight
      omega)
    rw [hsame.scanHeight, show (⟨a.id, b.lookup.status⟩ : AccountLookup) = b.lookup by rw [hid]] at hr
    exact hr
  | rewind hrw =>
    unfold Storage.Agree
    rw [show db'.accountsBa = db.accountsBa by rw [hrw.frame],
      show db'.accountsBh = rolledBackHeights _ db.accountsBh by rw [hrw.frame]]
    exact hagree.rewind hrw.accounts
  | @store _ height lastUpdate user status existing l pubs pubs' events ha hid hscan hlt hl hl' hooks =>
    have hid₁ : ({ existing with scanHeight := lastUpdate } : Account).id = existing.id := rfl
    have hr := hagree.replace ha hid₁ rfl rfl ((hagree.start _ ha).trans hlt.le)
    have hput : (db.accountsBh.erase existing.scanHeight existing.id).putAbsent lastUpdate ⟨existing.id, status⟩ =
        (db.accountsBh.erase existing.scanHeight existing.id).put lastUpdate ⟨existing.id, status⟩ := by
      refine Table.putAbsent_of_free fun hsome => ?_
      obtain ⟨w, hw⟩ := Option.isSome_iff_exists.mp hsome
      obtain ⟨hw, hwid⟩ := Table.get?_eq_some.mp hw
      obtain ⟨hk, -⟩ := hagree.height_row ha (Table.mem_erase.mp hw).1 hwid
      omega
    have hbh : ((raised lastUpdate user status existing events db).withHeights lastUpdate [⟨user.id, status⟩]).accountsBh =
        (db.accountsBh.erase existing.scanHeight existing.id).putAbsent lastUpdate ⟨existing.id, status⟩ := by
      rw [hid]; rfl
    unfold Storage.Agree
    rw [hbh, hput]
    exact hr
  | _ => exact hagree

theorem agree_fresh (env : Env) : (fresh env).Agree env := by
  refine ⟨fun _ _ h => ?_, fun _ _ h => ?_, fun _ h => ?_, fun _ _ h => ?_, fun _ h => ?_, fun _ h => ?_, fun _ h => ?_,
    fun _ h => ?_⟩ <;> exact absurd h (Table.not_mem_empty _)

theorem count_changes {allowed : Storage → Act → Prop} (h : Changes env allowed db db') :
    db.accounts.rows.length ≤ db'.accounts.rows.length :=
  h.keeps (fun u => db.accounts.rows.length ≤ u.accounts.rows.length) (fun hu _ hc => hu.trans (count_change hc))
      (Nat.le_refl _)

/-- What every change between states that agree keeps is kept by a sequence of them. -/
theorem Changes.keeps_agree {allowed : Storage → Act → Prop} (inv : Storage → Prop)
    (hstep : ∀ {u u' act}, u.Agree env → u'.Agree env → inv u → allowed u act → Change env act u u' → inv u')
    (h : Changes env allowed db db') (hcount : db'.accounts.rows.length < 2 ^ 32 - 2) (hagree : db.Agree env) (h0 : inv db) :
    db'.Agree env ∧ inv db' := by
  have key := h.keeps (fun u => (u.Agree env ∧ inv u) ∨ 2 ^ 32 - 2 ≤ u.accounts.rows.length) ?_ (Or.inl ⟨hagree, h0⟩)
  · rcases key with h | h
    · exact h
    · omega
  · intro u u' act hu ha hc
    have hle := count_change hc
    rcases hu with ⟨hu, hinv⟩ | hu
    · by_cases e : u.accounts.rows.length < 2 ^ 32 - 2
      · have hu' := agree_change hu (fun _ => e) hc
        exact Or.inl ⟨hu', hstep hu hu' hinv ha hc⟩
      · exact Or.inr (by omega)
    · exact Or.inr (hu.trans hle)

/-- The accounts agree after an operation if they did before. -/
theorem agree_run {op : Op} (h : op.run env db = .ok db') (hcount : db'.accounts.rows.length < 2 ^ 32 - 2)
    (hagree : db.Agree env) : db'.Agree env :=
  ((run_changes h).keeps_agree (fun _ => True) (fun _ _ _ _ _ => trivial) hcount hagree trivial).1

theorem agree_reached {ok : Storage → Op → Prop} (h : Reached env ok db)
    (hcount : db.accounts.rows.length < 2 ^ 32 - 2) :
    db.Agree env := by
  refine h.invariant (fun u => u.accounts.rows.length < 2 ^ 32 - 2 → u.Agree env)
    (fun _ => agree_fresh env) (fun u op u' hu _ hrun hlt => ?_) hcount
  have hle := count_changes (run_changes hrun)
  exact agree_run hrun hlt (hu (by omega))

/-! ## The three tables -/

/-- Each id that is in one of the tables has exactly one row in each. -/
def OneRowEach (db : Storage) (id : Nat) : Prop :=
  (∃! r, r ∈ db.accounts ∧ r.2.id = id) ∧ (∃! r, r ∈ db.accountsBa ∧ r.2.lookup.id = id) ∧
    ∃! r, r ∈ db.accountsBh ∧ r.2.id = id

structure Indexed (db : Storage) : Prop where
  accounts : ∀ r ∈ db.accounts, OneRowEach db r.2.id
  accountsBa : ∀ r ∈ db.accountsBa, OneRowEach db r.2.lookup.id
  accountsBh : ∀ r ∈ db.accountsBh, OneRowEach db r.2.id
  status : ∀ st a b, (st, a) ∈ db.accounts → ((), b) ∈ db.accountsBa → b.lookup.id = a.id →
    b.lookup.status = st ∧ b.address = a.address
  height : ∀ st a k l, (st, a) ∈ db.accounts → (k, l) ∈ db.accountsBh → l.id = a.id → k = a.scanHeight ∧ l.status = st
  ids : ∀ r ∈ db.accounts, ∀ s ∈ db.accounts, r.2.id = s.2.id → r = s
  viewPublics : ∀ r ∈ db.accounts, ∀ s ∈ db.accounts, r.2.address.viewPublic = s.2.address.viewPublic → r = s
  viewKeys : ∀ r ∈ db.accounts, ∀ s ∈ db.accounts, r.2.key = s.2.key → r = s
  start : ∀ r ∈ db.accounts, r.2.startHeight ≤ r.2.scanHeight

theorem one_row_each (h : db.Agree env) {st : AccountStatus} {a : Account} (ha : (st, a) ∈ db.accounts) :
    OneRowEach db a.id := by
  refine ⟨⟨(st, a), ⟨ha, rfl⟩, fun r hr => h.ids r hr.1 _ ha hr.2⟩,
    ⟨((), ⟨a.address, ⟨a.id, st⟩⟩), ⟨h.byAddress st a ha, rfl⟩, fun r hr => ?_⟩,
    ⟨(a.scanHeight, ⟨a.id, st⟩), ⟨h.byHeight st a ha, rfl⟩, fun r hr => ?_⟩⟩
  · exact Prod.ext rfl (h.address_row ha hr.1 hr.2)
  · obtain ⟨h1, h2⟩ := h.height_row ha (show (r.1, r.2) ∈ db.accountsBh from hr.1) hr.2
    exact Prod.ext h1 h2

/-- In every state reached by operations of the storage, with ids short of 32 bits, the
    three account tables index each other exactly. -/
theorem accounts_indexed (h : Reached env (fun _ _ => True) db) (hcount : db.accounts.rows.length < 2 ^ 32 - 2) :
    Indexed db := by
  have hagree := agree_reached h hcount
  refine ⟨fun r hr => one_row_each hagree (show (r.1, r.2) ∈ db.accounts from hr), fun r hr => ?_, fun r hr => ?_,
    fun st a b ha hb hid => ?_, fun st a k l ha hl hid => ?_, hagree.ids, fun r hr s hs => hagree.same_view hr hs,
    fun r hr s hs hk => ?_, hagree.start⟩
  · obtain ⟨a, ha, he⟩ := hagree.ofAddress r.2 hr
    rw [he]
    exact one_row_each hagree ha
  · obtain ⟨a, ha, hid, -⟩ := hagree.ofHeight r.1 r.2 hr
    rw [← hid]
    exact one_row_each hagree ha
  · rw [hagree.address_row ha hb hid]; exact ⟨rfl, rfl⟩
  · obtain ⟨h1, h2⟩ := hagree.height_row ha hl hid
    exact ⟨h1, by rw [h2]⟩
  · have hv := (hagree.viewKey r hr).symm.trans ((congrArg _ hk).trans (hagree.viewKey s hs))
    exact hagree.same_view hr hs (Option.some.inj hv)

def accountOps : List Op :=
  [.addAccount 5 ⟨1007, 50⟩ 7 0, .addAccount 6 ⟨1008, 51⟩ 8 1, .syncChain 0 [100, 101, 102] false,
    .changeStatus .inactive [⟨1007, 50⟩], .update 0 [100, 101, 102] [⟨1, ⟨1007, 50⟩, 7, 0, [], [], [], []⟩] [] false,
    .rescan 1 [⟨1007, 50⟩], .rollback 1]

theorem accounts_indexed_sample : Indexed (Op.runs sampleEnv accountOps) :=
  accounts_indexed (reached_runs (by simp [AllOk, accountOps])) (by decide)

end Lws.Db
