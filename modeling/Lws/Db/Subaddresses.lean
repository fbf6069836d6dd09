/-
  Lws.Db.Subaddresses — the two subaddress tables over whole runs.

  For these tables a write operation is a sequence of steps of three kinds
  (`SubStep`): one that leaves both tables and keeps every account, an upsert for an
  account, and the upsert of a creation request together with its account. That a run
  has no other step needs two conditions on the operations: `OwnCall`, that a caller
  passes what the account has, and `CleanCreate`, that no creation request which writes
  rows is dropped after it wrote them. Over the steps:
  - `Subs`: every row belongs to an account and is derived from its address and key;
  - the index rows of an account stay within the limit (`SubStep.limited`);
  - ranges and index rows cover the same indexes and only grow, where the merges of a
    lookahead whose error is ignored fit the limit (`SubStep.backed`).
-/

import Lws.Db.AccountIndexes
import Lws.Db.SubaddressProofs

namespace Lws.Db

open Lws.Lmdb Lws.Transition

/-! ## Accounts keep who they are -/

def Owner (db : Storage) (id : Nat) (address : AccountAddress) (viewKey : SecretKey) : Prop :=
  ∃ r ∈ db.accounts, r.2.id = id ∧ r.2.address = address ∧ r.2.key = viewKey

instance (db : Storage) (id : Nat) (address : AccountAddress) (viewKey : SecretKey) :
    Decidable (Owner db id address viewKey) :=
  inferInstanceAs (Decidable (∃ r ∈ db.accounts, r.2.id = id ∧ r.2.address = address ∧ r.2.key = viewKey))

section Owner

variable {env : Env} {db db' : Storage} {id : Nat} {address : AccountAddress} {viewKey : SecretKey}

theorem Owner.put {accounts : Accounts} {st : AccountStatus} {a a' : Account} (ha : (st, a) ∈ accounts)
    (hid : a'.id = a.id) (haddr : a'.address = a.address) (hkey : a'.key = a.key)
    (h : ∃ r ∈ accounts, r.2.id = id ∧ r.2.address = address ∧ r.2.key = viewKey) :
    ∃ r ∈ accounts.put st a', r.2.id = id ∧ r.2.address = address ∧ r.2.key = viewKey := by
  obtain ⟨r, hr, h1, h2, h3⟩ := h
  by_cases e : r.1 = st ∧ r.2.id = a'.id
  · have he : r.2 = a := Table.unique_val (show (st, r.2) ∈ accounts from e.1 ▸ hr) ha (e.2.trans hid)
    refine ⟨(st, a'), Table.mem_put_self _ _ _, ?_, ?_, ?_⟩
    · rw [hid, ← he, h1]
    · rw [haddr, ← he, h2]
    · rw [hkey, ← he, h3]
  · exact ⟨r, Table.mem_put.mpr (Or.inr ⟨hr, e⟩), h1, h2, h3⟩

theorem owner_change {act : Act} (hc : Change env act db db') (h : Owner db id address viewKey) :
    Owner db' id address viewKey := by
  cases hc with
  | touch ha hsame => exact Owner.put ha hsame.id hsame.address hsame.key h
  | @move _ b a l status hb hne ha hid hl hl' hfree =>
    obtain ⟨r, hr, h1, h2, h3⟩ := h
    by_cases e : r.1 = b.lookup.status ∧ r.2.id = b.lookup.id
    · have he : r.2 = a := Table.unique_val (show (b.lookup.status, r.2) ∈ db.accounts from e.1 ▸ hr) ha (e.2.trans hid.symm)
      exact ⟨(status, a), Table.mem_put_self _ _ _, he ▸ h1, he ▸ h2, he ▸ h3⟩
    · refine ⟨r, Table.mem_put.mpr (Or.inr ⟨Table.mem_erase.mpr ⟨hr, e⟩, fun hn => ?_⟩), h1, h2, h3⟩
      exact hfree r.2 (show (status, r.2) ∈ db.accounts from hn.1 ▸ hr) hn.2
  | @add _ user hkey hid hstart hba hbh hfree =>
    obtain ⟨r, hr, h1, h2, h3⟩ := h
    refine ⟨r, Table.mem_put.mpr (Or.inr ⟨hr, fun hn => ?_⟩), h1, h2, h3⟩
    exact hfree r.2 (show (newStatus user, r.2) ∈ db.accounts from hn.1 ▸ hr) hn.2
  | lower _ ha _ hsame _ _ _ => exact Owner.put ha hsame.id hsame.address hsame.key h
  | rewind hrw =>
    obtain ⟨⟨st, a⟩, hr, h1, h2, h3⟩ := h
    refine ⟨(st, _), (hrw.accounts st _).mpr ⟨a, hr, rfl⟩, ?_⟩
    split <;> exact ⟨h1, h2, h3⟩
  | @store _ height lastUpdate user status existing l pubs pubs' events ha hid hscan hlt hl hl' hooks =>
    exact @Owner.put _ _ _ _ _ _ { existing with scanHeight := lastUpdate } ha rfl rfl rfl h
  | _ => exact h

end Owner

/-! ## Steps -/

structure UpsertCall where
  id : Nat
  address : AccountAddress
  viewKey : SecretKey
  entries : List SubaddressDict
  maxSubaddr : Nat

def UpsertCall.on (env : Env) (call : UpsertCall) (db : Storage) : Upsert (List SubaddressDict) :=
  doUpsert env call.id call.address call.viewKey call.entries call.maxSubaddr db.subaddressRanges db.subaddressIndexes

/-- The database with the tables as the call leaves them, on an error too. -/
def UpsertCall.apply (env : Env) (call : UpsertCall) (db : Storage) : Storage :=
  { db with subaddressRanges := (call.on env db).ranges, subaddressIndexes := (call.on env db).indexes }

inductive SubStep (env : Env) (allowed : Storage → UpsertCall → Prop) : Storage → Storage → Prop where
  | kept {db db' : Storage} (agree : db'.Agree env)
      (owners : ∀ id address viewKey, Owner db id address viewKey → Owner db' id address viewKey)
      (ranges : db'.subaddressRanges = db.subaddressRanges) (indexes : db'.subaddressIndexes = db.subaddressIndexes) :
      SubStep env allowed db db'
  | upsert {db : Storage} {call : UpsertCall} (owner : Owner db call.id call.address call.viewKey) (ok : allowed db call) :
      SubStep env allowed db (call.apply env db)
  | create {db : Storage} {user : Account} {call : UpsertCall} (change : Change env .add db (added user db))
      (agree : (added user db).Agree env) (free : ∀ r ∈ db.accounts, r.2.id ≠ user.id) (id : call.id = user.id)
      (address : call.address = user.address) (viewKey : call.viewKey = user.key) (ok : allowed db call) :
      SubStep env allowed db (added user (call.apply env db))

def SubSteps (env : Env) (allowed : Storage → UpsertCall → Prop) : Storage → Storage → Prop :=
  Relation.ReflTransGen (SubStep env allowed)

structure Subs (env : Env) (db : Storage) : Prop where
  agree : db.Agree env
  ranges : ∀ r ∈ db.subaddressRanges, ∃ a ∈ db.accounts, a.2.id = r.1
  indexes : ∀ r ∈ db.subaddressIndexes, ∃ a ∈ db.accounts, a.2.id = r.1
  own : ∀ a ∈ db.accounts, OwnRows env a.2.id a.2.address a.2.key db.subaddressRanges db.subaddressIndexes

section Steps

variable {env : Env} {allowed : Storage → UpsertCall → Prop} {db db' : Storage} {call : UpsertCall}

/-- An id without an account has no rows. -/
theorem Subs.no_rows (h : Subs env db) {id : Nat} (hfree : ∀ r ∈ db.accounts, r.2.id ≠ id) :
    (∀ x, (id, x) ∉ db.subaddressRanges) ∧ ∀ v, (id, v) ∉ db.subaddressIndexes := by
  refine ⟨fun x hx => ?_, fun v hv => ?_⟩
  · obtain ⟨a, ha, he⟩ := h.ranges _ hx
    exact hfree a ha he
  · obtain ⟨a, ha, he⟩ := h.indexes _ hv
    exact hfree a ha he

theorem Subs.kept (h : Subs env db) (hagree : db'.Agree env)
    (howner : ∀ id address viewKey, Owner db id address viewKey → Owner db' id address viewKey)
    (hr : db'.subaddressRanges = db.subaddressRanges) (hi : db'.subaddressIndexes = db.subaddressIndexes) : Subs env db' := by
  have hid : ∀ id, (∃ a ∈ db.accounts, a.2.id = id) → ∃ a ∈ db'.accounts, a.2.id = id := by
    rintro id ⟨a, ha, he⟩
    obtain ⟨a', ha', he', -, -⟩ := howner id _ _ ⟨a, ha, he, rfl, rfl⟩
    exact ⟨a', ha', he'⟩
  refine ⟨hagree, ?_, ?_, fun a' ha' => ?_⟩
  · rw [hr]
    exact fun r hr => hid _ (h.ranges r hr)
  · rw [hi]
    exact fun r hr => hid _ (h.indexes r hr)
  · rw [hr, hi]
    by_cases e : ∃ a ∈ db.accounts, a.2.id = a'.2.id
    · -- the account was there before, with the same address and key
      obtain ⟨a, ha, he⟩ := e
      obtain ⟨b, hb, h1, h2, h3⟩ := howner _ _ _ ⟨a, ha, rfl, rfl, rfl⟩
      cases hagree.ids b hb a' ha' (h1.trans he)
      rw [h1, h2, h3]
      exact h.own a ha
    · obtain ⟨h1, h2⟩ := h.no_rows fun a ha he => e ⟨a, ha, he⟩
      exact ⟨fun v hv => absurd hv (h2 v), fun i ⟨d, hd, _⟩ => absurd hd (h1 _)⟩

theorem Subs.ownRows (h : Subs env db) {id : Nat} {address : AccountAddress} {viewKey : SecretKey}
    (howner : Owner db id address viewKey) :
    OwnRows env id address viewKey db.subaddressRanges db.subaddressIndexes := by
  obtain ⟨a, ha, rfl, rfl, rfl⟩ := howner
  exact h.own a ha

theorem Subs.upsert (h : Subs env db) (howner : Owner db call.id call.address call.viewKey) :
    Subs env (call.apply env db) := by
  obtain ⟨hup, -⟩ := @doUpsert_upserted env call.id call.address call.viewKey call.maxSubaddr db.subaddressRanges
    db.subaddressIndexes call.entries
  obtain ⟨a, ha, hid, haddr, hkey⟩ := howner
  refine ⟨h.agree, fun r hr => ?_, fun r hr => ?_, fun b hb => ?_⟩
  · by_cases e : r.1 = call.id
    · exact ⟨a, ha, hid.trans e.symm⟩
    · exact h.ranges r ((hup.otherRanges r e).mp hr)
  · by_cases e : r.1 = call.id
    · exact ⟨a, ha, hid.trans e.symm⟩
    · exact h.indexes r ((hup.otherIndexes r e).mp hr)
  · by_cases e : b.2.id = call.id
    · obtain rfl := h.agree.ids b hb a ha (e.trans hid.symm)
      rw [hid, haddr, hkey]
      exact hup.ownRows (h.ownRows ⟨b, hb, hid, haddr, hkey⟩)
    · refine ⟨fun v hv => ?_, fun i ⟨d, hd, hc⟩ => ?_⟩
      · exact (h.own b hb).derived v ((hup.otherIndexes _ e).mp hv)
      · obtain ⟨v, hv, hk⟩ := (h.own b hb).stored i ⟨d, (hup.otherRanges _ e).mp hd, hc⟩
        exact ⟨v, hup.grows _ hv, hk⟩

theorem SubStep.created {user : Account} (hc : Change env .add db (added user db)) (hagree : (added user db).Agree env)
    (h : Subs env db) (hid : call.id = user.id) (haddr : call.address = user.address) (hkey : call.viewKey = user.key) :
    Subs env (added user db) ∧ Owner (added user db) call.id call.address call.viewKey := by
  refine ⟨h.kept hagree (fun _ _ _ => owner_change hc) rfl rfl, ?_⟩
  exact ⟨(newStatus user, user), Table.mem_put_self _ _ _, hid.symm, haddr.symm, hkey.symm⟩

theorem SubStep.subs (hs : SubStep env allowed db db') (h : Subs env db) : Subs env db' := by
  cases hs with
  | kept hagree howner hr hi => exact h.kept hagree howner hr hi
  | upsert howner _ => exact h.upsert howner
  | create hc hagree _ hid haddr hkey _ =>
    obtain ⟨hsubs, howner⟩ := SubStep.created hc hagree h hid haddr hkey
    exact hsubs.upsert howner

theorem SubSteps.keeps {inv : Storage → Prop} (hstep : ∀ {u u'}, Subs env u → inv u → SubStep env allowed u u' → inv u')
    (hs : SubSteps env allowed db db') (h : Subs env db) (h0 : inv db) : Subs env db' ∧ inv db' := by
  induction hs with
  | refl => exact ⟨h, h0⟩
  | tail _ hs ih => exact ⟨hs.subs ih.1, hstep ih.1 ih.2 hs⟩

theorem SubStep.mono {allowed' : Storage → UpsertCall → Prop} (hsub : ∀ u call, allowed u call → allowed' u call)
    (hs : SubStep env allowed db db') : SubStep env allowed' db db' := by
  cases hs with
  | kept hagree howner hr hi => exact .kept hagree howner hr hi
  | upsert howner hok => exact .upsert howner (hsub _ _ hok)
  | create hc hagree hfree hid haddr hkey hok => exact .create hc hagree hfree hid haddr hkey (hsub _ _ hok)

theorem SubSteps.mono {allowed' : Storage → UpsertCall → Prop} (hsub : ∀ u call, allowed u call → allowed' u call)
    (hs : SubSteps env allowed db db') : SubSteps env allowed' db db' :=
  Relation.ReflTransGen.mono (fun _ _ hs => hs.mono hsub) _ _ hs

/-! ## The limit -/

def Limited (maxSubaddresses : Nat) (db : Storage) : Prop := ∀ id, db.subaddressIndexes.count id ≤ maxSubaddresses

theorem Limited.upsert {maxSubaddresses : Nat} (h : Subs env db) (hlim : Limited maxSubaddresses db)
    (howner : Owner db call.id call.address call.viewKey) (hmax : call.maxSubaddr = maxSubaddresses) :
    Limited maxSubaddresses (call.apply env db) := by
  obtain ⟨hup, hcount⟩ := @doUpsert_upserted env call.id call.address call.viewKey call.maxSubaddr db.subaddressRanges
    db.subaddressIndexes call.entries
  intro id
  by_cases e : id = call.id
  · rw [e, ← hmax]
    exact hcount (h.ownRows howner) (hmax ▸ hlim _)
  · exact (Table.count_le_of_subset fun v hv => (hup.otherIndexes (id, v) e).mp hv).trans (hlim id)

theorem SubStep.limited {maxSubaddresses : Nat}
    (hs : SubStep env (fun _ call => call.maxSubaddr = maxSubaddresses) db db')
    (h : Subs env db) (hlim : Limited maxSubaddresses db) : Limited maxSubaddresses db' := by
  cases hs with
  | kept _ _ _ hi =>
    intro id
    rw [hi]
    exact hlim id
  | upsert howner hmax => exact hlim.upsert h howner hmax
  | @create user call hc hagree _ hid haddr hkey hmax =>
    obtain ⟨hsubs, howner⟩ := SubStep.created hc hagree h hid haddr hkey
    exact @Limited.upsert env (added user db) call _ hsubs hlim howner hmax

/-! ## Ranges and index rows -/

/-- The call succeeds, or its merges fit the limit; the merges of an id that has no
    account yet have no rows to merge with. -/
def UpsertCall.Safe (env : Env) (db : Storage) (call : UpsertCall) : Prop :=
  (∃ out, (call.on env db).result = .ok out) ∨
    ((call.entries.map (·.1)).Nodup ∧ ((∀ r ∈ db.accounts, r.2.id ≠ call.id) ∨
      upsertFits call.maxSubaddr call.id db.subaddressRanges db.subaddressIndexes call.entries = true))

/-- What `db` covers and lists, `db'` does. -/
structure Grows (db db' : Storage) : Prop where
  ranged : ∀ id i, Ranged db.subaddressRanges id i → Ranged db'.subaddressRanges id i
  listed : ∀ id i, Listed db.subaddressIndexes id i → Listed db'.subaddressIndexes id i

theorem Grows.refl (db : Storage) : Grows db db := ⟨fun _ _ h => h, fun _ _ h => h⟩

theorem Grows.trans {mid : Storage} (h : Grows db mid) (h' : Grows mid db') : Grows db db' :=
  ⟨fun id i hr => h'.ranged id i (h.ranged id i hr), fun id i hl => h'.listed id i (h.listed id i hl)⟩

theorem mergesFit_of_no_rows {maxSubaddr id : Nat} {ranges : SubaddressRanges} (hno : ∀ x, (id, x) ∉ ranges) :
    ∀ (entries : List SubaddressDict) (count : Nat), mergesFit maxSubaddr id ranges count entries = true := by
  intro entries
  induction entries with
  | nil => intro count; rfl
  | cons entry entries ih =>
    intro count
    unfold mergesFit
    split
    · rw [Table.get?_eq_none.mpr fun w hw => absurd hw (hno w)]
      rfl
    · exact ih _

theorem UpsertCall.apply_exact
    (hsafe : (∃ out, (call.on env db).result = .ok out) ∨ ((call.entries.map (·.1)).Nodup ∧
      upsertFits call.maxSubaddr call.id db.subaddressRanges db.subaddressIndexes call.entries = true))
    (hback : ∀ id, Backed id db.subaddressRanges db.subaddressIndexes) :
    (∀ id, Backed id (call.apply env db).subaddressRanges (call.apply env db).subaddressIndexes) ∧
      Grows db (call.apply env db) := by
  obtain ⟨hup, -⟩ := @doUpsert_upserted env call.id call.address call.viewKey call.maxSubaddr db.subaddressRanges
    db.subaddressIndexes call.entries
  obtain ⟨hb, hr⟩ := doUpsert_exact hsafe.symm
  have hranged : ∀ id i, Ranged db.subaddressRanges id i → Ranged (call.apply env db).subaddressRanges id i := by
    intro id i hi
    by_cases e : id = call.id
    · rw [e] at hi ⊢
      exact hr i hi
    · obtain ⟨d, hd, hc⟩ := hi
      exact ⟨d, (hup.otherRanges _ e).mpr hd, hc⟩
  refine ⟨fun id v hv => ?_, hranged, fun id i ⟨v, hv, he⟩ => ⟨v, hup.grows _ hv, he⟩⟩
  by_cases e : id = call.id
  · rw [e] at hv ⊢
    exact hb (hback call.id) v hv
  · exact hranged id _ (hback id v ((hup.otherIndexes _ e).mp hv))

theorem SubStep.backed (hs : SubStep env (UpsertCall.Safe env) db db') (h : Subs env db)
    (hback : ∀ id, Backed id db.subaddressRanges db.subaddressIndexes) :
    (∀ id, Backed id db'.subaddressRanges db'.subaddressIndexes) ∧ Grows db db' := by
  cases hs with
  | kept _ _ hr hi =>
    rw [hr, hi]
    refine ⟨hback, fun id i hri => ?_, fun id i hli => ?_⟩
    · rw [hr]
      exact hri
    · rw [hi]
      exact hli
  | upsert howner hsafe =>
    refine UpsertCall.apply_exact (hsafe.imp_right fun ⟨hnd, hfit⟩ => ⟨hnd, hfit.resolve_left fun hno => ?_⟩) hback
    obtain ⟨r, hr, hid, -, -⟩ := howner
    exact hno r hr hid
  | @create user call hc hagree hfree hid haddr hkey hsafe =>
    obtain ⟨hno, -⟩ := @Subs.no_rows env db h call.id (by rw [hid]; exact hfree)
    have hfit : upsertFits call.maxSubaddr call.id db.subaddressRanges db.subaddressIndexes call.entries = true := by
      unfold upsertFits
      rw [mergesFit_of_no_rows hno, Bool.or_true]
    obtain ⟨hb, hg⟩ := UpsertCall.apply_exact (hsafe.imp_right fun hn => ⟨hn.1, hfit⟩) hback
    exact ⟨hb, hg.ranged, hg.listed⟩

end Steps

end Lws.Db
