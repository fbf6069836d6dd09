/-
  Lws.Db.Landing — what `update` writes, as a function of the rows before it.

  The accounts of a batch are stored one after the other, but each only looks at its own
  rows: which of them are raised is known from the start (`Raised`), the rows they bring
  are added where their keys are free (`Lands`), and an update of the accounts goes
  through if and only if each finds what it looks up (`Serves`).
-/

import Lws.Db.Extend
import Lws.Db.Hooks
import Lws.Db.Records

namespace Lws.Db

open Lws.Lmdb

/-! ## The account an entry of a batch is for -/

/-- `update` finds an account of this status: it is active, or its address is known. -/
def Sees (ba : AccountsByAddress) (user : Lws.Account) (st : AccountStatus) : Prop :=
  st = .active ∨ (ba.get? () user.address.viewPublic).map (·.lookup.status) = some st

/-- The entry raises the account: it was scanned from where the account stands, or before,
    and further. -/
def Raises (ba : AccountsByAddress) (lastUpdate : Nat) (user : Lws.Account) (r : AccountStatus × Account) : Prop :=
  r.2.id = user.id ∧ Sees ba user r.1 ∧ user.scanHeight ≤ r.2.scanHeight ∧ r.2.scanHeight < lastUpdate

instance (ba : AccountsByAddress) (user : Lws.Account) (st : AccountStatus) : Decidable (Sees ba user st) :=
  inferInstanceAs (Decidable (_ ∨ _))

instance (ba : AccountsByAddress) (lastUpdate : Nat) (user : Lws.Account) (r : AccountStatus × Account) :
    Decidable (Raises ba lastUpdate user r) := inferInstanceAs (Decidable (_ ∧ _ ∧ _ ∧ _))

def Raised (lastUpdate : Nat) (users : List Lws.Account) (db : Storage) (user : Lws.Account) : Prop :=
  user ∈ users ∧ ∃ r ∈ db.accounts, Raises db.accountsBa lastUpdate user r

def raisedTo (ba : AccountsByAddress) (lastUpdate : Nat) (users : List Lws.Account) (st : AccountStatus) (a : Account) :
    Account :=
  if ∃ u ∈ users, Raises ba lastUpdate u (st, a) then { a with scanHeight := lastUpdate } else a

theorem raisedTo_id (ba : AccountsByAddress) (lastUpdate : Nat) (users : List Lws.Account) (st : AccountStatus)
    (a : Account) :
    (raisedTo ba lastUpdate users st a).id = a.id := by
  unfold raisedTo
  split <;> rfl

section Existing

variable {env : Env} {db : Storage} {user : Lws.Account}

theorem existingAccount_iff (hagree : db.Agree env) {st : AccountStatus} {a : Account} :
    existingAccount db user = .ok (some (st, a)) ↔ (st, a) ∈ db.accounts ∧ a.id = user.id ∧ Sees db.accountsBa user st := by
  refine ⟨fun h => ?_, fun ⟨ha, hid, hsees⟩ => ?_⟩
  · refine ⟨(existingAccount_ok h).1, (existingAccount_ok h).2, ?_⟩
    unfold existingAccount at h
    split at h
    · cases h
      exact Or.inl rfl
    · split at h
      · cases h
      · rename_i b hb
        obtain ⟨e, -, h⟩ := bind_ok.mp h
        cases h
        exact Or.inr (by rw [hb]; rfl)
  · unfold existingAccount
    rcases hactive : db.accounts.get? .active user.id with _ | e
    · have hne : st ≠ .active := by
        rintro rfl
        exact Table.get?_eq_none.mp hactive a ha hid
      obtain ⟨b, hb, rfl⟩ := Option.map_eq_some_iff.mp (hsees.resolve_left hne)
      simp only [hb, require_ok.mpr ⟨ha, hid⟩, bind, Except.bind]
    · obtain ⟨he, heid⟩ := Table.get?_eq_some.mp hactive
      cases hagree.ids _ he _ ha (heid.trans hid.symm)
      rfl

/-- The lookups of `update` find the account or nothing. -/
def Finds (db : Storage) (user : Lws.Account) : Prop :=
  (db.accounts.get? .active user.id).isSome = true ∨
    ∀ b ∈ db.accountsBa.get? () user.address.viewPublic, (db.accounts.get? b.lookup.status user.id).isSome = true

theorem finds_iff : Finds db user ↔ ∃ x, existingAccount db user = .ok x := by
  unfold Finds existingAccount
  rcases db.accounts.get? .active user.id with _ | e
  · rcases db.accountsBa.get? () user.address.viewPublic with _ | b
    · exact ⟨fun _ => ⟨_, rfl⟩, fun _ => Or.inr fun _ hb => (by cases hb)⟩
    · simp only [Option.isSome_none, Bool.false_eq_true, false_or, Option.mem_def, Option.some.injEq, forall_eq']
      unfold require
      rcases db.accounts.get? b.lookup.status user.id with _ | e
      · exact ⟨fun h => (by cases h), fun ⟨x, hx⟩ => (by cases hx)⟩
      · exact ⟨fun _ => ⟨_, rfl⟩, fun _ => rfl⟩
  · exact ⟨fun _ => ⟨_, rfl⟩, fun _ => Or.inl rfl⟩

end Existing

/-! ## What an entry looks up -/

/-- The output a spend is of is stored, at its height or below. -/
def SourcesFound (outputs : Outputs) (user : Lws.Account) : Prop :=
  ∀ s ∈ user.spends, ∃ o, (user.id, o) ∈ outputs ∧ o.spendMeta.id = s.source ∧ o.link.height ≤ s.link.height

theorem findSource_ok {s : Spend} : ∀ {outputs : List Output}, outputs.Pairwise (fun o p => o.sort < p.sort) →
    (∃ o ∈ outputs, o.spendMeta.id = s.source ∧ o.link.height ≤ s.link.height) → ∃ m, findSource s outputs = .ok m := by
  intro outputs
  induction outputs with
  | nil =>
    intro _ ⟨o, ho, _⟩
    cases ho
  | cons out outputs ih =>
    intro hsorted ⟨o, ho, hid, hle⟩
    rw [List.pairwise_cons] at hsorted
    unfold findSource
    by_cases he : out.spendMeta.id = s.source
    · exact ⟨_, if_pos he⟩
    · rw [if_neg he]
      rcases List.mem_cons.mp ho with rfl | ho
      · exact absurd hid he
      · have hheight := output_sort_height (hsorted.1 o ho)
        rw [if_neg (by omega)]
        exact ih hsorted.2 ⟨o, ho, hid, hle⟩

theorem mapM_ok {α β : Type} {f : α → Except Error β} : ∀ {xs : List α}, (∀ x ∈ xs, ∃ y, f x = .ok y) →
    ∃ ys, xs.mapM f = .ok ys := by
  intro xs
  induction xs with
  | nil => intro _; exact ⟨[], rfl⟩
  | cons x xs ih =>
    intro h
    rw [List.forall_mem_cons] at h
    obtain ⟨y, hy⟩ := h.1
    obtain ⟨ys, hys⟩ := ih h.2
    refine ⟨y :: ys, ?_⟩
    rw [List.mapM_cons, hy]
    simp only [bind, Except.bind, hys, pure, Except.pure]

theorem checkSpends_succeeds {outputs : Outputs} {user : Lws.Account} (h : SourcesFound outputs user)
    (webhooks : Webhooks) :
    ∃ out, checkSpends webhooks outputs user = .ok out := by
  unfold checkSpends
  dsimp only
  split
  · exact ⟨_, rfl⟩
  · have hhook : ∀ hook ∈ webhooks.dups ⟨user.id, .txSpend⟩, ∃ pubs, (user.spends.mapM fun s => do
        let source ← findSource s (outputs.dups user.id)
        .ok (⟨⟨user.id, .txSpend⟩, hook, s, source⟩ : WebhookTxSpend)) = .ok pubs := by
      intro hook _
      refine mapM_ok fun s hs => ?_
      obtain ⟨o, ho, hid, hle⟩ := h s hs
      obtain ⟨m, hm⟩ := findSource_ok (outputs.dups_sorted user.id) ⟨o, Table.mem_dups.mpr ho, hid, hle⟩
      exact ⟨_, bind_ok.mpr ⟨m, hm, rfl⟩⟩
    obtain ⟨pubs, hpubs⟩ := mapM_ok hhook
    exact ⟨_, bind_ok.mpr ⟨pubs, hpubs, rfl⟩⟩

/-- More outputs and a later start leave less to look up. -/
theorem HooksFound.mono {webhooks : Webhooks} {outputs outputs' : Outputs} {user begin_ begin_' end_ : Nat}
    {e : WebhookEvent} (h : HooksFound webhooks outputs user begin_ end_ e) (hle : begin_ ≤ begin_')
    (hsub : ∀ o, (user, o) ∈ outputs → ∃ p, (user, p) ∈ outputs' ∧ p.sort = o.sort) :
    HooksFound webhooks outputs' user begin_' end_ e := by
  intro hlt
  obtain ⟨hhook, o, ho, hs⟩ := h (by omega)
  obtain ⟨p, hp, hps⟩ := hsub o ho
  exact ⟨hhook, p, hp, hps.trans hs⟩

/-- The event of an output of the entry finds its webhook and its output. -/
theorem hooksFound_new {webhooks : Webhooks} {outputs : Outputs} {user : Nat} {e : WebhookEvent} {o : Output}
    (he : e ∈ hookEvents webhooks user o) (ho : ∃ p, (user, p) ∈ outputs ∧ p.sort = o.sort) (begin_ end_ : Nat) :
    HooksFound webhooks outputs user begin_ end_ e := by
  obtain ⟨hlink, -, hdata⟩ := mem_hookEvents.mp he
  intro _
  rw [hlink]
  exact ⟨hdata, ho⟩

/-- What the entries of a batch look up is stored. -/
structure Serves (height lastUpdate : Nat) (users : List Lws.Account) (db : Storage) : Prop where
  finds : ∀ u ∈ users, Finds db u
  hooks : ∀ u ∈ users, ∀ r ∈ db.accounts, Raises db.accountsBa lastUpdate u r → ∀ e, (u.id, e) ∈ db.events →
    HooksFound db.webhooks (db.outputs.putAllAbsent u.id u.outputs) u.id (ongoingStart height r.2) (lastUpdate + 1) e
  sources : ∀ u ∈ users, ∀ r ∈ db.accounts, Raises db.accountsBa lastUpdate u r →
    SourcesFound (db.outputs.putAllAbsent u.id u.outputs) u

section User

variable {env : Env} {db db' : Storage} {user : Lws.Account} {height lastUpdate : Nat}

/-- One entry: it raises no account and changes nothing, or raises the one it is for. -/
theorem updateUserNow_raises {out out' : Updated} (hagree : db.Agree env)
    (h : updateUserNow height lastUpdate user out db = .ok (db', out')) :
    (db' = db ∧ ∀ r ∈ db.accounts, ¬ Raises db.accountsBa lastUpdate user r) ∨
      ∃ st a events pubs, (st, a) ∈ db.accounts ∧ Raises db.accountsBa lastUpdate user (st, a) ∧
        addOngoingHooks db.webhooks (db.outputs.putAllAbsent user.id user.outputs) user.id (ongoingStart height a)
          (lastUpdate + 1) out.confirmPubs (checkHooks db.webhooks user db.events) = .ok (pubs, events) ∧
        db' = (raised lastUpdate user st a events db).withHeights lastUpdate [⟨user.id, st⟩] := by
  rcases updateUserNow_cases h with ⟨rfl, -, hskip⟩ | ⟨st, a, l, events, hex, hscan, hlt, -, -, hev, rfl⟩
  · refine Or.inl ⟨rfl, fun r hr ⟨hid, hsees, hle, hlt⟩ => ?_⟩
    have := hskip r.1 r.2 ((existingAccount_iff hagree).mpr ⟨hr, hid, hsees⟩)
    omega
  · obtain ⟨ha, hid, hsees⟩ := (existingAccount_iff hagree).mp hex
    exact Or.inr ⟨st, a, events, _, ha, ⟨hid, hsees, hscan, hlt⟩, hev, rfl⟩

theorem updateUserNow_succeeds {users : List Lws.Account} (hagree : db.Agree env) (hu : user ∈ users)
    (h : Serves height lastUpdate users db) (out : Updated) : ∃ res, updateUserNow height lastUpdate user out db = .ok res := by
  obtain ⟨x, hx⟩ := finds_iff.mp (h.finds user hu)
  unfold updateUserNow updateUser
  rw [hx]
  rcases x with _ | ⟨st, a⟩
  · exact ⟨_, rfl⟩
  · obtain ⟨ha, hid, hsees⟩ := (existingAccount_iff hagree).mp hx
    simp only [bind, Except.bind]
    unfold updateExisting
    by_cases hlow : a.scanHeight < user.scanHeight
    · rw [if_pos hlow]
      exact ⟨_, rfl⟩
    · rw [if_neg hlow]
      by_cases hdone : lastUpdate ≤ a.scanHeight
      · simp only [if_pos hdone]
        exact ⟨_, rfl⟩
      · have hraises : Raises db.accountsBa lastUpdate user (st, a) := ⟨hid, hsees, by dsimp only; omega, by dsimp only; omega⟩
        have hrow : require db.accountsBh a.scanHeight user.id = .ok ⟨a.id, st⟩ := require_ok.mpr ⟨hagree.byHeight st a ha, hid⟩
        have hfound : ∀ e, (user.id, e) ∈ checkHooks db.webhooks user db.events → HooksFound db.webhooks
            (db.outputs.putAllAbsent user.id user.outputs) user.id (ongoingStart height a) (lastUpdate + 1) e := by
          intro e he
          rcases mem_checkHooks.mp he with he | ⟨-, o, ho, he⟩
          · exact h.hooks user hu _ ha hraises e he
          · exact hooksFound_new he (Table.putAllAbsent_stores ho) _ _
        obtain ⟨⟨pubs, events⟩, hongoing⟩ := addOngoingHooks_succeeds hfound out.confirmPubs
        obtain ⟨spendPubs, hspends⟩ := checkSpends_succeeds (h.sources user hu _ ha hraises) db.webhooks
        unfold ongoingStart at hongoing
        unfold storeUser
        simp only [if_neg hdone, hrow, bulkInsert_noDup, addSpends_eq, hongoing, hspends, bind, Except.bind]
        exact ⟨_, rfl⟩

end User

/-! ## What a batch leaves -/

def Spend.imageRow (s : Spend) : OutputId × ImageRow := (s.source, ⟨s.image, s.link⟩)

theorem imageRow_key {s t : Spend} : rowKey ImageRow.value s.imageRow = rowKey ImageRow.value t.imageRow ↔
    SameImage s t :=
  rowKey_eq

theorem imageRow_eq {s t : Spend} (h : SameImage s t) (hlink : s.link = t.link) : s.imageRow = t.imageRow := by
  unfold Spend.imageRow
  rw [h.1, h.2, hlink]

/-- Rows of the entries that have one key are one row. -/
structure OneRow (users : List Lws.Account) : Prop where
  ids : (users.map (·.id)).Nodup
  outputs : ∀ u ∈ users, ∀ o ∈ u.outputs, ∀ p ∈ u.outputs, o.sort = p.sort → o = p
  spends : ∀ u ∈ users, ∀ s ∈ u.spends, ∀ t ∈ u.spends, s.sort = t.sort → s = t
  images : ∀ u ∈ users, ∀ s ∈ u.spends, ∀ v ∈ users, ∀ t ∈ v.spends, SameImage s t → s.link = t.link

theorem OneRow.tail {user : Lws.Account} {users : List Lws.Account} (h : OneRow (user :: users)) : OneRow users := by
  have hmem : ∀ u ∈ users, u ∈ user :: users := fun u hu => List.mem_cons_of_mem _ hu
  refine ⟨(List.nodup_cons.mp h.ids).2, fun u hu => h.outputs u (hmem u hu), fun u hu => h.spends u (hmem u hu),
    fun u hu s hs v hv => h.images u (hmem u hu) s hs v (hmem v hv)⟩

theorem OneRow.head {user : Lws.Account} {users : List Lws.Account} (h : OneRow (user :: users)) : OneRow [user] := by
  have hmem : ∀ u ∈ [user], u ∈ user :: users := fun u hu => List.mem_singleton.mp hu ▸ List.mem_cons_self
  refine ⟨by simp, fun u hu => h.outputs u (hmem u hu), fun u hu => h.spends u (hmem u hu),
    fun u hu s hs v hv => h.images u (hmem u hu) s hs v (hmem v hv)⟩

theorem OneRow.other {user : Lws.Account} {users : List Lws.Account} (h : OneRow (user :: users)) {u : Lws.Account}
    (hu : u ∈ users) : u.id ≠ user.id := fun e => (List.nodup_cons.mp h.ids).1 (List.mem_map.mpr ⟨u, hu, e⟩)

/-- The database after the entries of `users` are stored. -/
structure Lands (lastUpdate : Nat) (users : List Lws.Account) (db db' : Storage) : Prop where
  accounts : ∀ st a', (st, a') ∈ db'.accounts ↔
    ∃ a, (st, a) ∈ db.accounts ∧ a' = raisedTo db.accountsBa lastUpdate users st a
  outputs : Table.Adds (fun r => ∃ u, Raised lastUpdate users db u ∧ r.1 = u.id ∧ r.2 ∈ u.outputs) db.outputs db'.outputs
  spends : Table.Adds (fun r => ∃ u, Raised lastUpdate users db u ∧ r.1 = u.id ∧ r.2 ∈ u.spends) db.spends db'.spends
  images : Table.Adds (fun r => ∃ u, Raised lastUpdate users db u ∧ ∃ s ∈ u.spends, r = s.imageRow) db.images db'.images
  events : ∀ r ∈ db'.events, r ∈ db.events ∨
    ∃ u, Raised lastUpdate users db u ∧ r.1 = u.id ∧ ∃ o ∈ u.outputs, r.2 ∈ hookEvents db.webhooks u.id o
  others : ∀ r ∈ db.events, (∀ u, Raised lastUpdate users db u → r.1 ≠ u.id) → r ∈ db'.events
  frame : db'.accountsBa = db.accountsBa ∧ db'.webhooks = db.webhooks

section Lands

variable {env : Env} {db mid db' : Storage} {user : Lws.Account} {users : List Lws.Account} {height lastUpdate : Nat}

/-- Where no entry raises an account, nothing changes. -/
theorem lands_none (h : ∀ u, ¬ Raised lastUpdate users db u) : Lands lastUpdate users db db := by
  have hsame : ∀ st a, (st, a) ∈ db.accounts → raisedTo db.accountsBa lastUpdate users st a = a := by
    intro st a ha
    refine if_neg fun ⟨u, hu, hr⟩ => h u ⟨hu, _, ha, hr⟩
  refine ⟨fun st a' => ⟨fun ha => ⟨a', ha, (hsame st a' ha).symm⟩, ?_⟩, ?_, ?_, ?_, fun r hr => Or.inl hr,
    fun r hr _ => hr, rfl, rfl⟩
  · intro hx
    obtain ⟨a, ha, rfl⟩ := hx
    rwa [hsame st a ha]
  · exact Table.adds_none (fun r ⟨u, hu, _⟩ => h u hu) _
  · exact Table.adds_none (fun r ⟨u, hu, _⟩ => h u hu) _
  · exact Table.adds_none (fun r ⟨u, hu, _⟩ => h u hu) _

theorem lands_one {out out' : Updated} (hagree : db.Agree env) (hone : OneRow [user])
    (h : updateUserNow height lastUpdate user out db = .ok (db', out')) : Lands lastUpdate [user] db db' := by
  rcases updateUserNow_raises hagree h with ⟨rfl, hnone⟩ | ⟨st, a, events, pubs, ha, hraises, hev, rfl⟩
  · refine lands_none ?_
    intro u ⟨hu, r, hr, hraises⟩
    rw [List.mem_singleton.mp hu] at hraises
    exact hnone r hr hraises
  · have hself : user ∈ [user] := List.mem_singleton_self _
    have hraised : ∀ u, Raised lastUpdate [user] db u ↔ u = user := by
      refine fun u => ⟨fun hu => List.mem_singleton.mp hu.1, ?_⟩
      rintro rfl
      exact ⟨hself, _, ha, hraises⟩
    have hto : ∀ st' b, (st', b) ∈ db.accounts → raisedTo db.accountsBa lastUpdate [user] st' b =
        if b.id = user.id then { a with scanHeight := lastUpdate } else b := by
      intro st' b hb
      unfold raisedTo
      by_cases e : b.id = user.id
      · cases hagree.ids _ hb _ ha (e.trans hraises.1.symm)
        rw [if_pos ⟨user, hself, hraises⟩, if_pos e]
      · rw [if_neg e, if_neg]
        intro ⟨u, hu, hr⟩
        rw [List.mem_singleton.mp hu] at hr
        exact e hr.1
    refine ⟨fun st' a' => ?_, ?_, ?_, ?_, fun r hr => ?_, fun r hr hne => ?_, rfl, rfl⟩
    · show (st', a') ∈ db.accounts.put st { a with scanHeight := lastUpdate } ↔ _
      rw [Table.mem_put]
      refine ⟨fun hr => ?_, ?_⟩
      · rcases hr with hr | ⟨hr, hne⟩
        · cases hr
          exact ⟨a, ha, by rw [hto st a ha, if_pos hraises.1]⟩
        · refine ⟨a', hr, ?_⟩
          rw [hto st' a' hr, if_neg]
          intro e
          cases hagree.ids _ hr _ ha (e.trans hraises.1.symm)
          exact hne ⟨rfl, rfl⟩
      · intro hx
        obtain ⟨b, hb, rfl⟩ := hx
        rw [hto st' b hb]
        by_cases e : b.id = user.id
        · cases hagree.ids _ hb _ ha (e.trans hraises.1.symm)
          exact Or.inl (by rw [if_pos e])
        · rw [if_neg e]
          exact Or.inr ⟨hb, fun hs => e (hs.2.trans hraises.1)⟩
    · refine (Table.adds_putAllAbsent (hone.outputs user hself) db.outputs user.id).congr fun r => ?_
      simp only [hraised, exists_eq_left]
    · refine (Table.adds_putAllAbsent (hone.spends user hself) db.spends user.id).congr fun r => ?_
      simp only [hraised, exists_eq_left]
    · refine (Table.adds_fold Spend.imageRow user.spends db.images fun s hs t ht he => ?_).congr fun r => ?_
      · have hsame := imageRow_key.mp he
        exact imageRow_eq hsame (hone.images user hself s hs user hself t ht hsame)
      · simp only [hraised, exists_eq_left]
    · obtain ⟨-, -, hmem⟩ := addOngoingHooks_ok hev
      rcases mem_checkHooks.mp ((hmem r).mp hr).1 with hr | ⟨hid, o, ho, he⟩
      · exact Or.inl hr
      · exact Or.inr ⟨user, (hraised user).mpr rfl, hid, o, ho, he⟩
    · obtain ⟨-, -, hmem⟩ := addOngoingHooks_ok hev
      refine (hmem r).mpr ⟨mem_checkHooks.mpr (Or.inl hr), fun hdone => ?_⟩
      exact hne user ((hraised user).mpr rfl) hdone.1

/-- The rows of an account that the entry is not for are as they were. -/
theorem Lands.other (h : Lands lastUpdate [user] db mid) {id : Nat} (hne : id ≠ user.id) {r : AccountStatus × Account}
    (hid : r.2.id = id) : r ∈ mid.accounts ↔ r ∈ db.accounts := by
  have hsame : ∀ a : Account, a.id = id → raisedTo db.accountsBa lastUpdate [user] r.1 a = a := by
    intro a ha
    refine if_neg ?_
    intro ⟨u, hu, hr⟩
    rw [List.mem_singleton.mp hu] at hr
    exact hne (ha.symm.trans hr.1)
  refine (h.accounts r.1 r.2).trans ⟨?_, fun hr => ⟨r.2, hr, (hsame r.2 hid).symm⟩⟩
  intro ⟨a, ha, he⟩
  have haid : a.id = id := by
    rw [← hid, he, raisedTo_id]
  rw [hsame a haid] at he
  rw [← he] at ha
  exact ha

theorem Lands.raised (h : Lands lastUpdate [user] db mid) (hother : ∀ u ∈ users, u.id ≠ user.id) (u : Lws.Account) :
    Raised lastUpdate users mid u ↔ Raised lastUpdate users db u := by
  unfold Raised
  rw [h.frame.1]
  refine and_congr_right fun hu => exists_congr fun r => ⟨fun hr => ?_, fun hr => ?_⟩
  · exact ⟨(h.other (hother u hu) hr.2.1).mp hr.1, hr.2⟩
  · exact ⟨(h.other (hother u hu) hr.2.1).mpr hr.1, hr.2⟩

theorem raised_cons (u : Lws.Account) :
    Raised lastUpdate (user :: users) db u ↔ Raised lastUpdate [user] db u ∨ Raised lastUpdate users db u := by
  simp only [Raised, List.mem_cons, List.not_mem_nil, or_false, or_and_right]

theorem raisedTo_cons (hother : ∀ u ∈ users, u.id ≠ user.id) (ba : AccountsByAddress) (st : AccountStatus)
    (a : Account) :
    raisedTo ba lastUpdate (user :: users) st a =
      raisedTo ba lastUpdate users st (raisedTo ba lastUpdate [user] st a) := by
  by_cases e : Raises ba lastUpdate user (st, a)
  · have hone : raisedTo ba lastUpdate [user] st a = { a with scanHeight := lastUpdate } :=
      if_pos ⟨user, List.mem_singleton_self _, e⟩
    rw [hone]
    unfold raisedTo
    rw [if_pos ⟨user, List.mem_cons_self, e⟩, if_neg]
    intro ⟨u, hu, hr⟩
    exact hother u hu (hr.1.symm.trans e.1)
  · have hone : raisedTo ba lastUpdate [user] st a = a := by
      refine if_neg ?_
      intro ⟨u, hu, hr⟩
      rw [List.mem_singleton.mp hu] at hr
      exact e hr
    rw [hone]
    unfold raisedTo
    simp only [List.mem_cons, exists_eq_or_imp, e, false_or]

theorem Lands.cons (hone : OneRow (user :: users)) (h : Lands lastUpdate [user] db mid)
    (h' : Lands lastUpdate users mid db') :
    Lands lastUpdate (user :: users) db db' := by
  have hother := fun u hu => hone.other (u := u) hu
  have hraised : ∀ u, Raised lastUpdate users mid u ↔ Raised lastUpdate users db u := h.raised hother
  have hcons := fun u => @raised_cons db user users lastUpdate u
  have hfirst : ∀ {u}, Raised lastUpdate [user] db u → u = user := fun hu => List.mem_singleton.mp hu.1
  obtain ⟨hba, hhooks⟩ := h.frame
  refine ⟨fun st a' => ?_, ?_, ?_, ?_, fun r hr => ?_, fun r hr hne => ?_, ?_⟩
  · rw [h'.accounts, hba]
    refine ⟨?_, ?_⟩
    · intro hx
      obtain ⟨a, ha, rfl⟩ := hx
      obtain ⟨b, hb, rfl⟩ := (h.accounts st a).mp ha
      exact ⟨b, hb, (raisedTo_cons hother _ st b).symm⟩
    · intro hx
      obtain ⟨b, hb, rfl⟩ := hx
      exact ⟨_, (h.accounts st _).mpr ⟨b, hb, rfl⟩, raisedTo_cons hother _ st b⟩
  · refine (h.outputs.trans h'.outputs ?_).congr fun r => ?_
    · intro r q ⟨u, hu, hru, _⟩ ⟨v, hv, hqv, _⟩ he
      have hkey := (rowKey_eq.mp he).1
      rw [hru, hqv, hfirst hu] at hkey
      exact absurd hkey.symm (hother v hv.1)
    · simp only [hraised, hcons, or_and_right, exists_or]
  · refine (h.spends.trans h'.spends ?_).congr fun r => ?_
    · intro r q ⟨u, hu, hru, _⟩ ⟨v, hv, hqv, _⟩ he
      have hkey := (rowKey_eq.mp he).1
      rw [hru, hqv, hfirst hu] at hkey
      exact absurd hkey.symm (hother v hv.1)
    · simp only [hraised, hcons, or_and_right, exists_or]
  · refine (h.images.trans h'.images ?_).congr fun r => ?_
    · intro r q hr hq he
      obtain ⟨u, hu, s, hs, rfl⟩ := hr
      obtain ⟨v, hv, t, ht, rfl⟩ := hq
      have hsame := imageRow_key.mp he
      rw [hfirst hu] at hs
      exact imageRow_eq hsame (hone.images user List.mem_cons_self s hs v (List.mem_cons_of_mem _ hv.1) t ht hsame)
    · simp only [hraised, hcons, or_and_right, exists_or]
  · rcases h'.events r hr with hr | ⟨v, hv, hrest⟩
    · refine (h.events r hr).imp id ?_
      intro ⟨u, hu, hrest⟩
      exact ⟨u, (hcons u).mpr (Or.inl hu), hrest⟩
    · rw [hhooks] at hrest
      exact Or.inr ⟨v, (hcons v).mpr (Or.inr ((hraised v).mp hv)), hrest⟩
  · refine h'.others r (h.others r hr fun u hu => hne u ((hcons u).mpr (Or.inl hu))) fun u hu => ?_
    exact hne u ((hcons u).mpr (Or.inr ((hraised u).mp hu)))
  · exact ⟨h'.frame.1.trans hba, h'.frame.2.trans hhooks⟩

/-- The same accounts are there. -/
theorem Lands.isSome (h : Lands lastUpdate users db db') (st : AccountStatus) (id : Nat) :
    (db'.accounts.get? st id).isSome = (db.accounts.get? st id).isSome := by
  have hiff : (∃ a, db'.accounts.get? st id = some a) ↔ ∃ a, db.accounts.get? st id = some a := by
    simp only [Table.get?_eq_some, h.accounts]
    refine ⟨?_, ?_⟩
    · intro hx
      obtain ⟨a', ⟨a, ha, rfl⟩, hid⟩ := hx
      exact ⟨a, ha, (raisedTo_id _ _ _ _ a).symm.trans hid⟩
    · intro ⟨a, ha, hid⟩
      exact ⟨_, ⟨a, ha, rfl⟩, (raisedTo_id _ _ _ _ a).trans hid⟩
  rw [Bool.eq_iff_iff, Option.isSome_iff_exists, Option.isSome_iff_exists]
  exact hiff

theorem Lands.finds (h : Lands lastUpdate users db db') (u : Lws.Account) : Finds db' u ↔ Finds db u := by
  unfold Finds
  rw [h.isSome, h.frame.1]
  simp only [h.isSome]

/-- The stored keys of an account stay stored under the outputs of an entry. -/
theorem stored_mono {outputs outputs' : Outputs} {id : Nat} {found : List Output}
    (hsub : ∀ o, (id, o) ∈ outputs → ∃ p, (id, p) ∈ outputs' ∧ p.sort = o.sort) (o : Output)
    (ho : (id, o) ∈ outputs.putAllAbsent id found) : ∃ p, (id, p) ∈ outputs'.putAllAbsent id found ∧ p.sort = o.sort := by
  rcases Table.mem_putAllAbsent ho with ho | ⟨-, ho⟩
  · obtain ⟨p, hp, hs⟩ := hsub o ho
    exact ⟨p, Table.mem_putAllAbsent_of_mem hp, hs⟩
  · exact Table.putAllAbsent_stores ho

theorem SourcesFound.mono {outputs outputs' : Outputs} {u : Lws.Account} (h : SourcesFound outputs u)
    (hsub : ∀ o, (u.id, o) ∈ outputs → ∃ p, (u.id, p) ∈ outputs' ∧ p.sort = o.sort) : SourcesFound outputs' u := by
  intro s hs
  obtain ⟨o, ho, hid, hle⟩ := h s hs
  obtain ⟨p, hp, hsort⟩ := hsub o ho
  obtain ⟨hlink, hpid⟩ := Prod.mk.inj (toLex.injective hsort)
  exact ⟨p, hp, hpid.trans hid, by rw [hlink]; exact hle⟩

theorem updateUserNow_agree {out out' : Updated} (hagree : db.Agree env)
    (h : updateUserNow height lastUpdate user out db = .ok (db', out')) : db'.Agree env := by
  rcases @updateUserNow_change env _ _ _ _ _ _ _ h with rfl | hc
  · exact hagree
  · exact agree_change hagree (fun e => (by cases e)) hc

theorem updateUsersNow_lands : ∀ (users : List Lws.Account) {db db' : Storage} {out out' : Updated}, db.Agree env →
    OneRow users → updateUsersNow height lastUpdate users out db = .ok (db', out') → Lands lastUpdate users db db' := by
  intro users
  induction users with
  | nil =>
    intro db db' out out' _ _ h
    cases h
    exact lands_none fun u hu => (by cases hu.1)
  | cons user users ih =>
    intro db db' out out' hagree hone h
    unfold updateUsersNow at h
    obtain ⟨⟨mid, out₁⟩, hu, hrest⟩ := bind_ok.mp h
    exact Lands.cons hone (lands_one hagree hone.head hu) (ih (updateUserNow_agree hagree hu) hone.tail hrest)

/-- The outputs of another account are the same before and after an entry. -/
theorem Lands.outputs_other (h : Lands lastUpdate [user] db mid) {id : Nat} (hne : id ≠ user.id) (o : Output) :
    (id, o) ∈ mid.outputs ↔ (id, o) ∈ db.outputs := by
  refine (h.outputs _).trans ⟨fun ho => ho.resolve_right ?_, Or.inl⟩
  intro ⟨⟨u, hu, hid, _⟩, _⟩
  rw [List.mem_singleton.mp hu.1] at hid
  exact hne hid

theorem Lands.events_other (h : Lands lastUpdate [user] db mid) {id : Nat} (hne : id ≠ user.id) (e : WebhookEvent) :
    (id, e) ∈ mid.events ↔ (id, e) ∈ db.events := by
  have hid : ∀ u, Raised lastUpdate [user] db u → id ≠ u.id := by
    intro u hu he
    rw [List.mem_singleton.mp hu.1] at he
    exact hne he
  refine ⟨fun he => (h.events _ he).resolve_right ?_, fun he => h.others _ he hid⟩
  intro ⟨u, hu, he, _⟩
  exact hid u hu he

/-- What the entries for other accounts look up is still there. -/
theorem Lands.serves_other (h : Lands lastUpdate [user] db mid) (hother : ∀ u ∈ users, u.id ≠ user.id)
    (hs : Serves height lastUpdate users db) : Serves height lastUpdate users mid := by
  have hrow : ∀ u ∈ users, ∀ r ∈ mid.accounts, Raises mid.accountsBa lastUpdate u r →
      r ∈ db.accounts ∧ Raises db.accountsBa lastUpdate u r := by
    intro u hu r hr hraises
    rw [h.frame.1] at hraises
    exact ⟨(h.other (hother u hu) hraises.1).mp hr, hraises⟩
  have hsub : ∀ u ∈ users, ∀ o, (u.id, o) ∈ db.outputs → ∃ p, (u.id, p) ∈ mid.outputs ∧ p.sort = o.sort :=
    fun u hu o ho => ⟨o, (h.outputs_other (hother u hu) o).mpr ho, rfl⟩
  refine ⟨fun u hu => (h.finds u).mpr (hs.finds u hu), fun u hu r hr hraises e he => ?_, fun u hu r hr hraises => ?_⟩
  · obtain ⟨hr', hraises'⟩ := hrow u hu r hr hraises
    have hfound := hs.hooks u hu r hr' hraises' e ((h.events_other (hother u hu) e).mp he)
    rw [h.frame.2]
    exact hfound.mono (Nat.le_refl _) (stored_mono (hsub u hu))
  · obtain ⟨hr', hraises'⟩ := hrow u hu r hr hraises
    exact (hs.sources u hu r hr' hraises').mono (stored_mono (hsub u hu))

theorem updateUsersNow_succeeds : ∀ (users : List Lws.Account) {db : Storage} (out : Updated), db.Agree env →
    OneRow users →
    Serves height lastUpdate users db → ∃ res, updateUsersNow height lastUpdate users out db = .ok res := by
  intro users
  induction users with
  | nil => intro db out _ _ _; exact ⟨_, rfl⟩
  | cons user users ih =>
    intro db out hagree hone hserves
    obtain ⟨⟨mid, out₁⟩, hu⟩ := updateUserNow_succeeds hagree List.mem_cons_self hserves out
    have hlands := lands_one hagree hone.head hu
    have htail : Serves height lastUpdate users db :=
      ⟨fun u hu => hserves.finds u (List.mem_cons_of_mem _ hu), fun u hu => hserves.hooks u (List.mem_cons_of_mem _ hu),
        fun u hu => hserves.sources u (List.mem_cons_of_mem _ hu)⟩
    have hmid := hlands.serves_other (fun u hu => hone.other hu) htail
    obtain ⟨res, hres⟩ := ih out₁ (updateUserNow_agree hagree hu) hone.tail hmid
    exact ⟨res, bind_ok.mpr ⟨_, hu, hres⟩⟩

/-- Where an update went through, each entry found its account or none, and the webhooks
    and outputs of the account's events. -/
theorem updateUsersNow_found : ∀ (users : List Lws.Account) {db db' : Storage} {out out' : Updated}, db.Agree env →
    OneRow users → updateUsersNow height lastUpdate users out db = .ok (db', out') →
      (∀ u ∈ users, Finds db u) ∧ ∀ u ∈ users, ∀ r ∈ db.accounts, Raises db.accountsBa lastUpdate u r → ∀ e,
        (u.id, e) ∈ db.events → HooksFound db.webhooks (db.outputs.putAllAbsent u.id u.outputs) u.id
          (ongoingStart height r.2) (lastUpdate + 1) e := by
  intro users
  induction users with
  | nil =>
    intro db db' out out' _ _ _
    exact ⟨fun u hu => (by cases hu), fun u hu => (by cases hu)⟩
  | cons user users ih =>
    intro db db' out out' hagree hone h
    unfold updateUsersNow at h
    obtain ⟨⟨mid, out₁⟩, hu, hrest⟩ := bind_ok.mp h
    have hlands := lands_one hagree hone.head hu
    obtain ⟨hfinds, hhooks⟩ := ih (updateUserNow_agree hagree hu) hone.tail hrest
    rw [List.forall_mem_cons, List.forall_mem_cons]
    refine ⟨⟨?_, fun u hu => (hlands.finds u).mp (hfinds u hu)⟩, fun r hr hraises e he => ?_, fun u hu r hr hraises e he => ?_⟩
    · unfold updateUserNow updateUser at hu
      obtain ⟨x, hx, -⟩ := bind_ok.mp hu
      obtain ⟨y, hy, -⟩ := bind_ok.mp hx
      exact finds_iff.mpr ⟨y, hy⟩
    · rcases updateUserNow_raises hagree hu with ⟨-, hnone⟩ | ⟨st, a, events, pubs, ha, hraises', hev, -⟩
      · exact absurd hraises (hnone r hr)
      · cases hagree.ids _ hr _ ha (hraises.1.trans hraises'.1.symm)
        exact (addOngoingHooks_ok hev).1 e (mem_checkHooks.mpr (Or.inl he))
    · have hne := hone.other hu
      have hfound := hhooks u hu r ((hlands.other hne hraises.1).mpr hr) (by rw [hlands.frame.1]; exact hraises) e
        ((hlands.events_other hne e).mpr he)
      rw [hlands.frame.2] at hfound
      exact hfound.mono (Nat.le_refl _) (stored_mono fun o ho => ⟨o, (hlands.outputs_other hne o).mp ho, rfl⟩)

end Lands

/-! ## The blocks of a batch -/

/-- The batch reaches the last checkpoint, and its blocks are stored. -/
def StoresChain (env : Env) (regtest : Bool) (lastUpdate : Nat) : Prop := regtest = true ∨ env.maxHeight ≤ lastUpdate

/-- The batch meets the stored blocks, and agrees with the last of them it reaches. -/
structure ChainFits (env : Env) (height : Nat) (chain : List Hash) (regtest : Bool) (blocks : Blocks) : Prop where
  meets : StoresChain env regtest (height + chain.length - 1) → ∃ tip b, lastHeight blocks = .ok tip ∧ height ≤ tip ∧
    b ∈ blocks ∧ b.2.id = min tip (height + chain.length - 1) ∧ chain[b.2.id - height]? = some b.2.hash
  agrees : ¬ StoresChain env regtest (height + chain.length - 1) → ∀ b ∈ blocks, b.2.id = height + chain.length - 1 →
    chain.getLast? = some b.2.hash

section Chain

variable {env : Env} {height : Nat} {chain : List Hash} {pow : List PowSync} {regtest : Bool} {db db' : Storage}

theorem storesChain_iff {lastUpdate : Nat} :
    (regtest || decide (env.maxHeight ≤ lastUpdate)) = true ↔ StoresChain env regtest lastUpdate := by
  unfold StoresChain
  simp

theorem updateChain_fits (h : updateChain env height chain pow regtest db = .ok db') :
    ChainFits env height chain regtest db.blocks := by
  unfold updateChain at h
  dsimp only at h
  refine ⟨fun hs => ?_, fun hs b hb hid => ?_⟩
  · rw [if_pos (storesChain_iff.mpr hs)] at h
    obtain ⟨tip, htip, h⟩ := bind_ok.mp h
    by_cases hlow : tip < height
    · rw [if_pos hlow] at h
      cases h
    · rw [if_neg hlow] at h
      obtain ⟨hash, hhash, h⟩ := bind_ok.mp h
      refine ⟨tip, _, htip, Nat.le_of_not_lt hlow, getBlockHash_ok hhash, rfl, ?_⟩
      by_contra hne
      rw [if_pos hne] at h
      cases h
  · rw [if_neg fun e => hs (storesChain_iff.mp e)] at h
    rw [Table.get?_eq_some.mpr ⟨hb, hid⟩] at h
    by_contra hne
    simp only [if_pos hne] at h
    cases h

theorem updateChain_succeeds (h : ChainFits env height chain regtest db.blocks) :
    ∃ db', updateChain env height chain pow regtest db = .ok db' := by
  unfold updateChain
  dsimp only
  by_cases hs : StoresChain env regtest (height + chain.length - 1)
  · obtain ⟨tip, b, htip, hle, hb, hid, hhash⟩ := h.meets hs
    have hget : getBlockHash db.blocks (min tip (height + chain.length - 1)) = .ok b.2.hash := by
      unfold getBlockHash
      rw [require_ok.mpr ⟨hb, hid⟩]
      rfl
    rw [hid] at hhash
    rw [if_pos (storesChain_iff.mpr hs)]
    simp only [htip, if_neg (Nat.not_lt.mpr hle), hget, bind, Except.bind]
    rw [if_neg (not_not.mpr hhash)]
    exact ⟨_, rfl⟩
  · rw [if_neg fun e => hs (storesChain_iff.mp e)]
    rcases hb : db.blocks.get? () (height + chain.length - 1) with _ | block
    · exact ⟨_, rfl⟩
    · obtain ⟨hmem, hid⟩ := Table.get?_eq_some.mp hb
      simp only [if_neg (not_not.mpr (h.agrees hs _ hmem hid))]
      exact ⟨_, rfl⟩

/-- What is appended: the hashes past the last block that both have. -/
theorem updateChain_blocks (h : updateChain env height chain pow regtest db = .ok db') :
    (¬ StoresChain env regtest (height + chain.length - 1) → db' = db) ∧
      ∀ tip, lastHeight db.blocks = .ok tip → StoresChain env regtest (height + chain.length - 1) →
        db'.blocks = appendBlockHashes (height + (min tip (height + chain.length - 1) - height) + 1)
          (chain.drop (min tip (height + chain.length - 1) - height + 1)) db.blocks := by
  unfold updateChain at h
  dsimp only at h
  refine ⟨fun hs => ?_, fun tip htip hs => ?_⟩
  · rw [if_neg fun e => hs (storesChain_iff.mp e)] at h
    split at h
    · cases h
      rfl
    · split at h
      · cases h
      · cases h
        rfl
  · rw [if_pos (storesChain_iff.mpr hs), htip] at h
    simp only [bind, Except.bind] at h
    split at h
    · cases h
    · split at h
      · cases h
      · split at h
        · cases h
        · cases h
          rfl

/-- The blocks past the last stored one are added. -/
theorem updateChain_adds {hashes : Nat → Hash} (hne : chain ≠ [])
    (hfrom : ∀ i x, chain[i]? = some x → 0 < height + i → x = hashes (height + i))
    (h : updateChain env height chain pow regtest db = .ok db') :
    Table.Adds (fun r => StoresChain env regtest (height + chain.length - 1) ∧ 0 < r.2.id ∧
      (∀ q ∈ db.blocks, q.2.id < r.2.id) ∧ r.2.id ≤ height + chain.length - 1 ∧ r.2.hash = hashes r.2.id)
      db.blocks db'.blocks := by
  have hlen := List.length_pos_of_ne_nil hne
  obtain ⟨hkeep, happend⟩ := updateChain_blocks h
  by_cases hs : StoresChain env regtest (height + chain.length - 1)
  · obtain ⟨tip, b, htip, hle, -⟩ := (updateChain_fits h).meets hs
    obtain ⟨⟨top, htop, htopid⟩, hmax⟩ := lastHeight_ok htip
    have hlow : chain.drop (min tip (height + chain.length - 1) - height + 1) = [] ∨
        ∀ x ∈ db.blocks, x.2.id < height + (min tip (height + chain.length - 1) - height) + 1 := by
      by_cases e : height + chain.length - 1 ≤ tip
      · exact Or.inl (List.drop_eq_nil_iff.mpr (by omega))
      · refine Or.inr fun x hx => ?_
        have := hmax x hx
        omega
    intro r
    rw [happend tip htip hs, mem_appendBlockHashes hlow]
    refine or_congr_right ⟨?_, ?_⟩
    · intro ⟨i, hi, hx⟩
      rw [List.getElem?_drop] at hx
      have hin := (List.getElem?_eq_some_iff.mp hx).1
      have hhash := hfrom _ _ hx (by omega)
      have habove : ∀ q ∈ db.blocks, q.2.id < r.2.id := by
        intro q hq
        have := hmax q hq
        omega
      refine ⟨⟨hs, by omega, habove, by omega, ?_⟩, fun q hq he => ?_⟩
      · rw [hhash]
        congr 1
        omega
      · exact absurd (rowKey_eq.mp he).2 (habove q hq).ne
    · intro ⟨⟨_, _, habove, hlast, hhash⟩, _⟩
      have hover := habove top htop
      have hin : r.2.id - height < chain.length := by omega
      have hget := List.getElem?_eq_getElem hin
      have hval := hfrom _ _ hget (by omega)
      refine ⟨r.2.id - tip - 1, by omega, ?_⟩
      rw [List.getElem?_drop,
          show min tip (height + chain.length - 1) - height + 1 + (r.2.id - tip - 1) = r.2.id - height by omega,
        hget, hval, hhash]
      congr 2
      omega
  · rw [hkeep hs]
    exact Table.adds_none (fun r hr => hs hr.1) _

theorem lastHeight_of_mem {blocks : Blocks} {b : Version × BlockInfo} (hb : b ∈ blocks) :
    ∃ tip, lastHeight blocks = .ok tip := by
  obtain ⟨cur, hc⟩ := set_of_mem hb
  obtain ⟨-, -, last, hrow, -, -⟩ := lastDup_row hc
  refine ⟨last.2.id, ?_⟩
  unfold lastHeight
  rw [hc]
  simp only [hrow]

end Chain

end Lws.Db
