/-
  Lws.Db.Records — the outputs, spends and images of the accounts, in every state
  reached from honest scans: each row has an account scanned at least that far, each
  image belongs to a stored spend, and one key image is spent at one place.

  An honest scan reports rows of the blocks of its batch, and a transaction of one chain
  spends a key image (`HonestBatch`); the database checks neither.
-/

import Lws.Db.AccountIndexes

namespace Lws.Db

open Lws.Lmdb Lws.Transition

/-- Two spends of one output by one key image. -/
def SameImage (s t : Spend) : Prop := s.source = t.source ∧ s.image = t.image

instance (s t : Spend) : Decidable (SameImage s t) := inferInstanceAs (Decidable (_ ∧ _))

structure HonestBatch (db : Storage) (lastUpdate : Nat) (users : List Lws.Account) : Prop where
  outputs : ∀ u ∈ users, ∀ o ∈ u.outputs, o.link.height ≤ lastUpdate
  spends : ∀ u ∈ users, ∀ s ∈ u.spends, s.link.height ≤ lastUpdate
  stored : ∀ u ∈ users, ∀ s ∈ u.spends, ∀ r ∈ db.spends, SameImage r.2 s → r.2.link = s.link
  batch : ∀ u ∈ users, ∀ s ∈ u.spends, ∀ v ∈ users, ∀ t ∈ v.spends, SameImage t s → t.link = s.link

instance (db : Storage) (lastUpdate : Nat) (users : List Lws.Account) : Decidable (HonestBatch db lastUpdate users) :=
  decidable_of_iff ((∀ u ∈ users, ∀ o ∈ u.outputs, o.link.height ≤ lastUpdate) ∧
      (∀ u ∈ users, ∀ s ∈ u.spends, s.link.height ≤ lastUpdate) ∧
      (∀ u ∈ users, ∀ s ∈ u.spends, ∀ r ∈ db.spends, SameImage r.2 s → r.2.link = s.link) ∧
      ∀ u ∈ users, ∀ s ∈ u.spends, ∀ v ∈ users, ∀ t ∈ v.spends, SameImage t s → t.link = s.link)
    ⟨fun h => ⟨h.1, h.2.1, h.2.2.1, h.2.2.2⟩, fun h => ⟨h.outputs, h.spends, h.stored, h.batch⟩⟩

/-- The accounts of an update come from an honest scan. -/
def Honest (db : Storage) (op : Op) : Prop := ∀ b ∈ op.batch, HonestBatch db b.1 b.2

instance (db : Storage) (op : Op) : Decidable (Honest db op) :=
  inferInstanceAs (Decidable (∀ b ∈ op.batch, HonestBatch db b.1 b.2))

/-- An account with this id, scanned to `height` or beyond. -/
def Scanned (accounts : Accounts) (id height : Nat) : Prop :=
  ∃ st a, (st, a) ∈ accounts ∧ a.id = id ∧ height ≤ a.scanHeight

structure Records (db : Storage) : Prop where
  outputs : ∀ r ∈ db.outputs, Scanned db.accounts r.1 r.2.link.height
  spends : ∀ r ∈ db.spends, Scanned db.accounts r.1 r.2.link.height
  images : ∀ x ∈ db.images, ∃ r ∈ db.spends, isImageOf r.2 x ∧ x.2.link = r.2.link
  links : ∀ r ∈ db.spends, ∀ q ∈ db.spends, SameImage r.2 q.2 → r.2.link = q.2.link

theorem Records.image_link {db : Storage} (h : Records db) {x : OutputId × ImageRow} {r : Nat × Spend}
    (hx : x ∈ db.images) (hr : r ∈ db.spends) (hi : isImageOf r.2 x) : x.2.link = r.2.link := by
  obtain ⟨q, hq, hqi, hl⟩ := h.images x hx
  rw [hl]
  exact h.links q hq r hr ⟨hqi.1.symm.trans hi.1, hqi.2.symm.trans hi.2⟩

/-! ## Accounts under their rows -/

section Scanned

variable {accounts accounts' : Accounts} {id height : Nat}

/-- Replacing an account by one scanned at least as far. -/
theorem Scanned.put {st : AccountStatus} {a a' : Account} (h : Scanned accounts id height) (ha : (st, a) ∈ accounts)
    (hid : a'.id = a.id) (hle : a.id = id → height ≤ a.scanHeight → height ≤ a'.scanHeight) :
    Scanned (accounts.put st a') id height := by
  obtain ⟨s, x, hx, hxid, hh⟩ := h
  by_cases e : s = st ∧ x.id = a'.id
  · obtain ⟨rfl, e⟩ := e
    have hxa : x = a := Table.unique_val hx ha (e.trans hid)
    rw [hxa] at hxid hh
    exact ⟨s, a', Table.mem_put_self _ _ _, hid.trans hxid, hle hxid hh⟩
  · exact ⟨s, x, Table.mem_put.mpr (Or.inr ⟨hx, e⟩), hxid, hh⟩

theorem Scanned.put_free {st : AccountStatus} {a : Account} (h : Scanned accounts id height)
    (hfree : ∀ x, (st, x) ∈ accounts → x.id ≠ a.id) : Scanned (accounts.put st a) id height := by
  obtain ⟨s, x, hx, hxid, hh⟩ := h
  refine ⟨s, x, Table.mem_put.mpr (Or.inr ⟨hx, fun e => hfree x ?_ e.2⟩), hxid, hh⟩
  rw [← e.1]; exact hx

theorem Scanned.moved {st st' : AccountStatus} {a : Account} (h : Scanned accounts id height) (ha : (st, a) ∈ accounts)
    (hfree : ∀ x, (st', x) ∈ accounts → x.id ≠ a.id) : Scanned ((accounts.erase st a.id).put st' a) id height := by
  obtain ⟨s, x, hx, hxid, hh⟩ := h
  by_cases e : s = st ∧ x.id = a.id
  · obtain ⟨rfl, e⟩ := e
    have hxa : x = a := Table.unique_val hx ha e
    rw [hxa] at hxid hh
    exact ⟨st', a, Table.mem_put_self _ _ _, hxid, hh⟩
  · refine ⟨s, x, Table.mem_put.mpr (Or.inr ⟨Table.mem_erase.mpr ⟨hx, e⟩, fun e' => hfree x ?_ e'.2⟩), hxid, hh⟩
    rw [← e'.1]; exact hx

end Scanned

/-! ## Every change keeps the records -/

/-- What a batch promises of the account it stores, in a state the batch passes through. -/
def HonestAct (mid : Storage) : Act → Prop
  | .store _ lastUpdate user => ∃ db users, user ∈ users ∧ HonestBatch db lastUpdate users ∧ Grown users db mid
  | _ => True

/-- New spends, stored or of the batch, agree with the rest on where a key image is spent. -/
theorem HonestBatch.links_grown {db mid : Storage} {lastUpdate : Nat} {users : List Lws.Account} {user : Lws.Account}
    (h : HonestBatch db lastUpdate users) (hu : user ∈ users) (hg : Grown users db mid) {s : Spend} (hs : s ∈ user.spends)
    {r : Nat × Spend} (hr : r ∈ mid.spends) (hsame : SameImage r.2 s) : r.2.link = s.link := by
  rcases hg.spends r hr with hr | ⟨v, hv, -, hr⟩
  · exact h.stored user hu s hs r hr hsame
  · exact h.batch user hu s hs v hv r.2 hr hsame

theorem mem_addImages {x : OutputId × ImageRow} : ∀ {list : List Spend} {images : Images}, x ∈ addImages list images →
    x ∈ images ∨ ∃ s ∈ list, x = (s.source, ⟨s.image, s.link⟩) := by
  intro list
  induction list with
  | nil => intro images h; exact Or.inl h
  | cons s list ih =>
    intro images h
    rcases ih (show x ∈ addImages list (images.putAbsent s.source ⟨s.image, s.link⟩) from h) with h | ⟨t, ht, he⟩
    · rcases Table.mem_putAbsent.mp h with h | ⟨h, -⟩
      · exact Or.inl h
      · exact Or.inr ⟨s, List.mem_cons_self, h⟩
    · exact Or.inr ⟨t, List.mem_cons_of_mem _ ht, he⟩

/-- A stored row with the sort fields of a spend is at its place and has its image. -/
theorem spend_sort_eq {s t : Spend} (h : s.sort = t.sort) : s.link = t.link ∧ SameImage s t := by
  have h1 := Prod.mk.inj (toLex.injective h)
  have h2 := Prod.mk.inj (toLex.injective h1.2)
  exact ⟨h1.1, h2.2, h2.1⟩

variable {env : Env} {db db' : Storage}

theorem Records.lower {b : AccountByAddress} {a a' : Account} {height : Nat} {spends : Spends} {images : Images}
    (h : Records db) (ha : (b.lookup.status, a) ∈ db.accounts) (hsame : (a.lowered height).Same a')
    (hs : rollbackSpends a.id height db.spends db.images = .ok (spends, images)) :
    Records (lowered b a a' height spends images db) := by
  obtain ⟨rfl, himg⟩ := rollbackSpends_ok hs
  -- a row that stays is another account's, or below `height`
  have hscan : ∀ {id k : Nat}, (id = a.id → k < height) → Scanned db.accounts id k →
      Scanned (db.accounts.put b.lookup.status a') id k := by
    intro id k hk hsc
    refine hsc.put ha hsame.id fun e hle => ?_
    rw [hsame.scanHeight]
    exact Nat.le_min.mpr ⟨(hk e.symm).le, hle⟩
  refine ⟨fun r hr => ?_, fun r hr => ?_, fun x hx => ?_, fun r hr q hq => ?_⟩
  · obtain ⟨hr, hp⟩ := Table.mem_filter.mp hr
    exact hscan (fun e => by have := not_outputAbove.mp hp; omega) (h.outputs r hr)
  · obtain ⟨hr, hp⟩ := Table.mem_filter.mp hr
    exact hscan (fun e => by have := not_spendAbove.mp hp; omega) (h.spends r hr)
  · obtain ⟨hx, hgone⟩ := (himg x).mp hx
    obtain ⟨r, hr, hi, hlink⟩ := h.images x hx
    refine ⟨r, Table.mem_filter.mpr ⟨hr, not_spendAbove.mpr fun e => ?_⟩, hi, hlink⟩
    exact hgone r.2 (e.1 ▸ hr) e.2 hi
  · exact h.links r (Table.mem_filter.mp hr).1 q (Table.mem_filter.mp hq).1

theorem Records.rewind {height : Nat} (h : Records db) (hrw : Rewound height db db') : Records db' := by
  have hscan : ∀ {id k : Nat}, ¬ (height ≤ k ∧ ∃ l ∈ lookupsAbove db.accountsBh height, l.id = id) →
      Scanned db.accounts id k → Scanned db'.accounts id k := by
    intro id k hk hsc
    obtain ⟨st, x, hx, hxid, hle⟩ := hsc
    refine ⟨st, _, (hrw.accounts st _).mpr ⟨x, hx, rfl⟩, ?_, ?_⟩
    · split
      · exact hxid
      · exact hxid
    · split
      · rename_i hin
        have hlt : ¬ height ≤ k := fun hle' => hk ⟨hle', _, hin, hxid⟩
        show k ≤ max height 1 - 1
        omega
      · exact hle
  refine ⟨fun r hr => ?_, fun r hr => ?_, fun x hx => ?_, fun r hr q hq => ?_⟩
  · obtain ⟨hr, hp⟩ := (hrw.outputs r).mp hr
    exact hscan hp (h.outputs r hr)
  · obtain ⟨hr, hp⟩ := (hrw.spends r).mp hr
    exact hscan hp (h.spends r hr)
  · obtain ⟨hx, hgone⟩ := (hrw.images x).mp hx
    obtain ⟨r, hr, hi, hlink⟩ := h.images x hx
    exact ⟨r, (hrw.spends r).mpr ⟨hr, fun e => hgone r hr e.1 e.2 hi⟩, hi, hlink⟩
  · exact h.links r ((hrw.spends r).mp hr).1 q ((hrw.spends q).mp hq).1

theorem Records.raise {lastUpdate : Nat} {user : Lws.Account} {status : AccountStatus} {existing : Account}
    (events : Events) (h : Records db)
      (hok : ∃ base users, user ∈ users ∧ HonestBatch base lastUpdate users ∧ Grown users base db)
    (ha : (status, existing) ∈ db.accounts) (hid : existing.id = user.id) (hlt : existing.scanHeight < lastUpdate) :
    Records (raised lastUpdate user status existing events db) := by
  obtain ⟨base, users, hu, hb, hg⟩ := hok
  have hraise : ∀ {id k : Nat}, Scanned db.accounts id k →
      Scanned (db.accounts.put status { existing with scanHeight := lastUpdate }) id k := by
    intro id k hsc
    exact hsc.put ha rfl fun _ hle => hle.trans hlt.le
  have hnew : ∀ {k : Nat}, k ≤ lastUpdate →
      Scanned (db.accounts.put status { existing with scanHeight := lastUpdate }) user.id k := by
    intro k hk
    exact ⟨status, _, Table.mem_put_self _ _ _, hid, hk⟩
  refine ⟨fun r hr => ?_, fun r hr => ?_, fun x hx => ?_, fun r hr q hq hsame => ?_⟩
  · rcases Table.mem_putAllAbsent hr with hr | ⟨he, hr⟩
    · exact hraise (h.outputs r hr)
    · rw [he]
      exact hnew (hb.outputs user hu r.2 hr)
  · rcases Table.mem_putAllAbsent hr with hr | ⟨he, hr⟩
    · exact hraise (h.spends r hr)
    · rw [he]
      exact hnew (hb.spends user hu r.2 hr)
  · rcases mem_addImages hx with hx | ⟨s, hs, rfl⟩
    · obtain ⟨r, hr, hi, hlink⟩ := h.images x hx
      exact ⟨r, Table.mem_putAllAbsent_of_mem hr, hi, hlink⟩
    · obtain ⟨w, hw, hsort⟩ := Table.putAllAbsent_stores (t := db.spends) (k := user.id) hs
      obtain ⟨hlink, hsrc, himg⟩ := spend_sort_eq hsort
      exact ⟨(user.id, w), hw, ⟨hsrc.symm, himg.symm⟩, hlink.symm⟩
  · rcases Table.mem_putAllAbsent hr with hr | ⟨-, hr⟩ <;> rcases Table.mem_putAllAbsent hq with hq | ⟨-, hq⟩
    · exact h.links r hr q hq hsame
    · exact hb.links_grown hu hg hq hr hsame
    · exact (hb.links_grown hu hg hr hq ⟨hsame.1.symm, hsame.2.symm⟩).symm
    · exact hb.batch user hu q.2 hq user hu r.2 hr hsame

theorem records_change {act : Act} (h : Records db) (hok : HonestAct db act) (hc : Change env act db db') :
    Records db' := by
  cases hc with
  | touch ha hsame =>
    exact ⟨fun r hr => (h.outputs r hr).put ha hsame.id fun _ hle => hsame.scanHeight ▸ hle,
      fun r hr => (h.spends r hr).put ha hsame.id fun _ hle => hsame.scanHeight ▸ hle, h.images, h.links⟩
  | @move _ b a l status hb hne ha hid hl hl' hfree =>
    have hmove : ∀ {id height : Nat}, Scanned db.accounts id height →
        Scanned ((db.accounts.erase b.lookup.status b.lookup.id).put status a) id height := by
      intro id height hs
      rw [← hid]
      exact hs.moved ha hfree
    exact ⟨fun r hr => hmove (h.outputs r hr), fun r hr => hmove (h.spends r hr), h.images, h.links⟩
  | add hkey hid hstart hba hbh hfree =>
    exact ⟨fun r hr => (h.outputs r hr).put_free hfree, fun r hr => (h.spends r hr).put_free hfree, h.images, h.links⟩
  | lower hb ha hid hsame hs hl hl' => exact h.lower ha hsame hs
  | rewind hrw => exact h.rewind hrw
  | @store _ height lastUpdate user status existing l pubs pubs' events ha hid hscan hlt hl hl' hooks =>
    have hraised := h.raise events hok ha hid hlt
    exact ⟨hraised.outputs, hraised.spends, hraised.images, hraised.links⟩
  | _ => exact ⟨h.outputs, h.spends, h.images, h.links⟩

/-- The changes of an operation whose data is honest are honest. -/
theorem honest_acts {op : Op} (hok : Honest db op) {mid : Storage} {act : Act} (ha : op.Acts db mid act) :
    HonestAct mid act := by
  cases act with
  | store h lastUpdate user =>
    obtain ⟨chain, users, pow, regtest, rfl, rfl, hu, hg⟩ := acts_store ha
    exact ⟨db, users, hu, hok _ rfl, hg⟩
  | _ => trivial

theorem records_run {op : Op} (h : Records db) (hok : Honest db op) (hrun : op.run env db = .ok db') : Records db' :=
  (run_changes hrun).keeps Records (fun hu ha hc => records_change hu (honest_acts hok ha) hc) h

theorem records_fresh (env : Env) : Records (fresh env) := by
  refine ⟨fun _ h => ?_, fun _ h => ?_, fun _ h => ?_, fun _ h => ?_⟩ <;> exact absurd h (Table.not_mem_empty _)

theorem records_reached (h : Reached env Honest db) : Records db :=
  h.invariant Records (records_fresh env) fun _ _ _ hu hok hrun => records_run hu hok hrun

end Lws.Db
