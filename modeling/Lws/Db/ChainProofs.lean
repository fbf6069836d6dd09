/-
  Lws.Db.ChainProofs — what the functions of `Lws.Db.Chain` do to the tables, as
  membership and filters: `rollbackOutputs_eq`, `rollbackSpends_ok`,
  `rollbackAccounts_ok`, `rollbackEvents_eq`, `rollback_ok`, `appendBlockHashes_eq`,
  `syncChainLoop_ok`. Nothing here assumes anything of the database.
-/

import Lws.Db.Chain

namespace Lws.Db

open Lws.Lmdb

/-! ## Outputs, spends and images -/

theorem output_sort_height {o p : Output} (h : o.sort < p.sort) : o.link.height ≤ p.link.height := by
  rcases Prod.Lex.toLex_lt_toLex.mp h with h | h
  · exact link_lt_height h
  · exact Nat.le_of_eq (congrArg TransactionLink.height h.1)

theorem spend_sort_height {s t : Spend} (h : s.sort < t.sort) : s.link.height ≤ t.link.height := by
  rcases Prod.Lex.toLex_lt_toLex.mp h with h | h
  · exact link_lt_height h
  · exact Nat.le_of_eq (congrArg TransactionLink.height h.1)

theorem visit_true {R : Type} (rows : List R) :
    visit (fun (_ : Unit) (_ : R) => (.ok ((), true) : Except Error (Unit × Bool))) () rows = .ok () := by
  induction rows with
  | nil => rfl
  | cons r rows ih => rw [visit_cons]; exact ih

theorem deletes_true {R : Type} :
    Deletes (fun (_ : Unit) (_ : R) => (.ok ((), true) : Except Error (Unit × Bool))) fun _ => true := by
  intro s r s' b h
  cases h; rfl

def outputAbove (user : Nat) (height : Nat) (r : Nat × Output) : Bool :=
  decide (r.1 = user) && decide (height ≤ r.2.link.height)

def spendAbove (user : Nat) (height : Nat) (r : Nat × Spend) : Bool :=
  decide (r.1 = user) && decide (height ≤ r.2.link.height)

theorem not_outputAbove {user height : Nat} {r : Nat × Output} :
    (!outputAbove user height r) = true ↔ ¬ (r.1 = user ∧ height ≤ r.2.link.height) := by
  rw [outputAbove, Bool.not_eq_true', ← Bool.not_eq_true, Bool.and_eq_true, decide_eq_true_eq, decide_eq_true_eq]

theorem not_spendAbove {user height : Nat} {r : Nat × Spend} :
    (!spendAbove user height r) = true ↔ ¬ (r.1 = user ∧ height ≤ r.2.link.height) := by
  rw [spendAbove, Bool.not_eq_true', ← Bool.not_eq_true, Bool.and_eq_true, decide_eq_true_eq, decide_eq_true_eq]

theorem rollbackOutputs_eq (user : Nat) (height : Nat) (outputs : Outputs) :
    rollbackOutputs user height outputs = .ok (outputs.filter fun r => !outputAbove user height r) := by
  have hup : Table.UpClosed Output.sort fun o => decide (height ≤ o.link.height) := by
    intro o p hlt ho
    exact decide_eq_true ((of_decide_eq_true ho).trans (output_sort_height hlt))
  unfold rollbackOutputs
  rw [Table.eachFrom_eq outputs user hup deletes_true, visit_true]
  simp only [bind, Except.bind, Bool.and_true]
  rfl

def isImageOf (s : Spend) (r : OutputId × ImageRow) : Prop := r.1 = s.source ∧ r.2.value = s.image

instance (s : Spend) (r : OutputId × ImageRow) : Decidable (isImageOf s r) := inferInstanceAs (Decidable (_ ∧ _))

/-- Deleting the image of each spend visited. -/
def dropImage (images : Images) (r : Nat × Spend) : Except Error (Images × Bool) := do
  let _ ← require images r.2.source r.2.image
  .ok (images.erase r.2.source r.2.image, true)

theorem dropImage_ok {images images' : Images} {r : Nat × Spend} {b : Bool}
    (h : dropImage images r = .ok (images', b)) :
    b = true ∧ images' = images.erase r.2.source r.2.image ∧ ∃ row ∈ images, isImageOf r.2 row := by
  obtain ⟨row, hrow, h⟩ := bind_ok.mp h
  cases h
  obtain ⟨hm, hv⟩ := require_ok.mp hrow
  exact ⟨rfl, rfl, _, hm, rfl, hv⟩

theorem deletes_dropImage : Deletes dropImage fun _ => true := fun _ _ _ _ h => (dropImage_ok h).1

theorem spend_upClosed (height : Nat) : Table.UpClosed Spend.sort fun s => decide (height ≤ s.link.height) := by
  intro s t hlt hs
  exact decide_eq_true ((of_decide_eq_true hs).trans (spend_sort_height hlt))

theorem visit_dropImage : ∀ (rows : List (Nat × Spend)) {images images' : Images},
    visit dropImage images rows = .ok images' → ∀ x, x ∈ images' ↔ x ∈ images ∧ ∀ r ∈ rows, ¬ isImageOf r.2 x := by
  intro rows
  induction rows with
  | nil => intro images images' h x; cases h; simp
  | cons r rows ih =>
    intro images images' h x
    rw [visit_cons] at h
    obtain ⟨⟨mid, b⟩, hb, h⟩ := bind_ok.mp h
    obtain ⟨-, rfl, -⟩ := dropImage_ok hb
    rw [ih h x, Table.mem_erase]
    simp only [List.forall_mem_cons, isImageOf, and_assoc]

theorem visit_dropImage_found : ∀ (rows : List (Nat × Spend)) {images images' : Images},
    visit dropImage images rows = .ok images' → ∀ r ∈ rows, ∃ x ∈ images, isImageOf r.2 x := by
  intro rows
  induction rows with
  | nil => intro images images' _ r hr; cases hr
  | cons q rows ih =>
    intro images images' h r hr
    rw [visit_cons] at h
    obtain ⟨⟨mid, b⟩, hb, h⟩ := bind_ok.mp h
    obtain ⟨-, rfl, hfound⟩ := dropImage_ok hb
    rcases List.mem_cons.mp hr with rfl | hr
    · exact hfound
    · obtain ⟨x, hx, hi⟩ := ih h r hr
      exact ⟨x, (Table.mem_erase.mp hx).1, hi⟩

theorem visit_dropImage_error : ∀ (rows : List (Nat × Spend)) {images : Images} {e : Error},
    visit dropImage images rows = .error e → e = .notFound := by
  intro rows
  induction rows with
  | nil => intro images e h; cases h
  | cons r rows ih =>
    intro images e h
    rw [visit_cons] at h
    unfold dropImage require at h
    split at h
    · exact ih h
    · cases h
      rfl

/-- What rolling back the spends of `user` leaves, when it succeeds. -/
theorem rollbackSpends_ok {user : Nat} {height : Nat} {spends spends' : Spends} {images images' : Images}
    (h : rollbackSpends user height spends images = .ok (spends', images')) :
    spends' = (spends.filter fun r => !spendAbove user height r) ∧
      ∀ x, x ∈ images' ↔ x ∈ images ∧ ∀ s, (user, s) ∈ spends → height ≤ s.link.height → ¬ isImageOf s x := by
  obtain ⟨⟨im, sp⟩, hw, h⟩ := bind_ok.mp h
  cases h
  change spends.eachFrom user _ dropImage images = _ at hw
  rw [Table.eachFrom_eq spends user (spend_upClosed height) deletes_dropImage] at hw
  obtain ⟨im', hv, hw⟩ := bind_ok.mp hw
  cases hw
  refine ⟨?_, fun x => ?_⟩
  · simp only [Bool.and_true]; rfl
  · rw [visit_dropImage _ hv x]
    refine and_congr_right fun _ => ⟨fun hx s hs hh => ?_, fun hx r hr => ?_⟩
    · exact hx (user, s) (List.mem_filter.mpr ⟨hs, by simp [hh]⟩)
    · obtain ⟨hm, hp⟩ := List.mem_filter.mp hr
      simp only [Bool.and_eq_true, decide_eq_true_eq] at hp
      obtain ⟨rfl, hh⟩ := hp
      exact hx r.2 hm hh

theorem rollbackSpends_found {user height : Nat} {spends spends' : Spends} {images images' : Images}
    (h : rollbackSpends user height spends images = .ok (spends', images')) {s : Spend} (hs : (user, s) ∈ spends)
    (hh : height ≤ s.link.height) : ∃ x ∈ images, isImageOf s x := by
  obtain ⟨⟨im, sp⟩, hw, -⟩ := bind_ok.mp h
  change spends.eachFrom user _ dropImage images = _ at hw
  rw [Table.eachFrom_eq spends user (spend_upClosed height) deletes_dropImage] at hw
  obtain ⟨im', hv, -⟩ := bind_ok.mp hw
  exact visit_dropImage_found _ hv (user, s) (List.mem_filter.mpr ⟨hs, by simp [hh]⟩)

theorem rollbackSpends_error {user height : Nat} {spends : Spends} {images : Images} {e : Error}
    (h : rollbackSpends user height spends images = .error e) : e = .notFound := by
  rcases hv : visit dropImage images (spends.rows.filter fun r => decide (r.1 = user) && decide (height ≤ r.2.link.height))
    with e' | im
  · have he := visit_dropImage_error _ hv
    have hw := Table.eachFrom_eq spends user (spend_upClosed height) deletes_dropImage images
    rw [hv] at hw
    unfold rollbackSpends at h
    change (spends.eachFrom user _ dropImage images >>= _) = _ at h
    rw [hw] at h
    cases h
    exact he
  · have hw := Table.eachFrom_eq spends user (spend_upClosed height) deletes_dropImage images
    rw [hv] at hw
    unfold rollbackSpends at h
    change (spends.eachFrom user _ dropImage images >>= _) = _ at h
    rw [hw] at h
    cases h

theorem rollbackSpends_succeeds {user : Nat} {height : Nat} {spends : Spends} {images : Images}
    (himg : ∀ s, (user, s) ∈ spends → height ≤ s.link.height → ∃ x ∈ images, isImageOf s x)
    (hone : ∀ s t, (user, s) ∈ spends → (user, t) ∈ spends → s.source = t.source → s.image = t.image → s = t) :
    ∃ out, rollbackSpends user height spends images = .ok out := by
  have key : ∀ (rows : List (Nat × Spend)) (im : Images), rows.Nodup →
      (∀ r ∈ rows, r.1 = user ∧ (user, r.2) ∈ spends) → (∀ r ∈ rows, ∃ x ∈ im, isImageOf r.2 x) →
      ∃ im', visit dropImage im rows = .ok im' := by
    intro rows
    induction rows with
    | nil => intro im _ _ _; exact ⟨im, rfl⟩
    | cons r rows ih =>
      intro im hn hin him
      rw [List.nodup_cons] at hn
      obtain ⟨x, hx, hs, hv⟩ := him r List.mem_cons_self
      have hreq : require im r.2.source r.2.image = .ok x.2 := by
        refine require_ok.mpr ⟨?_, hv⟩
        rw [← hs]; exact hx
      rw [visit_cons]
      have hdrop : dropImage im r = .ok (im.erase r.2.source r.2.image, true) := by
        simp [dropImage, hreq, bind, Except.bind]
      rw [hdrop]
      refine ih (im.erase r.2.source r.2.image) hn.2 (fun q hq => hin q (List.mem_cons_of_mem _ hq)) fun q hq => ?_
      obtain ⟨y, hy, hys, hyv⟩ := him q (List.mem_cons_of_mem _ hq)
      refine ⟨y, Table.mem_erase.mpr ⟨hy, fun e => ?_⟩, hys, hyv⟩
      obtain ⟨hr1, hr2⟩ := hin r List.mem_cons_self
      obtain ⟨hq1, hq2⟩ := hin q (List.mem_cons_of_mem _ hq)
      have heq : r.2 = q.2 := hone r.2 q.2 hr2 hq2 (by rw [← e.1, hys]) (by rw [← e.2, hyv])
      have : r = q := Prod.ext (by rw [hr1, hq1]) heq
      exact hn.1 (this ▸ hq)
  have hnodup : (spends.rows.filter fun r => decide (r.1 = user) && decide (height ≤ r.2.link.height)).Nodup :=
    (spends.sorted.imp fun hlt he => absurd hlt (by rw [he]; exact lt_irrefl _)).sublist List.filter_sublist
  obtain ⟨im', hv⟩ := key _ images hnodup
    (fun r hr => by
      obtain ⟨hm, hp⟩ := List.mem_filter.mp hr
      simp only [Bool.and_eq_true, decide_eq_true_eq] at hp
      obtain ⟨rfl, -⟩ := hp
      exact ⟨rfl, hm⟩)
    (fun r hr => by
      obtain ⟨hm, hp⟩ := List.mem_filter.mp hr
      simp only [Bool.and_eq_true, decide_eq_true_eq] at hp
      obtain ⟨rfl, hh⟩ := hp
      exact himg r.2 hm hh)
  have hw := Table.eachFrom_eq spends user (spend_upClosed height) deletes_dropImage images
  rw [hv] at hw
  exact ⟨(_, im'), bind_ok.mpr ⟨(im', _), hw, rfl⟩⟩

/-! ## Accounts -/

/-- What rolling back the accounts of `lookups` does: each goes to `newHeight`, and
    loses its rows at or above `height`. -/
structure RolledBack (height newHeight : Nat) (lookups : List AccountLookup) (db db' : Storage) : Prop where
  accounts : ∀ st a', (st, a') ∈ db'.accounts ↔
    ∃ a, (st, a) ∈ db.accounts ∧ a' = if (⟨a.id, st⟩ : AccountLookup) ∈ lookups then a.rolledBack newHeight else a
  outputs : ∀ r, r ∈ db'.outputs ↔ r ∈ db.outputs ∧ ¬ (height ≤ r.2.link.height ∧ ∃ l ∈ lookups, l.id = r.1)
  spends : ∀ r, r ∈ db'.spends ↔ r ∈ db.spends ∧ ¬ (height ≤ r.2.link.height ∧ ∃ l ∈ lookups, l.id = r.1)
  images : ∀ x, x ∈ db'.images ↔ x ∈ db.images ∧
    ∀ r ∈ db.spends, height ≤ r.2.link.height → (∃ l ∈ lookups, l.id = r.1) → ¬ isImageOf r.2 x

/-- Only the accounts and what they own differ. -/
def Storage.SameBut (db db' : Storage) : Prop :=
  db' = { db with accounts := db'.accounts, outputs := db'.outputs, spends := db'.spends, images := db'.images }

theorem Storage.SameBut.trans {db mid db' : Storage} (h : db.SameBut mid) (h' : mid.SameBut db') : db.SameBut db' := by
  unfold Storage.SameBut at h h' ⊢
  rw [h', h]

@[simp] theorem rolledBack_id (a : Account) (n : Nat) : (a.rolledBack n).id = a.id := rfl

theorem rolledBack_twice (a : Account) (n : Nat) : (a.rolledBack n).rolledBack n = a.rolledBack n := by
  simp [Account.rolledBack]

theorem RolledBack.nil (height newHeight : Nat) (db : Storage) : RolledBack height newHeight [] db db := by
  refine ⟨fun st a' => ?_, fun r => ?_, fun r => ?_, fun x => ?_⟩
  · simp
  · simp
  · simp
  · simp

theorem rollbackAccount_ok {height newHeight : Nat} {db : Storage} {heights : List AccountLookup}
    {r : Nat × AccountLookup} {out : Storage × List AccountLookup} {b : Bool}
    (h : rollbackAccount height newHeight (db, heights) r = .ok (out, b)) :
    b = true ∧ out.2 = heights ++ [r.2] ∧ RolledBack height newHeight [r.2] db out.1 ∧ db.SameBut out.1 := by
  unfold rollbackAccount at h
  obtain ⟨user, huser, h⟩ := bind_ok.mp h
  obtain ⟨hm, hid⟩ := require_ok.mp huser
  rw [rollbackOutputs_eq] at h
  obtain ⟨outputs, ho, h⟩ := bind_ok.mp h
  cases ho
  obtain ⟨⟨spends, images⟩, hs, h⟩ := bind_ok.mp h
  obtain ⟨rfl, himg⟩ := rollbackSpends_ok hs
  cases h
  have hl : (⟨user.id, r.2.status⟩ : AccountLookup) = r.2 := by rw [hid]
  refine ⟨rfl, by rw [hl], ⟨fun st a' => ?_, fun x => ?_, fun x => ?_, fun x => ?_⟩, rfl⟩
  · show (st, a') ∈ db.accounts.put _ _ ↔ _
    rw [Table.mem_put]
    simp only [Prod.mk.injEq, rolledBack_id, List.mem_singleton]
    refine ⟨fun h => ?_, fun ⟨a, ha, he⟩ => ?_⟩
    · rcases h with ⟨rfl, rfl⟩ | ⟨ha, hne⟩
      · exact ⟨user, hm, by rw [if_pos hl]⟩
      · refine ⟨a', ha, (if_neg fun e => hne ?_).symm⟩
        rw [← e]; exact ⟨rfl, by rw [hid, ← e]⟩
    · by_cases e : (⟨a.id, st⟩ : AccountLookup) = r.2
      · rw [if_pos e] at he
        have hst : st = r.2.status := by rw [← e]
        subst hst
        have hau : a = user := Table.unique_val ha hm (by rw [hid, ← e])
        exact Or.inl ⟨rfl, by rw [he, hau]⟩
      · rw [if_neg e] at he
        subst he
        refine Or.inr ⟨ha, fun e' => e ?_⟩
        rw [e'.1, e'.2, hl]
  · show x ∈ db.outputs.filter _ ↔ _
    rw [Table.mem_filter, not_outputAbove]
    simp only [List.mem_singleton, exists_eq_left]
    refine and_congr_right fun _ => not_congr ⟨fun h => ⟨h.2, hid.symm.trans h.1.symm⟩, fun h => ⟨(hid.trans h.2).symm, h.1⟩⟩
  · show x ∈ db.spends.filter _ ↔ _
    rw [Table.mem_filter, not_spendAbove]
    simp only [List.mem_singleton, exists_eq_left]
    refine and_congr_right fun _ => not_congr ⟨fun h => ⟨h.2, hid.symm.trans h.1.symm⟩, fun h => ⟨(hid.trans h.2).symm, h.1⟩⟩
  · show x ∈ images ↔ _
    rw [himg x]
    simp only [List.mem_singleton, exists_eq_left]
    refine and_congr_right fun _ => ⟨fun hx q hq hh hq1 => ?_, fun hx s hs hh => ?_⟩
    · refine hx q.2 ?_ hh
      rw [hid, hq1]; exact hq
    · exact hx (user.id, s) hs hh (by rw [hid])

theorem RolledBack.trans {height newHeight : Nat} {l l' : List AccountLookup} {db mid db' : Storage}
    (h : RolledBack height newHeight l db mid) (h' : RolledBack height newHeight l' mid db') :
    RolledBack height newHeight (l ++ l') db db' := by
  refine ⟨fun st a' => ?_, fun r => ?_, fun r => ?_, fun x => ?_⟩
  · rw [h'.accounts]
    refine ⟨fun ⟨b, hb, he⟩ => ?_, fun ⟨a, ha, he⟩ => ?_⟩
    · obtain ⟨a, ha, rfl⟩ := (h.accounts st b).mp hb
      refine ⟨a, ha, ?_⟩
      rw [he]
      by_cases e : (⟨a.id, st⟩ : AccountLookup) ∈ l <;> by_cases e' : (⟨a.id, st⟩ : AccountLookup) ∈ l' <;>
        simp [e, e', rolledBack_twice]
    · refine ⟨_, (h.accounts st _).mpr ⟨a, ha, rfl⟩, ?_⟩
      rw [he]
      by_cases e : (⟨a.id, st⟩ : AccountLookup) ∈ l <;> by_cases e' : (⟨a.id, st⟩ : AccountLookup) ∈ l' <;>
        simp [e, e', rolledBack_twice]
  · rw [h'.outputs, h.outputs]
    simp only [List.mem_append]
    grind
  · rw [h'.spends, h.spends]
    simp only [List.mem_append]
    grind
  · rw [h'.images, h.images]
    simp only [List.mem_append]
    refine ⟨fun ⟨⟨hx, h1⟩, h2⟩ => ⟨hx, fun r hr hh ⟨k, hk, he⟩ => ?_⟩,
        fun ⟨hx, h12⟩ => ⟨⟨hx, fun r hr hh ⟨k, hk, he⟩ => ?_⟩, fun r hr hh ⟨k, hk, he⟩ => ?_⟩⟩
    · rcases hk with hk | hk
      · exact h1 r hr hh ⟨k, hk, he⟩
      · by_cases hmid : r ∈ mid.spends
        · exact h2 r hmid hh ⟨k, hk, he⟩
        · rw [h.spends] at hmid
          have := not_and_not_right.mp hmid hr
          exact h1 r hr this.1 this.2
    · exact h12 r hr hh ⟨k, Or.inl hk, he⟩
    · exact h12 r ((h.spends r).mp hr).1 hh ⟨k, Or.inr hk, he⟩

theorem visit_rollbackAccount {height newHeight : Nat} : ∀ (rows : List (Nat × AccountLookup))
    {db : Storage} {heights : List AccountLookup} {out : Storage × List AccountLookup},
    visit (rollbackAccount height newHeight) (db, heights) rows = .ok out →
      out.2 = heights ++ rows.map (·.2) ∧ RolledBack height newHeight (rows.map (·.2)) db out.1 ∧ db.SameBut out.1 := by
  intro rows
  induction rows with
  | nil =>
    intro db heights out h
    cases h
    exact ⟨by simp, RolledBack.nil _ _ _, rfl⟩
  | cons r rows ih =>
    intro db heights out h
    rw [visit_cons] at h
    obtain ⟨⟨⟨mid, hts⟩, b⟩, hb, h⟩ := bind_ok.mp h
    obtain ⟨-, h1, h2, hf⟩ := rollbackAccount_ok hb
    obtain ⟨h3, h4, hf'⟩ := ih h
    refine ⟨?_, h2.trans h4, hf.trans hf'⟩
    rw [h3]
    change hts = _ at h1
    rw [h1]; simp

def lookupsAbove (bh : AccountsByHeight) (height : Nat) : List AccountLookup :=
  (bh.rows.filter fun r => decide (height ≤ r.1)).map (·.2)

theorem mem_lookupsAbove {bh : AccountsByHeight} {height : Nat} {l : AccountLookup} :
    l ∈ lookupsAbove bh height ↔ ∃ k, (k, l) ∈ bh ∧ height ≤ k := by
  simp only [lookupsAbove, List.mem_map, List.mem_filter, decide_eq_true_eq]
  refine ⟨fun ⟨⟨k, l'⟩, ⟨hm, hk⟩, he⟩ => ?_, fun ⟨k, hm, hk⟩ => ⟨(k, l), ⟨hm, hk⟩, rfl⟩⟩
  cases he
  exact ⟨k, hm, hk⟩

def rolledBackHeights (height : Nat) (bh : AccountsByHeight) : AccountsByHeight :=
  (bh.filter fun r => !decide (height ≤ r.1)).putAllAbsent (max height 1 - 1) (lookupsAbove bh height)

theorem rollbackAccounts_ok {height : Nat} {db db' : Storage} (h : rollbackAccounts height db = .ok db') :
    RolledBack height (max height 1 - 1) (lookupsAbove db.accountsBh height) db db' ∧
      db' = { db with
        accounts := db'.accounts, outputs := db'.outputs, spends := db'.spends, images := db'.images
        accountsBh := rolledBackHeights height db.accountsBh } := by
  have hd : Deletes (rollbackAccount height (max height 1 - 1)) fun _ => true :=
    fun (db, _) _ _ _ hb => (rollbackAccount_ok hb).1
  obtain ⟨⟨⟨mid, heights⟩, bh⟩, hw, h⟩ := bind_ok.mp h
  rw [Table.eachKeyFrom_eq _ _ hd] at hw
  obtain ⟨s, hv, hw⟩ := bind_ok.mp hw
  cases hw
  obtain ⟨h1, h2, hf⟩ := visit_rollbackAccount _ hv
  cases h
  refine ⟨⟨h2.accounts, h2.outputs, h2.spends, h2.images⟩, ?_⟩
  obtain rfl : heights = lookupsAbove db.accountsBh height := h1
  change mid = _ at hf
  rw [hf]
  simp only [Bool.and_true, bulkInsert_noDup, rolledBackHeights]

/-! ## Events, blocks and proofs of work -/

theorem rollbackEvents_eq (height : Nat) (events : Events) :
    rollbackEvents height events = events.filter fun r => decide (r.2.link.tx.height < height) := by
  have hdown : Table.DownClosed WebhookEvent.sort fun e => decide (e.link.tx.height < height) := by
    intro e f hlt hf
    have hle : e.link.tx.height ≤ f.link.tx.height := by
      rcases Prod.Lex.toLex_lt_toLex.mp hlt with h | h
      · rcases Prod.Lex.toLex_lt_toLex.mp h with h | h
        · exact link_lt_height h
        · exact Nat.le_of_eq (congrArg TransactionLink.height h.1)
      · have := (Prod.mk.inj (toLex.injective h.1)).1
        exact Nat.le_of_eq (congrArg TransactionLink.height this)
    exact decide_eq_true (Nat.lt_of_le_of_lt hle (of_decide_eq_true hf))
  exact Table.trimBack_eq events hdown

/-- Deleting from a row on leaves the rows before it. -/
theorem dropFrom_eq {V S : Type} [LinearOrder S] {sort : V → S} {cur : Cursor Version sort} {r : Version × V}
    (hg : cur.gone = none) (hr : cur.row? = some r) :
    dropFrom cur = .ok (cur.table.filter fun x => decide (sort x.2 < sort r.2)) := by
  obtain ⟨hpos, hget⟩ := List.getElem?_eq_some_iff.mp (show cur.table.rows[cur.pos]? = some r from hr)
  have hdrop : cur.table.rows.drop cur.pos = r :: cur.table.rows.drop (cur.pos + 1) := by
    rw [List.drop_eq_getElem_cons hpos, hget]
  obtain ⟨t, ht, hw⟩ := Cursor.walk_run (Cursor.steps_nextDup ()) deletes_true [] (by simp) cur.table.rows.length
    (cur.table.rows.drop cur.pos) cur (by simp [hdrop]) (by simp) hg (by simp) (fun _ _ => by simp)
  have hsorted := cur.table.sorted
  rw [← List.take_append_drop cur.pos cur.table.rows, hdrop, List.pairwise_append, List.pairwise_cons] at hsorted
  obtain ⟨-, ⟨hafter, -⟩, hbefore⟩ := hsorted
  have hlt : ∀ {a b : Version × V}, rowKey sort a < rowKey sort b → sort a.2 < sort b.2 := fun h =>
    (rowKey_lt.mp h).elim (fun h => absurd h (lt_irrefl _)) And.right
  have htable : t = cur.table.filter fun x => decide (sort x.2 < sort r.2) := by
    apply Table.eq_of_rows
    show _ = cur.table.rows.filter _
    rw [ht]
    conv_rhs => rw [← List.take_append_drop cur.pos cur.table.rows, hdrop, List.filter_append]
    rw [List.filter_eq_self.mpr fun x hx => decide_eq_true (hlt (hbefore x hx r List.mem_cons_self)),
      (List.filter_eq_nil_iff (p := fun x : Version × V => decide (sort x.2 < sort r.2))).mpr fun x hx => ?_]
    · simp
    · rcases List.mem_cons.mp hx with rfl | hx
      · simp
      · simpa using (hlt (hafter x hx)).le
  unfold dropFrom
  rw [hw (), visit_true, htable]
  rfl

/-- `pows` after a rollback: nothing is deleted unless there is a row at `height` itself. -/
def rolledBackPows (height : Nat) (pows : Pows) : Pows :=
  if (pows.get? () height).isSome then pows.filter fun r => decide (r.2.id < height) else pows

theorem getBoth_some {K V S : Type} [LinearOrder K] [LinearOrder S] {sort : V → S} {t : Table K sort} {k : K} {s : S}
    {cur : Cursor K sort} (h : t.getBoth k s = some cur) :
    cur.table = t ∧ cur.gone = none ∧ ∃ v, cur.row? = some (k, v) ∧ (k, v) ∈ t ∧ sort v = s := by
  obtain ⟨ht, hg, -, r, rs, hdrop, hr⟩ := Table.seek_some h
  simp only [Bool.and_eq_true, decide_eq_true_eq] at hr
  obtain ⟨rfl, hs⟩ := hr
  have hmem : r ∈ t.rows := List.mem_of_mem_drop (by rw [hdrop]; exact List.mem_cons_self)
  refine ⟨ht, hg, r.2, ?_, hmem, hs⟩
  rw [Cursor.row?, ht, ← List.head?_drop, hdrop]; rfl

theorem getBoth_none {K V S : Type} [LinearOrder K] [LinearOrder S] {sort : V → S} {t : Table K sort} {k : K} {s : S}
    (h : t.getBoth k s = none) : t.get? k s = none := by
  refine Table.get?_eq_none.mpr fun v hv hs => ?_
  have := Table.seek_none h (k, v) hv
  simp [hs] at this

/-! ## Rolling the database back -/

/-- The database rolled back to below `height`, but for its blocks. -/
structure Rewound (height : Nat) (db db' : Storage) : Prop
    extends RolledBack height (max height 1 - 1) (lookupsAbove db.accountsBh height) db db' where
  frame : db' = { db with
    blocks := db'.blocks
    pows := rolledBackPows height db.pows
    accounts := db'.accounts, outputs := db'.outputs, spends := db'.spends, images := db'.images
    accountsBh := rolledBackHeights height db.accountsBh
    events := db.events.filter fun r => decide (r.2.link.tx.height < height) }

theorem rollbackChain_eq (cur : Cursor Version BlockInfo.id) (height : Nat) (db : Storage) :
    rollbackChain cur height db = dropFrom cur >>= fun blocks =>
      rollbackAccounts height { db with blocks, pows := rolledBackPows height db.pows } >>= fun db =>
        .ok { db with events := rollbackEvents height db.events } := by
  unfold rollbackChain rolledBackPows
  refine congrArg (dropFrom cur >>= ·) (funext fun blocks => ?_)
  rcases hc : db.pows.getBoth () height with _ | powCur
  · rw [getBoth_none hc]; rfl
  · obtain ⟨ht, hg, v, hrow, hv, hs⟩ := getBoth_some hc
    simp only [dropFrom_eq hg hrow, ht, hs, Table.get?_eq_some.mpr ⟨hv, hs⟩]
    rfl

theorem rollbackChain_ok {cur : Cursor Version BlockInfo.id} {height : Nat} {db db' : Storage} {r : Version × BlockInfo}
    (ht : cur.table = db.blocks) (hg : cur.gone = none) (hr : cur.row? = some r)
    (h : rollbackChain cur height db = .ok db') :
    Rewound height db db' ∧ db'.blocks = db.blocks.filter fun x => decide (x.2.id < r.2.id) := by
  rw [rollbackChain_eq, dropFrom_eq hg hr, ht] at h
  obtain ⟨blocks, hb, h⟩ := bind_ok.mp h
  cases hb
  obtain ⟨mid, ha, h⟩ := bind_ok.mp h
  cases h
  obtain ⟨h1, h2⟩ := rollbackAccounts_ok ha
  refine ⟨⟨⟨h1.accounts, h1.outputs, h1.spends, h1.images⟩, ?_⟩, ?_⟩
  · rw [h2, rollbackEvents_eq]
  · rw [h2]

theorem rollback_ok {height : Nat} {db db' : Storage} (h : db.rollback height = .ok db') :
    ((db.blocks.get? () height).isSome = false ∧ db' = db) ∨
      ((db.blocks.get? () height).isSome = true ∧ Rewound height db db') := by
  unfold Storage.rollback at h
  split at h
  · rename_i hc
    cases h
    exact Or.inl ⟨by rw [getBoth_none hc]; rfl, rfl⟩
  · rename_i cur hc
    obtain ⟨ht, hg, v, hrow, hv, hid⟩ := getBoth_some hc
    refine Or.inr ⟨?_, (rollbackChain_ok ht hg hrow h).1⟩
    rw [Table.get?_eq_some.mpr ⟨hv, hid⟩]; rfl

/-! ## Appending -/

/-- A list of hashes, with their heights from `first` on. -/
def numbered : Nat → List Hash → List BlockInfo
  | _, [] => []
  | first, h :: chain => ⟨first, h⟩ :: numbered (first + 1) chain

theorem mem_numbered {b : BlockInfo} : ∀ {chain : List Hash} {first : Nat},
    b ∈ numbered first chain ↔ ∃ i, b.id = first + i ∧ chain[i]? = some b.hash := by
  intro chain
  induction chain with
  | nil => intro first; simp [numbered]
  | cons h chain ih =>
    intro first
    simp only [numbered, List.mem_cons, ih]
    refine ⟨fun hb => ?_, fun ⟨i, hi, hc⟩ => ?_⟩
    · rcases hb with rfl | ⟨i, hi, hc⟩
      · exact ⟨0, rfl, rfl⟩
      · exact ⟨i + 1, by omega, by simpa using hc⟩
    · cases i with
      | zero =>
        refine Or.inl ?_
        simp only [List.getElem?_cons_zero, Option.some.injEq] at hc
        cases b
        cases hi
        rw [hc]
      | succ i => exact Or.inr ⟨i, by omega, by simpa using hc⟩

theorem numbered_sorted : ∀ (chain : List Hash) (first : Nat),
    (numbered first chain).Pairwise fun a b => a.id ≠ b.id := by
  intro chain
  induction chain with
  | nil => intro first; exact List.Pairwise.nil
  | cons h chain ih =>
    intro first
    refine List.pairwise_cons.mpr ⟨fun b hb => ?_, ih _⟩
    obtain ⟨i, hi, -⟩ := mem_numbered.mp hb
    show first ≠ b.id
    omega

theorem appendBlockHashesLoop_eq : ∀ (chain : List Hash) (height : Nat) (hashes : List BlockInfo) (blocks : Blocks),
    appendBlockHashesLoop height hashes chain blocks = blocks.putAll () (hashes ++ numbered height chain) := by
  intro chain
  induction chain with
  | nil => intro height hashes blocks; simp [appendBlockHashesLoop, bulkInsert_over, numbered]
  | cons h chain ih =>
    intro height hashes blocks
    unfold appendBlockHashesLoop
    split
    · rw [ih, bulkInsert_over]
      simp [numbered, Table.putAll, List.foldl_append]
    · rw [ih]; simp [numbered]

theorem appendBlockHashes_eq (first : Nat) (chain : List Hash) (blocks : Blocks) :
    appendBlockHashes first chain blocks = blocks.putAll () (numbered first chain) :=
      appendBlockHashesLoop_eq chain first [] blocks

/-- The appended hashes are stored, and the blocks at no other height change. -/
theorem mem_appendBlockHashes_over {first : Nat} {chain : List Hash} {blocks : Blocks} {r : Version × BlockInfo} :
    r ∈ appendBlockHashes first chain blocks ↔
      (r ∈ blocks ∧ ¬ (first ≤ r.2.id ∧ r.2.id < first + chain.length)) ∨
        ∃ i, r.2.id = first + i ∧ chain[i]? = some r.2.hash := by
  rw [appendBlockHashes_eq]
  by_cases e : first ≤ r.2.id ∧ r.2.id < first + chain.length
  · -- the height is one of the appended ones, and has one hash
    have hnew : ∀ i h, r.2.id = first + i → chain[i]? = some h →
        ((), (⟨r.2.id, h⟩ : BlockInfo)) ∈ blocks.putAll () (numbered first chain) := by
      intro i h hi hc
      exact Table.putAll_stores (numbered_sorted chain first) (mem_numbered.mpr ⟨i, hi, hc⟩)
    refine ⟨fun h => Or.inr ?_, fun h => ?_⟩
    · have hlen : r.2.id - first < chain.length := by omega
      have hget : chain[r.2.id - first]? = some chain[r.2.id - first] := List.getElem?_eq_getElem hlen
      have hm := hnew (r.2.id - first) _ (by omega) hget
      have he := Table.unique h hm (rowKey_eq.mpr ⟨rfl, rfl⟩)
      refine ⟨r.2.id - first, by omega, ?_⟩
      rw [hget]
      exact congrArg some (congrArg (fun x => x.2.hash) he).symm
    · rcases h with h | ⟨i, hi, hc⟩
      · exact absurd e h.2
      · exact hnew i _ hi hc
  · have hne : ∀ i h, chain[i]? = some h → r.2.id ≠ first + i := by
      intro i h hc hi
      have := (List.getElem?_eq_some_iff.mp hc).1
      omega
    rw [Table.mem_putAll_of_ne fun _ b hb => ?_]
    · refine ⟨fun h => Or.inl ⟨h, e⟩, fun h => ?_⟩
      rcases h with h | ⟨i, hi, hc⟩
      · exact h.1
      · exact absurd hi (hne i _ hc)
    · obtain ⟨i, hi, hc⟩ := mem_numbered.mp hb
      exact fun he => hne i _ hc (he.trans hi)

/-- Appending past every stored block only adds. -/
theorem mem_appendBlockHashes {first : Nat} {chain : List Hash} {blocks : Blocks} {r : Version × BlockInfo}
    (hlow : chain = [] ∨ ∀ b ∈ blocks, b.2.id < first) :
    r ∈ appendBlockHashes first chain blocks ↔
      r ∈ blocks ∨ ∃ i, r.2.id = first + i ∧ chain[i]? = some r.2.hash := by
  rw [mem_appendBlockHashes_over]
  refine or_congr_left ⟨And.left, fun h => ⟨h, fun e => ?_⟩⟩
  rcases hlow with rfl | hlow
  · simp at e; omega
  · have := hlow r h
    omega

/-! ## Comparing with the stored chain -/

theorem getBlockHash_ok {blocks : Blocks} {id : Nat} {hash : Hash} (h : getBlockHash blocks id = .ok hash) :
    ((), ⟨id, hash⟩) ∈ blocks := by
  obtain ⟨b, hb, h⟩ := bind_ok.mp h
  cases h
  obtain ⟨hm, rfl⟩ := require_ok.mp hb
  exact hm

/-- Every block above `height` follows a stored block. -/
def Contiguous (height : Nat) (blocks : Blocks) : Prop :=
  ∀ b ∈ blocks, height < b.2.id → ∃ p ∈ blocks, p.2.id + 1 = b.2.id

instance (height : Nat) (blocks : Blocks) : Decidable (Contiguous height blocks) :=
  inferInstanceAs (Decidable (∀ b ∈ blocks, height < b.2.id → ∃ p ∈ blocks, p.2.id + 1 = b.2.id))

/-- The move to the next row of blocks or proofs of work: the end of the table, or the
    lowest row above. -/
theorem nextDup_row {V : Type} {sort : V → Nat} {cur : Cursor Version sort} {b : Version × V} (hg : cur.gone = none)
    (hr : cur.row? = some b) :
    (cur.nextDup = none ∧ ∀ x ∈ cur.table, sort x.2 ≤ sort b.2) ∨
      ∃ cur' n, cur.nextDup = some cur' ∧ cur'.table = cur.table ∧ cur'.gone = none ∧ cur'.row? = some n ∧
        n ∈ cur.table ∧ sort b.2 < sort n.2 ∧ ∀ x ∈ cur.table, sort x.2 ≤ sort b.2 ∨ sort n.2 ≤ sort x.2 := by
  obtain ⟨hpos, hget⟩ := List.getElem?_eq_some_iff.mp (show cur.table.rows[cur.pos]? = some b from hr)
  have hsorted := cur.table.sorted
  have hsplit : cur.table.rows = cur.table.rows.take cur.pos ++ b :: cur.table.rows.drop (cur.pos + 1) := by
    rw [← hget, ← List.drop_eq_getElem_cons hpos, List.take_append_drop]
  rw [hsplit, List.pairwise_append, List.pairwise_cons] at hsorted
  obtain ⟨-, ⟨hafter, hs⟩, hbefore⟩ := hsorted
  have hlt : ∀ {x y : Version × V}, rowKey sort x < rowKey sort y → sort x.2 < sort y.2 := fun h =>
    (rowKey_lt.mp h).elim (fun h => absurd h (lt_irrefl _)) And.right
  have hmem : ∀ x ∈ cur.table, x ∈ cur.table.rows.take cur.pos ∨ x = b ∨ x ∈ cur.table.rows.drop (cur.pos + 1) := by
    intro x hx
    rw [← Table.mem_rows, hsplit, List.mem_append, List.mem_cons] at hx
    exact hx
  unfold Cursor.nextDup
  rw [Cursor.ahead_of_row hg, Cursor.key?_of_row hg hr]
  rcases hn : cur.table.rows[cur.pos + 1]? with _ | n
  · refine Or.inl ⟨rfl, fun x hx => ?_⟩
    have hnil : cur.table.rows.drop (cur.pos + 1) = [] :=
      List.drop_eq_nil_of_le (List.getElem?_eq_none_iff.mp hn)
    rcases hmem x hx with h | rfl | h
    · exact (hlt (hbefore x h b List.mem_cons_self)).le
    · exact Nat.le_refl _
    · rw [hnil] at h; cases h
  · obtain ⟨hlen, hnget⟩ := List.getElem?_eq_some_iff.mp hn
    have hdrop : cur.table.rows.drop (cur.pos + 1) = n :: cur.table.rows.drop (cur.pos + 2) := by
      rw [List.drop_eq_getElem_cons hlen, hnget]
    refine Or.inr ⟨⟨cur.table, cur.pos + 1, none⟩, n, ?_, rfl, rfl, hn, List.mem_of_getElem? hn, ?_, fun x hx => ?_⟩
    · show (if some b.1 = some n.1 then cur.goto (cur.pos + 1) else none) = _
      rw [if_pos rfl, Cursor.goto, if_pos hlen]
    · exact hlt (hafter n (by rw [hdrop]; exact List.mem_cons_self))
    · rw [hdrop, List.pairwise_cons] at hs
      rcases hmem x hx with h | rfl | h
      · exact Or.inl (hlt (hbefore x h b List.mem_cons_self)).le
      · exact Or.inl (Nat.le_refl _)
      · rw [hdrop] at h
        rcases List.mem_cons.mp h with rfl | h
        · exact Or.inr (Nat.le_refl _)
        · exact Or.inr (hlt (hs.1 x h)).le

/-- The move to the row before: the start of the table, or the highest row below. -/
theorem prevDup_row {V : Type} {sort : V → Nat} {cur : Cursor Version sort} {b : Version × V} (hg : cur.gone = none)
    (hr : cur.row? = some b) :
    (cur.prevDup = none ∧ ∀ x ∈ cur.table, sort b.2 ≤ sort x.2) ∨
      ∃ cur' n, cur.prevDup = some cur' ∧ cur'.table = cur.table ∧ cur'.gone = none ∧ cur'.row? = some n ∧
        n ∈ cur.table ∧ sort n.2 < sort b.2 ∧ ∀ x ∈ cur.table, sort x.2 ≤ sort n.2 ∨ sort b.2 ≤ sort x.2 := by
  obtain ⟨hpos, hget⟩ := List.getElem?_eq_some_iff.mp (show cur.table.rows[cur.pos]? = some b from hr)
  have hlt : ∀ {i j : Nat} (hi : i < cur.table.rows.length) (hj : j < cur.table.rows.length), i < j →
      sort cur.table.rows[i].2 < sort cur.table.rows[j].2 := fun hi hj hij =>
    (rowKey_lt.mp (List.pairwise_iff_getElem.mp cur.table.sorted _ _ hi hj hij)).elim
      (fun h => absurd h (lt_irrefl _)) And.right
  unfold Cursor.prevDup
  by_cases hzero : cur.pos = 0
  · refine Or.inl ⟨if_pos hzero, fun x hx => ?_⟩
    obtain ⟨i, hi, rfl⟩ := List.mem_iff_getElem.mp hx
    rw [← hget]
    rcases Nat.eq_zero_or_pos i with e | e
    · subst e
      simp only [hzero]
      exact Nat.le_refl _
    · exact (hlt hpos hi (by omega)).le
  · have hprev : cur.pos - 1 < cur.table.rows.length := by omega
    have hrow : cur.table.rows[cur.pos - 1]? = some cur.table.rows[cur.pos - 1] := List.getElem?_eq_getElem hprev
    refine Or.inr ⟨⟨cur.table, cur.pos - 1, none⟩, cur.table.rows[cur.pos - 1], ?_, rfl, rfl, hrow,
      List.mem_of_getElem? hrow, ?_, fun x hx => ?_⟩
    · rw [if_neg hzero, hrow, Cursor.key?_of_row hg hr]
      show (if some b.1 = some _ then cur.goto (cur.pos - 1) else none) = _
      rw [if_pos rfl, Cursor.goto, if_pos hprev]
    · rw [← hget]
      exact hlt hprev hpos (by omega)
    · obtain ⟨i, hi, rfl⟩ := List.mem_iff_getElem.mp hx
      rw [← hget]
      rcases Nat.lt_trichotomy i (cur.pos - 1) with e | rfl | e
      · exact Or.inl (hlt hi hprev e).le
      · exact Or.inl (Nat.le_refl _)
      · rcases Nat.eq_or_lt_of_le (show cur.pos ≤ i by omega) with rfl | e'
        · exact Or.inr (Nat.le_refl _)
        · exact Or.inr (hlt hpos hi e').le

/-- `MDB_SET` and `MDB_LAST_DUP`: the last row of blocks or proofs of work. -/
theorem lastDup_row {V : Type} {sort : V → Nat} {t : Table Version sort} {cur : Cursor Version sort}
    (hc : t.set () = some cur) :
    cur.lastDup.table = t ∧ cur.lastDup.gone = none ∧
      ∃ last, cur.lastDup.row? = some last ∧ last ∈ t ∧ ∀ x ∈ t, sort x.2 ≤ sort last.2 := by
  obtain ⟨ht, hg, hbefore, r, rs, hdrop, -⟩ := Table.seek_some hc
  have hrow : cur.row? = some r := by
    rw [Cursor.row?, ht, ← List.head?_drop, hdrop]; rfl
  obtain ⟨run, rest, last, hsplit, hmem, hlast, hrun, hrest, -⟩ := Table.lastDup_run hg hrow
  rw [ht] at hsplit
  refine ⟨ht, rfl, last, hlast, ?_, fun b hb => ?_⟩
  · have hin : last ∈ t.rows.drop cur.pos := by rw [hsplit]; exact List.mem_append_left _ hmem
    exact List.mem_of_mem_drop hin
  · rw [← Table.mem_rows, ← List.take_append_drop cur.pos t.rows, List.mem_append] at hb
    rcases hb with hb | hb
    · have := hbefore b hb
      simp at this
    · rw [hsplit, List.mem_append] at hb
      rcases hb with hb | hb
      · exact (hrun b hb).2
      · exact absurd (hrest b hb) (lt_irrefl _)

theorem set_of_mem {V S : Type} [LinearOrder S] {sort : V → S} {t : Table Version sort} {r : Version × V} (hr : r ∈ t) :
    ∃ cur, t.set () = some cur := by
  rcases hc : t.set () with _ | cur
  · have := Table.seek_none hc r hr
    simp at this
  · exact ⟨cur, rfl⟩

/-- The move to the next block, in a contiguous chain. -/
theorem nextDup_block {height : Nat} {blocks : Blocks} (hc : Contiguous height blocks)
    {cur : Cursor Version BlockInfo.id} {b : Version × BlockInfo} (ht : cur.table = blocks) (hg : cur.gone = none)
    (hr : cur.row? = some b) (hb : height ≤ b.2.id) :
    (cur.nextDup = none ∧ ∀ x ∈ blocks, x.2.id ≤ b.2.id) ∨
      ∃ cur' n, cur.nextDup = some cur' ∧ cur'.table = blocks ∧ cur'.gone = none ∧ cur'.row? = some n ∧
        n ∈ blocks ∧ n.2.id = b.2.id + 1 := by
  subst ht
  rcases nextDup_row hg hr with h | ⟨cur', n, hsome, ht', hg', hr', hn, hlt, hgap⟩
  · exact Or.inl h
  · refine Or.inr ⟨cur', n, hsome, ht', hg', hr', hn, ?_⟩
    obtain ⟨p, hp, he⟩ := hc n hn (by omega)
    have := hgap p hp
    omega

/-- What the comparison finds: the first `j` hashes are stored, and then the hashes or
    the stored blocks end, or the next hash is another than the stored one. -/
theorem syncChainLoop_ok {env : Env} {regtest : Bool} {db : Storage} {height : Nat} (hc : Contiguous height db.blocks) :
    ∀ (chain : List Hash) {cur : Cursor Version BlockInfo.id} {current : Nat} {b : Version × BlockInfo}
      {db' : Storage} {current' : Nat} {chain' : List Hash},
      cur.table = db.blocks → cur.gone = none → cur.row? = some b → height ≤ b.2.id → b.2.id + 1 = current →
      syncChainLoop env regtest db cur current chain = .ok (db', current', chain') →
      ∃ j, current' = current + j ∧ chain' = chain.drop j ∧ j ≤ chain.length ∧
        (∀ i < j, ∃ h, chain[i]? = some h ∧ ((), ⟨current + i, h⟩) ∈ db.blocks) ∧
        ((db' = db ∧ (chain' = [] ∨ ∀ x ∈ db.blocks, x.2.id < current')) ∨
          ∃ h stored, chain[j]? = some h ∧ ((), ⟨current', stored⟩) ∈ db.blocks ∧ stored ≠ h ∧
            (regtest = false → env.maxHeight < current') ∧ Rewound current' db db' ∧
            db'.blocks = db.blocks.filter fun x => decide (x.2.id < current')) := by
  intro chain
  induction chain with
  | nil =>
    intro cur current b db' current' chain' _ _ _ _ _ h
    cases h
    exact ⟨0, rfl, rfl, Nat.le_refl _, fun i hi => absurd hi (Nat.not_lt_zero _), Or.inl ⟨rfl, Or.inl rfl⟩⟩
  | cons hash chain ih =>
    intro cur current b db' current' chain' ht hg hr hb hcur h
    unfold syncChainLoop at h
    rcases nextDup_block hc ht hg hr hb with ⟨hnone, hlast⟩ | ⟨cur', n, hsome, ht', hg', hr', hn, hid⟩
    · rw [hnone] at h
      cases h
      exact ⟨0, rfl, rfl, Nat.zero_le _, fun i hi => absurd hi (Nat.not_lt_zero _),
        Or.inl ⟨rfl, Or.inr fun x hx => by have := hlast x hx; omega⟩⟩
    · simp only [hsome, hr'] at h
      have hnid : n = ((), ⟨current, n.2.hash⟩) := by
        rw [← hcur, ← hid]
      split at h
      · rename_i hne
        split at h
        · cases h
        · rename_i hmax
          obtain ⟨db₁, hrb, h⟩ := bind_ok.mp h
          cases h
          refine ⟨0, rfl, rfl, Nat.zero_le _, fun i hi => absurd hi (Nat.not_lt_zero _), Or.inr ?_⟩
          obtain ⟨hrw, hblocks⟩ := rollbackChain_ok ht' hg' hr' hrb
          rw [show n.2.id = current by omega] at hblocks
          refine ⟨hash, n.2.hash, rfl, hnid ▸ hn, hne, fun hreg => ?_, hrw, hblocks⟩
          simp only [hreg, Bool.not_false, Bool.true_and, decide_eq_true_eq] at hmax
          omega
      · rename_i heq
        rw [not_not] at heq
        obtain ⟨j, hj, hdrop, hlen, hsame, hend⟩ := ih ht' hg' hr' (by omega) (by omega) h
        refine ⟨j + 1, by omega, by simpa using hdrop, Nat.succ_le_succ hlen, fun i hi => ?_, ?_⟩
        · cases i with
          | zero => exact ⟨hash, rfl, by rw [← heq]; exact hnid ▸ hn⟩
          | succ i =>
            obtain ⟨x, hx, hm⟩ := hsame i (by omega)
            exact ⟨x, by simpa using hx, by rwa [show current + (i + 1) = current + 1 + i by omega]⟩
        · simpa using hend

/-- The height at which the stored hashes first differ from the given ones. -/
def mismatch : Nat → List Hash → List Hash → Option Nat
  | current, stored :: rest, h :: chain => if stored ≠ h then some current else mismatch (current + 1) rest chain
  | _, _, _ => none

def hashesAfter (cur : Cursor Version BlockInfo.id) : List Hash := (cur.table.rows.drop (cur.pos + 1)).map (·.2.hash)

theorem hashesAfter_end {cur : Cursor Version BlockInfo.id} {b : Version × BlockInfo} (hg : cur.gone = none)
    (hr : cur.row? = some b) (hn : cur.nextDup = none) : hashesAfter cur = [] := by
  have hnext := Cursor.steps_nextDup () cur b (Cursor.key?_of_row hg hr) (by simp)
  rw [Cursor.ahead_of_row hg, hn] at hnext
  unfold hashesAfter
  rcases hx : cur.table.rows[cur.pos + 1]? with _ | n
  · rw [List.drop_eq_nil_of_le (List.getElem?_eq_none_iff.mp hx)]; rfl
  · simp [hx] at hnext

theorem hashesAfter_next {cur cur' : Cursor Version BlockInfo.id} {b n : Version × BlockInfo} (hg : cur.gone = none)
    (hr : cur.row? = some b) (hn : cur.nextDup = some cur') (hr' : cur'.row? = some n) :
    hashesAfter cur = n.2.hash :: hashesAfter cur' := by
  have hnext := Cursor.steps_nextDup () cur b (Cursor.key?_of_row hg hr) (by simp)
  rw [Cursor.ahead_of_row hg, hn] at hnext
  rcases hx : cur.table.rows[cur.pos + 1]? with _ | m
  · simp [hx] at hnext
  · obtain ⟨hlen, hget⟩ := List.getElem?_eq_some_iff.mp hx
    obtain rfl : cur' = ⟨cur.table, cur.pos + 1, none⟩ := by simpa [hx] using hnext
    obtain rfl : m = n := Option.some.inj (hx.symm.trans hr')
    unfold hashesAfter
    rw [List.drop_eq_getElem_cons hlen, hget]; rfl

/-- Without any assumption on the stored blocks: the hashes passed over are those of the
    next blocks, up to `last`, and then they end, or the stored blocks end, or the next
    block `n` has another hash and the database is rolled back. -/
theorem syncChainLoop_rows {env : Env} {regtest : Bool} {db : Storage} : ∀ (chain : List Hash)
    {cur : Cursor Version BlockInfo.id} {current : Nat} {db' : Storage} {current' : Nat} {chain' : List Hash}
    {b : Version × BlockInfo}, cur.table = db.blocks → cur.gone = none → cur.row? = some b → current ≤ b.2.id + 1 →
      syncChainLoop env regtest db cur current chain = .ok (db', current', chain') →
      ∃ j last, current' = current + j ∧ chain' = chain.drop j ∧ j ≤ chain.length ∧ last ∈ db.blocks ∧
        current' ≤ last.2.id + 1 ∧ (j = 0 → last = b) ∧ (∀ i, j = i + 1 → chain[i]? = some last.2.hash) ∧
        ((mismatch current (hashesAfter cur) chain = none ∧ db' = db ∧
            (chain' = [] ∨ ∀ x ∈ db.blocks, x.2.id ≤ last.2.id)) ∨
          (mismatch current (hashesAfter cur) chain = some current' ∧ Rewound current' db db' ∧
            ∃ n ∈ db.blocks, last.2.id < n.2.id ∧ (∀ x ∈ db.blocks, x.2.id ≤ last.2.id ∨ n.2.id ≤ x.2.id) ∧
              db'.blocks = db.blocks.filter fun x => decide (x.2.id < n.2.id))) := by
  intro chain
  induction chain with
  | nil =>
    intro cur current db' current' chain' b ht hg hr hle h
    cases h
    have hb : b ∈ db.blocks := ht ▸ List.mem_of_getElem? hr
    refine ⟨0, b, rfl, rfl, Nat.le_refl _, hb, hle, fun _ => rfl, fun i hi => by omega, Or.inl ⟨?_, rfl, Or.inl rfl⟩⟩
    unfold mismatch; split <;> simp_all
  | cons hash chain ih =>
    intro cur current db' current' chain' b ht hg hr hle h
    have hb : b ∈ db.blocks := ht ▸ List.mem_of_getElem? hr
    unfold syncChainLoop at h
    rcases nextDup_row hg hr with ⟨hnone, hlast⟩ | ⟨cur', n, hsome, ht', hg', hr', hn, hlt, hgap⟩
    · rw [hnone] at h
      cases h
      refine ⟨0, b, rfl, rfl, Nat.zero_le _, hb, hle, fun _ => rfl, fun i hi => by omega,
        Or.inl ⟨?_, rfl, Or.inr (ht ▸ hlast)⟩⟩
      rw [hashesAfter_end hg hr hnone]; rfl
    · simp only [hsome, hr'] at h
      rw [hashesAfter_next hg hr hsome hr', mismatch]
      rw [ht] at ht' hn hgap
      split at h
      · rename_i hne
        split at h
        · cases h
        · obtain ⟨db₁, hrb, h⟩ := bind_ok.mp h
          cases h
          obtain ⟨hrw, hblocks⟩ := rollbackChain_ok ht' hg' hr' hrb
          exact ⟨0, b, rfl, rfl, Nat.zero_le _, hb, hle, fun _ => rfl, fun i hi => by omega,
            Or.inr ⟨if_pos hne, hrw, n, hn, hlt, hgap, hblocks⟩⟩
      · rename_i heq
        rw [if_neg heq]
        rw [not_not] at heq
        obtain ⟨j, last, rfl, rfl, hj, hlast, hreach, hzero, hsucc, hend⟩ := ih ht' hg' hr' (by omega) h
        refine ⟨j + 1, last, by omega, rfl, Nat.succ_le_succ hj, hlast, hreach, fun e => by omega, fun i hi => ?_, hend⟩
        cases i with
        | zero => rw [hzero (by omega), heq]; rfl
        | succ i => simpa using hsucc i (by omega)

/-- `mismatch` for the blocks stored from `height` on. -/
def forkPoint (blocks : Blocks) (height : Nat) (hashes : List Hash) : Option Nat :=
  match blocks.getBoth () height with
  | none => none
  | some cur => mismatch (height + 1) (hashesAfter cur) (hashes.drop 1)

/-- The hashes up to `height + j` are passed over, `last` is the stored block with the
    last of them, and the rest is appended. -/
theorem syncChain_rows {env : Env} {height : Nat} {hashes : List Hash} {regtest : Bool} {db db' : Storage}
    (h : db.syncChain env height hashes regtest = .ok db') :
    ∃ j last mid, j < hashes.length ∧ last ∈ db.blocks ∧ height + j ≤ last.2.id ∧ (j = 0 → last.2.id = height) ∧
      hashes[j]? = some last.2.hash ∧
      db' = { mid with blocks := appendBlockHashes (height + j + 1) (hashes.drop (j + 1)) mid.blocks } ∧
      ((forkPoint db.blocks height hashes = none ∧ mid = db ∧
          (hashes.drop (j + 1) = [] ∨ ∀ x ∈ db.blocks, x.2.id ≤ last.2.id)) ∨
        (forkPoint db.blocks height hashes = some (height + j + 1) ∧ Rewound (height + j + 1) db mid ∧
          ∃ n ∈ db.blocks, last.2.id < n.2.id ∧ (∀ x ∈ db.blocks, x.2.id ≤ last.2.id ∨ n.2.id ≤ x.2.id) ∧
            mid.blocks = db.blocks.filter fun x => decide (x.2.id < n.2.id))) := by
  unfold Storage.syncChain at h
  split at h
  · cases h
  · rename_i first chain
    obtain ⟨hash, hhash, h⟩ := bind_ok.mp h
    split at h
    · cases h
    · rename_i heq
      have hfirst := getBlockHash_ok hhash
      rw [not_not.mp heq] at hfirst
      split at h
      · cases h
      · rename_i cur hc
        obtain ⟨⟨mid, current, chain'⟩, hloop, h⟩ := bind_ok.mp h
        cases h
        obtain ⟨ht, hg, v, hrow, hv, hid⟩ := getBoth_some hc
        have hfork : forkPoint db.blocks height (first :: chain) = mismatch (height + 1) (hashesAfter cur) chain := by
          unfold forkPoint
          rw [hc]; rfl
        rw [hfork]
        obtain ⟨j, last, rfl, rfl, hj, hlast, hreach, hzero, hsucc, hend⟩ :=
          syncChainLoop_rows chain ht hg hrow (by rw [← hid]) hloop
        refine ⟨j, last, mid, Nat.lt_succ_of_le hj, hlast, by omega, fun e => by rw [hzero e]; exact hid, ?_, ?_, ?_⟩
        · cases j with
          | zero =>
            have hv' := Table.unique_val hv hfirst hid
            rw [hzero rfl, hv']; rfl
          | succ i => simpa using hsucc i rfl
        · rw [show height + j + 1 = height + 1 + j by omega]; rfl
        · rw [show height + j + 1 = height + 1 + j by omega]
          exact hend

theorem syncChain_cases {env : Env} {height : Nat} {hashes : List Hash} {regtest : Bool} {db db' : Storage}
    (h : db.syncChain env height hashes regtest = .ok db') :
    (forkPoint db.blocks height hashes = none ∧ ∃ blocks, db' = { db with blocks }) ∨
      ∃ current mid blocks, forkPoint db.blocks height hashes = some current ∧ Rewound current db mid ∧
        db' = { mid with blocks } := by
  obtain ⟨j, last, mid, -, -, -, -, -, rfl, ⟨hfork, rfl, -⟩ | ⟨hfork, hrw, -⟩⟩ := syncChain_rows h
  · exact Or.inl ⟨hfork, _, rfl⟩
  · exact Or.inr ⟨_, mid, _, hfork, hrw, rfl⟩

end Lws.Db
