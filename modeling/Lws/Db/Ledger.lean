/-
  Lws.Db.Ledger — the tables of outputs and spends as a view of the chain.

  An account was scanned over the blocks after its start height, up to its scan height. The
  abstract ledger of an account is what the chain has for it in these blocks. `World` is the
  database beside the chain that the scanner reads: an operation writes the database, and
  the chain changes (`learn`: new blocks, a reorg, new subaddresses) where no account was
  scanned. A reorg of blocks that an account was scanned over has to be rolled back first.

  - `ledger_exact`: in every state, the rows of an account are those of its ledger, when no
    account is taken back to a height at which it has a row (`rescan_loses_target`).
-/

import Lws.Db.Batches
import Lws.Db.Images

namespace Lws.Db

open Lws.Lmdb Lws.Transition

/-- The account was scanned over the block. -/
def Account.Covers (a : Account) (height : Nat) : Prop := a.startHeight < height ∧ height ≤ a.scanHeight

instance (a : Account) (height : Nat) : Decidable (a.Covers height) := inferInstanceAs (Decidable (_ ∧ _))

/-! ## A table and its source -/

section Cached

variable {V S : Type} [LinearOrder S] {sort : V → S} {height : V → Nat} {found found' : Nat → List V}
  {accounts accounts' : Accounts} {t t' : Table Nat sort}

/-- A table has of each account what `found` has in the blocks that it was scanned over. -/
structure Cached (height : V → Nat) (found : Nat → List V) (accounts : Accounts) (t : Table Nat sort) : Prop where
  owned : ∀ r ∈ t, ∃ s ∈ accounts, s.2.id = r.1
  rows : ∀ s ∈ accounts, ∀ v, (s.2.id, v) ∈ t ↔ v ∈ found s.2.id ∧ s.2.Covers (height v)

/-- Accounts are taken back, and the rows of the blocks they no longer cover are deleted. -/
theorem Cached.take (gone : Nat → Nat → Prop) (h : Cached height found accounts t)
    (hback : ∀ s' ∈ accounts', ∃ s ∈ accounts, s.2.id = s'.2.id ∧ ∀ v ∈ found s'.2.id,
      (s'.2.Covers (height v) ↔ s.2.Covers (height v) ∧ ¬ gone s'.2.id (height v)))
    (hkeep : ∀ s ∈ accounts, ∃ s' ∈ accounts', s'.2.id = s.2.id)
    (ht : ∀ r, r ∈ t' ↔ r ∈ t ∧ ¬ gone r.1 (height r.2)) : Cached height found accounts' t' := by
  refine ⟨fun r hr => ?_, fun s' hs' v => ?_⟩
  · obtain ⟨s, hs, hid⟩ := h.owned r ((ht r).mp hr).1
    obtain ⟨s', hs', hid'⟩ := hkeep s hs
    exact ⟨s', hs', hid'.trans hid⟩
  · obtain ⟨s, hs, hid, hcovers⟩ := hback s' hs'
    have hrow := h.rows s hs v
    rw [hid] at hrow
    rw [ht, hrow, and_assoc]
    exact and_congr_right fun hv => (hcovers v hv).symm

/-- Accounts are written that cover the same blocks. -/
theorem Cached.same (h : Cached height found accounts t)
    (hback : ∀ s' ∈ accounts', ∃ s ∈ accounts, s.2.id = s'.2.id ∧ s.2.startHeight = s'.2.startHeight ∧
      s.2.scanHeight = s'.2.scanHeight)
    (hkeep : ∀ s ∈ accounts, ∃ s' ∈ accounts', s'.2.id = s.2.id) : Cached height found accounts' t := by
  refine h.take (fun _ _ => False) (fun s' hs' => ?_) hkeep fun r => (and_iff_left not_false).symm
  obtain ⟨s, hs, hid, hstart, hscan⟩ := hback s' hs'
  refine ⟨s, hs, hid, fun v _ => ?_⟩
  unfold Account.Covers
  rw [hstart, hscan]
  exact (and_iff_left not_false).symm

/-- An account is added that has not been scanned, under an id of its own. -/
theorem Cached.add {st : AccountStatus} {a : Account} (h : Cached height found accounts t)
    (hnew : ∀ s ∈ accounts, s.2.id ≠ a.id) (hstart : a.startHeight = a.scanHeight) :
    Cached height found (accounts.put st a) t := by
  have hkept : ∀ s ∈ accounts, s ∈ accounts.put st a := by
    intro s hs
    exact Table.mem_put.mpr (Or.inr ⟨hs, fun e => hnew s hs e.2⟩)
  refine ⟨fun r hr => ?_, fun s hs v => ?_⟩
  · obtain ⟨s, hs, hid⟩ := h.owned r hr
    exact ⟨s, hkept s hs, hid⟩
  · rcases Table.mem_put.mp hs with rfl | ⟨hs, -⟩
    · constructor
      · intro hrow
        obtain ⟨s, hs, hid⟩ := h.owned _ hrow
        exact absurd hid (hnew s hs)
      · rintro ⟨-, hlow, hle⟩
        have hlow' : a.startHeight < height v := hlow
        have hle' : height v ≤ a.scanHeight := hle
        omega
    · exact h.rows s hs v

theorem Cached.store {st : AccountStatus} {a : Account} {from_ last : Nat} {rows : List V}
    (h : Cached height found accounts t) (hkeys : ∀ v ∈ found a.id, ∀ w ∈ found a.id, sort v = sort w → v = w)
    (hids : ∀ r ∈ accounts, ∀ s ∈ accounts, r.2.id = s.2.id → r = s) (ha : (st, a) ∈ accounts)
    (hrows : ∀ v, v ∈ rows ↔ v ∈ found a.id ∧ from_ < height v ∧ height v ≤ last) (hstart : a.startHeight ≤ from_)
    (hfrom : from_ ≤ a.scanHeight) (hlast : a.scanHeight < last) :
    Cached height found (accounts.put st { a with scanHeight := last }) (t.putAllAbsent a.id rows) := by
  have hput : ∀ s ∈ accounts.put st { a with scanHeight := last },
      s = (st, { a with scanHeight := last }) ∨ (s ∈ accounts ∧ s.2.id ≠ a.id) := by
    intro s hs
    rcases Table.mem_put.mp hs with hs | ⟨hs, hne⟩
    · exact Or.inl hs
    · refine Or.inr ⟨hs, fun hid => hne ?_⟩
      rw [hids s hs (st, a) ha hid]
      exact ⟨rfl, rfl⟩
  refine ⟨fun r hr => ?_, fun s hs v => ?_⟩
  · have howner : ∃ s ∈ accounts, s.2.id = r.1 := by
      rcases Table.mem_putAllAbsent hr with hr | ⟨hid, -⟩
      · exact h.owned r hr
      · exact ⟨(st, a), ha, hid.symm⟩
    obtain ⟨s, hs, hid⟩ := howner
    by_cases e : s.1 = st ∧ s.2.id = a.id
    · exact ⟨_, Table.mem_put_self _ _ _, e.2.symm.trans hid⟩
    · exact ⟨s, Table.mem_put.mpr (Or.inr ⟨hs, e⟩), hid⟩
  · rcases hput s hs with rfl | ⟨hs, hne⟩
    · -- what was stored lies at or below the old scan height, and the new rows reach from `from_` on
      have hold := h.rows (st, a) ha
      have hmem : ∀ w, (a.id, w) ∈ t.putAllAbsent a.id rows → w ∈ found a.id ∧ a.startHeight < height w ∧ height w ≤ last := by
        intro w hw
        rcases Table.mem_putAllAbsent hw with hw | ⟨-, hw⟩
        · obtain ⟨hw, hlow, hle⟩ := (hold w).mp hw
          exact ⟨hw, hlow, hle.trans hlast.le⟩
        · obtain ⟨hw, hlow, hle⟩ := (hrows w).mp hw
          exact ⟨hw, hstart.trans_lt hlow, hle⟩
      refine ⟨hmem v, fun hv => ?_⟩
      obtain ⟨hv, hlow, hle⟩ := hv
      have hlow' : a.startHeight < height v := hlow
      by_cases hscanned : height v ≤ a.scanHeight
      · exact Table.mem_putAllAbsent_of_mem ((hold v).mpr ⟨hv, hlow', hscanned⟩)
      · have hnew : v ∈ rows := (hrows v).mpr ⟨hv, by omega, hle⟩
        obtain ⟨w, hw, hsort⟩ := Table.putAllAbsent_stores (t := t) (k := a.id) hnew
        rw [hkeys w (hmem w hw).1 v hv hsort] at hw
        exact hw
    · rw [← h.rows s hs v]
      refine ⟨fun hrow => ?_, Table.mem_putAllAbsent_of_mem⟩
      rcases Table.mem_putAllAbsent hrow with hrow | ⟨hid, -⟩
      · exact hrow
      · exact absurd hid hne

/-- The source changes in blocks that no account was scanned over. -/
theorem Cached.learn (h : Cached height found accounts t)
    (hsame : ∀ s ∈ accounts, ∀ v, s.2.Covers (height v) → (v ∈ found' s.2.id ↔ v ∈ found s.2.id)) :
    Cached height found' accounts t :=
  ⟨h.owned, fun s hs v => (h.rows s hs v).trans (and_congr_left fun hcovers => (hsame s hs v hcovers).symm)⟩

end Cached

theorem Table.dups_nodup {V S : Type} [LinearOrder S] {sort : V → S} (t : Table Nat sort) (id : Nat) :
    (t.dups id).Nodup := (t.dups_sorted id).imp fun hlt he => by
  rw [he] at hlt
  exact lt_irrefl _ hlt

theorem Cached.perm {V S : Type} [LinearOrder S] {sort : V → S} {height : V → Nat} {found : Nat → List V}
    {accounts : Accounts} {t : Table Nat sort} (h : Cached height found accounts t) {s : AccountStatus × Account}
    (hs : s ∈ accounts) (hnodup : ((found s.2.id).filter fun v => s.2.Covers (height v)).Nodup) :
    (t.dups s.2.id).Perm ((found s.2.id).filter fun v => s.2.Covers (height v)) := by
  refine (List.perm_ext_iff_of_nodup (Table.dups_nodup t s.2.id) hnodup).mpr fun v => ?_
  rw [Table.mem_dups, h.rows s hs v, List.mem_filter, decide_eq_true_eq]

/-! ## The ledger of the database -/

/-- The outputs and spends of each account are those that the chain has in the blocks it was scanned over. -/
structure Ledger (f : Found) (db : Storage) : Prop where
  outputs : Cached (·.link.height) f.outputs db.accounts db.outputs
  spends : Cached (·.link.height) f.spends db.accounts db.spends

/-- Rows of the chain with one key are one row. -/
structure Found.Keyed (f : Found) : Prop where
  outputs : ∀ id, ∀ o ∈ f.outputs id, ∀ p ∈ f.outputs id, o.sort = p.sort → o = p
  spends : ∀ id, ∀ s ∈ f.spends id, ∀ t ∈ f.spends id, s.sort = t.sort → s = t

def Found.received (f : Found) (a : Account) : List Output := (f.outputs a.id).filter fun o => a.Covers o.link.height

def Found.spent (f : Found) (a : Account) : List Spend := (f.spends a.id).filter fun s => a.Covers s.link.height

/-- A batch up to block `last` has what the chain has for its accounts, each above the height it was scanned from. -/
structure ScanOf (f : Found) (db : Storage) (last : Nat) (users : List Lws.Account) : Prop where
  outputs : ∀ u ∈ users, ∀ o, o ∈ u.outputs ↔
    o ∈ f.outputs u.id ∧ u.scanHeight < o.link.height ∧ o.link.height ≤ last
  spends : ∀ u ∈ users, ∀ s, s ∈ u.spends ↔
    s ∈ f.spends u.id ∧ u.scanHeight < s.link.height ∧ s.link.height ≤ last
  start : ∀ u ∈ users, ∀ r ∈ db.accounts, r.2.id = u.id → r.2.startHeight ≤ u.scanHeight

/-- No account goes back to a height it was scanned to and has a row at. -/
structure NoRowAtTarget (db : Storage) (op : Op) : Prop where
  outputs : NoOutputAtTarget db op
  spends : ∀ t ∈ op.targets db, ∀ r ∈ db.accounts, r.2.id = t.1 → t.2 ≤ r.2.scanHeight →
    ∀ q ∈ db.spends, q.1 = t.1 → q.2.link.height ≠ t.2

instance (db : Storage) (op : Op) : Decidable (NoRowAtTarget db op) :=
  decidable_of_iff (NoOutputAtTarget db op ∧ ∀ t ∈ op.targets db, ∀ r ∈ db.accounts, r.2.id = t.1 → t.2 ≤ r.2.scanHeight →
    ∀ q ∈ db.spends, q.1 = t.1 → q.2.link.height ≠ t.2) ⟨fun h => ⟨h.1, h.2⟩, fun h => ⟨h.outputs, h.spends⟩⟩

section Changes

variable {env : Env} {f : Found} {db db' : Storage}

def LedgerAct (f : Found) (db : Storage) : Act → Prop
  | .lower user height => ∀ s ∈ db.accounts, s.2.id = user → ¬ (s.2.Covers height ∧
    ((∃ o ∈ f.outputs user, o.link.height = height) ∨ ∃ t ∈ f.spends user, t.link.height = height))
  | .store _ last user => ScanOf f db last [user]
  | _ => True

theorem lowered_covers {a a' : Account} {height h : Nat} (hsame : (a.lowered height).Same a')
    (hbad : a.Covers h → h ≠ height) : a'.Covers h ↔ a.Covers h ∧ ¬ height ≤ h := by
  unfold Account.Covers at hbad ⊢
  rw [hsame.startHeight, hsame.scanHeight]
  show min height a.startHeight < h ∧ h ≤ min height a.scanHeight ↔ _
  constructor
  · rintro ⟨hlow, hle⟩
    have hcovers : a.startHeight < h ∧ h ≤ a.scanHeight := by omega
    have hne := hbad hcovers
    omega
  · rintro ⟨⟨hlow, hle⟩, habove⟩
    omega

theorem rolledBack_covers {a : Account} {height h : Nat} (habove : height ≤ a.scanHeight) :
    (a.rolledBack (max height 1 - 1)).Covers h ↔ a.Covers h ∧ ¬ height ≤ h := by
  unfold Account.Covers
  show min (max height 1 - 1) a.startHeight < h ∧ h ≤ max height 1 - 1 ↔ _
  omega

section Writes

variable {V S : Type} [LinearOrder S] {sort : V → S} {hgt : V → Nat} {found : Nat → List V} {t t' : Table Nat sort}
  {st : AccountStatus} {a a' : Account}

theorem accounts_put_keep {accounts : Accounts} {s : AccountStatus × Account} (hs : s ∈ accounts) :
    ∃ s' ∈ accounts.put st a', s'.2.id = s.2.id := by
  by_cases e : s.1 = st ∧ s.2.id = a'.id
  · exact ⟨_, Table.mem_put_self _ _ _, e.2.symm⟩
  · exact ⟨s, Table.mem_put.mpr (Or.inr ⟨hs, e⟩), rfl⟩

theorem Cached.touch (h : Cached hgt found db.accounts t) (ha : (st, a) ∈ db.accounts) (hsame : a.Same a') :
    Cached hgt found (db.accounts.put st a') t := by
  refine h.same (fun s' hs' => ?_) fun s hs => accounts_put_keep hs
  rcases Table.mem_put.mp hs' with rfl | ⟨hs', -⟩
  · exact ⟨(st, a), ha, hsame.id.symm, hsame.startHeight.symm, hsame.scanHeight.symm⟩
  · exact ⟨s', hs', rfl, rfl, rfl⟩

theorem Cached.move {b : AccountByAddress} (h : Cached hgt found db.accounts t)
    (ha : (b.lookup.status, a) ∈ db.accounts) (hid : a.id = b.lookup.id) :
    Cached hgt found (moved b a st db).accounts t := by
  refine h.same (fun s' hs' => ?_) fun s hs => ?_
  · rcases Table.mem_put.mp hs' with rfl | ⟨hs', -⟩
    · exact ⟨(_, a), ha, rfl, rfl, rfl⟩
    · exact ⟨s', (Table.mem_erase.mp hs').1, rfl, rfl, rfl⟩
  · by_cases e : s.2.id = a.id
    · exact ⟨_, Table.mem_put_self _ _ _, e.symm⟩
    · exact ⟨s, Table.mem_put.mpr (Or.inr ⟨Table.mem_erase.mpr ⟨hs, fun e' => e (e'.2.trans hid.symm)⟩,
        fun e' => e e'.2⟩), rfl⟩

/-- One account goes back, with its rows; the others cover what they did. -/
theorem Cached.lower {height : Nat} (h : Cached hgt found db.accounts t) (hagree : db.Agree env)
    (ha : (st, a) ∈ db.accounts) (hsame : (a.lowered height).Same a')
    (hnone : ∀ v ∈ found a.id, a.Covers (hgt v) → hgt v ≠ height)
    (ht : ∀ r, r ∈ t' ↔ r ∈ t ∧ ¬ (r.1 = a.id ∧ height ≤ hgt r.2)) : Cached hgt found (db.accounts.put st a') t' := by
  refine h.take (fun id k => id = a.id ∧ height ≤ k) (fun s' hs' => ?_) (fun s hs => accounts_put_keep hs) ht
  rcases Table.mem_put.mp hs' with rfl | ⟨hs', hne⟩
  · refine ⟨(_, a), ha, hsame.id.symm, fun v hv => ?_⟩
    rw [show a'.id = a.id from hsame.id] at hv
    rw [lowered_covers hsame (hnone v hv)]
    exact and_congr_right fun _ => not_congr (and_iff_right hsame.id).symm
  · refine ⟨s', hs', rfl, fun v _ => (and_iff_left fun e => hne ?_).symm⟩
    rw [hagree.ids s' hs' _ ha e.1]
    exact ⟨rfl, hsame.id.symm⟩

/-- The accounts above a height go back, with the rows of those blocks. -/
theorem Cached.rewind {height : Nat} (h : Cached hgt found db.accounts t) (hagree : db.Agree env)
    (hrw : Rewound height db db')
    (ht : ∀ r, r ∈ t' ↔ r ∈ t ∧ ¬ (height ≤ hgt r.2 ∧ ∃ l ∈ lookupsAbove db.accountsBh height, l.id = r.1)) :
    Cached hgt found db'.accounts t' := by
  refine h.take (fun id k => height ≤ k ∧ ∃ l ∈ lookupsAbove db.accountsBh height, l.id = id) (fun s' hs' => ?_)
    (fun s hs => ?_) ht
  · obtain ⟨a, ha, he⟩ := (hrw.accounts s'.1 s'.2).mp hs'
    refine ⟨(s'.1, a), ha, ?_, fun v _ => ?_⟩
    · rw [he]
      split <;> rfl
    · rw [he]
      by_cases hin : (⟨a.id, s'.1⟩ : AccountLookup) ∈ lookupsAbove db.accountsBh height
      · rw [if_pos hin, rolledBack_covers ((hagree.above ha).mp hin)]
        have hexists : ∃ l ∈ lookupsAbove db.accountsBh height, l.id = a.id := ⟨_, hin, rfl⟩
        exact and_congr_right fun _ => not_congr (and_iff_left hexists).symm
      · rw [if_neg hin]
        refine (and_iff_left fun e => hin ((hagree.above ha).mpr ?_)).symm
        exact (hagree.above_id ha).mp e.2
  · refine ⟨_, (hrw.accounts s.1 _).mpr ⟨s.2, hs, rfl⟩, ?_⟩
    show (if _ then _ else _ : Account).id = _
    split <;> rfl

end Writes

/-- An account that is added has an id of its own. -/
theorem added_fresh {user : Account} (hagree' : (added user db).Agree env)
    (hfree : ∀ x, (newStatus user, x) ∈ db.accounts → x.id ≠ user.id) : ∀ s ∈ db.accounts, s.2.id ≠ user.id := by
  intro s hs he
  by_cases e : s.1 = newStatus user
  · exact hfree s.2 (by rw [← e]; exact hs) he
  · have hput : s ∈ (added user db).accounts := Table.mem_put.mpr (Or.inr ⟨hs, fun e' => e e'.1⟩)
    have heq := hagree'.ids s hput (newStatus user, user) (Table.mem_put_self _ _ _) he
    exact e (congrArg Prod.fst heq)

theorem ledger_change {act : Act} (hkeys : f.Keyed) (hagree : db.Agree env) (hagree' : db'.Agree env)
    (h : Ledger f db) (hok : LedgerAct f db act) (hc : Change env act db db') : Ledger f db' := by
  cases hc with
  | touch ha hsame => exact ⟨h.outputs.touch ha hsame, h.spends.touch ha hsame⟩
  | move hb hne ha hid hl hl' hfree => exact ⟨h.outputs.move ha hid, h.spends.move ha hid⟩
  | add hkey hid hstart hba hbh hfree =>
    have hnew := added_fresh hagree' hfree
    exact ⟨h.outputs.add hnew hstart, h.spends.add hnew hstart⟩
  | lower hb ha hid hsame hs hl hl' =>
    obtain ⟨rfl, -⟩ := rollbackSpends_ok hs
    have hbad := hok _ ha rfl
    refine ⟨h.outputs.lower hagree ha hsame (fun o ho hcovers he => ?_) fun r => ?_,
      h.spends.lower hagree ha hsame (fun s hs hcovers he => ?_) fun r => ?_⟩
    · exact hbad ⟨he ▸ hcovers, Or.inl ⟨o, ho, he⟩⟩
    · exact Table.mem_filter.trans (and_congr_right fun _ => not_outputAbove)
    · exact hbad ⟨he ▸ hcovers, Or.inr ⟨s, hs, he⟩⟩
    · exact Table.mem_filter.trans (and_congr_right fun _ => not_spendAbove)
  | rewind hrw => exact ⟨h.outputs.rewind hagree hrw hrw.outputs, h.spends.rewind hagree hrw hrw.spends⟩
  | @store _ height last user status existing l pubs pubs' events ha hid hscan hlt hl hl' hooks =>
    have hstart := hok.start user (List.mem_singleton.mpr rfl) _ ha hid
    have houtputs := hok.outputs user (List.mem_singleton.mpr rfl)
    have hspends := hok.spends user (List.mem_singleton.mpr rfl)
    rw [← hid] at houtputs hspends
    refine ⟨?_, ?_⟩
    · show Cached _ _ (db.accounts.put _ _) (db.outputs.putAllAbsent user.id user.outputs)
      rw [← hid]
      exact h.outputs.store (hkeys.outputs _) hagree.ids ha houtputs hstart hscan hlt
    · show Cached _ _ (db.accounts.put _ _) (db.spends.putAllAbsent user.id user.spends)
      rw [← hid]
      exact h.spends.store (hkeys.spends _) hagree.ids ha hspends hstart hscan hlt
  | _ => exact ⟨h.outputs, h.spends⟩

/-! ## Operations -/

/-- What a row at the target of an operation would be. -/
theorem ledgerAct_lower {op : Op} {mid : Storage} {user height : Nat} (hnone : NoRowAtTarget db op)
    (h : Ledger f mid) (hspends : ∀ r ∈ mid.spends, r ∈ db.spends) (hin : (user, height) ∈ op.targets db)
    (hlow : Lowered db mid) : LedgerAct f mid (.lower user height) := by
  rintro s hs rfl ⟨hcovers, hrow⟩
  obtain ⟨a, ha, hid, hle⟩ := hlow.accounts s.1 s.2 hs
  have hscanned : height ≤ a.scanHeight := hcovers.2.trans hle
  rcases hrow with ⟨o, ho, he⟩ | ⟨t, ht, he⟩
  · have hstored := hlow.outputs _ ((h.outputs.rows s hs o).mpr ⟨ho, he.symm ▸ hcovers⟩)
    exact hnone.outputs _ hin _ ha hid hscanned _ hstored rfl he
  · have hstored := hspends _ ((h.spends.rows s hs t).mpr ⟨ht, he.symm ▸ hcovers⟩)
    exact hnone.spends _ hin _ ha hid hscanned _ hstored rfl he

/-- A change that is no update stores no spend. -/
theorem spends_of_change {act : Act} (hact : ∀ height last user, act ≠ .store height last user)
    (hc : Change env act db db') : ∀ r ∈ db'.spends, r ∈ db.spends := by
  cases hc with
  | lower _ _ _ _ hs _ _ =>
    obtain ⟨rfl, -⟩ := rollbackSpends_ok hs
    exact fun r hr => (Table.mem_filter.mp hr).1
  | rewind hrw => exact fun r hr => ((hrw.spends r).mp hr).1
  | store _ _ _ _ _ _ _ => exact absurd rfl (hact _ _ _)
  | _ => exact fun _ hr => hr

theorem ledger_other {op : Op} (hkeys : f.Keyed) (hbatch : op.batch = none) (hagree : db.Agree env)
    (hcount : db'.accounts.rows.length < 2 ^ 32 - 2) (h : Ledger f db) (hnone : NoRowAtTarget db op)
    (hrun : op.run env db = .ok db') : Ledger f db' := by
  have hstep := (run_changes hrun).keeps_agree (fun u => Ledger f u ∧ ∀ r ∈ u.spends, r ∈ db.spends) ?_ hcount hagree
    ⟨h, fun _ hr => hr⟩
  · exact hstep.2.1
  · rintro u u' act hu hu' ⟨hledger, hspends⟩ hact hc
    have hother : ∀ height last user, act ≠ .store height last user := by
      rintro height last user rfl
      obtain ⟨chain, users, pow, regtest, rfl, -⟩ := acts_store hact
      cases hbatch
    refine ⟨ledger_change hkeys hu hu' hledger ?_ hc, fun r hr => hspends r (spends_of_change hother hc r hr)⟩
    cases act with
    | lower user height =>
      obtain ⟨hin, hlow⟩ := acts_lower.mp hact
      exact ledgerAct_lower hnone hledger hspends hin hlow
    | store height last user => exact absurd rfl (hother height last user)
    | _ => trivial

theorem ledger_update {height : Nat} {chain : List Hash} {users : List Lws.Account} {pow : List PowSync}
    {regtest : Bool} {out : Updated} (hkeys : f.Keyed) (hagree : db.Agree env)
    (hcount : db'.accounts.rows.length < 2 ^ 32 - 2) (h : Ledger f db)
    (hscan : ScanOf f db (height + chain.length - 1) users)
    (hrun : db.update env height chain users pow regtest = .ok (db', out)) : Ledger f db' := by
  rcases update_stores hrun with rfl | ⟨blocks, pows, hstores⟩
  · exact h
  · -- an account keeps its start height through the batch
    have hbase : Ledger f { db with blocks, pows } ∧ ∀ r ∈ db.accounts, ∃ s ∈ db.accounts, s.2.id = r.2.id ∧
        s.2.startHeight = r.2.startHeight := ⟨⟨h.outputs, h.spends⟩, fun r hr => ⟨r, hr, rfl, rfl⟩⟩
    refine (hstores.keeps_agree (fun u => Ledger f u ∧ ∀ r ∈ u.accounts, ∃ s ∈ db.accounts, s.2.id = r.2.id ∧
      s.2.startHeight = r.2.startHeight) ?_ hcount hagree hbase).2.1
    rintro u u' act hu hu' ⟨hledger, hstart⟩ hact hc
    cases act with
    | store height' last user =>
      obtain ⟨-, rfl, hin, -⟩ := hact
      have hone : LedgerAct f u (.store height' (height + chain.length - 1) user) := by
        refine ScanOf.mk (fun v hv => ?_) (fun v hv => ?_) fun v hv r hr hid => ?_
        · rw [List.mem_singleton.mp hv]
          exact hscan.outputs user hin
        · rw [List.mem_singleton.mp hv]
          exact hscan.spends user hin
        · rw [List.mem_singleton.mp hv] at hid ⊢
          obtain ⟨s, hs, hsid, hsstart⟩ := hstart r hr
          rw [← hsstart]
          exact hscan.start user hin s hs (hsid.trans hid)
      refine ⟨ledger_change hkeys hu hu' hledger hone hc, ?_⟩
      cases hc with
      | @store _ _ _ _ status existing l pubs pubs' events ha _ _ _ _ _ _ =>
        intro r hr
        rcases Table.mem_put.mp hr with rfl | ⟨hr, -⟩
        · obtain ⟨s, hs, hsid, hsstart⟩ := hstart _ ha
          exact ⟨s, hs, hsid, hsstart⟩
        · exact hstart r hr
    | _ => exact hact.elim

end Changes

/-! ## Runs -/

/-- The database, and the chain that the scanner reads. -/
structure World where
  db : Storage
  found : Found

inductive WorldOp where
  | write (op : Op)
  | learn (found : Found)

def WorldOp.run (env : Env) : WorldOp → World → Except Error World
  | .write op, w => (op.run env w.db).map fun db => { w with db }
  | .learn found, w => .ok { w with found }

/-- The chain `f'` differs from `f` only in blocks that no account was scanned over. -/
structure Learns (db : Storage) (f f' : Found) : Prop where
  keyed : f'.Keyed
  outputs : ∀ s ∈ db.accounts, ∀ o, s.2.Covers o.link.height → (o ∈ f'.outputs s.2.id ↔ o ∈ f.outputs s.2.id)
  spends : ∀ s ∈ db.accounts, ∀ t, s.2.Covers t.link.height → (t ∈ f'.spends s.2.id ↔ t ∈ f.spends s.2.id)

def WorldOp.Ok (w : World) : WorldOp → Prop
  | .write op => (∀ b ∈ op.batch, ScanOf w.found w.db b.1 b.2) ∧ NoRowAtTarget w.db op
  | .learn found => Learns w.db w.found found

def World.Reached (env : Env) (f : Found) (w : World) : Prop := Steps (WorldOp.run env) WorldOp.Ok ⟨fresh env, f⟩ w

section Runs

variable {env : Env} {f f' : Found} {w w' : World} {db db' : Storage}

theorem map_ok {ε α β : Type} {x : Except ε α} {g : α → β} {b : β} (h : x.map g = .ok b) :
    ∃ a, x = .ok a ∧ b = g a := by
  rcases x with e | a
  · cases h
  · cases h
    exact ⟨a, rfl, rfl⟩

theorem ledger_run {op : Op} (hkeys : f.Keyed) (hagree : db.Agree env)
    (hcount : db'.accounts.rows.length < 2 ^ 32 - 2) (h : Ledger f db) (hscan : ∀ b ∈ op.batch, ScanOf f db b.1 b.2)
    (hnone : NoRowAtTarget db op) (hrun : op.run env db = .ok db') : Ledger f db' := by
  rcases hbatch : op.batch with _ | b
  · exact ledger_other hkeys hbatch hagree hcount h hnone hrun
  · cases op with
    | update height chain users pow regtest =>
      obtain ⟨out, hrun⟩ := fst_ok hrun
      exact ledger_update hkeys hagree hcount h (hscan _ rfl) hrun
    | _ => cases hbatch

theorem ledger_reached (hf : f.Keyed) (h : World.Reached env f w) (hcount : w.db.accounts.rows.length < 2 ^ 32 - 2) :
    w.db.Agree env ∧ Ledger w.found w.db := by
  have hinv := h.invariant (fun w => w.found.Keyed ∧ (w.db.accounts.rows.length < 2 ^ 32 - 2 →
    w.db.Agree env ∧ Ledger w.found w.db)) ⟨hf, fun _ => ⟨agree_fresh env, ?_⟩⟩ ?_
  · exact hinv.2 hcount
  · refine ⟨⟨fun _ hr => ?_, fun _ hs => ?_⟩, ⟨fun _ hr => ?_, fun _ hs => ?_⟩⟩
    · exact absurd hr (Table.not_mem_empty _)
    · exact absurd hs (Table.not_mem_empty _)
    · exact absurd hr (Table.not_mem_empty _)
    · exact absurd hs (Table.not_mem_empty _)
  · rintro w i w' ⟨hkeys, hw⟩ hok hrun
    cases i with
    | write op =>
      obtain ⟨db', hop, rfl⟩ := map_ok hrun
      refine ⟨hkeys, fun hlt => ?_⟩
      have hle := count_changes (run_changes hop)
      obtain ⟨hagree, hledger⟩ := hw (hle.trans_lt hlt)
      exact ⟨agree_run hop hlt hagree, ledger_run hkeys hagree hlt hledger hok.1 hok.2 hop⟩
    | learn found =>
      cases hrun
      refine ⟨hok.keyed, fun hlt => ?_⟩
      obtain ⟨hagree, hledger⟩ := hw hlt
      exact ⟨hagree, hledger.outputs.learn hok.outputs, hledger.spends.learn hok.spends⟩

/-- An operation that drops the blocks from `fork` on leaves no account scanned over one of
    them: any chain with the blocks below can be read from there on. -/
theorem learns_fork {op : Op} {fork : Nat} (hagree : db.Agree env) (hrun : op.run env db = .ok db')
    (hfork : op.forkAt db = some fork) (hkeys : f'.Keyed)
    (houtputs : ∀ id o, o.link.height < fork → (o ∈ f'.outputs id ↔ o ∈ f.outputs id))
    (hspends : ∀ id s, s.link.height < fork → (s ∈ f'.spends id ↔ s ∈ f.spends id)) : Learns db' f f' := by
  obtain ⟨mid, blocks, pows, hrw, rfl⟩ := run_forked hrun hfork
  have hbelow : ∀ s' ∈ mid.accounts, ∀ h, s'.2.Covers h → h < fork := by
    intro s' hs' h hcovers
    obtain ⟨a, ha, he⟩ := (hrw.accounts s'.1 s'.2).mp hs'
    rw [he] at hcovers
    by_cases hin : (⟨a.id, s'.1⟩ : AccountLookup) ∈ lookupsAbove db.accountsBh fork
    · rw [if_pos hin, rolledBack_covers ((hagree.above ha).mp hin)] at hcovers
      omega
    · rw [if_neg hin] at hcovers
      have hscan : ¬ fork ≤ a.scanHeight := fun hle => hin ((hagree.above ha).mpr hle)
      have hle : h ≤ a.scanHeight := hcovers.2
      omega
  exact ⟨hkeys, fun s hs o hcovers => houtputs _ o (hbelow s hs _ hcovers),
    fun s hs t hcovers => hspends _ t (hbelow s hs _ hcovers)⟩

/-- In every state, the rows of an account are those that the chain has in the blocks it was
    scanned over. When an operation drops blocks, any other chain with the same blocks
    below them can be scanned from there. -/
theorem ledger_exact (hf : f.Keyed) (h : World.Reached env f w) (hcount : w.db.accounts.rows.length < 2 ^ 32 - 2) :
    Ledger w.found w.db ∧ ∀ (op : Op) fork db' f', op.run env w.db = .ok db' → op.forkAt w.db = some fork → f'.Keyed →
      (∀ id o, o.link.height < fork → (o ∈ f'.outputs id ↔ o ∈ w.found.outputs id)) →
      (∀ id s, s.link.height < fork → (s ∈ f'.spends id ↔ s ∈ w.found.spends id)) → Learns db' w.found f' := by
  obtain ⟨hagree, hledger⟩ := ledger_reached hf h hcount
  exact ⟨hledger, fun op fork db' f' hrun hfork hkeys houtputs hspends =>
    learns_fork hagree hrun hfork hkeys houtputs hspends⟩

theorem scanOf_scan (f : Found) {last : Nat} {users : List Lws.Account}
    (hstart : ∀ u ∈ users, ∀ r ∈ db.accounts, r.2.id = u.id → r.2.startHeight ≤ u.scanHeight) :
    ScanOf f db last (users.map (f.scan last)) := by
  have hscan : ∀ v ∈ users.map (f.scan last), ∃ u ∈ users, v = f.scan last u := by
    intro v hv
    obtain ⟨u, hu, rfl⟩ := List.mem_map.mp hv
    exact ⟨u, hu, rfl⟩
  refine ⟨fun v hv o => ?_, fun v hv t => ?_, fun v hv r hr hid => ?_⟩
  · obtain ⟨u, -, rfl⟩ := hscan v hv
    simp [Found.scan]
  · obtain ⟨u, -, rfl⟩ := hscan v hv
    simp [Found.scan]
  · obtain ⟨u, hu, rfl⟩ := hscan v hv
    exact hstart u hu r hr hid

end Runs

/-- The chain of `sampleFound` with another block 3. -/
def reorgFound : Found :=
  { sampleFound with
    hashes := fun i => if i = 3 then 203 else 100 + i
    outputs := fun id => if id = 1 then [sampleOutput 1 9, sampleOutput 3 11] else [] }

theorem reorgFound_keyed : reorgFound.Keyed := by
  refine ⟨fun id o ho p hp => ?_, sampleFound_sound.spends⟩
  have hmem : ∀ {x : Output}, x ∈ reorgFound.outputs id → x ∈ [sampleOutput 1 9, sampleOutput 3 11] := by
    intro x hx
    unfold reorgFound at hx
    dsimp only at hx
    split at hx
    · exact hx
    · cases hx
  have hall : ∀ o ∈ [sampleOutput 1 9, sampleOutput 3 11], ∀ p ∈ [sampleOutput 1 9, sampleOutput 3 11],
      o.sort = p.sort → o = p := by decide
  exact hall o (hmem ho) p (hmem hp)

/-- The account is scanned, goes back to its start, is scanned again, and follows the reorg of block 3. -/
def ledgerOps : List WorldOp :=
  [.write (.addAccount 5 ⟨1007, 50⟩ 7 0), .write (.syncChain 0 [100, 101, 102, 103] false),
    .write (.update 0 [100, 101, 102, 103] ([sampleUser 0 [] []].map (sampleFound.scan 3)) [] false),
    .write (.rescan 0 [⟨1007, 50⟩]),
    .write (.update 0 [100, 101, 102, 103] ([sampleUser 0 [] []].map (sampleFound.scan 3)) [] false),
    .write (.syncChain 2 [102, 203] false), .learn reorgFound,
    .write (.update 2 [102, 203] ([sampleUser 2 [] []].map (reorgFound.scan 3)) [] false)]

def ledgerWorld : World := runAll (WorldOp.run sampleEnv) ledgerOps ⟨fresh sampleEnv, sampleFound⟩

theorem learns_reorg {db : Storage} (h : ∀ s ∈ db.accounts, s.2.scanHeight < 3) : Learns db sampleFound reorgFound := by
  refine ⟨reorgFound_keyed, fun s hs o hcovers => ?_, fun _ _ _ _ => Iff.rfl⟩
  have hlow : o.link.height < 3 := hcovers.2.trans_lt (h s hs)
  have hne : ∀ id, o ≠ sampleOutput 3 id := fun id he => by
    rw [he] at hlow
    exact absurd hlow (Nat.lt_irrefl 3)
  unfold reorgFound sampleFound
  dsimp only
  split
  · simp [hne]
  · exact Iff.rfl

theorem ledgerWorld_reached : World.Reached sampleEnv sampleFound ledgerWorld := by
  refine steps_runAll ledgerOps _ ⟨⟨?_, by decide⟩, ⟨?_, by decide⟩, ⟨?_, by decide⟩, ⟨?_, by decide⟩, ⟨?_, by decide⟩,
    ⟨?_, by decide⟩, ?_, ⟨?_, by decide⟩, trivial⟩
  · intro b hb
    cases hb
  · intro b hb
    cases hb
  · intro b hb
    cases hb
    exact scanOf_scan _ (by decide)
  · intro b hb
    cases hb
  · intro b hb
    cases hb
    exact scanOf_scan _ (by decide)
  · intro b hb
    cases hb
  · exact learns_reorg (by decide)
  · intro b hb
    cases hb
    exact scanOf_scan _ (by decide)

theorem ledger_exact_reorg : Ledger reorgFound ledgerWorld.db ∧
    ledgerWorld.db.outputs.rows = [(1, sampleOutput 1 9), (1, sampleOutput 3 11)] ∧
    ledgerWorld.db.spends.rows = [(1, sampleSpend 2 9 5)] := by
  have hkeyed : sampleFound.Keyed := ⟨sampleFound_sound.outputs, sampleFound_sound.spends⟩
  exact ⟨(ledger_exact hkeyed ledgerWorld_reached (by decide)).1, by decide, by decide⟩

end Lws.Db
