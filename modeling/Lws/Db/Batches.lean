/-
  Lws.Db.Batches — the same batch twice, and two batches in either order.

  Batches of one chain hold, for an account, what the chain has for it between the height
  the account was scanned from and the end of the batch (`Batch.From`). Storing one again
  changes nothing. Two of them commute where the database has what the chain has below
  the accounts (`Holds`), unless one of them was scanned from above where an account
  stands: `update` skips it then, and stores it only after the other one (`Outruns`).
-/

import Lws.Db.Landing
import Lws.Db.Operations
import Lws.Db.Confirmations

namespace Lws.Db

open Lws.Lmdb Lws.Transition

def Batch.apply (env : Env) (b : Batch) (db : Storage) : Except Error (Storage × Updated) :=
  db.update env b.height b.chain b.users b.pow b.regtest

/-- What a chain has: its blocks, and the outputs and spends of each account. -/
structure Found where
  hashes : Nat → Hash
  outputs : Nat → List Output
  spends : Nat → List Spend

/-- Rows with one key are one row, an image is of one spend, and what is spent was received
    before. -/
structure Found.Sound (f : Found) : Prop where
  outputs : ∀ id, ∀ o ∈ f.outputs id, ∀ p ∈ f.outputs id, o.sort = p.sort → o = p
  spends : ∀ id, ∀ s ∈ f.spends id, ∀ t ∈ f.spends id, s.sort = t.sort → s = t
  images : ∀ id, ∀ s ∈ f.spends id, ∀ id', ∀ t ∈ f.spends id', SameImage s t → s.link = t.link
  sources : ∀ id, ∀ s ∈ f.spends id, ∃ o ∈ f.outputs id, o.spendMeta.id = s.source ∧ o.link.height ≤ s.link.height

/-- The batch was scanned on the chain: an entry has what is above the height it was
    scanned from. The hash for genesis is not looked at. -/
structure Batch.From (f : Found) (b : Batch) : Prop where
  hashes : ∀ i x, b.chain[i]? = some x → 0 < b.height + i → x = f.hashes (b.height + i)
  ids : (b.users.map (·.id)).Nodup
  outputs : ∀ u ∈ b.users, ∀ o, o ∈ u.outputs ↔
    o ∈ f.outputs u.id ∧ u.scanHeight < o.link.height ∧ o.link.height ≤ b.last
  spends : ∀ u ∈ b.users, ∀ s, s ∈ u.spends ↔
    s ∈ f.spends u.id ∧ u.scanHeight < s.link.height ∧ s.link.height ≤ b.last

/-- What the chain has for an account up to its scan height is stored. -/
structure Holds (f : Found) (db : Storage) : Prop where
  outputs : ∀ r ∈ db.accounts, ∀ o ∈ f.outputs r.2.id, o.link.height ≤ r.2.scanHeight →
    ∃ p, (r.2.id, p) ∈ db.outputs ∧ p.sort = o.sort
  spends : ∀ r ∈ db.accounts, ∀ s ∈ f.spends r.2.id, s.link.height ≤ r.2.scanHeight →
    ∃ t, (r.2.id, t) ∈ db.spends ∧ t.sort = s.sort
  images : ∀ r ∈ db.accounts, ∀ s ∈ f.spends r.2.id, s.link.height ≤ r.2.scanHeight →
    ∃ x ∈ db.images, rowKey ImageRow.value x = rowKey ImageRow.value s.imageRow

/-- For some account, `b` was scanned from above where the account stands, but within `a`,
    and goes past `a`. -/
def Outruns (db : Storage) (a b : Batch) : Prop :=
  ∃ r ∈ db.accounts, ∃ u ∈ a.users, ∃ v ∈ b.users, u.id = r.2.id ∧ v.id = r.2.id ∧
    u.scanHeight ≤ r.2.scanHeight ∧ r.2.scanHeight < v.scanHeight ∧ v.scanHeight ≤ a.last ∧ a.last < b.last

theorem Batch.From.oneRow {f : Found} {b : Batch} (hf : f.Sound) (h : b.From f) : OneRow b.users := by
  refine ⟨h.ids, fun u hu o ho p hp => ?_, fun u hu s hs t ht => ?_, fun u hu s hs v hv t ht => ?_⟩
  · exact hf.outputs u.id o ((h.outputs u hu o).mp ho).1 p ((h.outputs u hu p).mp hp).1
  · exact hf.spends u.id s ((h.spends u hu s).mp hs).1 t ((h.spends u hu t).mp ht).1
  · exact hf.images u.id s ((h.spends u hu s).mp hs).1 v.id t ((h.spends v hv t).mp ht).1

/-! ## One batch -/

/-- The blocks a batch adds. -/
def Batch.Appends (env : Env) (f : Found) (b : Batch) (blocks : Blocks) (r : Version × BlockInfo) : Prop :=
  b.chain ≠ [] ∧ StoresChain env b.regtest b.last ∧ 0 < r.2.id ∧ (∀ q ∈ blocks, q.2.id < r.2.id) ∧ r.2.id ≤ b.last ∧
    r.2.hash = f.hashes r.2.id

structure Applied (env : Env) (f : Found) (b : Batch) (db db' : Storage) :
    Prop extends Lands b.last b.users db db' where
  blocks : Table.Adds (b.Appends env f db.blocks) db.blocks db'.blocks
  agree : db'.Agree env

/-- What a batch needs to go through. -/
structure Batch.Goes (env : Env) (b : Batch) (db : Storage) : Prop where
  empty : b.chain = [] → b.users = []
  count : b.chain ≠ [] → b.pow = [] ∨ b.pow.length = b.chain.length
  fits : b.chain ≠ [] → ChainFits env b.height b.chain b.regtest db.blocks
  serves : Serves b.height b.last b.users db

section One

variable {env : Env} {f : Found} {b : Batch} {db db' : Storage} {out : Updated}

theorem apply_ok : b.apply env db = .ok (db', out) ↔ (b.chain = [] ∧ b.users = [] ∧ (db', out) = (db, ⟨[], [], 0⟩)) ∨
    (b.chain ≠ [] ∧ (b.pow = [] ∨ b.pow.length = b.chain.length) ∧
      ∃ mid, updateChain env b.height b.chain b.pow b.regtest db = .ok mid ∧
        updateUsersNow b.height b.last b.users ⟨[], [], 0⟩ mid = .ok (db', out)) := by
  unfold Batch.apply Storage.update
  by_cases hnil : b.chain = []
  · by_cases husers : b.users = []
    · simp [hnil, husers, eq_comm]
    · simp [hnil, husers]
  · by_cases hcount : b.pow = [] ∨ b.pow.length = b.chain.length
    · have hpow : (!b.pow.isEmpty && decide (b.chain.length ≠ b.pow.length)) = false := by
        rcases hcount with hcount | hcount
        · simp [hcount]
        · simp [hcount]
      simp only [List.isEmpty_iff, hnil, Bool.and_eq_true, and_false, if_false, hpow, Bool.false_eq_true, updateUsers_eq,
        withHeights_nil, false_and, false_or, ne_eq, not_false_eq_true, true_and, hcount]
      exact bind_ok
    · rw [not_or] at hcount
      simp [hnil, hcount.1, hcount.2, Ne.symm hcount.2]

theorem apply_goes (hf : f.Sound) (hb : b.From f) (hagree : db.Agree env) (hgoes : b.Goes env db) :
    ∃ res, b.apply env db = .ok res := by
  by_cases hnil : b.chain = []
  · exact ⟨_, apply_ok.mpr (Or.inl ⟨hnil, hgoes.empty hnil, rfl⟩)⟩
  · obtain ⟨mid, hchain⟩ := @updateChain_succeeds env b.height b.chain b.pow b.regtest db (hgoes.fits hnil)
    obtain ⟨blocks, pows, rfl⟩ := updateChain_ok hchain
    have hserves : Serves b.height b.last b.users { db with blocks, pows } :=
      ⟨hgoes.serves.finds, hgoes.serves.hooks, hgoes.serves.sources⟩
    have hagree' : Storage.Agree env { db with blocks, pows } := hagree
    obtain ⟨⟨db', out⟩, hres⟩ := updateUsersNow_succeeds b.users ⟨[], [], 0⟩ hagree' (hb.oneRow hf) hserves
    exact ⟨_, apply_ok.mpr (Or.inr ⟨hnil, hgoes.count hnil, _, hchain, hres⟩)⟩

theorem apply_applied (hf : f.Sound) (hb : b.From f) (hagree : db.Agree env) (h : b.apply env db = .ok (db', out)) :
    Applied env f b db db' := by
  rcases apply_ok.mp h with ⟨hnil, husers, he⟩ | ⟨hne, -, mid, hchain, hres⟩
  · cases he
    refine ⟨lands_none fun u hu => ?_, Table.adds_none (fun r hr => hr.1 hnil) _, hagree⟩
    rw [husers] at hu
    cases hu.1
  · have hadds := updateChain_adds hne hb.hashes hchain
    obtain ⟨blocks, pows, rfl⟩ := updateChain_ok hchain
    have hagree' : Storage.Agree env { db with blocks, pows } := hagree
    have hlands := updateUsersNow_lands b.users hagree' (hb.oneRow hf) hres
    have hchanges := @updateUsersNow_changes env { db with blocks, pows } _ _ _ b.users _ _ _ _ (fun _ hu => hu)
      (Grown.refl _ _) hres
    refine ⟨⟨hlands.accounts, hlands.outputs, hlands.spends, hlands.images, hlands.events, hlands.others, hlands.frame⟩, ?_, ?_⟩
    · rw [(stores_chain hchanges).1]
      refine hadds.congr fun r => ?_
      unfold Batch.Appends
      simp only [ne_eq, hne, not_false_eq_true, true_and]
      rfl
    · refine hchanges.keeps (fun u => u.Agree env) (fun {u u' act} hu ha hc => ?_) hagree'
      refine agree_change hu (fun e => ?_) hc
      rw [e] at ha
      exact ha.elim

theorem apply_found (hf : f.Sound) (hb : b.From f) (hagree : db.Agree env) (h : b.apply env db = .ok (db', out)) :
    (b.chain = [] → b.users = []) ∧ (b.chain ≠ [] → b.pow = [] ∨ b.pow.length = b.chain.length) ∧
      (b.chain ≠ [] → ChainFits env b.height b.chain b.regtest db.blocks) ∧ (∀ u ∈ b.users, Finds db u) ∧
      ∀ u ∈ b.users, ∀ r ∈ db.accounts, Raises db.accountsBa b.last u r → ∀ e, (u.id, e) ∈ db.events →
        HooksFound db.webhooks (db.outputs.putAllAbsent u.id u.outputs) u.id (ongoingStart b.height r.2) (b.last + 1) e := by
  rcases apply_ok.mp h with ⟨hnil, husers, -⟩ | ⟨hne, hcount, mid, hchain, hres⟩
  · rw [husers]
    exact ⟨fun _ => rfl, fun hne => absurd hnil hne, fun hne => absurd hnil hne, fun u hu => (by cases hu),
      fun u hu => (by cases hu)⟩
  · have hfits := updateChain_fits hchain
    obtain ⟨blocks, pows, rfl⟩ := updateChain_ok hchain
    have hagree' : Storage.Agree env { db with blocks, pows } := hagree
    obtain ⟨hfinds, hhooks⟩ := updateUsersNow_found b.users hagree' (hb.oneRow hf) hres
    exact ⟨fun hnil => absurd hnil hne, fun _ => hcount, fun _ => hfits, hfinds, hhooks⟩

end One

/-! ## Two batches -/

section Two

variable {env : Env} {f : Found} {a b : Batch} {db dbA dbB dbAB dbBA : Storage} {out : Updated}

/-- An account that the second batch raises after the first one is raised by it at once. -/
theorem Applied.raises_before (h : Applied env f a db dbA) (hout : ¬ Outruns db a b) {v : Lws.Account}
    (hv : v ∈ b.users)
    {r : AccountStatus × Account} (hr : r ∈ dbA.accounts) (hraises : Raises dbA.accountsBa b.last v r) :
    ∃ x ∈ db.accounts, Raises db.accountsBa b.last v x ∧ x.2.scanHeight ≤ r.2.scanHeight := by
  obtain ⟨st, y⟩ := r
  obtain ⟨x, hx, rfl⟩ := (h.accounts st y).mp hr
  rw [h.frame.1] at hraises
  obtain ⟨hid, hsees, hle, hlt⟩ := hraises
  rw [raisedTo_id] at hid
  dsimp only at hsees hle hlt
  refine ⟨(st, x), hx, ?_⟩
  unfold raisedTo at hle hlt ⊢
  split at hle
  · rename_i hu
    rw [if_pos hu] at hlt ⊢
    obtain ⟨u, hu, huid, -, hule, hult⟩ := hu
    refine ⟨⟨hid, hsees, ?_, hult.trans hlt⟩, hult.le⟩
    by_contra hover
    exact hout ⟨(st, x), hx, u, hu, v, hv, huid.symm, hid.symm, hule, Nat.lt_of_not_le hover, hle, hlt⟩
  · rename_i hu
    rw [if_neg hu] at hlt ⊢
    exact ⟨⟨hid, hsees, hle, hlt⟩, Nat.le_refl _⟩

/-- A block of the account that a batch brings rows of. -/
def Batch.Covers (b : Batch) (db : Storage) (id height : Nat) : Prop :=
  ∃ u, Raised b.last b.users db u ∧ u.id = id ∧ u.scanHeight < height ∧ height ≤ b.last

theorem covers_swap (hA : Applied env f a db dbA) (hB : Applied env f b db dbB) (hout : ¬ Outruns db a b)
    {id height : Nat}
    (hnew : ∀ r ∈ db.accounts, r.2.id = id → r.2.scanHeight < height) (h : a.Covers db id height ∨ b.Covers dbA id height) :
    b.Covers db id height ∨ a.Covers dbB id height := by
  rcases h with ⟨u, ⟨hu, r, hr, hraises⟩, hid, hlow, hlast⟩ | ⟨v, ⟨hv, r, hr, hraises⟩, hid, hlow, hlast⟩
  · obtain ⟨st, x⟩ := r
    have hscan := hnew _ hr (hraises.1.trans hid)
    obtain ⟨huid, hsees, hle, hlt⟩ := hraises
    have hrow := (hB.accounts st _).mpr ⟨x, hr, rfl⟩
    by_cases hv : ∃ v ∈ b.users, Raises db.accountsBa b.last v (st, x)
    · obtain ⟨v, hv, hvr⟩ := hv
      have hto : raisedTo db.accountsBa b.last b.users st x = { x with scanHeight := b.last } := if_pos ⟨v, hv, hvr⟩
      obtain ⟨hvid, hvsees, hvle, hvlt⟩ := hvr
      dsimp only at hscan hle hlt hvle hvlt
      by_cases e : b.last < a.last
      · rw [hto] at hrow
        refine Or.inr ⟨u, ⟨hu, _, hrow, huid, ?_, by dsimp only; omega, e⟩, hid, hlow, hlast⟩
        rw [hB.frame.1]
        exact hsees
      · exact Or.inl ⟨v, ⟨hv, _, hr, hvid, hvsees, hvle, hvlt⟩, hvid.symm.trans (huid.trans hid), by omega, by omega⟩
    · rw [show raisedTo db.accountsBa b.last b.users st x = x from if_neg hv] at hrow
      refine Or.inr ⟨u, ⟨hu, _, hrow, huid, ?_, hle, hlt⟩, hid, hlow, hlast⟩
      rw [hB.frame.1]
      exact hsees
  · obtain ⟨x, hx, hxr, -⟩ := hA.raises_before hout hv hr hraises
    exact Or.inl ⟨v, ⟨hv, x, hx, hxr⟩, hid, hlow, hlast⟩

theorem raisedTo_swap {st : AccountStatus} {x : Account} (hx : (st, x) ∈ db.accounts) (hout : ¬ Outruns db a b)
    (hout' : ¬ Outruns db b a) (ba : AccountsByAddress) :
    raisedTo ba b.last b.users st (raisedTo ba a.last a.users st x) =
      raisedTo ba a.last a.users st (raisedTo ba b.last b.users st x) := by
  -- an entry that does not raise the account does not raise it after the other batch either
  have hskip : ∀ {a b : Batch}, ¬ Outruns db a b → (∃ u ∈ a.users, Raises ba a.last u (st, x)) →
      ¬ (∃ v ∈ b.users, Raises ba b.last v (st, x)) →
        ¬ ∃ v ∈ b.users, Raises ba b.last v (st, { x with scanHeight := a.last }) := by
    intro a b hout ⟨u, hu, huid, _, hule, hult⟩ hnone ⟨v, hv, hvid, hvsees, hvle, hvlt⟩
    dsimp only at huid hule hult hvid hvsees hvle hvlt
    refine hnone ⟨v, hv, hvid, hvsees, ?_, hult.trans hvlt⟩
    by_contra hover
    exact hout ⟨(st, x), hx, u, hu, v, hv, huid.symm, hvid.symm, hule, Nat.lt_of_not_le hover, hvle, hvlt⟩
  have hagain : ∀ {a b : Batch}, (∃ u ∈ a.users, Raises ba a.last u (st, x)) → (∃ v ∈ b.users, Raises ba b.last v (st, x)) →
      ((∃ v ∈ b.users, Raises ba b.last v (st, { x with scanHeight := a.last })) ↔ a.last < b.last) := by
    intro a b ⟨u, hu, huid, _, hule, hult⟩ ⟨v, hv, hvid, hvsees, hvle, hvlt⟩
    dsimp only at hult hvle
    refine ⟨fun ⟨w, hw, hwr⟩ => hwr.2.2.2, fun hlt => ⟨v, hv, hvid, hvsees, ?_, hlt⟩⟩
    exact hvle.trans hult.le
  unfold raisedTo
  by_cases hA : ∃ u ∈ a.users, Raises ba a.last u (st, x)
  · by_cases hB : ∃ v ∈ b.users, Raises ba b.last v (st, x)
    · rw [if_pos hA, if_pos hB]
      simp only [hagain hA hB, hagain hB hA]
      rcases Nat.lt_trichotomy a.last b.last with hlt | heq | hlt
      · rw [if_pos hlt, if_neg (Nat.lt_asymm hlt)]
      · rw [heq]
      · rw [if_neg (Nat.lt_asymm hlt), if_pos hlt]
    · rw [if_pos hA, if_neg hB, if_pos hA, if_neg (hskip hout hA hB)]
  · by_cases hB : ∃ v ∈ b.users, Raises ba b.last v (st, x)
    · rw [if_neg hA, if_pos hB, if_neg (hskip hout' hB hA)]
    · rw [if_neg hA, if_neg hB, if_neg hA]

/-- The rows of the entries of a batch that raise their accounts. -/
def Batch.Brings {V : Type} (b : Batch) (rows : Lws.Account → List V) (db : Storage) (r : Nat × V) : Prop :=
  ∃ u, Raised b.last b.users db u ∧ r.1 = u.id ∧ r.2 ∈ rows u

/-- An entry has what the chain has for its account above its height, up to the last block. -/
def Batch.Reads {V : Type} (b : Batch) (height : V → Nat) (found : Nat → List V) (rows : Lws.Account → List V) : Prop :=
  ∀ u ∈ b.users, ∀ v, v ∈ rows u ↔ v ∈ found u.id ∧ u.scanHeight < height v ∧ height v ≤ b.last

theorem brings_iff {V : Type} {height : V → Nat} {found : Nat → List V} {rows : Lws.Account → List V}
    (hreads : b.Reads height found rows) {r : Nat × V} :
    b.Brings rows db r ↔ r.2 ∈ found r.1 ∧ b.Covers db r.1 (height r.2) := by
  refine ⟨fun ⟨u, hu, hid, hr⟩ => ?_, fun ⟨hr, u, hu, hid, hlow, hlast⟩ => ?_⟩
  · obtain ⟨hfound, hlow, hlast⟩ := (hreads u hu.1 r.2).mp hr
    rw [hid]
    exact ⟨hfound, u, hu, rfl, hlow, hlast⟩
  · refine ⟨u, hu, hid.symm, (hreads u hu.1 r.2).mpr ⟨?_, hlow, hlast⟩⟩
    rwa [hid]

theorem rows_swap {V S : Type} [LinearOrder S] {sort : V → S} {height : V → Nat} {found : Nat → List V}
    {rows : Lws.Account → List V} {t tA tB tAB tBA : Table Nat sort} (hA : Applied env f a db dbA)
    (hB : Applied env f b db dbB) (hout : ¬ Outruns db a b) (hout' : ¬ Outruns db b a)
    (hsame : ∀ id, ∀ v ∈ found id, ∀ w ∈ found id, sort v = sort w → v = w)
    (hreadsA : a.Reads height found rows) (hreadsB : b.Reads height found rows)
    (hstored : ∀ r ∈ db.accounts, ∀ v ∈ found r.2.id, height v ≤ r.2.scanHeight → ∃ w, (r.2.id, w) ∈ t ∧ sort w = sort v)
    (h1 : Table.Adds (a.Brings rows db) t tA) (h2 : Table.Adds (b.Brings rows dbA) tA tAB)
    (h3 : Table.Adds (b.Brings rows db) t tB) (h4 : Table.Adds (a.Brings rows dbB) tB tBA) : tAB = tBA := by
  have hone : ∀ {a b : Batch} {db db' : Storage}, a.Reads height found rows → b.Reads height found rows →
      ∀ r q, a.Brings rows db r → b.Brings rows db' q → rowKey sort r = rowKey sort q → r = q := by
    intro a b db db' hreadsA hreadsB r q hr hq he
    obtain ⟨hk, hs⟩ := rowKey_eq.mp he
    have hr := ((brings_iff hreadsA).mp hr).1
    have hq := ((brings_iff hreadsB).mp hq).1
    rw [← hk] at hq
    exact Prod.ext hk (hsame r.1 r.2 hr q.2 hq hs)
  refine (h1.trans h2 (hone hreadsA hreadsB)).ext (h3.trans h4 (hone hreadsB hreadsA)) fun r hfree => ?_
  have hnew : r.2 ∈ found r.1 → ∀ x ∈ db.accounts, x.2.id = r.1 → x.2.scanHeight < height r.2 := by
    intro hr x hx hid
    by_contra hle
    obtain ⟨w, hw, hs⟩ := hstored x hx r.2 (by rw [hid]; exact hr) (Nat.le_of_not_lt hle)
    exact hfree _ hw (rowKey_eq.mpr ⟨hid, hs⟩)
  rw [brings_iff hreadsA, brings_iff hreadsB, brings_iff hreadsB, brings_iff hreadsA, ← and_or_left, ← and_or_left]
  refine and_congr_right fun hr => ⟨covers_swap hA hB hout (hnew hr), covers_swap hB hA hout' (hnew hr)⟩

theorem images_iff (hreads : b.Reads (·.link.height) f.spends (·.spends)) {r : OutputId × ImageRow} :
    (∃ u, Raised b.last b.users db u ∧ ∃ s ∈ u.spends, r = s.imageRow) ↔
      ∃ id, ∃ s ∈ f.spends id, r = s.imageRow ∧ b.Covers db id s.link.height := by
  refine ⟨fun ⟨u, hu, s, hs, hr⟩ => ?_, fun ⟨id, s, hs, hr, hcovers⟩ => ?_⟩
  · obtain ⟨hfound, hcovers⟩ := (brings_iff hreads).mp (⟨u, hu, rfl, hs⟩ : b.Brings (·.spends) db (u.id, s))
    exact ⟨u.id, s, hfound, hr, hcovers⟩
  · obtain ⟨u, hu, -, hs⟩ := (@brings_iff b db Spend _ _ _ hreads (id, s)).mpr ⟨hs, hcovers⟩
    exact ⟨u, hu, s, hs, hr⟩

theorem images_swap (hf : f.Sound) (ha : a.From f) (hb : b.From f) (hholds : Holds f db) (hout : ¬ Outruns db a b)
    (hout' : ¬ Outruns db b a) (hA : Applied env f a db dbA) (hAB : Applied env f b dbA dbAB) (hB : Applied env f b db dbB)
    (hBA : Applied env f a dbB dbBA) : dbAB.images = dbBA.images := by
  have hone : ∀ {a b : Batch} {db db' : Storage}, a.From f → b.From f → ∀ r q : OutputId × ImageRow,
      (∃ u, Raised a.last a.users db u ∧ ∃ s ∈ u.spends, r = s.imageRow) →
      (∃ u, Raised b.last b.users db' u ∧ ∃ s ∈ u.spends, q = s.imageRow) →
        rowKey ImageRow.value r = rowKey ImageRow.value q → r = q := by
    intro a b db db' ha hb r q hr hq he
    obtain ⟨i, s, hs, rfl, -⟩ := (images_iff ha.spends).mp hr
    obtain ⟨j, t, ht, rfl, -⟩ := (images_iff hb.spends).mp hq
    have hsame := imageRow_key.mp he
    exact imageRow_eq hsame (hf.images i s hs j t ht hsame)
  refine (hA.images.trans hAB.images (hone ha hb)).ext (hB.images.trans hBA.images (hone hb ha)) fun r hfree => ?_
  have hnew : ∀ {id s}, s ∈ f.spends id → r = s.imageRow → ∀ x ∈ db.accounts, x.2.id = id → x.2.scanHeight < s.link.height := by
    intro id s hs hr x hx hid
    by_contra hle
    obtain ⟨y, hy, hk⟩ := hholds.images x hx s (by rw [hid]; exact hs) (Nat.le_of_not_lt hle)
    exact hfree y hy (by rw [hr]; exact hk)
  simp only [images_iff ha.spends, images_iff hb.spends, ← exists_or, ← and_or_left]
  refine exists_congr fun id => exists_congr fun s => and_congr_right fun hs => and_congr_right fun hr => ?_
  exact ⟨covers_swap hA hB hout (hnew hs hr), covers_swap hB hA hout' (hnew hs hr)⟩

theorem blocks_swap (hA : Applied env f a db dbA) (hAB : Applied env f b dbA dbAB) (hB : Applied env f b db dbB)
    (hBA : Applied env f a dbB dbBA) : dbAB.blocks = dbBA.blocks := by
  have hone : ∀ {a b : Batch} {blocks blocks' : Blocks}, ∀ r q, a.Appends env f blocks r → b.Appends env f blocks' q →
      rowKey BlockInfo.id r = rowKey BlockInfo.id q → r = q := by
    intro a b blocks blocks' r q hr hq he
    obtain ⟨u, ⟨i, x⟩⟩ := r
    obtain ⟨v, ⟨j, y⟩⟩ := q
    obtain rfl : i = j := (rowKey_eq.mp he).2
    rw [show x = f.hashes i from hr.2.2.2.2.2, show y = f.hashes i from hq.2.2.2.2.2]
  -- a block that one of them appends first is appended by the other, or past it
  have hswap : ∀ {a b : Batch} {db dbA dbB : Storage}, Applied env f a db dbA → Applied env f b db dbB → ∀ r,
      a.Appends env f db.blocks r ∨ b.Appends env f dbA.blocks r → b.Appends env f db.blocks r ∨
          a.Appends env f dbB.blocks r := by
    intro a b db dbA dbB hA hB r h
    rcases h with ⟨hne, hs, hpos, habove, hle, hhash⟩ | ⟨hne, hs, hpos, habove, hle, hhash⟩
    · by_cases e : b.chain ≠ [] ∧ StoresChain env b.regtest b.last ∧ r.2.id ≤ b.last
      · exact Or.inl ⟨e.1, e.2.1, hpos, habove, e.2.2, hhash⟩
      · refine Or.inr ⟨hne, hs, hpos, fun q hq => ?_, hle, hhash⟩
        rcases (hB.blocks q).mp hq with hq | ⟨⟨hbne, hbs, -, -, hqle, -⟩, -⟩
        · exact habove q hq
        · have : ¬ r.2.id ≤ b.last := fun hle => e ⟨hbne, hbs, hle⟩
          omega
    · exact Or.inl ⟨hne, hs, hpos, fun q hq => habove q (hA.blocks.keeps hq), hle, hhash⟩
  refine (hA.blocks.trans hAB.blocks hone).ext (hB.blocks.trans hBA.blocks hone) fun r _ => ?_
  exact ⟨hswap hA hB r, hswap hB hA r⟩

/-- A batch that fits the stored blocks fits them with those of another one. -/
theorem fits_after (hb : b.From f) (hA : Applied env f a db dbA) (hne : b.chain ≠ [])
    (hfits : ChainFits env b.height b.chain b.regtest db.blocks) : ChainFits env b.height b.chain b.regtest dbA.blocks := by
  have hlen := List.length_pos_of_ne_nil hne
  refine ⟨fun hs => ?_, fun hs x hx hid => ?_⟩
  · obtain ⟨tip, x, htip, hle, hx, hxid, hxhash⟩ := hfits.meets hs
    obtain ⟨⟨top, htop, htopid⟩, hmax⟩ := lastHeight_ok htip
    obtain ⟨tip', htip'⟩ := lastHeight_of_mem (hA.blocks.keeps hx)
    obtain ⟨⟨top', htop', htopid'⟩, hmax'⟩ := lastHeight_ok htip'
    have hgrow := hmax' top (hA.blocks.keeps htop)
    by_cases e : min tip' (b.height + b.chain.length - 1) = min tip (b.height + b.chain.length - 1)
    · exact ⟨tip', x, htip', by omega, hA.blocks.keeps hx, by omega, hxhash⟩
    · -- the other batch has stored the block to compare with
      obtain ⟨⟨hane, has, -, -, hale, -⟩, -⟩ := ((hA.blocks top').mp htop').resolve_left fun hold => by
        have := hmax top' hold
        omega
      have hin : min tip' (b.height + b.chain.length - 1) - b.height < b.chain.length := by omega
      have hget := List.getElem?_eq_getElem hin
      have hval := hb.hashes _ _ hget (by omega)
      rw [show b.height + (min tip' (b.height + b.chain.length - 1) - b.height) = min tip' (b.height + b.chain.length - 1) by
        omega] at hval
      have habove : ∀ q ∈ db.blocks, q.2.id < min tip' (b.height + b.chain.length - 1) := by
        intro q hq
        have := hmax q hq
        omega
      refine ⟨tip', ((), ⟨min tip' (b.height + b.chain.length - 1), f.hashes (min tip' (b.height + b.chain.length - 1))⟩),
        htip', by omega, (hA.blocks _).mpr (Or.inr ⟨⟨hane, has, by dsimp only; omega, habove, by dsimp only; omega, rfl⟩,
          fun q hq he => ?_⟩), rfl, ?_⟩
      · exact absurd (rowKey_eq.mp he).2 (habove q hq).ne
      · rw [hget, hval]
  · rcases (hA.blocks x).mp hx with hx | ⟨⟨-, -, hpos, -, -, hhash⟩, -⟩
    · exact hfits.agrees hs x hx hid
    · have hget := List.getElem?_eq_getElem (show b.chain.length - 1 < b.chain.length by omega)
      rw [List.getLast?_eq_getElem?, hget, hb.hashes _ _ hget (by omega), hhash, hid]
      congr 2
      omega

theorem goes_after {dbB : Storage} (hf : f.Sound) (hb : b.From f) (hagree : db.Agree env) (hholds : Holds f db)
    (hout : ¬ Outruns db a b) (hA : Applied env f a db dbA) (hB : b.apply env db = .ok (dbB, out)) : b.Goes env dbA := by
  obtain ⟨hempty, hcount, hfits, hfinds, hhooks⟩ := apply_found hf hb hagree hB
  have hkeeps : ∀ {id : Nat}, ∀ o, (id, o) ∈ db.outputs → ∃ p, (id, p) ∈ dbA.outputs ∧ p.sort = o.sort :=
    fun o ho => ⟨o, hA.outputs.keeps ho, rfl⟩
  refine ⟨hempty, hcount, fun hne => fits_after hb hA hne (hfits hne), fun u hu => (hA.finds u).mpr (hfinds u hu),
    fun u hu r hr hraises e he => ?_, fun u hu r hr hraises s hs => ?_⟩
  · obtain ⟨x, hx, hxr, hle⟩ := hA.raises_before hout hu hr hraises
    rw [hA.frame.2]
    rcases hA.events _ he with he | ⟨v, hv, hid, o, ho, hnew⟩
    · refine (hhooks u hu x hx hxr e he).mono ?_ (stored_mono hkeeps)
      unfold ongoingStart
      omega
    · rw [show u.id = v.id from hid]
      refine hooksFound_new hnew ?_ _ _
      obtain ⟨q, hq, hk⟩ := @Table.Adds.stores _ _ _ _ _ _ _ _ _ hA.outputs (v.id, o) ⟨v, hv, rfl, ho⟩
      obtain ⟨hk1, hk2⟩ := rowKey_eq.mp hk
      exact ⟨q.2, Table.mem_putAllAbsent_of_mem (by rw [← show q.1 = v.id from hk1]; exact hq), hk2⟩
  · obtain ⟨x, hx, hxr, -⟩ := hA.raises_before hout hu hr hraises
    obtain ⟨hfound, hslow, hslast⟩ := (hb.spends u hu s).mp hs
    obtain ⟨o, ho, hid, hle⟩ := hf.sources u.id s hfound
    have hstored : ∃ p, (u.id, p) ∈ dbA.outputs.putAllAbsent u.id u.outputs ∧ p.sort = o.sort := by
      by_cases e : o.link.height ≤ x.2.scanHeight
      · obtain ⟨p, hp, hs⟩ := hholds.outputs x hx o (by rw [hxr.1]; exact ho) e
        rw [hxr.1] at hp
        exact ⟨p, Table.mem_putAllAbsent_of_mem (hA.outputs.keeps hp), hs⟩
      · refine Table.putAllAbsent_stores ((hb.outputs u hu o).mpr ⟨ho, ?_, by omega⟩)
        have := hxr.2.2.1
        omega
    obtain ⟨p, hp, hs⟩ := hstored
    obtain ⟨hlink, hpid⟩ := Prod.mk.inj (toLex.injective hs)
    exact ⟨p, hp, hpid.trans hid, by rw [hlink]; exact hle⟩

theorem Applied.not_raised (h : Applied env f a db dbA) (u : Lws.Account) : ¬ Raised a.last a.users dbA u := by
  intro ⟨hu, ⟨st, y⟩, hy, hraises⟩
  rw [h.frame.1] at hraises
  obtain ⟨x, hx, rfl⟩ := (h.accounts st y).mp hy
  unfold raisedTo at hraises
  split at hraises
  · exact lt_irrefl _ hraises.2.2.2
  · rename_i hnone
    exact hnone ⟨u, hu, hraises⟩

theorem updateUsersNow_idle {height lastUpdate : Nat} : ∀ (users : List Lws.Account) (out : Updated), db.Agree env →
    (∀ u ∈ users, Finds db u) → (∀ u, ¬ Raised lastUpdate users db u) →
      ∃ out', updateUsersNow height lastUpdate users out db = .ok (db, out') := by
  intro users
  induction users with
  | nil => intro out _ _ _; exact ⟨out, rfl⟩
  | cons user users ih =>
    intro out hagree hfinds hnone
    have hidle : ∀ r ∈ db.accounts, ¬ Raises db.accountsBa lastUpdate user r :=
      fun r hr hraises => hnone user ⟨List.mem_cons_self, r, hr, hraises⟩
    have hserves : Serves height lastUpdate [user] db :=
      ⟨fun u hu => hfinds u (List.mem_singleton.mp hu ▸ List.mem_cons_self),
        fun u hu r hr hraises => absurd (List.mem_singleton.mp hu ▸ hraises) (hidle r hr),
        fun u hu r hr hraises => absurd (List.mem_singleton.mp hu ▸ hraises) (hidle r hr)⟩
    obtain ⟨⟨mid, out₁⟩, hone⟩ := updateUserNow_succeeds hagree (List.mem_singleton_self user) hserves out
    rcases updateUserNow_raises hagree hone with ⟨rfl, -⟩ | ⟨st, x, -, -, hx, hraises, -⟩
    · obtain ⟨out', hrest⟩ := ih out₁ hagree (fun u hu => hfinds u (List.mem_cons_of_mem _ hu))
        fun u hu => hnone u ⟨List.mem_cons_of_mem _ hu.1, hu.2⟩
      exact ⟨out', bind_ok.mpr ⟨_, hone, hrest⟩⟩
    · exact absurd hraises (hidle _ hx)

theorem Applied.last_stored (h : Applied env f a db dbA) (hne : a.chain ≠ []) (hs : StoresChain env a.regtest a.last)
    (hfits : ChainFits env a.height a.chain a.regtest db.blocks) : ∃ x ∈ dbA.blocks, a.last ≤ x.2.id := by
  have hlen := List.length_pos_of_ne_nil hne
  obtain ⟨tip, x, htip, hle, hx, hxid, -⟩ := hfits.meets hs
  obtain ⟨-, hmax⟩ := lastHeight_ok htip
  have hlast : a.last = a.height + a.chain.length - 1 := rfl
  by_cases e : a.last ≤ tip
  · exact ⟨x, h.blocks.keeps hx, by omega⟩
  · have habove : ∀ q ∈ db.blocks, q.2.id < a.last := by
      intro q hq
      have := hmax q hq
      omega
    refine ⟨((), ⟨a.last, f.hashes a.last⟩),
        (h.blocks _).mpr (Or.inr ⟨⟨hne, hs, by dsimp only; omega, habove, Nat.le_refl _, rfl⟩,
      fun q hq he => ?_⟩), Nat.le_refl _⟩
    exact absurd (rowKey_eq.mp he).2 (habove q hq).ne

theorem updateChain_again (h : Applied env f a db dbA) (ha : a.From f) (hne : a.chain ≠ [])
    (hcount : a.pow = [] ∨ a.pow.length = a.chain.length) (hfits : ChainFits env a.height a.chain a.regtest db.blocks) :
    updateChain env a.height a.chain a.pow a.regtest dbA = .ok dbA := by
  have hlen := List.length_pos_of_ne_nil hne
  obtain ⟨db', hchain⟩ := @updateChain_succeeds env a.height a.chain a.pow a.regtest dbA (fits_after ha h hne hfits)
  rw [hchain]
  rcases updateChain_extends hchain hne hcount with rfl | ⟨hs, tip, htip, hext⟩
  · rfl
  · obtain ⟨x, hx, hlast⟩ := h.last_stored hne hs hfits
    have hle := (lastHeight_ok htip).2 x hx
    have hlast' : a.last = a.height + a.chain.length - 1 := rfl
    have hcur : min tip (a.height + a.chain.length - 1) + 1 - a.height = a.chain.length := by omega
    have hblocks := hext.blocks
    have hpows := hext.pows
    rw [hcur, List.drop_length, appendBlockHashes_eq] at hblocks
    have hpow : a.pow.drop a.chain.length = [] := by
      rcases hcount with hcount | hcount
      · rw [hcount, List.drop_nil]
      · rw [← hcount, List.drop_length]
    rw [hcur, hpow, appendPow_nil] at hpows
    obtain ⟨blocks, pows, rfl⟩ := updateChain_ok hchain
    dsimp only at hblocks hpows
    rw [hblocks, hpows]
    rfl

theorem apply_again (hf : f.Sound) (ha : a.From f) (hagree : db.Agree env) (h : a.apply env db = .ok (dbA, out)) :
    ∃ out', a.apply env dbA = .ok (dbA, out') := by
  have hA := apply_applied hf ha hagree h
  obtain ⟨hempty, hcount, hfits, hfinds, -⟩ := apply_found hf ha hagree h
  by_cases hnil : a.chain = []
  · exact ⟨_, apply_ok.mpr (Or.inl ⟨hnil, hempty hnil, rfl⟩)⟩
  · obtain ⟨out', hout⟩ := @updateUsersNow_idle env dbA a.height a.last a.users ⟨[], [], 0⟩ hA.agree
      (fun u hu => (hA.finds u).mpr (hfinds u hu)) hA.not_raised
    exact ⟨out', apply_ok.mpr (Or.inr ⟨hnil, hcount hnil, dbA, updateChain_again hA ha hnil (hcount hnil) (hfits hnil), hout⟩)⟩

theorem apply_swap (hf : f.Sound) (ha : a.From f) (hb : b.From f) (hagree : db.Agree env) (hholds : Holds f db)
    (hout : ¬ Outruns db a b) (hout' : ¬ Outruns db b a) {outA outB : Updated} (hA : a.apply env db = .ok (dbA, outA))
    (hB : b.apply env db = .ok (dbB, outB)) :
    ∃ dbAB outAB dbBA outBA, b.apply env dbA = .ok (dbAB, outAB) ∧ a.apply env dbB = .ok (dbBA, outBA) ∧
      dbAB.accounts = dbBA.accounts ∧ dbAB.outputs = dbBA.outputs ∧ dbAB.spends = dbBA.spends ∧
      dbAB.images = dbBA.images ∧ dbAB.blocks = dbBA.blocks := by
  have hdbA := apply_applied hf ha hagree hA
  have hdbB := apply_applied hf hb hagree hB
  obtain ⟨⟨dbAB, outAB⟩, hAB⟩ := apply_goes hf hb hdbA.agree (goes_after hf hb hagree hholds hout hdbA hB)
  obtain ⟨⟨dbBA, outBA⟩, hBA⟩ := apply_goes hf ha hdbB.agree (goes_after hf ha hagree hholds hout' hdbB hA)
  have hdbAB := apply_applied hf hb hdbA.agree hAB
  have hdbBA := apply_applied hf ha hdbB.agree hBA
  refine ⟨dbAB, outAB, dbBA, outBA, hAB, hBA, Table.ext_mem fun r => ?_, ?_, ?_,
    images_swap hf ha hb hholds hout hout' hdbA hdbAB hdbB hdbBA, blocks_swap hdbA hdbAB hdbB hdbBA⟩
  · obtain ⟨st, y⟩ := r
    simp only [hdbAB.accounts, hdbBA.accounts, hdbA.accounts, hdbB.accounts, hdbA.frame.1, hdbB.frame.1]
    refine ⟨fun ⟨m, ⟨x, hx, hm⟩, hy⟩ => ?_, fun ⟨m, ⟨x, hx, hm⟩, hy⟩ => ?_⟩
    · refine ⟨_, ⟨x, hx, rfl⟩, ?_⟩
      rw [hy, hm]
      exact raisedTo_swap hx hout hout' _
    · refine ⟨_, ⟨x, hx, rfl⟩, ?_⟩
      rw [hy, hm]
      exact (raisedTo_swap hx hout hout' _).symm
  · exact rows_swap hdbA hdbB hout hout' hf.outputs ha.outputs hb.outputs hholds.outputs hdbA.outputs hdbAB.outputs hdbB.outputs
      hdbBA.outputs
  · exact rows_swap hdbA hdbB hout hout' hf.spends ha.spends hb.spends hholds.spends hdbA.spends hdbAB.spends hdbB.spends
      hdbBA.spends

/-! ## Any batch -/

theorem apply_heights (h : a.apply env db = .ok (dbA, out)) :
    ∀ r ∈ db.accounts, ∃ r' ∈ dbA.accounts, r'.1 = r.1 ∧ r'.2.id = r.2.id ∧ r.2.scanHeight ≤ r'.2.scanHeight := by
  rcases update_stores h with rfl | ⟨blocks, pows, hc⟩
  · exact fun r hr => ⟨r, hr, rfl, rfl, Nat.le_refl _⟩
  · refine hc.keeps (fun mid => ∀ r ∈ db.accounts, ∃ r' ∈ mid.accounts, r'.1 = r.1 ∧ r'.2.id = r.2.id ∧
      r.2.scanHeight ≤ r'.2.scanHeight) ?_ (fun r hr => ⟨r, hr, rfl, rfl, Nat.le_refl _⟩)
    intro mid mid' act hinv hact hchange r hr
    obtain ⟨r', hr', hst, hid, hle⟩ := hinv r hr
    cases hchange with
    | @store _ h' lastUpdate user status existing l pubs pubs' events hstored hsame hscan hlt hl hl' hooks =>
      by_cases e : r'.1 = status ∧ r'.2.id = existing.id
      · obtain rfl : r' = (status, existing) := Table.unique hr' hstored (rowKey_eq.mpr e)
        exact ⟨_, Table.mem_put_self _ _ _, hst, hid, hle.trans hlt.le⟩
      · exact ⟨r', Table.mem_put.mpr (Or.inr ⟨hr', e⟩), hst, hid, hle⟩
    | _ => exact hact.elim

/-- An account below where its entry was scanned from is left as it is. -/
theorem apply_untouched (hagree : db.Agree env) (h : a.apply env db = .ok (dbA, out)) {r : AccountStatus × Account}
    (hr : r ∈ db.accounts) (hbelow : ∀ u ∈ a.users, u.id = r.2.id → r.2.scanHeight < u.scanHeight) :
    r ∈ dbA.accounts ∧ (∀ o, (r.2.id, o) ∈ dbA.outputs ↔ (r.2.id, o) ∈ db.outputs) ∧
      ∀ s, (r.2.id, s) ∈ dbA.spends ↔ (r.2.id, s) ∈ db.spends := by
  rcases update_stores h with rfl | ⟨blocks, pows, hc⟩
  · exact ⟨hr, fun _ => Iff.rfl, fun _ => Iff.rfl⟩
  · refine (hc.keeps (fun mid => mid.Agree env ∧ r ∈ mid.accounts ∧
      (∀ o, (r.2.id, o) ∈ mid.outputs ↔ (r.2.id, o) ∈ db.outputs) ∧
      ∀ s, (r.2.id, s) ∈ mid.spends ↔ (r.2.id, s) ∈ db.spends) ?_ ⟨hagree, hr, fun _ => Iff.rfl, fun _ => Iff.rfl⟩).2
    intro mid mid' act ⟨hmid, hin, houtputs, hspends⟩ hact hchange
    have hmid' : mid'.Agree env := agree_change hmid (fun e => by rw [e] at hact; exact hact.elim) hchange
    cases hchange with
    | @store _ h' lastUpdate user status existing l pubs pubs' events hstored hsame hscan hlt hl hl' hooks =>
      obtain ⟨-, -, huser, -⟩ := hact
      have hne : r.2.id ≠ user.id := by
        intro e
        cases hmid.ids _ hin _ hstored (e.trans hsame.symm)
        exact absurd (hbelow user huser e.symm) (Nat.not_lt.mpr hscan)
      refine ⟨hmid', Table.mem_put.mpr (Or.inr ⟨hin, fun e => hne (e.2.trans hsame)⟩), fun o => ?_, fun s => ?_⟩
      · refine Iff.trans ⟨fun ho => ?_, Table.mem_putAllAbsent_of_mem⟩ (houtputs o)
        exact (Table.mem_putAllAbsent ho).resolve_right fun e => hne e.1
      · refine Iff.trans ⟨fun hs => ?_, Table.mem_putAllAbsent_of_mem⟩ (hspends s)
        exact (Table.mem_putAllAbsent hs).resolve_right fun e => hne e.1
    | _ => exact hact.elim

/-- Storing a batch again changes nothing, no account goes back, and one below where its
    entry was scanned from is left as it is; and two batches of a chain that go through
    alone go through in either order and leave the same rows, if what the chain has below
    the accounts is stored and neither batch outruns the other. Every reached state
    satisfies `Agree` (`agree_reached`). -/
theorem batches_insensitive (hf : f.Sound) (ha : a.From f) (hb : b.From f) (hagree : db.Agree env) :
    (∀ dbA out, a.apply env db = .ok (dbA, out) →
      (∃ out', a.apply env dbA = .ok (dbA, out')) ∧
      (∀ r ∈ db.accounts, ∃ r' ∈ dbA.accounts, r'.1 = r.1 ∧ r'.2.id = r.2.id ∧ r.2.scanHeight ≤ r'.2.scanHeight) ∧
      ∀ r ∈ db.accounts, (∀ u ∈ a.users, u.id = r.2.id → r.2.scanHeight < u.scanHeight) →
        r ∈ dbA.accounts ∧ (∀ o, (r.2.id, o) ∈ dbA.outputs ↔ (r.2.id, o) ∈ db.outputs) ∧
          ∀ s, (r.2.id, s) ∈ dbA.spends ↔ (r.2.id, s) ∈ db.spends) ∧
    (Holds f db → ¬ Outruns db a b → ¬ Outruns db b a → ∀ dbA outA dbB outB, a.apply env db = .ok (dbA, outA) →
      b.apply env db = .ok (dbB, outB) →
        ∃ dbAB outAB dbBA outBA, b.apply env dbA = .ok (dbAB, outAB) ∧ a.apply env dbB = .ok (dbBA, outBA) ∧
          dbAB.accounts = dbBA.accounts ∧ dbAB.outputs = dbBA.outputs ∧ dbAB.spends = dbBA.spends ∧
          dbAB.images = dbBA.images ∧ dbAB.blocks = dbBA.blocks) := by
  refine ⟨fun dbA out h => ⟨apply_again hf ha hagree h, apply_heights h, fun r hr hbelow => ?_⟩, ?_⟩
  · exact apply_untouched hagree h hr hbelow
  · intro hholds hout hout' dbA outA dbB outB hA hB
    exact apply_swap hf ha hb hagree hholds hout hout' hA hB

end Two

/-! ## Scans of a chain -/

/-- What a scan up to block `last` finds for an account. -/
def Found.scan (f : Found) (last : Nat) (user : Lws.Account) : Lws.Account :=
  { user with
    outputs := (f.outputs user.id).filter fun o => decide (user.scanHeight < o.link.height ∧ o.link.height ≤ last)
    spends := (f.spends user.id).filter fun s => decide (user.scanHeight < s.link.height ∧ s.link.height ≤ last) }

/-- A batch of `n` blocks. -/
def Found.batch (f : Found) (height n : Nat) (users : List Lws.Account) : Batch :=
  ⟨height, (List.range n).map fun i => f.hashes (height + i), users.map (f.scan (height + n - 1)), [], false⟩

theorem Found.batch_from (f : Found) (height n : Nat) {users : List Lws.Account} (hids : (users.map (·.id)).Nodup) :
    (f.batch height n users).From f := by
  have hlast : (f.batch height n users).last = height + n - 1 := by simp [Batch.last, Found.batch]
  refine ⟨fun i x hx _ => ?_, ?_, fun u hu o => ?_, fun u hu s => ?_⟩
  · obtain ⟨j, hj, rfl⟩ := List.getElem?_eq_some_iff.mp hx
    simp [Found.batch]
  · rw [show (f.batch height n users).users.map (·.id) = users.map (·.id) by simp [Found.batch, Found.scan, Function.comp_def]]
    exact hids
  · obtain ⟨v, -, rfl⟩ := List.mem_map.mp hu
    rw [hlast]
    simp [Found.scan]
  · obtain ⟨v, -, rfl⟩ := List.mem_map.mp hu
    rw [hlast]
    simp [Found.scan]

/-- Blocks 100, 101, …, with outputs of the account in blocks 1 and 3 and a spend in 2. -/
def sampleFound : Found where
  hashes i := 100 + i
  outputs id := if id = 1 then [sampleOutput 1 9, sampleOutput 3 10] else []
  spends id := if id = 1 then [sampleSpend 2 9 5] else []

theorem sampleFound_sound : sampleFound.Sound := by
  have hid : ∀ {α : Type} {id : Nat} {l : List α} {x : α}, x ∈ (if id = 1 then l else []) → id = 1 ∧ x ∈ l := by
    intro α id l x hx
    split at hx
    · rename_i he
      exact ⟨he, hx⟩
    · cases hx
  have houtputs : ∀ o ∈ [sampleOutput 1 9, sampleOutput 3 10], ∀ p ∈ [sampleOutput 1 9, sampleOutput 3 10],
      o.sort = p.sort → o = p := by decide
  have hone : ∀ {id : Nat} {s : Spend}, s ∈ sampleFound.spends id → s = sampleSpend 2 9 5 :=
    fun hs => List.mem_singleton.mp (hid hs).2
  refine ⟨fun id o ho p hp => houtputs o (hid ho).2 p (hid hp).2, fun id s hs t ht _ => (hone hs).trans (hone ht).symm,
    fun id s hs id' t ht _ => by rw [hone hs, hone ht], fun id s hs => ?_⟩
  rw [(hid hs).1, hone hs]
  exact ⟨sampleOutput 1 9, by decide, by decide, by decide⟩

/-- The account of view key 7, at genesis, and four blocks. -/
def batchOps : List Op := [.addAccount 5 ⟨1007, 50⟩ 7 0, .syncChain 0 [100, 101, 102, 103] false]

theorem batchOps_agree : (Op.runs sampleEnv batchOps).Agree sampleEnv :=
  agree_reached (reached_runs (show AllOk (Op.run sampleEnv) (fun _ _ => True) batchOps _ by decide)) (by decide)

theorem batchOps_holds : Holds sampleFound (Op.runs sampleEnv batchOps) := by
  have hlow : ∀ r ∈ (Op.runs sampleEnv batchOps).accounts, r.2.scanHeight = 0 ∧ r.2.id = 1 := by decide
  have houtputs : ∀ o ∈ sampleFound.outputs 1, 0 < o.link.height := by decide
  have hspends : ∀ s ∈ sampleFound.spends 1, 0 < s.link.height := by decide
  refine ⟨fun r hr o ho hle => ?_, fun r hr s hs hle => ?_, fun r hr s hs hle => ?_⟩
  · obtain ⟨h0, h1⟩ := hlow r hr
    have := houtputs o (h1 ▸ ho)
    omega
  · obtain ⟨h0, h1⟩ := hlow r hr
    have := hspends s (h1 ▸ hs)
    omega
  · obtain ⟨h0, h1⟩ := hlow r hr
    have := hspends s (h1 ▸ hs)
    omega

/-- Blocks 0 to 2, and blocks 0 to 3, both scanned from genesis. -/
theorem batches_insensitive_nested : ∃ dbA outA dbB outB dbAB outAB dbBA outBA,
    (sampleFound.batch 0 3 [sampleUser 0 [] []]).apply sampleEnv (Op.runs sampleEnv batchOps) = .ok (dbA, outA) ∧
    (sampleFound.batch 0 4 [sampleUser 0 [] []]).apply sampleEnv (Op.runs sampleEnv batchOps) = .ok (dbB, outB) ∧
    (sampleFound.batch 0 4 [sampleUser 0 [] []]).apply sampleEnv dbA = .ok (dbAB, outAB) ∧
    (sampleFound.batch 0 3 [sampleUser 0 [] []]).apply sampleEnv dbB = .ok (dbBA, outBA) ∧
    dbAB.accounts = dbBA.accounts ∧ dbAB.outputs = dbBA.outputs := by
  have hids : ([sampleUser 0 [] []].map (·.id)).Nodup := by decide
  obtain ⟨⟨dbA, outA⟩, hA⟩ : ∃ res,
      (sampleFound.batch 0 3 [sampleUser 0 [] []]).apply sampleEnv (Op.runs sampleEnv batchOps) = .ok res := ⟨_, rfl⟩
  obtain ⟨⟨dbB, outB⟩, hB⟩ : ∃ res,
      (sampleFound.batch 0 4 [sampleUser 0 [] []]).apply sampleEnv (Op.runs sampleEnv batchOps) = .ok res := ⟨_, rfl⟩
  have hlow : ∀ {n : Nat}, ∀ v ∈ (sampleFound.batch 0 n [sampleUser 0 [] []]).users, v.scanHeight = 0 := by
    intro n v hv
    obtain ⟨u, hu, rfl⟩ := List.mem_map.mp hv
    rw [List.mem_singleton.mp hu]
    rfl
  have hout : ∀ m n, ¬ Outruns (Op.runs sampleEnv batchOps) (sampleFound.batch 0 m [sampleUser 0 [] []])
      (sampleFound.batch 0 n [sampleUser 0 [] []]) := by
    intro m n ⟨r, _, u, _, v, hv, _, _, _, hlt, _⟩
    rw [hlow v hv] at hlt
    exact Nat.not_lt_zero _ hlt
  obtain ⟨dbAB, outAB, dbBA, outBA, hAB, hBA, haccounts, houtputs, -⟩ :=
    (batches_insensitive sampleFound_sound (sampleFound.batch_from 0 3 hids) (sampleFound.batch_from 0 4 hids)
      batchOps_agree).2 batchOps_holds (hout 3 4) (hout 4 3) dbA outA dbB outB hA hB
  exact ⟨dbA, outA, dbB, outB, dbAB, outAB, dbBA, outBA, hA, hB, hAB, hBA, haccounts, houtputs⟩

def Batch.op (b : Batch) : Op := .update b.height b.chain b.users b.pow b.regtest

def lateOps : List Op :=
  [.syncChain 0 [100, 101] false, .addAccount 5 ⟨1007, 50⟩ 7 0, .syncChain 1 [101, 102, 103] false]

/-- The database after two batches, where a failed one changes nothing. -/
def inOrder (a b : Batch) (db : Storage) : Storage := runAll (Op.run sampleEnv) [a.op, b.op] db

/-- A batch that was scanned from within another one and goes past it is skipped if it comes
    first; one that starts past the stored blocks fails; and an output below the account,
    that is not stored, is stored by the batch that has it only if that one comes first. -/
theorem order_matters :
    (Reached sampleEnv (fun _ _ => True) (Op.runs sampleEnv batchOps) ∧
      Reached sampleEnv (fun _ _ => True) (Op.runs sampleEnv lateOps) ∧
      ∀ height n scan, (sampleFound.batch height n [sampleUser scan [] []]).From sampleFound) ∧
    ((inOrder (sampleFound.batch 0 3 [sampleUser 0 [] []]) (sampleFound.batch 1 3 [sampleUser 1 [] []])
        (Op.runs sampleEnv batchOps)).accounts.rows.map (·.2.scanHeight) = [3] ∧
      (inOrder (sampleFound.batch 1 3 [sampleUser 1 [] []]) (sampleFound.batch 0 3 [sampleUser 0 [] []])
        (Op.runs sampleEnv batchOps)).accounts.rows.map (·.2.scanHeight) = [2]) ∧
    ((inOrder (sampleFound.batch 0 5 [sampleUser 0 [] []]) (sampleFound.batch 4 2 [sampleUser 4 [] []])
        (Op.runs sampleEnv batchOps)).accounts.rows.map (·.2.scanHeight) = [5] ∧
      (sampleFound.batch 4 2 [sampleUser 4 [] []]).op.run sampleEnv (Op.runs sampleEnv batchOps) = .error .badBlockchain) ∧
    ((inOrder (sampleFound.batch 0 4 [sampleUser 0 [] []]) (sampleFound.batch 1 3 [sampleUser 1 [] []])
        (Op.runs sampleEnv lateOps)).outputs.rows.map (·.2.link.height) = [1, 3] ∧
      (inOrder (sampleFound.batch 1 3 [sampleUser 1 [] []]) (sampleFound.batch 0 4 [sampleUser 0 [] []])
        (Op.runs sampleEnv lateOps)).outputs.rows.map (·.2.link.height) = [3]) := by
  refine ⟨⟨reached_runs (by decide), reached_runs (by decide), fun height n scan => sampleFound.batch_from height n ?_⟩,
    by decide, ⟨by decide, rfl⟩, by decide⟩
  simp

end Lws.Db
