/-
  Lws.Db.Pows — the proofs of work follow the stored chain.

  `pows` should hold the blocks 0..p for some p, so that a difficulty window ending at any
  of them can be read. `sync_pow` writes no proof of work for a block it passes over, and
  `update` writes those of its new blocks wherever the last stored one is: both leave a
  gap when the proofs of work lag behind the blocks (`passed_over`). `KeepsUp` is what
  excludes that, one operation at a time, and `pows_follow` what holds then.
-/

import Lws.Db.Extend
import Lws.Db.Reader

namespace Lws.Db

open Lws.Lmdb Lws.Transition

/-- What `check_blockchain` requires of the checkpoints, which are a `std::map`. -/
structure Env.Checked (env : Env) : Prop where
  genesis : ∃ hash, env.checkpoints.head? = some (0, hash)
  ascending : env.checkpoints.Pairwise (fun a b => a.1 < b.1)

/-- The proofs of work are those of the blocks up to `p`, all of them stored. -/
structure CaughtUp (p : Nat) (db : Storage) : Prop where
  pows : ∀ height, HasPow db.pows height ↔ height ≤ p
  blocks : ∀ height ≤ p, HasBlock db.blocks height

/-! ## What an operation may add -/

/-- The last block of an update that stores blocks with proofs of work. -/
def Op.powUpdate (env : Env) : Op → Option Nat
  | .update height chain _ pow regtest =>
    if pow ≠ [] ∧ (regtest = true ∨ env.maxHeight ≤ height + chain.length - 1) then some (height + chain.length - 1) else none
  | _ => none

/-- The last stored block has a proof of work, if `last` is above it. -/
def tipHasPow (db : Storage) (last : Nat) : Bool :=
  match lastHeight db.blocks with
  | .ok tip => decide (tip < last → HasPow db.pows tip)
  | .error _ => true

/-- New proofs of work come right after the stored ones: `sync_pow` passes over no block
    without one, and `update` has one at the last block. Genesis is never rolled back. -/
structure KeepsUp (env : Env) (db : Storage) (op : Op) : Prop where
  passed : ∀ b ∈ op.powBatch, ∀ i < agreed db.blocks b.1 b.2, HasPow db.pows (b.1 + i)
  tip : ∀ last ∈ op.powUpdate env, tipHasPow db last = true
  rolls : ∀ height ∈ op.rollsTo, 0 < height

instance (env : Env) (db : Storage) (op : Op) : Decidable (KeepsUp env db op) :=
  decidable_of_iff ((∀ b ∈ op.powBatch, ∀ i < agreed db.blocks b.1 b.2, HasPow db.pows (b.1 + i)) ∧
      (∀ last ∈ op.powUpdate env, tipHasPow db last = true) ∧ ∀ height ∈ op.rollsTo, 0 < height)
    ⟨fun h => ⟨h.1, h.2.1, h.2.2⟩, fun h => ⟨h.passed, h.tip, h.rolls⟩⟩

/-! ## Every operation keeps up -/

section Steps

variable {env : Env} {db db' : Storage} {p height : Nat} {hashes : List Hash} {pow : List PowSync} {fork : Option Nat}
  {gap : Bool} {current : Nat} {kept : Blocks}

/-- A rollback to `fork`, above genesis, leaves the proofs of work below it. -/
theorem caughtUp_rolledBack (h : CaughtUp p db) {n : Nat} (hpos : 0 < n) :
    ∃ p₀, (∀ height, HasPow (rolledBackPows n db.pows) height ↔ height ≤ p₀) ∧ p₀ ≤ p ∧ p₀ < n ∧ (n - 1 ≤ p → n - 1 ≤ p₀) := by
  by_cases e : n ≤ p
  · refine ⟨n - 1, fun height => ?_, by omega, by omega, fun _ => Nat.le_refl _⟩
    rw [hasPow_rolledBack, h.pows, h.pows]
    omega
  · refine ⟨p, fun height => ?_, Nat.le_refl _, by omega, fun hle => hle⟩
    rw [hasPow_rolledBack, h.pows, h.pows]
    exact ⟨And.left, fun hle => ⟨hle, fun hn => absurd hn e⟩⟩

theorem caughtUp_kept (h : CaughtUp p db) (hext : Extends height hashes pow fork gap current kept db db') :
    ∃ p₀, (∀ height, HasPow (powsAfter fork db.pows) height ↔ height ≤ p₀) ∧ (∀ height ≤ p₀, HasBlock kept height) ∧
      (current - 1 ≤ p → current - 1 ≤ p₀) := by
  rcases hext.cut with ⟨rfl, rfl⟩ | ⟨rfl, n, hn, rfl⟩
  · exact ⟨p, h.pows, h.blocks, fun hle => hle⟩
  · have hpos : 0 < current := Nat.lt_of_le_of_lt (Nat.zero_le _) hext.above
    obtain ⟨p₀, hp₀, hle, hlt, hkeep⟩ := caughtUp_rolledBack h hpos
    refine ⟨p₀, hp₀, fun m hm => ?_, hkeep⟩
    obtain ⟨b, hb, hid⟩ := h.blocks m (hm.trans hle)
    exact ⟨b, Table.mem_filter.mpr ⟨hb, decide_eq_true (by show b.id < n; omega)⟩, hid⟩

theorem caughtUp_extends (h : CaughtUp p db) (hext : Extends height hashes pow fork gap current kept db db')
    (hnext : pow.drop (current - height) ≠ [] → HasPow db.pows (current - 1)) :
    ∃ p', CaughtUp p' db' ∧ (pow ≠ [] → HasPow db.pows (current - 1) → height + hashes.length - 1 ≤ p') := by
  obtain ⟨p₀, hp₀, hkept, hreach⟩ := caughtUp_kept h hext
  have habove := hext.above
  have hwithin := hext.within
  have hlen : (pow.drop (current - height)).length ≤ (hashes.drop (current - height)).length := by
    rw [List.length_drop, List.length_drop]
    rcases hext.count with rfl | hc
    · simp
    · omega
  have hcount : pow ≠ [] → (pow.drop (current - height)).length = height + hashes.length - current := by
    intro hne
    rw [List.length_drop, hext.count.resolve_left hne]
    omega
  by_cases e : pow.drop (current - height) = []
  · refine ⟨p₀, ⟨fun m => ?_, fun m hm => ?_⟩, fun hne hhas => ?_⟩
    · rw [hext.pows, e, appendPow_nil, hp₀]
    · rw [hext.blocks]
      exact hasBlock_append.mpr (Or.inl (hkept m hm))
    · have hzero := hcount hne
      rw [e, List.length_nil] at hzero
      have := hreach ((h.pows _).mp hhas)
      omega
  · have hle := hreach ((h.pows _).mp (hnext e))
    have hpos := List.length_pos_of_ne_nil e
    refine ⟨max p₀ (current + (pow.drop (current - height)).length - 1), ⟨fun m => ?_, fun m hm => ?_⟩, fun hne _ => ?_⟩
    · rw [hext.pows, hasPow_appendPow, hp₀]
      omega
    · rw [hext.blocks]
      refine hasBlock_append.mpr ?_
      by_cases hm₀ : m ≤ p₀
      · exact Or.inl (hkept m hm₀)
      · exact Or.inr ⟨by omega, by omega⟩
    · have := hcount hne
      omega

theorem caughtUp_run {op : Op} (h : CaughtUp p db) (hok : KeepsUp env db op) (hrun : op.run env db = .ok db') :
    ∃ p', CaughtUp p' db' := by
  have hsame : db'.blocks = db.blocks → db'.pows = db.pows → ∃ p', CaughtUp p' db' := by
    intro hb hp
    exact ⟨p, fun m => by rw [hp]; exact h.pows m, fun m hm => by rw [hb]; exact h.blocks m hm⟩
  rcases hop : op.chains with _ | _
  · obtain ⟨hb, hp⟩ := run_chain hop hrun
    exact hsame hb hp
  · cases op with
    | syncChain height hashes regtest =>
      obtain ⟨current, kept, hext⟩ := syncChain_extends hrun
      obtain ⟨p', hp', -⟩ := caughtUp_extends h hext (by simp)
      exact ⟨p', hp'⟩
    | syncPow height hashes pow =>
      obtain ⟨kept, hext⟩ := syncPow_extends hrun
      have hpos : 0 < agreed db.blocks height hashes := by have := hext.above; omega
      have hlast := hok.passed _ rfl (agreed db.blocks height hashes - 1) (by dsimp only; omega)
      dsimp only at hlast
      obtain ⟨p', hp', -⟩ := caughtUp_extends h hext fun _ => by
        rwa [show height + agreed db.blocks height hashes - 1 = height + (agreed db.blocks height hashes - 1) by omega]
      exact ⟨p', hp'⟩
    | rollback height =>
      rcases rollback_blocks hrun with ⟨hb, hp⟩ | ⟨-, hb, hp⟩
      · exact hsame hb hp
      · obtain ⟨p₀, hp₀, hle, hlt, -⟩ := caughtUp_rolledBack h (hok.rolls height rfl)
        refine ⟨p₀, fun m => by rw [hp, hp₀], fun m hm => ?_⟩
        obtain ⟨b, hmem, hid⟩ := h.blocks m (hm.trans hle)
        rw [hb]
        exact ⟨b, Table.mem_filter.mpr ⟨hmem, decide_eq_true (by show b.id < height; omega)⟩, hid⟩
    | update height chain users pow regtest =>
      obtain ⟨out, hupd⟩ := fst_ok hrun
      rcases update_extends hupd with ⟨hb, hp⟩ | ⟨hstores, tip, htip, hext⟩
      · exact hsame hb hp
      · -- when a block is stored, the last one is below the end of the batch
        have hnext : pow.drop (min tip (height + chain.length - 1) + 1 - height) ≠ [] →
            HasPow db.pows (min tip (height + chain.length - 1) + 1 - 1) := by
          intro hne
          have hpow : pow ≠ [] := fun e => hne (by rw [e, List.drop_nil])
          have hlen := hext.count.resolve_left hpow
          have hdrop := mt List.drop_eq_nil_iff.mpr hne
          have hhas := hok.tip _ (if_pos ⟨hpow, hstores⟩)
          unfold tipHasPow at hhas
          rw [htip] at hhas
          rw [show min tip (height + chain.length - 1) + 1 - 1 = tip by omega]
          exact of_decide_eq_true hhas (by omega)
        obtain ⟨p', hp', -⟩ := caughtUp_extends h hext hnext
        exact ⟨p', hp'⟩
    | _ => cases hop

end Steps

/-! ## The start -/

theorem genesis_fresh {env : Env} (hcp : env.Checked) : HasBlock (fresh env).blocks 0 := by
  obtain ⟨hash, hhead⟩ := hcp.genesis
  unfold fresh
  rcases hpoints : env.checkpoints with _ | ⟨c, rest⟩
  · rw [hpoints] at hhead
    cases hhead
  · rw [hpoints] at hhead
    cases hhead
    dsimp only
    have hfirst := Table.mem_put_self (Table.empty : Blocks) () ⟨0, hash⟩
    rcases rest.getLast? with _ | last
    · exact ⟨_, hfirst, rfl⟩
    · dsimp only
      by_cases e : last.1 = 0
      · exact ⟨_, Table.mem_put_self _ _ _, e⟩
      · exact ⟨_, Table.mem_put.mpr (Or.inr ⟨hfirst, fun he => e he.2.symm⟩), rfl⟩

theorem caughtUp_fresh {env : Env} (hcp : env.Checked) : CaughtUp 0 (fresh env) := by
  refine ⟨fun m => ?_, fun m hm => ?_⟩
  · refine ⟨fun ⟨q, hq, hid⟩ => ?_, fun hm => ?_⟩
    · rcases Table.mem_put.mp (show ((), q) ∈ (Table.empty : Pows).put () ⟨0, 0, ⟨0, 1⟩⟩ from hq) with he | ⟨he, -⟩
      · cases he
        exact Nat.le_of_eq hid.symm
      · exact absurd he (Table.not_mem_empty _)
    · exact ⟨_, Table.mem_put_self _ _ _, (Nat.le_zero.mp hm).symm⟩
  · rw [Nat.le_zero.mp hm]
    exact genesis_fresh hcp

theorem caughtUp_reached {env : Env} {db : Storage} (hcp : env.Checked) (h : Reached env (KeepsUp env) db) :
    ∃ p, CaughtUp p db :=
  h.invariant (fun db => ∃ p, CaughtUp p db) ⟨0, caughtUp_fresh hcp⟩ fun _ _ _ ⟨_, hp⟩ hok hrun => caughtUp_run hp hok hrun

/-! ## The window -/

/-- The rows of the heights from `next` to `last`. -/
def RowsOf (pows : Pows) (next last : Nat) (rows : List BlockPow) : Prop :=
  rows.map (·.id) = List.range' next (last + 1 - next) ∧ ∀ p ∈ rows, ((), p) ∈ pows

def FindsWindow (consts : PowConsts) (last : Nat) (db : Storage) : Prop :=
  ∃ rows checks, (0 < last → RowsOf db.pows (consts.windowStart last) last rows) ∧
    (consts.timestampCheckWindow ≤ last → RowsOf db.pows (last - (consts.timestampCheckWindow - 1)) last checks) ∧
    db.getPowWindow consts last =
      .ok ⟨rows.map (·.timestamp), rows.map (·.cumulativeDiff.getDifficulty), checks.map (·.timestamp)⟩

section Window

variable {pows : Pows} {next last : Nat}

theorem windowRows_ok : ∀ (n : Nat) {cur : Cursor Version BlockPow.id} {r : Version × BlockPow}, cur.table = pows →
    cur.gone = none → cur.row? = some r → (∀ i ≤ n, HasPow pows (r.2.id + i)) →
    ∃ rows, windowRows n cur = .ok rows ∧ rows.map (·.id) = List.range' r.2.id (n + 1) ∧ ∀ p ∈ rows, ((), p) ∈ pows := by
  intro n
  induction n with
  | zero =>
    intro cur r ht hg hr _
    refine ⟨[r.2], by unfold windowRows; rw [hr], rfl, fun p hp => ?_⟩
    rw [List.mem_singleton.mp hp, ← ht]
    exact List.mem_of_getElem? hr
  | succ n ih =>
    intro cur r ht hg hr hhas
    obtain ⟨q, hq, hqid⟩ := hhas 1 (by omega)
    rcases nextDup_row hg hr with ⟨-, hlast⟩ | ⟨cur', m, hsome, ht', hg', hr', hm, hlt, hgap⟩
    · have := hlast _ (ht ▸ hq)
      change q.id ≤ r.2.id at this
      omega
    · -- the next row is the next height
      have hmid : m.2.id = r.2.id + 1 := by
        rcases hgap _ (ht ▸ hq) with h | h
        · change q.id ≤ r.2.id at h
          omega
        · change m.2.id ≤ q.id at h
          change r.2.id < m.2.id at hlt
          omega
      obtain ⟨rows, hrows, hids, hmem⟩ := ih (ht'.trans ht) hg' hr' fun i hi => by
        rw [hmid, show r.2.id + 1 + i = r.2.id + (i + 1) by omega]
        exact hhas (i + 1) (by omega)
      refine ⟨r.2 :: rows, ?_, ?_, fun p hp => ?_⟩
      · unfold windowRows
        rw [hr]
        simp only [hsome, hrows]
        rfl
      · rw [List.map_cons, hids, hmid]
        exact List.range'_succ.symm
      · rcases List.mem_cons.mp hp with rfl | hp
        · rw [← ht]
          exact List.mem_of_getElem? hr
        · exact hmem p hp

theorem windowFrom_ok (hle : next ≤ last) (hhas : ∀ height, next ≤ height → height ≤ last → HasPow pows height) :
    ∃ rows, windowFrom pows next last = .ok rows ∧ RowsOf pows next last rows := by
  obtain ⟨q, hq, hqid⟩ := hhas next (Nat.le_refl _) hle
  unfold windowFrom
  rcases hc : pows.getBoth () next with _ | cur
  · have hnone := getBoth_none hc
    rw [Table.get?_eq_some.mpr ⟨hq, hqid⟩] at hnone
    cases hnone
  · obtain ⟨ht, hg, v, hrow, hv, hid⟩ := getBoth_some hc
    obtain ⟨rows, hrows, hids, hmem⟩ := windowRows_ok (last - next) ht hg hrow fun i hi => by
      rw [show ((), v).2.id = next from hid]
      exact hhas (next + i) (by omega) (by omega)
    refine ⟨rows, hrows, ?_, hmem⟩
    rw [hids, show ((), v).2.id = next from hid, show last - next + 1 = last + 1 - next by omega]

theorem getPowWindow_ok {db : Storage} (consts : PowConsts) (hhas : ∀ height ≤ last, HasPow db.pows height) :
    FindsWindow consts last db := by
  have hcount := consts.count_pos
  have hwindow := consts.window_pos
  unfold FindsWindow Storage.getPowWindow
  by_cases hzero : last = 0
  · exact ⟨[], [], fun h => by omega, fun h => by omega, if_pos hzero⟩
  · have hstart : consts.windowStart last ≤ last := by
      unfold PowConsts.windowStart
      split <;> omega
    obtain ⟨rows, hrows, hof⟩ := windowFrom_ok hstart fun m _ hm => hhas m hm
    rw [if_neg hzero, hrows]
    by_cases hshort : last < consts.timestampCheckWindow
    · exact ⟨rows, [], fun _ => hof, fun h => by omega, if_pos hshort⟩
    · obtain ⟨checks, hchecks, hof'⟩ :=
        windowFrom_ok (show last - (consts.timestampCheckWindow - 1) ≤ last by omega) fun m _ hm => hhas m hm
      refine ⟨rows, checks, fun _ => hof, fun _ => hof', ?_⟩
      simp only [bind, Except.bind, if_neg hshort, hchecks]

end Window

/-! ## Over whole runs -/

variable {env : Env} {db : Storage}

/-- While every operation keeps up, the proofs of work are those of the blocks 0..p, and
    a successful `sync_pow` stores every block of its batch and a proof of work for it, so
    that the window at its end can be read. -/
theorem pows_follow (hcp : env.Checked) (h : Reached env (KeepsUp env) db) :
    (∃ p, ∀ height, HasPow db.pows height ↔ height ≤ p) ∧
    ∀ height hashes pow db', KeepsUp env db (.syncPow height hashes pow) →
      db.syncPow env height hashes pow = .ok db' →
      (∀ i x, hashes[i]? = some x → ((), ⟨height + i, x⟩) ∈ db'.blocks ∧ HasPow db'.pows (height + i)) ∧
      ∀ consts, FindsWindow consts (height + hashes.length - 1) db' := by
  obtain ⟨p, hp⟩ := caughtUp_reached hcp h
  refine ⟨⟨p, hp.pows⟩, fun height hashes pow db' hok hsync => ?_⟩
  obtain ⟨kept, hext⟩ := syncPow_extends hsync
  have habove := hext.above
  have hpow : pow ≠ [] := by
    intro e
    have hlen := (syncPow_ok hsync).1
    have := @agreed_le db.blocks hashes height
    rw [e, List.length_nil] at hlen
    omega
  have hlast : HasPow db.pows (height + agreed db.blocks height hashes - 1) := by
    have := hok.passed _ rfl (agreed db.blocks height hashes - 1) (by dsimp only; omega)
    rwa [show height + agreed db.blocks height hashes - 1 = height + (agreed db.blocks height hashes - 1) by omega]
  obtain ⟨p', hp', hend⟩ := caughtUp_extends hp hext fun _ => hlast
  have hreach := hend hpow hlast
  refine ⟨fun i x hx => ?_, fun consts => getPowWindow_ok consts fun m hm => (hp'.pows m).mpr (hm.trans hreach)⟩
  have hi := (List.getElem?_eq_some_iff.mp hx).1
  refine ⟨?_, (hp'.pows _).mpr (by omega)⟩
  rw [hext.blocks]
  refine mem_appendBlockHashes_over.mpr ?_
  by_cases e : i < agreed db.blocks height hashes
  · obtain ⟨y, hy, hm⟩ := agreed_stored e
    cases hx.symm.trans hy
    refine Or.inl ⟨?_, fun hin => by have := hin.1; dsimp only at this; omega⟩
    rcases hext.cut with ⟨-, rfl⟩ | ⟨-, n, hn, rfl⟩
    · exact hm
    · exact Table.mem_filter.mpr ⟨hm, decide_eq_true (by show height + i < n; omega)⟩
  · refine Or.inr ⟨i - agreed db.blocks height hashes, by dsimp only; omega, ?_⟩
    rw [List.getElem?_drop, show height + agreed db.blocks height hashes - height +
      (i - agreed db.blocks height hashes) = i by omega]
    exact hx

def followOps : List Op :=
  [.syncPow 0 [100, 101, 102] (samplePow 3), .update 2 [102, 103] [] (samplePow 2) false, .rollback 3]

theorem checked_sample : sampleEnv.Checked := ⟨⟨100, rfl⟩, by decide⟩

theorem pows_follow_sample : ∃ db', (Op.runs sampleEnv followOps).syncPow sampleEnv 1 [101, 102, 203] (samplePow 3) =
    .ok db' ∧
    ((), ⟨3, 203⟩) ∈ db'.blocks ∧ HasPow db'.pows 3 ∧ ∀ consts, FindsWindow consts 3 db' := by
  have hall := (@pows_follow sampleEnv (Op.runs sampleEnv followOps) checked_sample (reached_runs (by decide))).2
  have hok : ((Op.runs sampleEnv followOps).syncPow sampleEnv 1 [101, 102, 203] (samplePow 3)).isOk = true := by decide
  rcases h : (Op.runs sampleEnv followOps).syncPow sampleEnv 1 [101, 102, 203] (samplePow 3) with e | db'
  · rw [h] at hok
    cases hok
  · obtain ⟨hstored, hwindow⟩ := hall 1 [101, 102, 203] (samplePow 3) db' (by decide) h
    obtain ⟨hblock, hpow⟩ := hstored 2 203 rfl
    exact ⟨db', rfl, hblock, hpow, hwindow⟩

/-- Blocks 1 and 2 are synced without proofs of work; `sync_pow` then passes over them,
    and adds block 3. -/
def passedOps : List Op :=
  [.syncChain 0 [100, 101, 102] false, .syncPow 0 [100, 101, 102] (samplePow 3), .syncPow 2 [102, 103] (samplePow 2)]

/-- Both succeed, and there are proofs of work for blocks 0 and 3 only. -/
theorem passed_over :
    ((Op.runs sampleEnv (passedOps.take 1)).syncPow sampleEnv 0 [100, 101, 102] (samplePow 3)).isOk = true ∧
      ¬ HasPow (Op.runs sampleEnv (passedOps.take 2)).pows 1 ∧ ¬ HasPow (Op.runs sampleEnv (passedOps.take 2)).pows 2 ∧
      ¬ ∃ p, ∀ height, HasPow (Op.runs sampleEnv passedOps).pows height ↔ height ≤ p := by
  refine ⟨by decide, by decide, by decide, fun ⟨p, hp⟩ => ?_⟩
  have hthree : 3 ≤ p := (hp 3).mp (by decide)
  exact absurd ((hp 1).mpr (by omega)) (by decide)

end Lws.Db
