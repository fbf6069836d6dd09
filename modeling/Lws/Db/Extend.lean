/-
  Lws.Db.Extend — how the operations change the stored chain, said once.

  `sync_chain`, `sync_pow` and `update` compare a batch of hashes with the stored blocks
  up to some height, may drop the blocks above it, and append the rest (`Extends`);
  `rollback` only drops, and every other operation leaves the chain (`run_chain`).
-/

import Lws.Db.Change

namespace Lws.Db

open Lws.Lmdb

/-- The proofs of work after a rollback, if there is one. -/
def powsAfter (fork : Option Nat) (pows : Pows) : Pows :=
  match fork with
  | none => pows
  | some height => rolledBackPows height pows

/-- The hashes placed from `height` on are passed over up to `current`, and the rest is
    appended to `kept`, which is all of the stored blocks or, after a rollback to
    `current`, those below the block that differs. `gap` is whether the comparison
    stopped at a missing block. -/
structure Extends (height : Nat) (hashes : List Hash) (pow : List PowSync) (fork : Option Nat) (gap : Bool)
    (current : Nat) (kept : Blocks) (db db' : Storage) : Prop where
  above : height < current
  within : current ≤ height + hashes.length
  blocks : db'.blocks = appendBlockHashes current (hashes.drop (current - height)) kept
  pows : db'.pows = appendPow current (pow.drop (current - height)) (powsAfter fork db.pows)
  count : pow = [] ∨ pow.length = hashes.length
  last : ∃ b ∈ kept, current ≤ b.2.id + 1 ∧ (current = height + 1 → b.2.id = height) ∧
    hashes[current - 1 - height]? = some b.2.hash ∧
    (hashes.drop (current - height) = [] ∨ (∀ x ∈ kept, x.2.id ≤ b.2.id) ∨ (gap = true ∧ ¬ HasBlock kept current))
  cut : (fork = none ∧ kept = db.blocks) ∨
    (fork = some current ∧ ∃ n, current ≤ n ∧ kept = db.blocks.filter fun x => decide (x.2.id < n))

section Extends

variable {env : Env} {db db' : Storage} {height : Nat} {hashes : List Hash} {pow : List PowSync}

theorem syncChain_extends {regtest : Bool} (h : db.syncChain env height hashes regtest = .ok db') :
    ∃ current kept, Extends height hashes [] (forkPoint db.blocks height hashes) false current kept db db' := by
  obtain ⟨j, last, mid, hj, hlast, hle, hzero, hhash, rfl, hend⟩ := syncChain_rows h
  refine ⟨height + j + 1, mid.blocks, ?_⟩
  have hdrop : height + j + 1 - height = j + 1 := by omega
  have hprev : height + j + 1 - 1 - height = j := by omega
  rcases hend with ⟨hfork, rfl, hend⟩ | ⟨hfork, hrw, n, hn, hlt, hgap, hblocks⟩
  · rw [hfork]
    refine ⟨by omega, by omega, by rw [hdrop], by rw [List.drop_nil, appendPow_nil]; rfl, Or.inl rfl,
      ⟨last, hlast, by omega, fun _ => hzero (by omega), by rw [hprev]; exact hhash, ?_⟩, Or.inl ⟨rfl, rfl⟩⟩
    rw [hdrop]
    exact hend.imp id Or.inl
  · rw [hfork]
    have hkept : last ∈ mid.blocks := by
      rw [hblocks]
      exact Table.mem_filter.mpr ⟨hlast, decide_eq_true hlt⟩
    refine ⟨by omega, by omega, by rw [hdrop], ?_, Or.inl rfl, ⟨last, hkept, by omega, fun _ => hzero (by omega),
      by rw [hprev]; exact hhash, Or.inr (Or.inl fun x hx => ?_)⟩, Or.inr ⟨rfl, n.2.id, by omega, hblocks⟩⟩
    · rw [List.drop_nil, appendPow_nil]
      show mid.pows = rolledBackPows (height + j + 1) db.pows
      rw [hrw.frame]
    · rw [hblocks] at hx
      obtain ⟨hx, hxn⟩ := Table.mem_filter.mp hx
      have := hgap x hx
      have := of_decide_eq_true hxn
      omega

theorem syncPow_extends (h : db.syncPow env height hashes pow = .ok db') :
    ∃ kept, Extends height hashes pow (powFork db.blocks height hashes) true
      (height + agreed db.blocks height hashes) kept db db' := by
  have hfork := syncPow_cases h
  obtain ⟨hlen, j, mid, hj, hpos, rfl, hend⟩ := syncPow_ok h
  rw [hj]
  refine ⟨mid.blocks, ?_⟩
  have hle : j ≤ hashes.length := hj ▸ agreed_le
  have hdrop : height + j - height = j := by omega
  have hprev : height + j - 1 - height = j - 1 := by omega
  obtain ⟨x, hx, hlast⟩ := @agreed_stored db.blocks hashes height (j - 1) (by omega)
  rcases hend with ⟨rfl, hend⟩ | ⟨y, stored, hy, hst, hne, hmax, hrw, hblocks⟩
  · have hnone : powFork mid.blocks height hashes = none := by
      unfold powFork
      rw [hj]
      refine if_neg fun e => ?_
      rcases hend with hend | hend
      · have := List.drop_eq_nil_iff.mp hend
        omega
      · exact hend e.2
    rw [hnone]
    refine ⟨by omega, by omega, by rw [hdrop], by rw [hdrop]; rfl, Or.inr hlen.symm,
      ⟨_, hlast, by dsimp only; omega, fun _ => by dsimp only; omega, by rw [hprev]; exact hx, ?_⟩, Or.inl ⟨rfl, rfl⟩⟩
    rw [hdrop]
    exact hend.imp id fun hno => Or.inr ⟨rfl, hno⟩
  · have hsome : powFork db.blocks height hashes = some (height + j) := by
      unfold powFork
      rw [hj]
      exact if_pos ⟨(List.getElem?_eq_some_iff.mp hy).1, _, hst, rfl⟩
    rw [hsome]
    have hkept : ((), (⟨height + (j - 1), x⟩ : BlockInfo)) ∈ mid.blocks := by
      rw [hblocks]
      exact Table.mem_filter.mpr ⟨hlast, decide_eq_true (by show height + (j - 1) < height + j; omega)⟩
    refine ⟨by omega, by omega, by rw [hdrop], ?_, Or.inr hlen.symm,
      ⟨_, hkept, by dsimp only; omega, fun _ => by dsimp only; omega, by rw [hprev]; exact hx,
        Or.inr (Or.inl fun b hb => ?_)⟩,
      Or.inr ⟨rfl, height + j, Nat.le_refl _, hblocks⟩⟩
    · rw [hdrop]
      show appendPow _ _ mid.pows = appendPow _ _ (rolledBackPows (height + j) db.pows)
      rw [hrw.frame]
    · rw [hblocks] at hb
      have := of_decide_eq_true (Table.mem_filter.mp hb).2
      dsimp only
      omega

/-- The chain part of an update: nothing is stored, or what follows the last block. -/
theorem updateChain_extends {regtest : Bool} (h : updateChain env height hashes pow regtest db = .ok db')
    (hne : hashes ≠ []) (hcount : pow = [] ∨ pow.length = hashes.length) :
    db' = db ∨ ((regtest = true ∨ env.maxHeight ≤ height + hashes.length - 1) ∧ ∃ tip, lastHeight db.blocks = .ok tip ∧
      Extends height hashes pow none false (min tip (height + hashes.length - 1) + 1) db.blocks db db') := by
  have hlen : 0 < hashes.length := List.length_pos_of_ne_nil hne
  unfold updateChain at h
  dsimp only at h
  split at h
  · rename_i hstores
    refine Or.inr ⟨by simpa using hstores, ?_⟩
    obtain ⟨tip, htip, h⟩ := bind_ok.mp h
    refine ⟨tip, htip, ?_⟩
    obtain ⟨-, hmax⟩ := lastHeight_ok htip
    by_cases hlow : tip < height
    · rw [if_pos hlow] at h
      cases h
    · rw [if_neg hlow] at h
      obtain ⟨hash, hhash, h⟩ := bind_ok.mp h
      split at h
      · cases h
      · rename_i hsame
        cases h
        rw [not_not] at hsame
        have hoff : height + (min tip (height + hashes.length - 1) - height) + 1 =
            min tip (height + hashes.length - 1) + 1 := by
          omega
        have hdrop : min tip (height + hashes.length - 1) + 1 - height = min tip (height + hashes.length - 1) - height + 1 := by
          omega
        refine ⟨by omega, by omega, by rw [hdrop, hoff], ?_, hcount, ⟨_, getBlockHash_ok hhash, Nat.le_refl _,
          fun _ => by dsimp only; omega, ?_, ?_⟩, Or.inl ⟨rfl, rfl⟩⟩
        · rw [hdrop, hoff]
          show (if pow.isEmpty then db.pows else _) = _
          split
          · rename_i hnil
            rw [List.isEmpty_iff.mp hnil, List.drop_nil]; rfl
          · rfl
        · rw [Nat.add_sub_cancel]
          exact hsame
        · by_cases hshort : height + hashes.length - 1 ≤ tip
          · exact Or.inl (List.drop_eq_nil_iff.mpr (by omega))
          · refine Or.inr (Or.inl fun x hx => ?_)
            have := hmax x hx
            dsimp only
            omega
  · split at h
    · cases h
      exact Or.inl rfl
    · split at h
      · cases h
      · cases h
        exact Or.inl rfl

/-- A rollback drops the blocks from `height` on. -/
theorem rollback_blocks (h : db.rollback height = .ok db') : (db'.blocks = db.blocks ∧ db'.pows = db.pows) ∨
    (HasBlock db.blocks height ∧ db'.blocks = (db.blocks.filter fun x => decide (x.2.id < height)) ∧
      db'.pows = rolledBackPows height db.pows) := by
  unfold Storage.rollback at h
  split at h
  · cases h
    exact Or.inl ⟨rfl, rfl⟩
  · rename_i cur hc
    obtain ⟨ht, hg, v, hrow, hv, hid⟩ := getBoth_some hc
    obtain ⟨hrw, hblocks⟩ := rollbackChain_ok ht hg hrow h
    rw [hid] at hblocks
    refine Or.inr ⟨⟨v, hv, hid⟩, hblocks, ?_⟩
    rw [hrw.frame]

theorem stores_chain {users : List Lws.Account} {lastUpdate : Nat} {start mid : Storage}
    (h : Changes env (Stores start users height lastUpdate) mid db') : db'.blocks = mid.blocks ∧ db'.pows = mid.pows := by
  refine h.keeps (fun u => u.blocks = mid.blocks ∧ u.pows = mid.pows) (fun hu ha hc => ?_) ⟨rfl, rfl⟩
  cases hc with
  | store => exact hu
  | _ => exact ha.elim

theorem update_extends {users : List Lws.Account} {regtest : Bool} {out : Updated}
    (h : db.update env height hashes users pow regtest = .ok (db', out)) :
    (db'.blocks = db.blocks ∧ db'.pows = db.pows) ∨
      ((regtest = true ∨ env.maxHeight ≤ height + hashes.length - 1) ∧ ∃ tip, lastHeight db.blocks = .ok tip ∧
        Extends height hashes pow none false (min tip (height + hashes.length - 1) + 1) db.blocks db db') := by
  rcases update_parts h with rfl | ⟨hne, hcount, mid, hchain, hstores⟩
  · exact Or.inl ⟨rfl, rfl⟩
  · obtain ⟨hblocks, hpows⟩ := stores_chain hstores
    rcases updateChain_extends hchain hne hcount with rfl | ⟨hstore, tip, htip, hext⟩
    · exact Or.inl ⟨hblocks, hpows⟩
    · exact Or.inr ⟨hstore, tip, htip, hext.above, hext.within, hblocks.trans hext.blocks, hpows.trans hext.pows,
        hext.count, hext.last, hext.cut⟩

/-- Every other operation leaves the chain. -/
theorem run_chain {op : Op} (hop : op.chains = false) (h : op.run env db = .ok db') :
    db'.blocks = db.blocks ∧ db'.pows = db.pows := by
  refine (run_changes h).keeps (fun u => u.blocks = db.blocks ∧ u.pows = db.pows) (fun {u u' act} hu ha hc => ?_) ⟨rfl, rfl⟩
  cases hc with
  | chain =>
    rw [acts_chain, hop] at ha
    cases ha
  | rewind =>
    obtain ⟨-, hf⟩ := acts_rewind.mp ha
    cases op <;> first | cases hf | cases hop
  | _ => exact hu

end Extends

/-! ## Every operation -/

def Op.segment : Op → Option (Nat × List Hash)
  | .syncChain height hashes _ => some (height, hashes)
  | .syncPow height hashes _ => some (height, hashes)
  | .update height chain _ _ _ => some (height, chain)
  | _ => none

def Op.powBatch : Op → Option (Nat × List Hash)
  | .syncPow height hashes _ => some (height, hashes)
  | _ => none

def Op.rollsTo : Op → Option Nat
  | .rollback height => some height
  | _ => none

/-- What an operation does to the stored chain. -/
inductive ChainStep (op : Op) (db db' : Storage) : Prop where
  | kept (blocks : db'.blocks = db.blocks) (pows : db'.pows = db.pows)
  | rolled {height : Nat} (rolls : op.rollsTo = some height) (fork : op.forkAt db = some height)
      (blocks : db'.blocks = db.blocks.filter fun x => decide (x.2.id < height))
      (pows : db'.pows = rolledBackPows height db.pows)
  | extended {height : Nat} {hashes : List Hash} {pow : List PowSync} {gap : Bool} {current : Nat} {kept : Blocks}
      (segment : op.segment = some (height, hashes))
      (batch : gap = true → op.powBatch = some (height, hashes) ∧ current = height + agreed db.blocks height hashes)
      (extends_ : Extends height hashes pow (op.forkAt db) gap current kept db db')

theorem run_chainStep {env : Env} {op : Op} {db db' : Storage} (hrun : op.run env db = .ok db') :
    ChainStep op db db' := by
  rcases hop : op.chains with _ | _
  · obtain ⟨hb, hp⟩ := run_chain hop hrun
    exact .kept hb hp
  · cases op with
    | syncChain height hashes regtest =>
      obtain ⟨current, kept, hext⟩ := syncChain_extends hrun
      exact .extended rfl (fun e => by cases e) hext
    | syncPow height hashes pow =>
      obtain ⟨kept, hext⟩ := syncPow_extends hrun
      exact .extended rfl (fun _ => ⟨rfl, rfl⟩) hext
    | rollback height =>
      rcases rollback_blocks hrun with ⟨hb, hp⟩ | ⟨⟨b, hmem, hid⟩, hb, hp⟩
      · exact .kept hb hp
      · refine .rolled rfl ?_ hb hp
        show (if (db.blocks.get? () height).isSome then some height else none) = some height
        rw [Table.get?_eq_some.mpr ⟨hmem, hid⟩]; rfl
    | update height chain users pow regtest =>
      obtain ⟨out, hupd⟩ := fst_ok hrun
      rcases update_extends hupd with ⟨hb, hp⟩ | ⟨-, tip, -, hext⟩
      · exact .kept hb hp
      · exact .extended rfl (fun e => by cases e) hext
    | _ => cases hop

end Lws.Db
