/-
  Lws.Db.PowReorg — the blocks `sync_pow` replaces.

  At a stored block with another hash `sync_pow` rolls back; at a missing block it stops
  comparing, and the rest of the batch overwrites what is stored there
  (`append_block_hashes` always overwrites). So nothing is rolled back for a hash that is
  replaced past a missing block, and a block stored past the end of the batch stays.
  `syncPow_clean` is the condition under which that does no harm, and
  `overwrites_without_rollback` a database where it does.
-/

import Lws.Db.Reorg

namespace Lws.Db

open Lws.Lmdb Lws.Transition

/-- Nothing of the old fork is left at `fork` or above: no account is scanned that far,
    nothing is recorded there, and the blocks above are those of the batch. -/
structure CleanFrom (height : Nat) (hashes : List Hash) (fork : Nat) (db : Storage) : Prop extends Below fork db where
  blocks : ∀ r ∈ db.blocks, fork < r.2.id → height ≤ r.2.id ∧ hashes[r.2.id - height]? = some r.2.hash

/-- Wherever the stored hash has changed, nothing of the old fork is left. -/
def CleanSync (height : Nat) (hashes : List Hash) (db db' : Storage) : Prop :=
  ∀ b ∈ db.blocks, ∀ b' ∈ db'.blocks, b'.2.id = b.2.id → b'.2.hash ≠ b.2.hash → CleanFrom height hashes b.2.id db'

/-- Where the comparison stops at a missing block, a hash that the rest of the batch
    replaces has nothing recorded at its height or above, and no block is stored past the
    end of the batch. -/
def OverwritesClean (height : Nat) (hashes : List Hash) (db : Storage) : Prop :=
  ¬ HasBlock db.blocks (height + agreed db.blocks height hashes) →
    ∀ b ∈ db.blocks, height + agreed db.blocks height hashes < b.2.id →
      ∀ h ∈ hashes[b.2.id - height]?, h ≠ b.2.hash →
        Below b.2.id db ∧ ∀ x ∈ db.blocks, x.2.id < height + hashes.length

instance (height : Nat) (hashes : List Hash) (db : Storage) : Decidable (OverwritesClean height hashes db) :=
  inferInstanceAs (Decidable (¬ HasBlock db.blocks (height + agreed db.blocks height hashes) →
    ∀ b ∈ db.blocks, height + agreed db.blocks height hashes < b.2.id →
      ∀ h ∈ hashes[b.2.id - height]?, h ≠ b.2.hash →
        Below b.2.id db ∧ ∀ x ∈ db.blocks, x.2.id < height + hashes.length))

section Clean

variable {env : Env} {height : Nat} {hashes : List Hash} {pow : List PowSync} {db mid : Storage} {j : Nat}

theorem mem_overwritten {r : Version × BlockInfo} (hj : j ≤ hashes.length) :
    r ∈ appendBlockHashes (height + j) (hashes.drop j) mid.blocks ↔
      (r ∈ mid.blocks ∧ ¬ (height + j ≤ r.2.id ∧ r.2.id < height + hashes.length)) ∨
        (height + j ≤ r.2.id ∧ hashes[r.2.id - height]? = some r.2.hash) := by
  rw [mem_appendBlockHashes_over, List.length_drop, show height + j + (hashes.length - j) = height + hashes.length by omega]
  refine or_congr_right ⟨fun ⟨i, hi, hc⟩ => ?_, fun ⟨hle, hc⟩ => ?_⟩
  · rw [List.getElem?_drop] at hc
    exact ⟨by omega, by rwa [show r.2.id - height = j + i by omega]⟩
  · refine ⟨r.2.id - height - j, by omega, ?_⟩
    rwa [List.getElem?_drop, show j + (r.2.id - height - j) = r.2.id - height by omega]

theorem replaced_by (hj : j ≤ hashes.length) {b b' : Version × BlockInfo} (hb : b ∈ mid.blocks)
    (hb' : b' ∈ appendBlockHashes (height + j) (hashes.drop j) mid.blocks) (hid : b'.2.id = b.2.id)
    (hne : b'.2.hash ≠ b.2.hash) : height + j ≤ b.2.id ∧ hashes[b.2.id - height]? = some b'.2.hash := by
  rcases (mem_overwritten hj).mp hb' with ⟨hold, -⟩ | hnew
  · have he := Table.unique hold hb (rowKey_eq.mpr ⟨rfl, hid⟩)
    exact absurd (by rw [he]) hne
  · rwa [hid] at hnew

/-- Past a missing block nothing but the blocks and the proofs of work changes. -/
theorem clean_overwrite (hj : agreed db.blocks height hashes = j) (hgap : ¬ HasBlock db.blocks (height + j))
    (pows : Pows) :
    CleanSync height hashes db
        { db with blocks := appendBlockHashes (height + j) (hashes.drop j) db.blocks, pows } ↔
      OverwritesClean height hashes db := by
  have hle : j ≤ hashes.length := hj ▸ agreed_le
  have hnot : ∀ b ∈ db.blocks, height + j ≤ b.2.id → height + j < b.2.id := by
    intro b hb hle
    rcases Nat.lt_or_eq_of_le hle with h | h
    · exact h
    · exact absurd ⟨b.2, hb, h.symm⟩ hgap
  unfold CleanSync OverwritesClean
  rw [hj]
  refine ⟨fun hclean _ b hb hlt h hh hne => ?_, fun hsafe b hb b' hb' hid hne => ?_⟩
  · have hnew : (b.1, (⟨b.2.id, h⟩ : BlockInfo)) ∈ appendBlockHashes (height + j) (hashes.drop j) db.blocks :=
      (mem_overwritten hle).mpr (Or.inr ⟨hlt.le, hh⟩)
    have hc := hclean b hb _ hnew rfl hne
    refine ⟨⟨hc.accounts, hc.outputs, hc.spends, hc.events⟩, fun x hx => ?_⟩
    by_contra hpast
    have hlen : b.2.id - height < hashes.length := (List.getElem?_eq_some_iff.mp hh).1
    obtain ⟨-, hx'⟩ := hc.blocks x ((mem_overwritten hle).mpr (Or.inl ⟨hx, fun e => hpast e.2⟩)) (by omega)
    have := (List.getElem?_eq_some_iff.mp hx').1
    omega
  · obtain ⟨hge, hh⟩ := replaced_by hle hb hb' hid hne
    have hlt := hnot b hb hge
    obtain ⟨hbelow, hend⟩ := hsafe hgap b hb hlt _ hh hne
    refine ⟨⟨hbelow.accounts, hbelow.outputs, hbelow.spends, hbelow.events⟩, fun r hr hup => ⟨by omega, ?_⟩⟩
    rcases (mem_overwritten hle).mp hr with ⟨hold, hout⟩ | hnew
    · exact absurd ⟨by omega, hend r hold⟩ hout
    · exact hnew.2

/-- After a rollback to the first hash that differs, nothing of the old fork is left. -/
theorem clean_rewound (hagree : db.Agree env) (hrec : Records db) (hj : agreed db.blocks height hashes = j)
    (hmax : env.maxHeight < height + j) (hrw : Rewound (height + j) db mid)
    (hblocks : mid.blocks = db.blocks.filter fun b => decide (b.2.id < height + j)) (pows : Pows) :
    CleanSync height hashes db
      { mid with blocks := appendBlockHashes (height + j) (hashes.drop j) mid.blocks, pows } := by
  have hle : j ≤ hashes.length := hj ▸ agreed_le
  have hold : ∀ r, r ∈ mid.blocks → r ∈ db.blocks ∧ r.2.id < height + j := by
    intro r hr
    rw [hblocks] at hr
    obtain ⟨hr, hlt⟩ := Table.mem_filter.mp hr
    exact ⟨hr, of_decide_eq_true hlt⟩
  have hbelow := hrw.below hagree hrec (by omega)
  intro b hb b' hb' hid hne
  have hge : height + j ≤ b.2.id := by
    rcases (mem_overwritten hle).mp hb' with ⟨hr, -⟩ | hnew
    · have he := Table.unique (hold b' hr).1 hb (rowKey_eq.mpr ⟨rfl, hid⟩)
      exact absurd (by rw [he]) hne
    · rw [← hid]; exact hnew.1
  have hup := hbelow.mono hge
  refine ⟨⟨hup.accounts, hup.outputs, hup.spends, hup.events⟩, fun r hr hlt => ⟨by omega, ?_⟩⟩
  rcases (mem_overwritten hle).mp hr with ⟨hr, -⟩ | hnew
  · have := (hold r hr).2
    omega
  · exact hnew.2

/-- A successful `sync_pow` leaves nothing of the old fork above a hash it replaced, if
    and only if the hashes it replaced past a missing block had nothing above them. Every
    reached state satisfies `Agree` and `Records` (`agree_reached`, `records_reached`). -/
theorem syncPow_clean {db' : Storage} (hagree : db.Agree env) (hrec : Records db)
    (h : db.syncPow env height hashes pow = .ok db') :
    CleanSync height hashes db db' ↔ OverwritesClean height hashes db := by
  obtain ⟨-, j, mid, hj, -, rfl, hend⟩ := syncPow_ok h
  rcases hend with ⟨rfl, hend⟩ | ⟨x, stored, hx, hst, hne, hmax, hrw, hblocks⟩
  · by_cases hgap : HasBlock mid.blocks (height + j)
    · -- every hash was stored already
      have hnil := hend.resolve_right fun hno => hno hgap
      refine ⟨fun _ hno => absurd (hj ▸ hgap) hno, fun _ b hb b' hb' hid hne => ?_⟩
      obtain ⟨hge, hh⟩ := replaced_by (hj ▸ agreed_le) hb hb' hid hne
      have hlen := List.drop_eq_nil_iff.mp hnil
      rw [List.getElem?_eq_none (by omega)] at hh
      cases hh
    · exact clean_overwrite hj hgap _
  · refine ⟨fun _ hno => absurd ?_ hno, fun _ => clean_rewound hagree hrec hj hmax hrw hblocks _⟩
    rw [hj]
    exact ⟨_, hst, rfl⟩

end Clean

def quickOps : List Op := [.syncChain 2 [102, 103] false]

theorem quickOps_reached : Reached checkpointEnv Honest (Op.runs checkpointEnv quickOps) := reached_runs (by decide)

/-- With no account, block 3 may be replaced. -/
theorem syncPow_clean_replaced :
    ∃ db', (Op.runs checkpointEnv quickOps).syncPow checkpointEnv 0 [100, 101, 102, 203] (samplePow 4) = .ok db' ∧
      CleanSync 0 [100, 101, 102, 203] (Op.runs checkpointEnv quickOps) db' := by
  have hok : ((Op.runs checkpointEnv quickOps).syncPow checkpointEnv 0 [100, 101, 102, 203] (samplePow 4)).isOk = true := by
    decide
  rcases h : (Op.runs checkpointEnv quickOps).syncPow checkpointEnv 0 [100, 101, 102, 203] (samplePow 4) with e | db'
  · rw [h] at hok
    cases hok
  · have hagree := agree_reached quickOps_reached (by decide)
    exact ⟨db', rfl, (syncPow_clean hagree (records_reached quickOps_reached) h).mpr (by decide)⟩

def aheadOps : List Op := [.syncChain 2 [102, 103] false, .addAccount 5 ⟨1007, 50⟩ 7 0]

theorem aheadOps_reached : Reached checkpointEnv Honest (Op.runs checkpointEnv aheadOps) := reached_runs (by decide)

/-- Block 1 is missing, so block 3 is overwritten, and the account stays where it was
    scanned to. -/
theorem overwrites_without_rollback : Reached checkpointEnv Honest (Op.runs checkpointEnv aheadOps) ∧
    ∃ db', (Op.runs checkpointEnv aheadOps).syncPow checkpointEnv 0 [100, 101, 102, 203] (samplePow 4) = .ok db' ∧
      ¬ CleanSync 0 [100, 101, 102, 203] (Op.runs checkpointEnv aheadOps) db' := by
  refine ⟨aheadOps_reached, ?_⟩
  have hok : ((Op.runs checkpointEnv aheadOps).syncPow checkpointEnv 0 [100, 101, 102, 203] (samplePow 4)).isOk = true := by
    decide
  rcases h : (Op.runs checkpointEnv aheadOps).syncPow checkpointEnv 0 [100, 101, 102, 203] (samplePow 4) with e | db'
  · rw [h] at hok
    cases hok
  · refine ⟨db', rfl, fun hclean => ?_⟩
    have hblock : (match (Op.runs checkpointEnv aheadOps).syncPow checkpointEnv 0 [100, 101, 102, 203] (samplePow 4) with
      | .ok db' => decide (((), (⟨3, 203⟩ : BlockInfo)) ∈ db'.blocks) &&
          db'.accounts.rows.any fun r => decide (3 ≤ r.2.scanHeight)
      | .error _ => false) = true := by decide
    rw [h] at hblock
    simp only [Bool.and_eq_true, decide_eq_true_eq, List.any_eq_true] at hblock
    obtain ⟨hnew, r, hr, hle⟩ := hblock
    have hold : ((), (⟨3, 103⟩ : BlockInfo)) ∈ (Op.runs checkpointEnv aheadOps).blocks := by decide
    have := (hclean _ hold _ hnew rfl (show (203 : Nat) ≠ 103 by decide)).accounts r hr
    dsimp only at this
    omega

end Lws.Db
