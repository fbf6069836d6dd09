/-
  Lws.Db.PowProofs — what `append_pow` and `sync_pow` do to the tables.

  `agreed` counts the leading hashes of a batch that are stored as given: that is how far
  `sync_pow` compares. From there on the hashes and the proofs of work are appended, past
  a missing block to the database as it is, and at another hash to the database rolled
  back to that height (`syncPow_ok`).
-/

import Lws.Db.ChainProofs

namespace Lws.Db

open Lws.Lmdb

/-! ## Appending proofs of work -/

/-- A list of proofs of work, with their heights from `first` on. -/
def numberedPow : Nat → List PowSync → List BlockPow
  | _, [] => []
  | first, p :: chain => ⟨first, p.timestamp, p.cumulativeDiff⟩ :: numberedPow (first + 1) chain

theorem appendPowLoop_eq : ∀ (chain : List PowSync) (height : Nat) (buffer : List BlockPow) (pows : Pows),
    appendPowLoop height buffer chain pows = pows.putAllAbsent () (buffer ++ numberedPow height chain) := by
  intro chain
  induction chain with
  | nil => intro height buffer pows; simp [appendPowLoop, bulkInsert_noDup, numberedPow]
  | cons p chain ih =>
    intro height buffer pows
    unfold appendPowLoop
    split
    · rw [ih, bulkInsert_noDup]
      simp [numberedPow, Table.putAllAbsent, List.foldl_append]
    · rw [ih]; simp [numberedPow]

theorem appendPow_eq (first : Nat) (chain : List PowSync) (pows : Pows) :
    appendPow first chain pows = pows.putAllAbsent () (numberedPow first chain) := appendPowLoop_eq chain first [] pows

@[simp] theorem appendPow_nil (first : Nat) (pows : Pows) : appendPow first [] pows = pows := by
  rw [appendPow_eq]; rfl

theorem numberedPow_heights : ∀ (chain : List PowSync) (first height : Nat),
    (∃ p ∈ numberedPow first chain, p.id = height) ↔ first ≤ height ∧ height < first + chain.length := by
  intro chain
  induction chain with
  | nil => intro first height; simp [numberedPow]
  | cons p chain ih =>
    intro first height
    simp only [numberedPow, List.mem_cons, exists_eq_or_imp, ih, List.length_cons]
    omega

def HasPow (pows : Pows) (height : Nat) : Prop := ∃ p, ((), p) ∈ pows ∧ p.id = height

instance (pows : Pows) (height : Nat) : Decidable (HasPow pows height) :=
  decidable_of_iff ((pows.get? () height).isSome = true) (by
    unfold HasPow
    rw [Option.isSome_iff_exists]
    exact exists_congr fun p => Table.get?_eq_some)

theorem hasPow_appendPow {first : Nat} {chain : List PowSync} {pows : Pows} {height : Nat} :
    HasPow (appendPow first chain pows) height ↔ HasPow pows height ∨ (first ≤ height ∧ height < first + chain.length) := by
  unfold HasPow
  rw [appendPow_eq, ← numberedPow_heights chain first height]
  refine ⟨fun ⟨p, hp, he⟩ => ?_, fun h => ?_⟩
  · rcases Table.mem_putAllAbsent hp with hp | ⟨-, hp⟩
    · exact Or.inl ⟨p, hp, he⟩
    · exact Or.inr ⟨p, hp, he⟩
  · rcases h with ⟨p, hp, he⟩ | ⟨p, hp, he⟩
    · exact ⟨p, Table.mem_putAllAbsent_of_mem hp, he⟩
    · obtain ⟨q, hq, hs⟩ := Table.putAllAbsent_stores (t := pows) (k := ()) hp
      exact ⟨q, hq, hs.trans he⟩

theorem hasPow_rolledBack {pows : Pows} {fork height : Nat} :
    HasPow (rolledBackPows fork pows) height ↔ HasPow pows height ∧ (HasPow pows fork → height < fork) := by
  unfold rolledBackPows
  by_cases e : HasPow pows fork
  · obtain ⟨q, hq, hqid⟩ := id e
    rw [Table.get?_eq_some.mpr ⟨hq, hqid⟩]
    unfold HasPow
    simp only [Option.isSome_some, if_true, Table.mem_filter, decide_eq_true_eq]
    constructor
    · rintro ⟨p, ⟨hp, hlt⟩, he⟩
      exact ⟨⟨p, hp, he⟩, fun _ => he ▸ hlt⟩
    · rintro ⟨⟨p, hp, he⟩, hlt⟩
      exact ⟨p, ⟨hp, he ▸ hlt e⟩, he⟩
  · have hnone : pows.get? () fork = none := Table.get?_eq_none.mpr fun p hp he => e ⟨p, hp, he⟩
    rw [hnone]
    exact ⟨fun h => ⟨h, fun hf => absurd hf e⟩, And.left⟩

/-! ## The hashes that are stored -/

def HasBlock (blocks : Blocks) (height : Nat) : Prop := ∃ b, ((), b) ∈ blocks ∧ b.id = height

instance (blocks : Blocks) (height : Nat) : Decidable (HasBlock blocks height) :=
  decidable_of_iff ((blocks.get? () height).isSome = true) (by
    unfold HasBlock
    rw [Option.isSome_iff_exists]
    exact exists_congr fun p => Table.get?_eq_some)

theorem hasBlock_append {first : Nat} {chain : List Hash} {blocks : Blocks} {height : Nat} :
    HasBlock (appendBlockHashes first chain blocks) height ↔
      HasBlock blocks height ∨ (first ≤ height ∧ height < first + chain.length) := by
  unfold HasBlock
  refine ⟨fun ⟨b, hb, hid⟩ => ?_, fun h => ?_⟩
  · rcases mem_appendBlockHashes_over.mp hb with ⟨hb, -⟩ | ⟨i, hi, hc⟩
    · exact Or.inl ⟨b, hb, hid⟩
    · have := (List.getElem?_eq_some_iff.mp hc).1
      dsimp only at hi
      exact Or.inr ⟨by omega, by omega⟩
  · by_cases e : first ≤ height ∧ height < first + chain.length
    · have hget := List.getElem?_eq_getElem (show height - first < chain.length by omega)
      exact ⟨⟨height, _⟩, mem_appendBlockHashes_over.mpr (Or.inr ⟨height - first, by dsimp only; omega, hget⟩), rfl⟩
    · obtain ⟨b, hb, hid⟩ := h.resolve_right e
      exact ⟨b, mem_appendBlockHashes_over.mpr (Or.inl ⟨hb, by dsimp only; rwa [hid]⟩), hid⟩

theorem stored_iff {blocks : Blocks} {height : Nat} {hash : Hash} :
    blocks.get? () height = some ⟨height, hash⟩ ↔ ((), (⟨height, hash⟩ : BlockInfo)) ∈ blocks :=
  Table.get?_eq_some.trans ⟨And.left, fun h => ⟨h, rfl⟩⟩

/-- How many leading hashes are stored from `height` on. -/
def agreed (blocks : Blocks) : Nat → List Hash → Nat
  | _, [] => 0
  | height, h :: chain =>
    if blocks.get? () height = some ⟨height, h⟩ then agreed blocks (height + 1) chain + 1 else 0

theorem agreed_le {blocks : Blocks} : ∀ {hashes : List Hash} {height : Nat}, agreed blocks height hashes ≤ hashes.length := by
  intro hashes
  induction hashes with
  | nil => intro height; exact Nat.le_refl _
  | cons h chain ih =>
    intro height
    unfold agreed
    split
    · exact Nat.succ_le_succ ih
    · exact Nat.zero_le _

theorem agreed_stored {blocks : Blocks} : ∀ {hashes : List Hash} {height i : Nat}, i < agreed blocks height hashes →
    ∃ h, hashes[i]? = some h ∧ ((), ⟨height + i, h⟩) ∈ blocks := by
  intro hashes
  induction hashes with
  | nil => intro height i hi; exact absurd hi (Nat.not_lt_zero _)
  | cons h chain ih =>
    intro height i hi
    unfold agreed at hi
    split at hi
    · rename_i hs
      cases i with
      | zero => exact ⟨h, rfl, stored_iff.mp hs⟩
      | succ i =>
        obtain ⟨x, hx, hm⟩ := ih (show i < agreed blocks (height + 1) chain by omega)
        exact ⟨x, by simpa using hx, by rwa [show height + (i + 1) = height + 1 + i by omega]⟩
    · exact absurd hi (Nat.not_lt_zero _)

/-- The count stops at the first hash that is not stored. -/
theorem agreed_eq {blocks : Blocks} : ∀ {j : Nat} {hashes : List Hash} {height : Nat}, j ≤ hashes.length →
    (∀ i < j, ∃ h, hashes[i]? = some h ∧ ((), (⟨height + i, h⟩ : BlockInfo)) ∈ blocks) →
    (∀ h, hashes[j]? = some h → ((), (⟨height + j, h⟩ : BlockInfo)) ∉ blocks) → agreed blocks height hashes = j := by
  intro j
  induction j with
  | zero =>
    intro hashes height _ _ hend
    cases hashes with
    | nil => rfl
    | cons h chain => exact if_neg fun hs => hend h rfl (stored_iff.mp hs)
  | succ j ih =>
    intro hashes height hle hsame hend
    cases hashes with
    | nil => simp at hle
    | cons h chain =>
      obtain ⟨x, hx, hm⟩ := hsame 0 (Nat.succ_pos j)
      cases hx
      unfold agreed
      rw [if_pos (stored_iff.mpr (show ((), (⟨height, h⟩ : BlockInfo)) ∈ blocks from hm)),
          ih (Nat.le_of_succ_le_succ hle) (fun i hi => ?_) fun y hy => ?_]
      · obtain ⟨y, hy, hm'⟩ := hsame (i + 1) (by omega)
        exact ⟨y, by simpa using hy, by rwa [show height + 1 + i = height + (i + 1) by omega]⟩
      · rw [show height + 1 + j = height + (j + 1) by omega]
        exact hend y (by simpa using hy)

/-- The height at which `sync_pow` finds another hash stored. -/
def powFork (blocks : Blocks) (height : Nat) (hashes : List Hash) : Option Nat :=
  let j := agreed blocks height hashes
  if j < hashes.length ∧ HasBlock blocks (height + j) then some (height + j) else none

/-! ## What `sync_pow` does -/

theorem syncPowLoop_ok {env : Env} {db : Storage} : ∀ (chain : List Hash) {cur : Cursor Version BlockInfo.id}
    {current : Nat} {b : Version × BlockInfo} {db' : Storage} {current' : Nat} {chain' : List Hash},
    cur.table = db.blocks → cur.gone = none → cur.row? = some b → b.2.id + 1 = current →
    syncPowLoop env db cur current chain = .ok (db', current', chain') →
    ∃ j, current' = current + j ∧ chain' = chain.drop j ∧ j ≤ chain.length ∧
      (∀ i < j, ∃ h, chain[i]? = some h ∧ ((), ⟨current + i, h⟩) ∈ db.blocks) ∧
      ((db' = db ∧ (chain' = [] ∨ ¬ HasBlock db.blocks current')) ∨
        ∃ h stored, chain[j]? = some h ∧ ((), ⟨current', stored⟩) ∈ db.blocks ∧ stored ≠ h ∧
          env.maxHeight < current' ∧ Rewound current' db db' ∧
          db'.blocks = db.blocks.filter fun x => decide (x.2.id < current')) := by
  intro chain
  induction chain with
  | nil =>
    intro cur current b db' current' chain' _ _ _ _ h
    cases h
    exact ⟨0, rfl, rfl, Nat.le_refl _, fun i hi => absurd hi (Nat.not_lt_zero _), Or.inl ⟨rfl, Or.inl rfl⟩⟩
  | cons hash chain ih =>
    intro cur current b db' current' chain' ht hg hr hcur h
    unfold syncPowLoop at h
    split at h
    · cases h
    · rcases nextDup_row hg hr with ⟨hnone, hlast⟩ | ⟨cur', n, hsome, ht', hg', hr', hn, hlt, hgap⟩
      · rw [hnone] at h
        cases h
        refine ⟨0, rfl, rfl, Nat.zero_le _, fun i hi => absurd hi (Nat.not_lt_zero _), Or.inl ⟨rfl, Or.inr ?_⟩⟩
        rintro ⟨x, hx, hid⟩
        have := hlast ((), x) (ht ▸ hx)
        dsimp only at this
        omega
      · simp only [hsome, hr'] at h
        rw [ht] at ht' hn hgap
        split at h
        · rename_i hne
          cases h
          refine ⟨0, rfl, rfl, Nat.zero_le _, fun i hi => absurd hi (Nat.not_lt_zero _), Or.inl ⟨rfl, Or.inr ?_⟩⟩
          rintro ⟨x, hx, hid⟩
          have := hgap ((), x) hx
          dsimp only at this
          omega
        · rename_i hid
          rw [not_not] at hid
          have hnid : n = ((), ⟨current, n.2.hash⟩) := by
            rw [← hid]
          split at h
          · rename_i hne
            split at h
            · cases h
            · rename_i hmax
              obtain ⟨db₁, hrb, h⟩ := bind_ok.mp h
              cases h
              refine ⟨0, rfl, rfl, Nat.zero_le _, fun i hi => absurd hi (Nat.not_lt_zero _), Or.inr ?_⟩
              obtain ⟨hrw, hblocks⟩ := rollbackChain_ok ht' hg' hr' hrb
              rw [hid] at hblocks
              exact ⟨hash, n.2.hash, rfl, hnid ▸ hn, hne, by omega, hrw, hblocks⟩
          · rename_i heq
            rw [not_not] at heq
            obtain ⟨j, hj, hdrop, hlen, hsame, hend⟩ := ih ht' hg' hr' (by omega) h
            refine ⟨j + 1, by omega, by simpa using hdrop, Nat.succ_le_succ hlen, fun i hi => ?_, ?_⟩
            · cases i with
              | zero => exact ⟨hash, rfl, by rw [← heq]; exact hnid ▸ hn⟩
              | succ i =>
                obtain ⟨x, hx, hm⟩ := hsame i (by omega)
                exact ⟨x, by simpa using hx, by rwa [show current + (i + 1) = current + 1 + i by omega]⟩
            · simpa using hend

variable {env : Env} {height : Nat} {hashes : List Hash} {pow : List PowSync} {db db' : Storage}

/-- The hashes that are stored are passed over. The rest is appended, past a missing
    block, or to the database rolled back to the first hash that differs. -/
theorem syncPow_ok (h : db.syncPow env height hashes pow = .ok db') :
    hashes.length = pow.length ∧ ∃ j mid, agreed db.blocks height hashes = j ∧ 0 < j ∧
      db' = { mid with
        blocks := appendBlockHashes (height + j) (hashes.drop j) mid.blocks
        pows := appendPow (height + j) (pow.drop j) mid.pows } ∧
      ((mid = db ∧ (hashes.drop j = [] ∨ ¬ HasBlock db.blocks (height + j))) ∨
        ∃ x stored, hashes[j]? = some x ∧ ((), ⟨height + j, stored⟩) ∈ db.blocks ∧ stored ≠ x ∧
          env.maxHeight < height + j ∧ Rewound (height + j) db mid ∧
          mid.blocks = db.blocks.filter fun b => decide (b.2.id < height + j)) := by
  unfold Storage.syncPow at h
  split at h
  · cases h
  · rename_i first chain
    split at h
    · cases h
    · rename_i hlen
      obtain ⟨hash, hhash, h⟩ := bind_ok.mp h
      split at h
      · cases h
      · rename_i heq
        have hfirst := getBlockHash_ok hhash
        rw [not_not.mp heq] at hfirst
        split at h
        · cases h
        · rename_i cur hcur
          obtain ⟨ht, hg, v, hrow, hv, hid⟩ := getBoth_some hcur
          obtain ⟨⟨mid, current, rest⟩, hloop, h⟩ := bind_ok.mp h
          dsimp only at h
          split at h
          · cases h
          · cases h
            obtain ⟨j, rfl, rfl, hj, hsame, hend⟩ := syncPowLoop_ok chain ht hg hrow (by rw [← hid]) hloop
            have hcount : agreed db.blocks height (first :: chain) = j + 1 := by
              refine agreed_eq (Nat.succ_le_succ hj) (fun i hi => ?_) fun x hx hm => ?_
              · cases i with
                | zero => exact ⟨first, rfl, hfirst⟩
                | succ i =>
                  obtain ⟨x, hx, hm⟩ := hsame i (by omega)
                  exact ⟨x, by simpa using hx, by rwa [show height + (i + 1) = height + 1 + i by omega]⟩
              · rw [List.getElem?_cons_succ] at hx
                rw [show height + (j + 1) = height + 1 + j by omega] at hm
                rcases hend with ⟨-, hnil | hno⟩ | ⟨y, stored, hy, hst, hne, -⟩
                · rw [List.getElem?_eq_none (List.drop_eq_nil_iff.mp hnil)] at hx
                  cases hx
                · exact hno ⟨_, hm, rfl⟩
                · have he := Table.unique_val hst hm rfl
                  cases hx.symm.trans hy
                  exact hne (congrArg BlockInfo.hash he)
            refine ⟨by simpa using hlen, j + 1, mid, hcount, Nat.succ_pos j, ?_, ?_⟩
            · have hskip : chain.length + 1 - (chain.drop j).length = j + 1 := by rw [List.length_drop]; omega
              rw [show height + (j + 1) = height + 1 + j by omega, hskip]; rfl
            · rw [show height + (j + 1) = height + 1 + j by omega]
              rcases hend with hend | ⟨x, stored, hx, hrest⟩
              · exact Or.inl hend
              · exact Or.inr ⟨x, stored, by simpa using hx, hrest⟩

/-- Nothing but blocks and proofs of work is added, or the database is rolled back to
    where the hashes differ and then they are. -/
theorem syncPow_cases (h : db.syncPow env height hashes pow = .ok db') :
    (powFork db.blocks height hashes = none ∧ ∃ blocks pows, db' = { db with blocks, pows }) ∨
      ∃ fork mid blocks pows, powFork db.blocks height hashes = some fork ∧ Rewound fork db mid ∧
        db' = { mid with blocks, pows } := by
  obtain ⟨-, j, mid, hj, -, rfl, hend⟩ := syncPow_ok h
  unfold powFork
  rw [hj]
  rcases hend with ⟨rfl, hend⟩ | ⟨x, stored, hx, hst, -, -, hrw, -⟩
  · refine Or.inl ⟨if_neg fun e => ?_, _, _, rfl⟩
    rcases hend with hend | hend
    · have := List.drop_eq_nil_iff.mp hend
      omega
    · exact hend e.2
  · exact Or.inr ⟨height + j, mid, _, _, if_pos ⟨(List.getElem?_eq_some_iff.mp hx).1, _, hst, rfl⟩, hrw, rfl⟩

end Lws.Db
