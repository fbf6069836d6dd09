/-
  Lws.Scanner.PowBatches — the verification of a block does not depend on the batch it is
  in, for batches that start high enough.

  Verifying block h + 1 should take the hash of block h, and the windows of the last
  blocks up to h, wherever the batch started. It does for a batch that starts at
  `BLOCKCHAIN_TIMESTAMP_CHECK_WINDOW` or above and meets difficulties in the database
  that follow from the rows before them (`uniform_iff`). Below, a batch pushes timestamps
  for a median that has none at its start, and a batch from genesis leaves genesis out of
  the difficulty window where every other batch has it in. `scanner::loop` compares block 1
  with itself when a reply starts there.
-/

import Lws.Db.Pows
import Lws.Scanner.PowCheck

namespace Lws.Scanner

open Lws.Db Lws.Window

/-! ## A chain and its rows -/

structure Chain where
  block : Nat → PowBlock
  linked : ∀ k, (block (k + 1)).prevId = (block k).hash
  distinct : ∀ k, (block (k + 1)).hash ≠ (block k).hash

/-- The blocks up to `t` are stored, with proofs of work. -/
structure Stored (db : Storage) (chain : Chain) (rows : Nat → BlockPow) (t : Nat) : Prop where
  pows : ∀ k ≤ t, db.pows.get? () k = some (rows k)
  timestamps : ∀ k ≤ t, 0 < k → (rows k).timestamp = (chain.block k).timestamp
  blocks : ∀ k ≤ t, getBlockHash db.blocks k = .ok (chain.block k).hash

def Chain.fetched (chain : Chain) (first last : Nat) : Fetched :=
  ⟨first, chain.block first, (List.range' (first + 1) (last - first)).map chain.block⟩

/-- The batch before block `h + 1` is verified. -/
def Chain.stateAt (chain : Chain) (env : PowEnv) (db : Storage) (path : Path) (first last h : Nat) :
    Except Error Batch := do
  let b ← path.openBatch env.toPowConsts db (chain.fetched first last)
  .ok (((path.blocks (chain.fetched first last)).take (h - b.start)).foldl (·.push env) b)

def lastRows (rows : Nat → BlockPow) (n h : Nat) : List BlockPow := (List.range' (h + 1 - n) (min n (h + 1))).map rows

def required (env : PowEnv) (rows : Nat → BlockPow) (h : Nat) : Nat :=
  env.nextDifficulty ((lastRows rows env.difficultyBlocksCount h).map (·.timestamp))
    ((lastRows rows env.difficultyBlocksCount h).map (·.cumulativeDiff.getDifficulty)) (env.targetTime (h + 1))

/-- The difficulty that is stored after `k` is what the rows up to `k` require. -/
def RowFollows (env : PowEnv) (rows : Nat → BlockPow) (k : Nat) : Prop :=
  (rows (k + 1)).cumulativeDiff.getDifficulty = add128 (required env rows k) (rows k).cumulativeDiff.getDifficulty

/-! ## What a block is verified with -/

def SameOffset (a b : List Nat) : Prop := ∃ i j, a.map (· + i) = b.map (· + j)

structure SameView (consts : PowConsts) (a b : Batch) : Prop where
  prev : a.hashes.getLast? = b.hashes.getLast?
  timestamps : (trimmed consts a.window).powTimestamps = (trimmed consts b.window).powTimestamps
  diffs : SameOffset (trimmed consts a.window).cumulativeDiffs (trimmed consts b.window).cumulativeDiffs
  medians : (trimmed consts a.window).medianTimestamps = (trimmed consts b.window).medianTimestamps

/-- The windows of the last blocks up to `h`. There is none above genesis alone, and no
    median of fewer blocks than it is over. -/
def lastWindow (consts : PowConsts) (rows : Nat → BlockPow) (h : Nat) : PowWindow :=
  let last := if h = 0 then [] else lastRows rows consts.difficultyBlocksCount h
  let checks := if h < consts.timestampCheckWindow then [] else lastRows rows consts.timestampCheckWindow h
  ⟨last.map (·.timestamp), last.map (·.cumulativeDiff.getDifficulty), checks.map (·.timestamp)⟩

structure LastBlocks (consts : PowConsts) (chain : Chain) (rows : Nat → BlockPow) (h : Nat) (b : Batch) : Prop where
  prev : b.hashes.getLast? = some (chain.block h).hash
  timestamps : (trimmed consts b.window).powTimestamps = (lastWindow consts rows h).powTimestamps
  diffs : SameOffset (trimmed consts b.window).cumulativeDiffs (lastWindow consts rows h).cumulativeDiffs
  medians : (trimmed consts b.window).medianTimestamps = (lastWindow consts rows h).medianTimestamps

/-- Every block of the batch is verified with the last blocks, as by a batch that starts
    right before it, and with the same outcome. -/
def Uniform (env : PowEnv) (db : Storage) (chain : Chain) (rows : Nat → BlockPow) (path : Path) (first last : Nat) :
    Prop :=
  ∀ h, path.base first ≤ h → h < last → ∃ b ref,
    chain.stateAt env db path first last h = .ok b ∧ chain.stateAt env db .syncFull h (h + 1) h = .ok ref ∧
      SameView env.toPowConsts b ref ∧ LastBlocks env.toPowConsts chain rows h b ∧
      ∀ floor block, b.verify env db floor block = ref.verify env db floor block

/-! ## The start of a batch -/

section Start

variable {env : PowEnv} {db : Storage} {chain : Chain} {rows : Nat → BlockPow} {t : Nat}

/-- Rows that are found are those of the chain. -/
theorem rowsOf_eq (hst : Stored db chain rows t) {next last : Nat} {l : List BlockPow} (h : RowsOf db.pows next last l)
    (hlast : last ≤ t) : l = (List.range' next (last + 1 - next)).map rows := by
  obtain ⟨hids, hmem⟩ := h
  have hrow : ∀ p ∈ l, rows p.id = p := by
    intro p hp
    have hin : p.id ∈ List.range' next (last + 1 - next) := by
      rw [← hids]
      exact List.mem_map_of_mem hp
    rw [List.mem_range'_1] at hin
    have hget := Lmdb.Table.get?_eq_some.mp (hst.pows p.id (by omega))
    exact Lmdb.Table.unique_val hget.1 (hmem p hp) hget.2
  rw [← hids, List.map_map]
  exact ((List.map_congr_left hrow).trans (List.map_id l)).symm

/-- The first row of the difficulty window of a batch from `base`, were it not trimmed. -/
def windowFirst (base : Nat) : Nat := if base = 0 then 1 else 0

def medianFirst (consts : PowConsts) (base : Nat) : Nat := if base < consts.timestampCheckWindow then base + 1 else 0

def rowsTo (rows : Nat → BlockPow) (a h : Nat) : List BlockPow := (List.range' a (h + 1 - a)).map rows

theorem rowsTo_succ {a h : Nat} (ha : a ≤ h + 1) : rowsTo rows a (h + 1) = rowsTo rows a h ++ [rows (h + 1)] := by
  unfold rowsTo
  rw [show h + 1 + 1 - a = h + 1 - a + 1 by omega, List.range'_concat, List.map_append, List.map_singleton,
    show a + 1 * (h + 1 - a) = h + 1 by omega]

theorem trim_rowsTo (n h : Nat) : trim n (rowsTo rows 0 h) = lastRows rows n h := by
  unfold rowsTo lastRows
  rw [trim_map, trim_range, Nat.zero_add, Nat.sub_zero]

theorem length_trim_rowsTo (n a h : Nat) : (trim n (rowsTo rows a h)).length = min n (h + 1 - a) := by
  rw [length_trim, rowsTo, List.length_map, List.length_range']

theorem getPowWindow_zero (consts : PowConsts) : db.getPowWindow consts 0 = .ok ⟨[], [], []⟩ := if_pos rfl

/-- There is no median at a low block. -/
theorem getPowWindow_median {consts : PowConsts} {base : Nat} {w : PowWindow} (h : db.getPowWindow consts base = .ok w)
    (hlow : base < consts.timestampCheckWindow) : w.medianTimestamps = [] := by
  unfold Storage.getPowWindow at h
  split at h
  · cases h
    rfl
  · obtain ⟨found, -, h⟩ := bind_ok.mp h
    cases h
    rfl

/-- What `get_pow_window` has, once it is trimmed. -/
theorem getPowWindow_trimmed (hst : Stored db chain rows t) (consts : PowConsts) {base : Nat} (hbase : base ≤ t) :
    ∃ w, db.getPowWindow consts base = .ok w ∧
      trim consts.difficultyBlocksCount w.powTimestamps =
        (trim consts.difficultyBlocksCount (rowsTo rows (windowFirst base) base)).map (·.timestamp) ∧
      trim consts.difficultyBlocksCount w.cumulativeDiffs =
        (trim consts.difficultyBlocksCount (rowsTo rows (windowFirst base) base)).map (·.cumulativeDiff.getDifficulty) ∧
      trim consts.timestampCheckWindow w.medianTimestamps =
        (trim consts.timestampCheckWindow (rowsTo rows (medianFirst consts base) base)).map (·.timestamp) := by
  have hcount := consts.count_pos
  have hwindow := consts.window_pos
  have hhas : ∀ height ≤ base, HasPow db.pows height := fun height hle => by
    have hget := Lmdb.Table.get?_eq_some.mp (hst.pows height (hle.trans hbase))
    exact ⟨_, hget.1, hget.2⟩
  obtain ⟨found, checks, hfound, hchecks, hok⟩ := getPowWindow_ok consts hhas
  have hdiff : trim consts.difficultyBlocksCount found =
      trim consts.difficultyBlocksCount (rowsTo rows (windowFirst base) base) := by
    rcases Nat.eq_zero_or_pos base with rfl | hpos
    · -- nothing is read at genesis
      have hnil := hok.symm.trans (getPowWindow_zero consts)
      have hmap := congrArg PowWindow.powTimestamps (Except.ok.inj hnil)
      rw [List.map_eq_nil_iff.mp hmap]
      rfl
    · have hfirst : windowFirst base = 0 := if_neg (by omega)
      rw [rowsOf_eq hst (hfound hpos) hbase, hfirst, rowsTo, trim_map, trim_map]
      congr 1
      unfold PowConsts.windowStart
      split
      · exact trim_range_eq (by omega) (by omega) (by omega)
      · rfl
  have hmed : trim consts.timestampCheckWindow checks =
      trim consts.timestampCheckWindow (rowsTo rows (medianFirst consts base) base) := by
    by_cases hlow : base < consts.timestampCheckWindow
    · have hfirst : medianFirst consts base = base + 1 := if_pos hlow
      have hmap := getPowWindow_median hok hlow
      rw [List.map_eq_nil_iff.mp hmap, hfirst, rowsTo, Nat.sub_self]
      rfl
    · have hfirst : medianFirst consts base = 0 := if_neg hlow
      rw [rowsOf_eq hst (hchecks (by omega)) hbase, hfirst, rowsTo, trim_map, trim_map]
      congr 1
      exact trim_range_eq (by omega) (by omega) (by omega)
  refine ⟨_, hok, ?_, ?_, ?_⟩
  · rw [trim_map, hdiff]
  · rw [trim_map, hdiff]
  · rw [trim_map, hmed]

end Start

/-! ## Pushing blocks -/

structure Reaches (env : PowEnv) (chain : Chain) (rows : Nat → BlockPow) (front : Hash) (base h : Nat) (b : Batch) :
    Prop where
  start : b.start = base
  height : b.height = h
  hashes : b.hashes = front :: (List.range' (base + 1) (h - base)).map fun k => (chain.block k).hash
  timestamps : trim env.difficultyBlocksCount b.window.powTimestamps =
    (trim env.difficultyBlocksCount (rowsTo rows (windowFirst base) h)).map (·.timestamp)
  medians : trim env.timestampCheckWindow b.window.medianTimestamps =
    (trim env.timestampCheckWindow (rowsTo rows (medianFirst env.toPowConsts base) h)).map (·.timestamp)

section Push

variable {env : PowEnv} {db : Storage} {chain : Chain} {rows : Nat → BlockPow} {t : Nat} {front : Hash} {base h : Nat}
    {b : Batch}

theorem trim_push (n : Nat) {α : Type} (f : BlockPow → α) {l : List α} {a : Nat} (ha : a ≤ h + 1)
    (hl : trim n l = (trim n (rowsTo rows a h)).map f) {x : α} (hx : f (rows (h + 1)) = x) :
    trim n (trim n l ++ [x]) = (trim n (rowsTo rows a (h + 1))).map f := by
  rw [hl, ← trim_map, trim_trim_append, rowsTo_succ ha, ← trim_map, List.map_append, List.map_singleton, hx]

theorem Reaches.push (hb : Reaches env chain rows front base h b) (hst : Stored db chain rows t) (hbase : base ≤ h)
    (ht : h + 1 ≤ t) : Reaches env chain rows front base (h + 1) (b.push env (chain.block (h + 1))) := by
  have hstamp := hst.timestamps (h + 1) ht (Nat.succ_pos h)
  refine ⟨hb.start, congrArg (· + 1) hb.height, ?_, ?_, ?_⟩
  · show b.hashes ++ [(chain.block (h + 1)).hash] = _
    rw [hb.hashes, show h + 1 - base = h - base + 1 by omega, List.range'_concat, List.map_append, List.map_singleton,
      show base + 1 + 1 * (h - base) = h + 1 by omega, List.cons_append]
  · refine trim_push _ (·.timestamp) ?_ hb.timestamps hstamp
    unfold windowFirst
    split <;> omega
  · refine trim_push _ (·.timestamp) ?_ hb.medians hstamp
    unfold medianFirst
    split <;> omega

/-- The blocks that are verified are those after the base. -/
theorem blocks_fetched (path : Path) {first last : Nat} (hlt : first < last) :
    path.blocks (chain.fetched first last) = (List.range' (path.base first + 1) (last - path.base first)).map chain.block := by
  cases path with
  | syncFull => rfl
  | loop =>
    by_cases hone : first = 1
    · subst hone
      show chain.block 1 :: (List.range' 2 (last - 1)).map chain.block = (List.range' 1 last).map chain.block
      rw [show last = last - 1 + 1 by omega, List.range'_succ]
      rfl
    · simp [Path.blocks, Path.base, Chain.fetched, hone]

def Follows (env : PowEnv) (rows : Nat → BlockPow) (base h : Nat) (b : Batch) : Prop :=
  trim env.difficultyBlocksCount b.window.cumulativeDiffs =
    (trim env.difficultyBlocksCount (rowsTo rows (windowFirst base) h)).map (·.cumulativeDiff.getDifficulty)

/-- A batch at its start. -/
theorem stateAt_base (hst : Stored db chain rows t) {path : Path} {first last : Nat} (hbase : path.base first ≤ t) :
    ∃ b, chain.stateAt env db path first last (path.base first) = .ok b ∧
      Reaches env chain rows (chain.block first).hash (path.base first) (path.base first) b ∧
      Follows env rows (path.base first) (path.base first) b := by
  obtain ⟨w, hok, hstamps, hdiffs, hmedians⟩ := getPowWindow_trimmed hst env.toPowConsts hbase
  refine ⟨⟨path.base first, path.base first, [(chain.block first).hash], w⟩, ?_, ⟨rfl, rfl, ?_, hstamps, hmedians⟩, hdiffs⟩
  · simp only [Chain.stateAt, Path.openBatch, Chain.fetched, hok, bind, Except.bind, Nat.sub_self, List.take_zero,
      List.foldl_nil]
  · rw [Nat.sub_self]
    rfl

/-- One block further. -/
theorem stateAt_succ {path : Path} {first last : Nat} (hlt : first < last) (hbase : path.base first ≤ h)
    (hlast : h < last) (hb : chain.stateAt env db path first last h = .ok b) :
    chain.stateAt env db path first last (h + 1) = .ok (b.push env (chain.block (h + 1))) := by
  obtain ⟨b₀, hopen, hb⟩ := bind_ok.mp hb
  have hstart : b₀.start = path.base first := by
    obtain ⟨w, -, hw⟩ := bind_ok.mp hopen
    cases hw
    rfl
  have hblocks : ∀ n ≤ last - path.base first, (path.blocks (chain.fetched first last)).take n =
      (List.range' (path.base first + 1) n).map chain.block := by
    intro n hn
    rw [blocks_fetched path hlt, ← List.map_take, List.take_range'_of_length_ge hn]
  have hnext : path.base first + 1 + 1 * (h - path.base first) = h + 1 := by omega
  rw [hstart, hblocks _ (by omega)] at hb
  unfold Chain.stateAt
  simp only [hopen, bind, Except.bind]
  rw [hstart, hblocks _ (by omega), show h + 1 - path.base first = h - path.base first + 1 by omega, List.range'_concat, hnext,
    List.map_append, List.foldl_append, Except.ok.inj hb]
  rfl

/-- The batch at any of its blocks. -/
theorem stateAt_reaches (hst : Stored db chain rows t) {path : Path} {first last : Nat} (hlt : first < last)
    (hlast : last ≤ t) (hbase : path.base first ≤ h) (hh : h ≤ last) :
    ∃ b, chain.stateAt env db path first last h = .ok b ∧
      Reaches env chain rows (chain.block first).hash (path.base first) h b := by
  induction h, hbase using Nat.le_induction with
  | base =>
    obtain ⟨b, hok, hb, -⟩ := @stateAt_base env db chain rows t hst path first last (by omega)
    exact ⟨b, hok, hb⟩
  | succ h hle ih =>
    obtain ⟨b, hok, hb⟩ := ih (by omega)
    exact ⟨_, stateAt_succ hlt hle (by omega) hok, hb.push hst hle (by omega)⟩

theorem windowFirst_pos (hpos : 0 < base) : windowFirst base = 0 := if_neg (by omega)

theorem getLast?_rowsTo (h : Nat) : (rowsTo rows 0 h).getLast? = some (rows h) := by
  cases h with
  | zero => rfl
  | succ h => rw [rowsTo_succ (Nat.zero_le _), List.getLast?_concat]

theorem Reaches.difficulty (hb : Reaches env chain rows front base h b) (hf : Follows env rows base h b)
    (hpos : 0 < base) :
    b.difficulty env = required env rows h := by
  have hstamps := hb.timestamps
  have hdiffs : trim env.difficultyBlocksCount b.window.cumulativeDiffs = _ := hf
  rw [windowFirst_pos hpos, trim_rowsTo] at hstamps hdiffs
  simp only [Batch.difficulty, trimmed, required, hstamps, hdiffs, hb.height]

/-- The cumulative difficulties after the next block. -/
theorem Reaches.push_diffs (hb : Reaches env chain rows front base h b) (hf : Follows env rows base h b)
    (hpos : 0 < base) (block : PowBlock) :
    trim env.difficultyBlocksCount (b.push env block).window.cumulativeDiffs =
      trim env.difficultyBlocksCount ((rowsTo rows 0 h).map (·.cumulativeDiff.getDifficulty) ++
        [add128 (required env rows h) (rows h).cumulativeDiff.getDifficulty]) := by
  have hdiffs : trim env.difficultyBlocksCount b.window.cumulativeDiffs = _ := hf
  rw [windowFirst_pos hpos, ← trim_map] at hdiffs
  have hlast : (trim env.difficultyBlocksCount b.window.cumulativeDiffs).getLast? =
      some (rows h).cumulativeDiff.getDifficulty := by
    rw [hdiffs, getLast?_trim env.count_pos, List.getLast?_map, getLast?_rowsTo]
    rfl
  show trim _ (trim _ _ ++ [add128 (b.difficulty env) ((trim _ _).getLast?.getD 0)]) = _
  rw [hlast, hb.difficulty hf hpos, hdiffs, trim_trim_append]
  rfl

theorem rowsTo_diffs_succ (h : Nat) : (rowsTo rows 0 (h + 1)).map (·.cumulativeDiff.getDifficulty) =
    (rowsTo rows 0 h).map (·.cumulativeDiff.getDifficulty) ++ [(rows (h + 1)).cumulativeDiff.getDifficulty] := by
  rw [rowsTo_succ (Nat.zero_le _), List.map_append, List.map_singleton]

theorem Follows.push (hb : Reaches env chain rows front base h b) (hf : Follows env rows base h b) (hpos : 0 < base)
    (hrow : RowFollows env rows h) (block : PowBlock) : Follows env rows base (h + 1) (b.push env block) := by
  unfold RowFollows at hrow
  unfold Follows
  rw [hb.push_diffs hf hpos, windowFirst_pos hpos, ← trim_map, rowsTo_diffs_succ, hrow]

/-- Equal but for an offset, and equal before the last entry. -/
theorem SameOffset.last_eq {l : List Nat} {x y : Nat} (h : SameOffset (l ++ [x]) (l ++ [y])) (hl : l ≠ []) : x = y := by
  obtain ⟨i, j, h⟩ := h
  rw [List.map_append, List.map_append] at h
  obtain ⟨hfront, hlast⟩ := List.append_inj h (by rw [List.length_map, List.length_map])
  obtain ⟨z, hz⟩ := List.exists_mem_of_ne_nil l hl
  have hij : z + i = z + j := List.map_inj_left.mp hfront z hz
  have hxy : x + i = y + j := by simpa using hlast
  omega

/-- The next row is what the batch makes it, if the two agree but for an offset. -/
theorem Reaches.row_eq (hcount : 2 ≤ env.difficultyBlocksCount) (hb : Reaches env chain rows front base h b)
    (hf : Follows env rows base h b) (hpos : 0 < base) {block : PowBlock}
    (hsame : SameOffset (trim env.difficultyBlocksCount (b.push env block).window.cumulativeDiffs)
      ((lastRows rows env.difficultyBlocksCount (h + 1)).map (·.cumulativeDiff.getDifficulty))) : RowFollows env rows h := by
  obtain ⟨n, hn⟩ : ∃ n, env.difficultyBlocksCount = n + 1 := ⟨env.difficultyBlocksCount - 1, by omega⟩
  rw [hb.push_diffs hf hpos, ← trim_rowsTo, ← trim_map, rowsTo_diffs_succ, hn, trim_concat, trim_concat] at hsame
  refine (hsame.last_eq fun hnil => ?_).symm
  have hlen := congrArg List.length hnil
  rw [trim_map, List.length_map, length_trim_rowsTo, List.length_nil] at hlen
  omega

/-! ## The next block -/

theorem Reaches.hashes_eq (hb : Reaches env chain rows (chain.block base).hash base h b) (hbase : base ≤ h) :
    b.hashes = (List.range' base (h + 1 - base)).map fun k => (chain.block k).hash := by
  rw [hb.hashes, show h + 1 - base = h - base + 1 by omega, List.range'_succ, List.map_cons]

theorem Reaches.prev (hb : Reaches env chain rows (chain.block base).hash base h b) (hbase : base ≤ h) :
    b.hashes.getLast? = some (chain.block h).hash := by
  rw [hb.hashes_eq hbase, show h + 1 - base = h - base + 1 by omega, List.range'_concat, List.map_append, List.map_singleton,
    List.getLast?_concat, show base + 1 * (h - base) = h by omega]

/-- The seed is in the batch or stored. -/
theorem Reaches.seed (hb : Reaches env chain rows (chain.block base).hash base h b) (hst : Stored db chain rows t)
    (hbase : base ≤ h) (ht : h ≤ t) :
    seedHash env db (b.height + 1) b.start b.hashes = .ok (chain.block (env.rxSeedheight (h + 1))).hash := by
  have hseed := env.seed_le h
  rw [hb.height, hb.start, hb.hashes_eq hbase]
  unfold seedHash
  rw [if_neg (Nat.succ_ne_zero h)]
  dsimp only
  split
  · rename_i hle
    have hlt : env.rxSeedheight (h + 1) - base < h + 1 - base := by omega
    rw [List.getElem?_map, List.getElem?_range' hlt]
    simp only [Option.map_some, Nat.one_mul, show base + (env.rxSeedheight (h + 1) - base) = env.rxSeedheight (h + 1) by omega]
  · exact hst.blocks _ (by omega)

/-- A batch is looked at through its last hash, its height, its windows and its seed. -/
theorem verify_congr {b' : Batch} (hprev : b.hashes.getLast? = b'.hashes.getLast?) (hheight : b.height = b'.height)
    (hwindow : trimmed env.toPowConsts b.window = trimmed env.toPowConsts b'.window)
    (hseed : seedHash env db (b.height + 1) b.start b.hashes = seedHash env db (b'.height + 1) b'.start b'.hashes)
    (floor : Nat) (block : PowBlock) : b.verify env db floor block = b'.verify env db floor block := by
  have hdiff : b.difficulty env = b'.difficulty env := by
    simp only [Batch.difficulty, hwindow, hheight]
  have hpow : getBlockLonghash env db block (b.height + 1) b.start b.hashes =
      getBlockLonghash env db block (b'.height + 1) b'.start b'.hashes := by
    simp only [getBlockLonghash, hseed]
    rw [hheight]
  simp only [Batch.verify, hprev, hwindow, hdiff, hpow]
  rw [hheight]

/-- The batch starts high enough for its blocks up to `h`. -/
def HighEnough (consts : PowConsts) (base h : Nat) : Prop := consts.timestampCheckWindow ≤ base ∨ base = h

theorem Reaches.window_eq (hb : Reaches env chain rows front base h b) (hf : Follows env rows base h b)
    (hbase : base ≤ h)
    (hhigh : HighEnough env.toPowConsts base h) : trimmed env.toPowConsts b.window = lastWindow env.toPowConsts rows h := by
  have hwindow := env.window_pos
  have hempty : ∀ n, trim n (rowsTo rows (h + 1) h) = [] := by
    intro n
    rw [← List.length_eq_zero_iff, length_trim_rowsTo]
    omega
  have hrows : trim env.difficultyBlocksCount (rowsTo rows (windowFirst base) h) =
      if h = 0 then [] else lastRows rows env.difficultyBlocksCount h := by
    by_cases hzero : h = 0
    · subst hzero
      rw [Nat.le_zero.mp hbase]
      exact hempty _
    · have hpos : 0 < base := by
        rcases hhigh with hle | rfl <;> omega
      rw [windowFirst_pos hpos, trim_rowsTo, if_neg hzero]
  have hmedians : trim env.timestampCheckWindow (rowsTo rows (medianFirst env.toPowConsts base) h) =
      if h < env.timestampCheckWindow then [] else lastRows rows env.timestampCheckWindow h := by
    unfold medianFirst
    split
    · rename_i hlow
      have heq : base = h := hhigh.resolve_left (by omega)
      rw [if_pos (heq ▸ hlow), heq]
      exact hempty _
    · rename_i hlow
      rw [if_neg (show ¬h < env.timestampCheckWindow by omega), trim_rowsTo]
  unfold trimmed lastWindow
  rw [hb.timestamps, hf, hb.medians, hrows, hmedians]

theorem SameOffset.refl (l : List Nat) : SameOffset l l := ⟨0, 0, rfl⟩

end Push

/-! ## A whole batch -/

section Whole

variable {env : PowEnv} {db : Storage} {chain : Chain} {rows : Nat → BlockPow} {t : Nat} {path : Path} {first last h : Nat}

/-- The batch that starts right before the next block. -/
theorem stateAt_self (hst : Stored db chain rows t) (ht : h ≤ t) :
    ∃ ref, chain.stateAt env db .syncFull h (h + 1) h = .ok ref ∧ Reaches env chain rows (chain.block h).hash h h ref ∧
      trimmed env.toPowConsts ref.window = lastWindow env.toPowConsts rows h := by
  obtain ⟨ref, hok, href, hfollows⟩ := @stateAt_base env db chain rows t hst .syncFull h (h + 1) ht
  exact ⟨ref, hok, href, href.window_eq hfollows (Nat.le_refl h) (.inr rfl)⟩

theorem uniform_at (hst : Stored db chain rows t) (hbase : first ≤ h) (ht : h ≤ t) {b : Batch}
    (hok : chain.stateAt env db path first last h = .ok b) (hb : Reaches env chain rows (chain.block first).hash first h b)
    (hwindow : trimmed env.toPowConsts b.window = lastWindow env.toPowConsts rows h) :
    ∃ b ref, chain.stateAt env db path first last h = .ok b ∧ chain.stateAt env db .syncFull h (h + 1) h = .ok ref ∧
      SameView env.toPowConsts b ref ∧ LastBlocks env.toPowConsts chain rows h b ∧
      ∀ floor block, b.verify env db floor block = ref.verify env db floor block := by
  obtain ⟨ref, hokref, href, hwindowref⟩ := @stateAt_self env db chain rows t h hst ht
  have hprev : b.hashes.getLast? = ref.hashes.getLast? := (hb.prev hbase).trans (href.prev (Nat.le_refl h)).symm
  have hsame : trimmed env.toPowConsts b.window = trimmed env.toPowConsts ref.window := hwindow.trans hwindowref.symm
  refine ⟨b, ref, hok, hokref, ⟨hprev, by rw [hsame], by rw [hsame]; exact .refl _, by rw [hsame]⟩,
    ⟨hb.prev hbase, by rw [hwindow], by rw [hwindow]; exact .refl _, by rw [hwindow]⟩, verify_congr hprev ?_ hsame ?_⟩
  · rw [hb.height, href.height]
  · rw [hb.seed hst hbase ht, href.seed hst (Nat.le_refl h) ht]

theorem base_eq (h : ¬(path = .loop ∧ first = 1)) : path.base first = first := by
  cases path with
  | syncFull => rfl
  | loop => exact if_pos fun hone => h ⟨rfl, hone⟩

/-- Where the rows follow, so does the batch. -/
theorem stateAt_follows (hst : Stored db chain rows t) (hlt : first < last) (ht : last ≤ t)
    (hpath : path.base first = first) (hpos : 0 < first)
    (hrows : ∀ k b, first ≤ k → k + 1 < last → chain.stateAt env db path first last k = .ok b →
      Reaches env chain rows (chain.block first).hash first k b → Follows env rows first k b → RowFollows env rows k)
    (hfirst : first ≤ h) (hlast : h < last) :
    ∃ b, chain.stateAt env db path first last h = .ok b ∧ Reaches env chain rows (chain.block first).hash first h b ∧
      Follows env rows first h b := by
  induction h, hfirst using Nat.le_induction with
  | base =>
    obtain ⟨b, hok, hb, hf⟩ := @stateAt_base env db chain rows t hst path first last (by omega)
    rw [hpath] at hok hb hf
    exact ⟨b, hok, hb, hf⟩
  | succ h hle ih =>
    obtain ⟨b, hok, hb, hf⟩ := ih (by omega)
    have hrow := hrows h b hle hlast hok hb hf
    exact ⟨_, stateAt_succ hlt (by omega) (by omega) hok, hb.push hst hle (by omega), hf.push hb hpos hrow _⟩

/-- A batch that is verified like any other makes the next row what it is. -/
theorem Uniform.row_eq (hu : Uniform env db chain rows path first last) (hcount : 2 ≤ env.difficultyBlocksCount)
    (hlt : first < last) (hpath : path.base first = first) (hpos : 0 < first) (hfirst : first ≤ h) (hlast : h + 1 < last)
      {b : Batch}
    (hok : chain.stateAt env db path first last h = .ok b) (hb : Reaches env chain rows (chain.block first).hash first h b)
    (hf : Follows env rows first h b) : RowFollows env rows h := by
  obtain ⟨b', ref, hok', -, -, hlastb, -⟩ := hu (h + 1) (by omega) hlast
  have hpush := stateAt_succ hlt (by omega) (by omega) hok
  cases hpush.symm.trans hok'
  exact hb.row_eq hcount hf hpos hlastb.diffs

theorem Uniform.rowFollows (hu : Uniform env db chain rows path first last) (hst : Stored db chain rows t)
    (hcount : 2 ≤ env.difficultyBlocksCount) (hlt : first < last) (ht : last ≤ t) (hpath : path.base first = first)
    (hpos : 0 < first) (hfirst : first ≤ h) (hlast : h + 1 < last) : RowFollows env rows h := by
  obtain ⟨b, hok, hb, hf⟩ := @stateAt_follows env db chain rows t path first last h hst hlt ht hpath hpos
    (fun k b hk hk' => hu.row_eq hcount hlt hpath hpos hk hk') hfirst (by omega)
  exact hu.row_eq hcount hlt hpath hpos hfirst hlast hok hb hf

/-- A low batch of two blocks is verified without what it should be verified with. -/
theorem Uniform.high (hu : Uniform env db chain rows path first last) (hst : Stored db chain rows t)
    (hcount : 2 ≤ env.difficultyBlocksCount) (hlt : first + 1 < last) (ht : last ≤ t) (hpath : path.base first = first) :
    env.timestampCheckWindow ≤ first := by
  by_contra hlow
  have hwindow := env.window_pos
  obtain ⟨b, ref, hok, -, -, hlastb, -⟩ := hu (first + 1) (by omega) hlt
  obtain ⟨b', hok', hb⟩ :=
    @stateAt_reaches env db chain rows t (first + 1) hst path first last (by omega) ht (by omega) (by omega)
  cases hok.symm.trans hok'
  rw [hpath] at hb
  have hmedians := congrArg List.length (hb.medians.symm.trans hlastb.medians)
  have hfirst : medianFirst env.toPowConsts first = first + 1 := if_pos (by omega)
  rw [hfirst, List.length_map, length_trim_rowsTo] at hmedians
  by_cases hbelow : first + 1 < env.timestampCheckWindow
  · simp [lastWindow, hbelow] at hmedians
    omega
  · -- then the window is of one block, and the batch starts at genesis
    obtain rfl : first = 0 := by
      simp [lastWindow, hbelow, lastRows] at hmedians
      omega
    have hstamps := congrArg List.length (hb.timestamps.symm.trans hlastb.timestamps)
    rw [show windowFirst 0 = 1 from rfl, List.length_map, length_trim_rowsTo] at hstamps
    simp [lastWindow, lastRows] at hstamps
    omega

/-- The blocks of a batch are verified like in any other batch exactly when the batch
    starts at the window of the median or above and the stored difficulties follow from
    each other, or when it has one block only; and not from block 1 in `scanner::loop`. -/
theorem uniform_iff (hst : Stored db chain rows t) (hcount : 2 ≤ env.difficultyBlocksCount) (hlt : first < last)
    (ht : last ≤ t) :
    Uniform env db chain rows path first last ↔
      ¬(path = .loop ∧ first = 1) ∧
        (last = first + 1 ∨
          env.timestampCheckWindow ≤ first ∧ ∀ k, first ≤ k → k + 1 < last → RowFollows env rows k) := by
  constructor
  · intro hu
    have hloop : ¬(path = .loop ∧ first = 1) := by
      rintro ⟨rfl, rfl⟩
      obtain ⟨b, ref, hok, -, -, hlastb, -⟩ := hu 0 (Nat.le_refl 0) (by omega)
      obtain ⟨b', hok', hb⟩ := @stateAt_reaches env db chain rows t 0 hst .loop 1 last hlt ht (Nat.le_refl 0) (by omega)
      cases hok.symm.trans hok'
      have hprev := hlastb.prev
      rw [hb.hashes] at hprev
      exact chain.distinct 0 (Option.some.inj hprev)
    have hpath := base_eq hloop
    refine ⟨hloop, ?_⟩
    by_cases hone : last = first + 1
    · exact .inl hone
    · have hhigh := hu.high hst hcount (by omega) ht hpath
      have hpos : 0 < first := lt_of_lt_of_le env.window_pos hhigh
      exact .inr ⟨hhigh, fun k hk hk' => hu.rowFollows hst hcount hlt ht hpath hpos hk hk'⟩
  · rintro ⟨hloop, hcase⟩ h hfirst hlast
    have hpath := base_eq hloop
    rw [hpath] at hfirst
    rcases hcase with rfl | ⟨hlow, hrows⟩
    · obtain rfl : first = h := by omega
      obtain ⟨b, hok, hb, hf⟩ := @stateAt_base env db chain rows t hst path first (first + 1) (by omega)
      rw [hpath] at hok hb hf
      exact uniform_at hst hfirst (by omega) hok hb (hb.window_eq hf hfirst (.inr rfl))
    · have hpos : 0 < first := lt_of_lt_of_le env.window_pos hlow
      obtain ⟨b, hok, hb, hf⟩ := stateAt_follows hst hlt ht hpath hpos (fun k _ hk hk' _ _ _ => hrows k hk hk') hfirst hlast
      exact uniform_at hst hfirst (by omega) hok hb (hb.window_eq hf hfirst (.inl hlow))

/-- The loop ends where every block passes. -/
theorem verifyAll_isOk {floor : Nat} : ∀ (blocks : List PowBlock) (b : Batch),
    (∃ b', b.verifyAll env db floor blocks = .ok b') ↔
    ∀ i block, blocks[i]? = some block → ((blocks.take i).foldl (·.push env) b).verify env db floor block = .ok () := by
  intro blocks
  induction blocks with
  | nil => intro b; simp [Batch.verifyAll]
  | cons block rest ih =>
    intro b
    constructor
    · rintro ⟨b', h⟩ i x hx
      obtain ⟨_, hverify, hrest⟩ := bind_ok.mp h
      cases i with
      | zero =>
        cases hx
        exact hverify
      | succ i => exact (ih (b.push env block)).mp ⟨b', hrest⟩ i x hx
    · intro h
      obtain ⟨b', hrest⟩ := (ih (b.push env block)).mpr fun i x hx => h (i + 1) x hx
      exact ⟨b', bind_ok.mpr ⟨(), h 0 block rfl, hrest⟩⟩

theorem verifyBatch_isOk (hlt : first < last) (floor : Nat) :
    (∃ b, path.verifyBatch env db floor (chain.fetched first last) = .ok b) ↔
      ∀ h, path.base first ≤ h → h < last → ∃ b, chain.stateAt env db path first last h = .ok b ∧
        b.verify env db floor (chain.block (h + 1)) = .ok () := by
  have hbelow : path.base first < last := by
    cases path with
    | syncFull => exact hlt
    | loop =>
      show (if first ≠ 1 then first else 0) < last
      split <;> omega
  have hget : ∀ h, path.base first ≤ h → h < last →
      (path.blocks (chain.fetched first last))[h - path.base first]? = some (chain.block (h + 1)) := by
    intro h hle hlast
    rw [blocks_fetched path hlt, List.getElem?_map, List.getElem?_range' (by omega)]
    simp only [Option.map_some, show path.base first + 1 + 1 * (h - path.base first) = h + 1 by omega]
  rcases hopen : path.openBatch env.toPowConsts db (chain.fetched first last) with e | b₀
  · -- the windows cannot be read
    constructor
    · rintro ⟨b, hb⟩
      rw [Path.verifyBatch, hopen] at hb
      cases hb
    · intro h
      obtain ⟨b, hb, -⟩ := h (path.base first) (Nat.le_refl _) hbelow
      rw [Chain.stateAt, hopen] at hb
      cases hb
  · have hstart : b₀.start = path.base first := by
      obtain ⟨w, -, hw⟩ := bind_ok.mp hopen
      cases hw
      rfl
    have hstate : ∀ h, chain.stateAt env db path first last h =
        .ok (((path.blocks (chain.fetched first last)).take (h - path.base first)).foldl (·.push env) b₀) := by
      intro h
      rw [Chain.stateAt, hopen, ← hstart]
      rfl
    have hverify : (∃ b, path.verifyBatch env db floor (chain.fetched first last) = .ok b) ↔ _ :=
      Iff.trans (by rw [Path.verifyBatch, hopen]; rfl) (verifyAll_isOk (path.blocks (chain.fetched first last)) b₀)
    rw [hverify]
    constructor
    · intro h m hle hlast
      exact ⟨_, hstate m, h _ _ (hget m hle hlast)⟩
    · intro h i block hblock
      have hi := (List.getElem?_eq_some_iff.mp hblock).1
      rw [blocks_fetched path hlt, List.length_map, List.length_range'] at hi
      obtain ⟨b, hb, hok⟩ := h (path.base first + i) (by omega) (by omega)
      have hblock' := hget (path.base first + i) (by omega) (by omega)
      rw [Nat.add_sub_cancel_left, hblock] at hblock'
      cases (hstate _).symm.trans hb
      rw [Nat.add_sub_cancel_left] at hok
      rw [Option.some.inj hblock']
      exact hok

/-- A batch of blocks that are verified like in any other batch is accepted if each block
    is, in a batch of its own. -/
theorem Uniform.accepted (hu : Uniform env db chain rows path first last) (hlt : first < last) (floor : Nat) :
    (∃ b, path.verifyBatch env db floor (chain.fetched first last) = .ok b) ↔
      ∀ h, path.base first ≤ h → h < last → ∃ b, Path.syncFull.verifyBatch env db floor (chain.fetched h (h + 1)) = .ok b := by
  rw [verifyBatch_isOk hlt]
  refine forall_congr' fun h => forall_congr' fun hle => forall_congr' fun hlast => ?_
  obtain ⟨b, ref, hb, href, -, -, hsame⟩ := hu h hle hlast
  rw [verifyBatch_isOk (Nat.lt_succ_self h)]
  constructor
  · rintro ⟨b', hb', hok⟩ m hm hm'
    obtain rfl : m = h := Nat.le_antisymm (Nat.lt_succ_iff.mp hm') hm
    cases hb.symm.trans hb'
    exact ⟨ref, href, by rw [← hsame]; exact hok⟩
  · intro hall
    obtain ⟨ref', href', hok⟩ := hall h (Nat.le_refl h) (Nat.lt_succ_self h)
    cases href.symm.trans href'
    exact ⟨b, hb, by rw [hsame]; exact hok⟩

end Whole

/-! ## A short chain -/

/-- `next_difficulty` of at most 600 entries, where none is cut off. -/
def shortDifficulty (timestamps diffs : List Nat) (target : Nat) : Nat :=
  if timestamps.length ≤ 1 then 1
  else
    let span := max 1 (timestamps.foldl max 0 - timestamps.foldl min (timestamps.headD 0))
    let work := diffs.getLastD 0 - diffs.headD 0
    (work * target + span - 1) / span

def sampleMedian (timestamps : List Nat) : Nat :=
  let sorted := timestamps.insertionSort (· ≤ ·)
  let n := sorted.length / 2
  if sorted.length % 2 = 1 then sorted.getD n 0 else (sorted.getD (n - 1) 0 + sorted.getD n 0) / 2

def samplePowEnv : PowEnv where
  difficultyBlocksCount := 735
  timestampCheckWindow := 60
  count_pos := by decide
  window_pos := by decide
  nextDifficulty := shortDifficulty
  targetTime _ := 60
  median := sampleMedian
  rxBlockVersion := 12
  rxSeedheight height := if height ≤ 2112 then 0 else (height - 65) / 2048 * 2048
  rxSlowHash seed _ := seed
  cnSlowHash _ _ height := height
  checkHash hash diff := decide (hash * diff < 2 ^ 256)
  seed_le height := by
    split <;> omega

def twoMinuteChain : Chain where
  block k := ⟨100 + k, 99 + k, if k = 0 then 0 else 1000 + 120 * k, 1, []⟩
  linked k := by
    show 99 + (k + 1) = 100 + k
    omega
  distinct k := by
    show 100 + (k + 1) ≠ 100 + k
    omega

def twoMinuteRows (k : Nat) : BlockPow := ⟨k, if k = 0 then 0 else 1000 + 120 * k, ⟨0, max 1 k⟩⟩

def twoMinuteDb : Storage :=
  { fresh sampleEnv with
    blocks := (List.range 63).foldl (fun blocks k => blocks.put () ⟨k, 100 + k⟩) Lmdb.Table.empty
    pows := (List.range 63).foldl (fun pows k => pows.put () (twoMinuteRows k)) Lmdb.Table.empty }

theorem stored_twoMinute : Stored twoMinuteDb twoMinuteChain twoMinuteRows 62 where
  pows := by decide +kernel
  timestamps k _ hpos := by
    simp [twoMinuteRows, twoMinuteChain]
  blocks := by decide +kernel

theorem uniform_iff_sample : Uniform samplePowEnv twoMinuteDb twoMinuteChain twoMinuteRows .syncFull 60 62 := by
  refine (uniform_iff stored_twoMinute (by decide) (by decide) (by decide)).mpr ⟨by simp, .inr ⟨by decide, fun k hk hk' => ?_⟩⟩
  obtain rfl : k = 60 := by omega
  unfold RowFollows
  decide +kernel

/-- `scanner::loop` rejects block 1 of a reply that starts there, which `sync_full` accepts.
    Block 2 is verified with other windows after genesis than after block 1. -/
theorem batches_differ :
    Stored twoMinuteDb twoMinuteChain twoMinuteRows 62 ∧
      (twoMinuteChain.stateAt samplePowEnv twoMinuteDb .loop 1 2 0 >>= fun b =>
        b.verify samplePowEnv twoMinuteDb 10000 (twoMinuteChain.block 1)) = .error .badBlockchain ∧
      (twoMinuteChain.stateAt samplePowEnv twoMinuteDb .syncFull 0 1 0 >>= fun b =>
        b.verify samplePowEnv twoMinuteDb 10000 (twoMinuteChain.block 1)) = .ok () ∧
      (twoMinuteChain.stateAt samplePowEnv twoMinuteDb .syncFull 0 2 1).map (trimmed samplePowEnv.toPowConsts ·.window) =
        .ok ⟨[1120], [1], [1120]⟩ ∧
      (twoMinuteChain.stateAt samplePowEnv twoMinuteDb .syncFull 1 2 1).map (trimmed samplePowEnv.toPowConsts ·.window) =
        .ok ⟨[0, 1120], [1, 1], []⟩ :=
  ⟨stored_twoMinute, by decide +kernel, by decide +kernel, by decide +kernel, by decide +kernel⟩

end Lws.Scanner
