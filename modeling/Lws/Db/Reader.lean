/-
  Lws.Db.Reader — what the scanner reads before it syncs (`src/db/storage.cpp`:
  `get_blocks_tail`, `get_blocks`, `get_blocks_from_height`,
  `storage_reader::get_chain_sync`, `storage_reader::get_pow_sync`,
  `storage_reader::get_pow_window`).

  `DIFFICULTY_BLOCKS_COUNT` and `BLOCKCHAIN_TIMESTAMP_CHECK_WINDOW` are constants of the
  Monero sources, outside the repository: `PowConsts` has them as parameters.
-/

import Lws.Db.Chain

namespace Lws.Db

open Lws.Lmdb

/-! ## The hashes that tell a daemon where the stored chain is -/

/-- The walk of `get_blocks_tail` over ten rows; whether it ended at the first row. -/
def tailWalk : Nat → Cursor Version BlockInfo.id → List BlockInfo → Except Error (List BlockInfo × Bool)
  | 0, _, out => .ok (out, false)
  | n + 1, cur, out =>
    match cur.row? with
    | none => .error .notFound
    | some r =>
      match cur.prevDup with
      | none => if r.2.id ≠ 0 then .error .badBlockchain else .ok (out ++ [r.2], true)
      | some cur => tailWalk n cur (out ++ [r.2])

def backId (out : List BlockInfo) : Nat := (out.getLast?.map (·.id)).getD 0

/-- The lambda `add_block` of `get_blocks_tail`. -/
def addBlock (blocks : Blocks) (id : Nat) (out : List BlockInfo) : Except Error (List BlockInfo) := do
  let hash ← getBlockHash blocks id
  .ok (out ++ [⟨id, hash⟩])

/-- `2 << i` as an `int`, then a `std::uint64_t`: negative at 30, and C++ leaves it
    undefined from there on. -/
def tailOffset (i : Nat) : Nat := ((2#32 <<< i).signExtend 64).toNat

/-- The loop of `get_blocks_tail` over its `n` last exponents, from `i` on. -/
def tailJumps (blocks : Blocks) (checkpoint anchor : Nat) : Nat → Nat → List BlockInfo → Except Error (List BlockInfo)
  | 0, _, out => .ok out
  | n + 1, i, out =>
    let offset := tailOffset i
    if anchor < offset ∨ anchor - offset < checkpoint then .ok out
    else do
      let out ← addBlock blocks (anchor - offset) out
      tailJumps blocks checkpoint anchor n (i + 1) out

/-- `id` ends the list, if the list ends above it. -/
def addIfBelow (blocks : Blocks) (id : Nat) (out : List BlockInfo) : Except Error (List BlockInfo) :=
  if id < backId out then addBlock blocks id out else .ok out

def getBlocksTail (env : Env) (cur : Cursor Version BlockInfo.id) (maxInternal : Nat) :
    Except Error (List BlockInfo) := do
  let (out, done) ← tailWalk 10 cur []
  if done then .ok out
  else
    let checkpoint := env.maxHeight
    let out ← tailJumps cur.table checkpoint (backId out) maxInternal 1 out
    let out ← addIfBelow cur.table checkpoint out
    addIfBelow cur.table 0 out

def getBlocks (env : Env) (blocks : Blocks) (maxInternal : Nat) : Except Error (List BlockInfo) :=
  match blocks.set () with
  | none => .error .notFound
  | some cur => getBlocksTail env cur.lastDup (min 64 maxInternal)

def getBlocksFromHeight (env : Env) (blocks : Blocks) (maxInternal : Nat) (lastPow : Nat) :
    Except Error (List BlockInfo) :=
  match blocks.getBoth () lastPow with
  | none => .error .notFound
  | some cur => getBlocksTail env cur (min 64 maxInternal)

def Storage.getChainSync (env : Env) (db : Storage) : Except Error (List Hash) := do
  let blocks ← getBlocks env db.blocks 64
  .ok (blocks.map (·.hash))

def lastPowHeight (pows : Pows) : Except Error Nat :=
  match pows.set () with
  | none => .error .notFound
  | some cur =>
    match cur.lastDup.row? with
    | none => .error .notFound
    | some r => .ok r.2.id

def Storage.getPowSync (env : Env) (db : Storage) : Except Error (List Hash) := do
  let powHeight ← lastPowHeight db.pows
  let blocks ← getBlocksFromHeight env db.blocks 64 powHeight
  .ok (blocks.map (·.hash))

/-! ## The window of proofs of work -/

structure PowConsts where
  difficultyBlocksCount : Nat
  timestampCheckWindow : Nat
  count_pos : 1 ≤ difficultyBlocksCount
  window_pos : 1 ≤ timestampCheckWindow

structure PowWindow where
  powTimestamps : List Nat
  cumulativeDiffs : List Nat
  medianTimestamps : List Nat
  deriving DecidableEq, Repr

def BlockDifficulty.getDifficulty (d : BlockDifficulty) : Nat := d.high * 2 ^ 64 + d.low

def windowRows : Nat → Cursor Version BlockPow.id → Except Error (List BlockPow)
  | n, cur =>
    match cur.row? with
    | none => .error .notFound
    | some r =>
      match n with
      | 0 => .ok [r.2]
      | n + 1 =>
        match cur.nextDup with
        | none => .error .notFound
        | some cur => do
          let rows ← windowRows n cur
          .ok (r.2 :: rows)

/-- The rows from `next` to `last`, found by `MDB_GET_BOTH` and then `MDB_NEXT_DUP`. -/
def windowFrom (pows : Pows) (next last : Nat) : Except Error (List BlockPow) :=
  match pows.getBoth () next with
  | none => .error .notFound
  | some cur => windowRows (last - next) cur

/-- The first row of the difficulty window. -/
def PowConsts.windowStart (consts : PowConsts) (last : Nat) : Nat :=
  if consts.difficultyBlocksCount < last then last - (consts.difficultyBlocksCount - 1) else 0

def Storage.getPowWindow (consts : PowConsts) (last : Nat) (db : Storage) : Except Error PowWindow :=
  if last = 0 then .ok ⟨[], [], []⟩
  else do
    let rows ← windowFrom db.pows (consts.windowStart last) last
    let out : PowWindow := ⟨rows.map (·.timestamp), rows.map (·.cumulativeDiff.getDifficulty), []⟩
    if last < consts.timestampCheckWindow then .ok out
    else
      let rows ← windowFrom db.pows (last - (consts.timestampCheckWindow - 1)) last
      .ok { out with medianTimestamps := rows.map (·.timestamp) }

end Lws.Db
