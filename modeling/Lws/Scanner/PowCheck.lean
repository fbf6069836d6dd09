/-
  Lws.Scanner.PowCheck — how blocks of an untrusted daemon are verified (`src/scanner.cpp`:
  the proof of work checks of `scanner::loop` and `sync_full`, `update_window`;
  `src/util/blocks.cpp`).

  A batch starts from the windows that are stored at the block it overlaps with, and every
  block that passes is pushed onto them. The two loops check a block alike: its `prev_id`
  against the last hash, its timestamp against the median, its hash against the difficulty.
  They differ in the first block. `sync_full` skips it, it is stored. `scanner::loop` never
  asks for genesis, so a reply that starts at block 1 is taken to start at genesis and
  block 1 is verified, but the hash of block 1 is already in the list.

  The functions of the Monero sources are parameters (`PowEnv`).
-/

import Lws.Db.Reader
import Lws.Window

namespace Lws.Scanner

open Lws.Db Lws.Window

/-- What is used of the Monero sources. -/
structure PowEnv extends PowConsts where
  /-- `cryptonote::next_difficulty`, of timestamps, cumulative difficulties and a target. -/
  nextDifficulty : List Nat → List Nat → Nat → Nat
  /-- `get_target_time`, by the table of hard forks. -/
  targetTime : Nat → Nat
  /-- `epee::misc_utils::median`. -/
  median : List Nat → Nat
  rxBlockVersion : Nat
  rxSeedheight : Nat → Nat
  rxSlowHash : Hash → List UInt8 → Hash
  cnSlowHash : List UInt8 → Nat → Nat → Hash
  checkHash : Hash → Nat → Bool
  /-- The seed of a block is below it. -/
  seed_le : ∀ height, rxSeedheight (height + 1) ≤ height

/-- What is used of a `cryptonote::block`. -/
structure PowBlock where
  /-- `get_block_hash`. -/
  hash : Hash
  prevId : Hash
  timestamp : Nat
  majorVersion : Nat
  /-- `get_block_hashing_blob`. -/
  blob : List UInt8
  deriving DecidableEq, Repr

/-! ## One block -/

def seedHash (env : PowEnv) (db : Storage) (height cachedStart : Nat) (cached : List Hash) : Except Error Hash :=
  if height = 0 then .ok 0
  else
    let seedHeight := env.rxSeedheight height
    if cachedStart ≤ seedHeight then
      match cached[seedHeight - cachedStart]? with
      | none => .error .badBlockchain
      | some hash => .ok hash
    else getBlockHash db.blocks seedHeight

def getBlockLonghash (env : PowEnv) (db : Storage) (block : PowBlock) (height cachedStart : Nat) (cached : List Hash) :
    Except Error Hash :=
  -- block 202612 bug workaround
  if height = 202612 then .ok 0x84f64766475d51837ac9efbef1926486e58563c95a19fef4aec3254f03000000
  else if env.rxBlockVersion ≤ block.majorVersion then do
    let seed ← seedHash env db height cachedStart cached
    .ok (env.rxSlowHash seed block.blob)
  else .ok (env.cnSlowHash block.blob (if 7 ≤ block.majorVersion then block.majorVersion - 6 else 0) height)

def verifyTimestamp (env : PowEnv) (check : Nat) (timestamps : List Nat) : Bool :=
  if timestamps.isEmpty then true
  else if check < env.median timestamps then false
  else true

/-- `update_window` of both difficulty vectors, and the same for the timestamps of the median. -/
def trimmed (consts : PowConsts) (w : PowWindow) : PowWindow :=
  ⟨trim consts.difficultyBlocksCount w.powTimestamps, trim consts.difficultyBlocksCount w.cumulativeDiffs,
    trim consts.timestampCheckWindow w.medianTimestamps⟩

structure Batch where
  /-- `initial_height`, or `resp->start_height`. -/
  start : Nat
  /-- The last block so far. -/
  height : Nat
  /-- `blockchain`, or `new_hashes`. -/
  hashes : List Hash
  window : PowWindow
  deriving DecidableEq, Repr

def Batch.difficulty (env : PowEnv) (b : Batch) : Nat :=
  let w := trimmed env.toPowConsts b.window
  env.nextDifficulty w.powTimestamps w.cumulativeDiffs (env.targetTime (b.height + 1))

/-- The checks on the next block. Up to `floor` (`last_pow`, or the last checkpoint) there
    is no proof of work to check. -/
def Batch.verify (env : PowEnv) (db : Storage) (floor : Nat) (b : Batch) (block : PowBlock) : Except Error Unit :=
  if b.hashes.getLast? ≠ some block.prevId then .error .badBlockchain
  else if b.height + 1 ≤ floor then .ok ()
  else if verifyTimestamp env block.timestamp (trimmed env.toPowConsts b.window).medianTimestamps = false then
    .error .badBlockchain
  else do
    let pow ← getBlockLonghash env db block (b.height + 1) b.start b.hashes
    if env.checkHash pow (b.difficulty env) then .ok () else .error .badBlockchain

/-- A sum of `block_difficulty::unsigned_int`, which has 128 bits. -/
def add128 (a b : Nat) : Nat := (a + b) % 2 ^ 128

def Batch.push (env : PowEnv) (b : Batch) (block : PowBlock) : Batch :=
  let w := trimmed env.toPowConsts b.window
  { b with
    height := b.height + 1
    hashes := b.hashes ++ [block.hash]
    window :=
      ⟨w.powTimestamps ++ [block.timestamp],
        w.cumulativeDiffs ++ [add128 (b.difficulty env) ((w.cumulativeDiffs.getLast?).getD 0)],
        w.medianTimestamps ++ [block.timestamp]⟩ }

/-! ## A batch -/

/-- A reply of `get_blocks_fast`. -/
structure Fetched where
  startHeight : Nat
  front : PowBlock
  rest : List PowBlock
  deriving DecidableEq, Repr

/-- The two loops. -/
inductive Path where
  | loop
  | syncFull
  deriving DecidableEq, Repr

def Path.base : Path → Nat → Nat
  | .loop, startHeight => if startHeight ≠ 1 then startHeight else 0
  | .syncFull, startHeight => startHeight

def Path.blocks : Path → Fetched → List PowBlock
  | .loop, fetched => if fetched.startHeight ≠ 1 then fetched.rest else fetched.front :: fetched.rest
  | .syncFull, fetched => fetched.rest

def Path.openBatch (path : Path) (consts : PowConsts) (db : Storage) (fetched : Fetched) : Except Error Batch := do
  let base := path.base fetched.startHeight
  let window ← db.getPowWindow consts base
  .ok ⟨base, base, [fetched.front.hash], window⟩

def Batch.verifyAll (env : PowEnv) (db : Storage) (floor : Nat) : Batch → List PowBlock → Except Error Batch
  | b, [] => .ok b
  | b, block :: rest => do
    b.verify env db floor block
    (b.push env block).verifyAll env db floor rest

def Path.verifyBatch (path : Path) (env : PowEnv) (db : Storage) (floor : Nat) (fetched : Fetched) :
    Except Error Batch := do
  let b ← path.openBatch env.toPowConsts db fetched
  b.verifyAll env db floor (path.blocks fetched)

end Lws.Scanner
