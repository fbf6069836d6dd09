/-
  Lws.Db.Subaddress — the subaddress tables (`src/db/data.cpp`:
  `check_subaddress_dict`; `src/db/storage.cpp`: `add_and_clamp`, `do_upsert` and both
  `do_lookahead`).

  `do_upsert` and `do_lookahead` return the two tables as they stand when they return,
  on an error too: `do_lookahead` over an account and `update_lookahead` turn
  `max_subaddresses` into a success, and the transaction then commits whatever was
  written before the error.
-/

import Lws.Db.Chain

namespace Lws.Db

open Lws.Lmdb

/-- `add_and_clamp` at `std::uint32_t`. -/
def addAndClamp (start count : Nat) : Nat := if uint32Max - count < start then uint32Max else start + count

/-- The loop of `check_subaddress_dict`: `last` is the end of the range before. -/
def checkRanges : Option Nat → List IndexRange → Bool
  | _, [] => true
  | last, elem :: rest =>
    if elem.2 < elem.1 then false
    else if last.any (fun l => decide (elem.1 ≤ l + 1)) then false
    else checkRanges (some elem.2) rest

def checkSubaddressDict (self : SubaddressDict) : Bool := checkRanges none self.2

/-! ## Upserting -/

/-- `check_max_range`: the new running total, or `none` past the limit. -/
def checkMaxRange (maxSubaddr count : Nat) (range : IndexRange) : Option Nat :=
  let more := range.2 - range.1
  if maxSubaddr - count ≤ more then none else some (count + (more + 1))

def checkMaxRanges (maxSubaddr : Nat) : Nat → List IndexRange → Option Nat
  | count, [] => some count
  | count, range :: rest => do
    let count ← checkMaxRange maxSubaddr count range
    checkMaxRanges maxSubaddr count rest

/-- "overlap at beginning": the old range from where the new one starts, and the range added. -/
def widenBegin (maxSubaddr count : Nat) (old new : IndexRange) : Option (Nat × IndexRange × List IndexRange) :=
  if new.1 < old.1 then do
    let count ← checkMaxRange maxSubaddr count (new.1, old.1 - 1)
    some (count, (new.1, old.2), [(new.1, old.1 - 1)])
  else some (count, old, [])

/-- "overlap at end". -/
def widenEnd (maxSubaddr count : Nat) (old new : IndexRange) : Option (Nat × IndexRange × List IndexRange) :=
  if old.2 < new.2 then do
    let count ← checkMaxRange maxSubaddr count (old.2 + 1, new.2)
    some (count, (old.1, new.2), [(old.2 + 1, new.2)])
  else some (count, old, [])

/-- The merge of the stored ranges with new ones: the running total, the ranges to
    store and the ranges added, or `none` past the limit. A step consumes a range of
    one of the two lists. -/
def mergeRanges (maxSubaddr : Nat) :
    Nat → Nat → List IndexRange → List IndexRange → Option (Nat × List IndexRange × List IndexRange)
  | _, count, oldRange, [] => some (count, oldRange, [])
  | _, count, [], newRange => do
    let count ← checkMaxRanges maxSubaddr count newRange
    some (count, newRange, newRange)
  | 0, _, _ :: _, _ :: _ => none
  | n + 1, count, old :: oldRange, new :: newRange =>
    if new.2 + 1 < old.1 then do
      -- new has no overlap with existing
      let count ← checkMaxRange maxSubaddr count new
      let (count, dict, added) ← mergeRanges maxSubaddr n count (old :: oldRange) newRange
      some (count, new :: dict, new :: added)
    else if old.2 + 1 < new.1 then do
      -- existing has no overlap with new
      let (count, dict, added) ← mergeRanges maxSubaddr n count oldRange (new :: newRange)
      some (count, old :: dict, added)
    else if old.1 ≤ new.1 ∧ new.2 ≤ old.2 then
      mergeRanges maxSubaddr n count (old :: oldRange) newRange
    else do
      -- new overlap at beginning, end, or both
      let (count, old, atBegin) ← widenBegin maxSubaddr count old new
      let (count, old, atEnd) ← widenEnd maxSubaddr count old new
      let (count, dict, added) ← mergeRanges maxSubaddr n count (old :: oldRange) newRange
      some (count, dict, atBegin ++ atEnd ++ added)

/-- `add_out`: a range joins the last entry when that has its major index. -/
def addOut (major : Nat) (out : List SubaddressDict) (minor : IndexRange) : List SubaddressDict :=
  match out.getLast? with
  | some (m, ranges) => if m = major then out.dropLast ++ [(m, ranges ++ [minor])] else out ++ [(major, [minor])]
  | none => [(major, [minor])]

def minors (range : IndexRange) : List Nat := List.range' range.1 (range.2 + 1 - range.1)

def indexRows (env : Env) (address : AccountAddress) (viewKey : SecretKey) (major : Nat)
    (ranges : List IndexRange) : List SubaddressMap :=
  (ranges.flatMap minors).map fun minor => ⟨env.getSpendPublic address viewKey ⟨major, minor⟩, ⟨major, minor⟩⟩

/-- The two tables, and what the function returned. -/
structure Upsert (α : Type) where
  ranges : SubaddressRanges
  indexes : SubaddressIndexes
  result : Except Error α

def storeEntry (env : Env) (id : Nat) (address : AccountAddress) (viewKey : SecretKey) (major : Nat)
    (newDict : List IndexRange) (count : Nat) (out : List SubaddressDict) (ranges : SubaddressRanges)
    (indexes : SubaddressIndexes) : Upsert (Nat × List SubaddressDict) :=
  let indexes := indexes.putAllAbsent id (indexRows env address viewKey major newDict)
  match ranges.putNew id (major, newDict) with
  | none => ⟨ranges, indexes, .error .keyExist⟩
  | some ranges => ⟨ranges, indexes, .ok (count, out)⟩

/-- One entry of `do_upsert`, with the running total and the ranges added so far. -/
def upsertEntry (env : Env) (id : Nat) (address : AccountAddress) (viewKey : SecretKey) (maxSubaddr : Nat)
    (entry : SubaddressDict) (count : Nat) (out : List SubaddressDict) (ranges : SubaddressRanges)
    (indexes : SubaddressIndexes) : Upsert (Nat × List SubaddressDict) :=
  if !checkSubaddressDict entry then ⟨ranges, indexes, .error .schemaArray⟩
  else
    match ranges.get? id entry.1 with
    | none =>
      match checkMaxRanges maxSubaddr count entry.2 with
      | none => ⟨ranges, indexes, .error .maxSubaddresses⟩
      | some count => storeEntry env id address viewKey entry.1 entry.2 count (out ++ [entry]) ranges indexes
    | some old =>
      -- the row is deleted here and put back at the end
      let ranges := ranges.erase id entry.1
      match mergeRanges maxSubaddr (old.2.length + entry.2.length) count old.2 entry.2 with
      | none => ⟨ranges, indexes, .error .maxSubaddresses⟩
      | some (count, newDict, added) =>
        storeEntry env id address viewKey entry.1 newDict count (added.foldl (addOut entry.1) out) ranges indexes

/-- The loop of `do_upsert` over the given entries. -/
def doUpsertLoop (env : Env) (id : Nat) (address : AccountAddress) (viewKey : SecretKey) (maxSubaddr : Nat) :
    Nat → List SubaddressDict → SubaddressRanges → SubaddressIndexes → List SubaddressDict → Upsert (List SubaddressDict)
  | _, out, ranges, indexes, [] => ⟨ranges, indexes, .ok out⟩
  | count, out, ranges, indexes, entry :: rest =>
    let one := upsertEntry env id address viewKey maxSubaddr entry count out ranges indexes
    match one.result with
    | .error e => ⟨one.ranges, one.indexes, .error e⟩
    | .ok (count, out) => doUpsertLoop env id address viewKey maxSubaddr count out one.ranges one.indexes rest

def doUpsert (env : Env) (id : Nat) (address : AccountAddress) (viewKey : SecretKey)
    (subaddrs : List SubaddressDict) (maxSubaddr : Nat) (ranges : SubaddressRanges) (indexes : SubaddressIndexes) :
    Upsert (List SubaddressDict) :=
  let count := indexes.count id
  if maxSubaddr < count then ⟨ranges, indexes, .error .maxSubaddresses⟩
  else doUpsertLoop env id address viewKey maxSubaddr count [] ranges indexes subaddrs

/-! ## Lookahead -/

def resize (initial : List SubaddressDict) (size : Nat) : List SubaddressDict :=
  initial ++ List.replicate (size - initial.length) (0, [])

/-- What an output received at `{index, _}` makes of its entry: the highest minor index
    needed so far. -/
def raiseMinor (major thisMinor : Nat) (elem : SubaddressDict) : SubaddressDict :=
  match elem.2 with
  | [] => (major, [(0, thisMinor)])
  | range :: rest => (elem.1, (range.1, max range.2 thisMinor) :: rest)

/-- The loop of `do_lookahead` over the account's outputs. -/
def lookaheadOutputs (major minor maxSubaddresses : Nat) :
    List SubaddressDict → List Output → Except Error (List SubaddressDict)
  | initial, [] => .ok initial
  | initial, output :: outputs =>
    if output.recipient.isZero then lookaheadOutputs major minor maxSubaddresses initial outputs
    else
      let index := output.recipient.majI
      let needed := addAndClamp index major
      let thisMinor := addAndClamp (minor - 1) output.recipient.minI
      if uint32Max / minor < needed then .error .maxSubaddresses
      else if maxSubaddresses < needed * minor then .error .maxSubaddresses
      else
        let initial := resize initial (max initial.length needed)
        -- `initial.at(index)` throws
        if initial.length ≤ index then .error .outOfRange
        else lookaheadOutputs major minor maxSubaddresses (initial.modify index (raiseMinor major thisMinor)) outputs

/-- Fill in every gap with a default range, and check the total. -/
def lookaheadFill (minor maxSubaddresses : Nat) :
    Nat → Nat → List SubaddressDict → Except Error (List SubaddressDict)
  | _, _, [] => .ok []
  | i, totalSubs, elem :: rest => do
    let (ranges, thisMinor) :=
      match elem.2 with
      | [] => ([(0, minor - 1)], minor)
      | range :: rest => (range :: rest, range.2)
    if maxSubaddresses - totalSubs < thisMinor then .error .maxSubaddresses
    else
      let rest ← lookaheadFill minor maxSubaddresses (i + 1) (totalSubs + thisMinor) rest
      .ok ((i, ranges) :: rest)

/-- The entries the first `do_lookahead` upserts; `none` when lookahead is off. -/
def lookaheadEntries (outputs : List Output) (lookahead : AddressIndex) (maxSubaddresses : Nat) :
    Except Error (Option (List SubaddressDict)) :=
  let major := lookahead.majI
  let minor := lookahead.minI
  if major = 0 ∨ minor = 0 then .ok none
  else if uint32Max / minor < major then .error .maxSubaddresses
  else if maxSubaddresses < major * minor then .error .maxSubaddresses
  else do
    let initial ← lookaheadOutputs major minor maxSubaddresses (List.replicate major (0, [])) outputs
    let entries ← lookaheadFill minor maxSubaddresses 0 0 initial
    .ok (some entries)

/-- `do_lookahead` over the tables. -/
def doLookahead (env : Env) (id : Nat) (address : AccountAddress) (viewKey : SecretKey) (lookahead : AddressIndex)
    (maxSubaddresses : Nat) (outputs : Outputs) (ranges : SubaddressRanges) (indexes : SubaddressIndexes) : Upsert Unit :=
  match lookaheadEntries (outputs.dups id) lookahead maxSubaddresses with
  | .error e => ⟨ranges, indexes, .error e⟩
  | .ok none => ⟨ranges, indexes, .ok ()⟩
  | .ok (some entries) =>
    let upserted := doUpsert env id address viewKey entries maxSubaddresses ranges indexes
    ⟨upserted.ranges, upserted.indexes, upserted.result.map fun _ => ()⟩

/-- `do_lookahead` over an account: past the limit the account is marked and the call
    succeeds. -/
def doLookaheadFor (env : Env) (user : Account) (lookahead : AddressIndex) (maxSubaddresses : Nat) (outputs : Outputs)
    (ranges : SubaddressRanges) (indexes : SubaddressIndexes) : Upsert Account :=
  let attempt := doLookahead env user.id user.address user.key lookahead maxSubaddresses outputs ranges indexes
  match attempt.result with
  | .error .maxSubaddresses =>
    ⟨attempt.ranges, attempt.indexes, .ok { user with lookahead, lookaheadFail := max 1 user.startHeight }⟩
  | .error e => ⟨attempt.ranges, attempt.indexes, .error e⟩
  | .ok () => ⟨attempt.ranges, attempt.indexes, .ok { user with lookahead }⟩

end Lws.Db
