/-
  Lws.Util.RandomOutputs — the decoys of a ring signature (`src/util/random_outputs.cpp`:
  `pick_all`, `triangular_pick`, `gamma_pick`, `pick_random_outputs`).

  For each amount a ring of `mixin` outputs is chosen at random. A try proposes what each
  ring still lacks, fetches the keys of all proposals at once, and drops those that are
  locked; there are up to 64 tries.

  The random choices are a list of draws, the next index each: for `triangular_pick` the
  product of the fraction and the total count, for `gamma_pick` what the picker returns. A
  call that needs more draws than there are has no result (`stopped`): the loop of
  `triangular_pick` has no bound, and the picker throws. `fetch` is the fetcher's reply to
  each try. What is asked of it, what it replies and how many of the replies are used is
  kept beside the result.

  A histogram is looked up among those sorted by amount; the daemon gives one for each
  amount, so the order of equal ones, which `std::sort` leaves open, does not show.
-/

import Mathlib

namespace Lws.Util

/-- `output_amount_count`. -/
structure Histogram where
  amount : Nat
  totalCount : Nat
  unlockedCount : Nat
  deriving DecidableEq, Repr

structure OutputRef where
  amount : Nat
  index : Nat
  deriving DecidableEq, Repr

structure OutputKeys where
  key : Nat
  mask : Nat
  unlocked : Bool
  deriving DecidableEq, Repr

structure RandomOutput where
  keys : OutputKeys
  index : Nat
  deriving DecidableEq, Repr

structure RandomRing where
  ring : List RandomOutput
  amount : Nat
  deriving DecidableEq, Repr

/-- What `pick_random_outputs` asks of the `gamma_picker` beside its draws. -/
structure GammaPicker where
  isValid : Bool
  spendableUpperBound : Nat
  deriving DecidableEq, Repr

inductive PickError (ε : Type) where
  | notEnoughMixin
  | badDaemonResponse
  /-- `MONERO_PRECOND`. -/
  | precondition
  | fetch (e : ε)
  | stopped
  deriving DecidableEq, Repr

variable {ε : Type}

/-! ## Proposing -/

def pickAll (size amount : Nat) : List OutputRef := (List.range size).map fun index => ⟨amount, index⟩

/-- The `do` loop of `triangular_pick`. -/
def triangularDraw (unlockedCount : Nat) : List Nat → Option (Nat × List Nat)
  | [] => none
  | index :: draws => if unlockedCount < index then triangularDraw unlockedCount draws else some (index, draws)

def triangularDraws (hist : Histogram) : Nat → List Nat → Option (List OutputRef × List Nat)
  | 0, draws => some ([], draws)
  | size + 1, draws => do
    let (index, draws) ← triangularDraw hist.unlockedCount draws
    let (out, draws) ← triangularDraws hist size draws
    some (⟨hist.amount, index⟩ :: out, draws)

def triangularPick (size : Nat) (hist : Histogram) (draws : List Nat) :
    Except (PickError ε) (List OutputRef × List Nat) :=
  if hist.totalCount < hist.unlockedCount then .error .precondition
  else if hist.unlockedCount < size then .error .notEnoughMixin
  else if hist.unlockedCount = size then .ok (pickAll size hist.amount, draws)
  else
    match triangularDraws hist size draws with
    | none => .error .stopped
    | some picked => .ok picked

def gammaPick (size : Nat) (pickRct : GammaPicker) (draws : List Nat) :
    Except (PickError ε) (List OutputRef × List Nat) :=
  if !pickRct.isValid then .error .notEnoughMixin
  else if pickRct.spendableUpperBound < size then .error .notEnoughMixin
  else if pickRct.spendableUpperBound = size then .ok (pickAll size 0, draws)
  else if draws.length < size then .error .stopped
  else .ok ((draws.take size).map fun index => ⟨0, index⟩, draws.drop size)

/-- `std::lower_bound` by amount, with the check after it. -/
def findHistogram (histograms : List Histogram) (amount : Nat) : Option Histogram :=
  (histograms.find? fun hist => decide (amount ≤ hist.amount)).filter fun hist => hist.amount == amount

def pickFor (pickRct : GammaPicker) (histograms : List Histogram) (amount size : Nat) (draws : List Nat) :
    Except (PickError ε) (List OutputRef × List Nat) :=
  if amount = 0 then gammaPick size pickRct draws
  else
    match findHistogram histograms amount with
    | none => .error .precondition
    | some hist => triangularPick size hist draws

/-- The rest of a run of `std::unique` by index, after `last` was kept. -/
def uniqueFrom (last : OutputRef) : List OutputRef → List OutputRef
  | [] => []
  | ref :: refs => if last.index = ref.index then uniqueFrom last refs else ref :: uniqueFrom ref refs

/-- `std::unique` by index: the first of each run. -/
def uniqueIndex : List OutputRef → List OutputRef
  | [] => []
  | ref :: refs => ref :: uniqueFrom ref refs

/-- "drop dupes in latest selection". -/
def dropDupes (latest : List OutputRef) : List OutputRef :=
  uniqueIndex (latest.insertionSort fun a b => a.index ≤ b.index)

/-- The index is in the ring: `std::lower_bound` in the sorted entries, with the check after it. -/
def inRing (current : List RandomOutput) (index : Nat) : Bool :=
  (current.find? fun entry => decide (index ≤ entry.index)).any fun entry => entry.index == index

/-- The entry of a proposal, which is told by its keys not being unlocked. -/
def proposedEntry (ref : OutputRef) : RandomOutput := ⟨⟨0, 0, false⟩, ref.index⟩

/-- A selection added to a ring: the ring, and the proposals that are not dupes. -/
def addLatest (ring : RandomRing) (latest : List OutputRef) : RandomRing × List OutputRef :=
  let current := ring.ring.insertionSort fun a b => a.index ≤ b.index
  let fresh := (dropDupes latest).filter fun ref => !inRing current ref.index
  ({ ring with ring := current ++ fresh.map proposedEntry }, fresh)

/-- The first loop of a try: the rings that are left, the proposals in order, and the draws
    not used. A ring whose amount lacks outputs is erased. -/
def selectRings (mixin : Nat) (pickRct : GammaPicker) (histograms : List Histogram) :
    List RandomRing → List Nat → Except (PickError ε) (List RandomRing × List OutputRef × List Nat)
  | [], draws => .ok ([], [], draws)
  | ring :: rings, draws =>
    if ring.ring.length < mixin then
      match pickFor pickRct histograms ring.amount (mixin - ring.ring.length) draws with
      | .error .notEnoughMixin => selectRings mixin pickRct histograms rings draws
      | .error e => .error e
      | .ok (latest, draws) => do
        let (added, fresh) := addLatest ring latest
        let (rings, proposed, draws) ← selectRings mixin pickRct histograms rings draws
        .ok (added :: rings, fresh ++ proposed, draws)
    else do
      let (rings, proposed, draws) ← selectRings mixin pickRct histograms rings draws
      .ok (ring :: rings, proposed, draws)

/-! ## Receiving -/

/-- The inner loop over the replies: the entries that stay, whether none was erased, and the
    offset reached; `none` where the replies run out. -/
def receiveEntries (result : List OutputKeys) : List RandomOutput → Nat → Option (List RandomOutput × Bool × Nat)
  | [], offset => some ([], true, offset)
  | entry :: entries, offset =>
    -- check only new keys
    if entry.keys.unlocked then do
      let (entries, done, offset) ← receiveEntries result entries offset
      some (entry :: entries, done, offset)
    else do
      let keys ← result[offset]?
      let (entries, done, offset) ← receiveEntries result entries (offset + 1)
      if keys.unlocked then some ({ entry with keys } :: entries, done, offset)
      else some (entries, false, offset)

def receiveRings (mixin : Nat) (result : List OutputKeys) :
    List RandomRing → Nat → Option (List RandomRing × Bool × Nat)
  | [], offset => some ([], true, offset)
  | ring :: rings, offset => do
    -- if we dropped a selection due to dupe, must try again
    let full := decide (mixin ≤ ring.ring.length)
    let (entries, kept, offset) ← receiveEntries result ring.ring offset
    let (rings, done, offset) ← receiveRings mixin result rings offset
    some ({ ring with ring := entries } :: rings, full && kept && done, offset)

/-! ## The tries -/

/-- A call of the fetcher that was answered: what was asked, the reply, and how many of its
    keys were used, `none` where the reply is refused. -/
structure Exchange where
  requested : List OutputRef
  replied : List OutputKeys
  consumed : Option Nat
  deriving DecidableEq, Repr

/-- The loop over the tries, with those left and the number of this one. -/
def pickTries (mixin : Nat) (pickRct : GammaPicker) (histograms : List Histogram)
    (fetch : Nat → List OutputRef → Except ε (List OutputKeys)) :
    Nat → Nat → List RandomRing → List Nat → Except (PickError ε) (List RandomRing) × List Exchange
  | 0, _, _, _ => (.error .notEnoughMixin, [])
  | left + 1, tries, rings, draws =>
    match selectRings mixin pickRct histograms rings draws with
    | .error e => (.error e, [])
    | .ok (rings, proposed, draws) =>
      -- all amounts lack enough mixin
      if rings.isEmpty then (.ok rings, [])
      else
        match fetch tries proposed with
        | .error e => (.error (.fetch e), [])
        | .ok result =>
          if proposed.length ≠ result.length then (.error .badDaemonResponse, [⟨proposed, result, none⟩])
          else
            match receiveRings mixin result rings 0 with
            | none => (.error .badDaemonResponse, [⟨proposed, result, none⟩])
            | some (rings, done, offset) =>
              if done then (.ok rings, [⟨proposed, result, some offset⟩])
              else
                let (picked, log) := pickTries mixin pickRct histograms fetch left (tries + 1) rings draws
                (picked, ⟨proposed, result, some offset⟩ :: log)

def pickRandomOutputs (mixin : Nat) (amounts : List Nat) (pickRct : GammaPicker) (histograms : List Histogram)
    (fetch : Nat → List OutputRef → Except ε (List OutputKeys)) (draws : List Nat) :
    Except (PickError ε) (List RandomRing) × List Exchange :=
  if mixin = 0 ∨ amounts.isEmpty then (.ok (List.replicate amounts.length ⟨[], 0⟩), [])
  else if (2 ^ 64 - 1) / amounts.length < mixin then (.error .precondition, [])
  else
    pickTries mixin pickRct (histograms.insertionSort fun a b => a.amount ≤ b.amount) fetch 64 0
      (amounts.map fun amount => ⟨[], amount⟩) draws

end Lws.Util
