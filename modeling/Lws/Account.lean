/-
  Lws.Account — the scanner's view of an account (`src/db/account.h`,
  `src/db/account.cpp`): what it may spend, and what a scan found since the last store.
-/

import Lws.Db.Data

namespace Lws

open Lws.Db

structure Account where
  id : Nat
  address : AccountAddress
  viewKey : SecretKey
  /-- `height_`, the last block scanned. -/
  scanHeight : Nat
  spendable : List (OutputId × AddressIndex)
  pubs : List PublicKey
  spends : List Spend
  outputs : List Output
  deriving DecidableEq, Repr, Inhabited

/-- `account::get_spendable`: `std::lower_bound` is at the first pair that is not less. -/
def Account.getSpendable (user : Account) (id : OutputId) : Option AddressIndex :=
  match user.spendable.find? fun entry => toLex (id, (⟨0, 0⟩ : AddressIndex)) ≤ toLex entry with
  | some (found, index) => if found = id then some index else none
  | none => none

/-- How `spendable_` is sorted. -/
def spendableLe (a b : OutputId × AddressIndex) : Prop := toLex a ≤ toLex b

instance : DecidableRel spendableLe := fun a b => inferInstanceAs (Decidable (toLex a ≤ toLex b))

instance : Std.Total spendableLe := ⟨fun a b => le_total (toLex a) (toLex b)⟩

instance : IsTrans (OutputId × AddressIndex) spendableLe := ⟨fun _ _ _ => le_trans⟩

def sortSpendable (spendable : List (OutputId × AddressIndex)) : List (OutputId × AddressIndex) :=
  spendable.insertionSort spendableLe

def sortPubs (pubs : List PublicKey) : List PublicKey := pubs.insertionSort (· ≤ ·)

/-- The constructor of `account` from a row of the database. -/
def Account.ofRow (source : Db.Account) (spendable : List (OutputId × AddressIndex)) (pubs : List PublicKey) :
    Account :=
  ⟨source.id, source.address, source.key, source.scanHeight, sortSpendable spendable, sortPubs pubs, [], []⟩

/-- `account::add_out`; `none` is a public key that was received before. -/
def Account.addOut (user : Account) (out : Output) : Option Account :=
  if user.pubs.find? (fun pub => out.pub ≤ pub) = some out.pub then none
  else some { user with
    pubs := user.pubs.orderedInsert (· ≤ ·) out.pub
    spendable := user.spendable.orderedInsert spendableLe (out.spendMeta.id, out.recipient)
    outputs := user.outputs ++ [out] }

def Account.addSpend (user : Account) (spend : Spend) : Account := { user with spends := user.spends ++ [spend] }

/-- `account::updated`: the results are handed over and the height moves up. -/
def Account.updated (user : Account) (newHeight : Nat) : Account :=
  { user with scanHeight := max user.scanHeight newHeight, spends := [], outputs := [] }

/-- `client::push_updates`. With a publisher the accounts past the height are left. -/
def pushUpdates (publisher : Bool) (newHeight : Nat) (users : List Account) : List Account :=
  users.map fun user => if publisher && decide (newHeight < user.scanHeight) then user else user.updated newHeight

end Lws
