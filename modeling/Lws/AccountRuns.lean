/-
  Lws.AccountRuns — an account over its life (`src/db/account.cpp`: the constructor,
  `read_bytes`, `get_spendable`, `add_out`, `updated`).

  The account searches `pubs_` and `spendable_` by halving, which finds what is there only
  as long as both are sorted. They are sorted where they come from outside, the database or
  another process, and `add_out` puts an element where its search stopped. So they are
  sorted after every call, hold what came from outside and what was accepted since
  (`Tracks`), and the searches find it: the one of the source and the plain one of
  `Lws.Account` are the same (`addOutSearch_eq`, `getSpendableSearch_eq`).

  A `read_bytes` that throws leaves an account that nothing refers to any more: it is part
  of the message that was being read.
-/

import Lws.Account
import Lws.Search
import Lws.Scanner.Commands
import Lws.Wire.Truncation

namespace Lws

open Lws.Db Lws.Search Lws.Wire

/-! ## The searches of the source -/

/-- `account::get_spendable`. -/
def Account.getSpendableSearch (user : Account) (id : OutputId) : Option AddressIndex :=
  let searchable : OutputId × AddressIndex := (id, ⟨0, 0⟩)
  let account := lowerBound (fun entry => decide (toLex entry < toLex searchable)) user.spendable
  match user.spendable[account]? with
  | none => none
  | some (found, index) => if found ≠ id then none else some index

/-- `account::add_out`. -/
def Account.addOutSearch (user : Account) (out : Output) : Option Account :=
  let existingPub := lowerBound (fun pub => decide (pub < out.pub)) user.pubs
  if user.pubs[existingPub]? = some out.pub then none
  else
    let spendableValue := (out.spendMeta.id, out.recipient)
    some { user with
      pubs := user.pubs.insertIdx existingPub out.pub
      spendable := user.spendable.insertIdx
        (lowerBound (fun entry => decide (toLex entry < toLex spendableValue)) user.spendable) spendableValue
      outputs := user.outputs ++ [out] }

/-- The vectors that are searched are sorted. -/
structure Account.Sorted (user : Account) : Prop where
  pubs : user.pubs.Pairwise (· ≤ ·)
  spendable : user.spendable.Pairwise spendableLe

theorem decide_lt_eq {α : Type} [LinearOrder α] (a key : α) : decide (a < key) = !decide (key ≤ a) := by
  rw [← decide_not, decide_eq_decide, not_le]

theorem split_lt {α : Type} [LinearOrder α] {xs : List α} (h : xs.Pairwise (· ≤ ·)) (key : α) :
    Split (fun a => decide (a < key)) xs := by
  apply Split.of_sorted _ h
  intro a b hab hb
  exact decide_eq_true (lt_of_le_of_lt hab (of_decide_eq_true hb))

theorem split_spendable {xs : List (OutputId × AddressIndex)} (h : xs.Pairwise spendableLe)
    (key : OutputId × AddressIndex) :
    Split (fun entry => decide (toLex entry < toLex key)) xs := by
  apply Split.of_sorted _ h
  intro a b hab hb
  exact decide_eq_true (lt_of_le_of_lt hab (of_decide_eq_true hb))

/-- On sorted vectors the search finds what a look at every entry does. -/
theorem Account.getSpendableSearch_eq {user : Account} (h : user.Sorted) (id : OutputId) :
    user.getSpendableSearch id = user.getSpendable id := by
  have hget := getElem?_lowerBound (split_spendable h.spendable (id, ⟨0, 0⟩))
  simp only [← decide_not, not_lt] at hget
  simp only [Account.getSpendableSearch, Account.getSpendable, hget]
  split
  · rename_i hnone
    rw [hnone]
  · rename_i found index hsome
    rw [hsome]
    by_cases hid : found = id
    · simp [hid]
    · simp [hid]

theorem Account.addOutSearch_eq {user : Account} (h : user.Sorted) (out : Output) :
    user.addOutSearch out = user.addOut out := by
  have hget := getElem?_lowerBound (split_lt h.pubs out.pub)
  simp only [← decide_not, not_lt] at hget
  have hpubs : user.pubs.insertIdx _ out.pub = user.pubs.orderedInsert (· ≤ ·) out.pub :=
    insertIdx_lowerBound (fun pub => decide_lt_eq pub out.pub) (split_lt h.pubs out.pub)
  have hspendable : user.spendable.insertIdx _ (out.spendMeta.id, out.recipient) =
      user.spendable.orderedInsert spendableLe (out.spendMeta.id, out.recipient) :=
    insertIdx_lowerBound (fun entry => decide_lt_eq (toLex entry) _) (split_spendable h.spendable _)
  unfold Account.addOutSearch Account.addOut
  simp only [hget, hpubs, hspendable]

/-! ## The calls -/

/-- A call of a member; each but the last two changes the vectors. -/
inductive AccountCall where
  /-- The constructor, with rows of the database. -/
  | construct (source : Db.Account) (spendable : List (OutputId × AddressIndex)) (pubs : List PublicKey)
  /-- `read_bytes`, with the fields as the message has them. -/
  | readBytes (fields : Account)
  | addOut (out : Output)
  | addSpend (spend : Spend)
  | updated (newHeight : Nat)

def Account.readBytes (fields : Account) : Account :=
  { fields with spendable := sortSpendable fields.spendable, pubs := sortPubs fields.pubs }

/-- What `read_bytes` makes of a message: its fields, with the vectors sorted. -/
theorem account_readBytes {text : AccountAddress → List UInt8} {r r' : Reader} {user : Account}
    (h : (Scanner.account text).read r = .ok (user, r')) :
    ∃ fields : Account, user = fields.readBytes ∧ ∃ address, Scanner.accountFields.read r = .ok (((address, fields.id,
      fields.address, fields.viewKey, ()), fields.spendable, fields.pubs, fields.spends,
        fields.outputs, fields.scanHeight, ()), r') := by
  rw [Scanner.account, Schema.read] at h
  obtain ⟨⟨⟨⟨address, id, pubs, viewKey, _⟩, spendable, keys, spends, outputs, height, _⟩, r₁⟩, hread, h⟩ :=
    bind_eq_ok.mp h
  obtain ⟨rfl, rfl⟩ := Prod.mk.inj (Except.ok.inj h)
  exact ⟨⟨id, pubs, viewKey, height, spendable, keys, spends, outputs⟩, rfl, address, hread⟩

def Account.invalid : Account := ⟨2 ^ 32 - 1, ⟨0, 0⟩, 0, 0, [], [], [], []⟩

/-- What an account was given: the lists from outside, in any order, and what was accepted since. -/
structure Ledger where
  pubs : List PublicKey
  spendable : List (OutputId × AddressIndex)
  accepted : List Output
  deriving DecidableEq, Repr

def Ledger.keys (ledger : Ledger) : List PublicKey := ledger.pubs ++ ledger.accepted.map (·.pub)

def Ledger.entries (ledger : Ledger) : List (OutputId × AddressIndex) :=
  ledger.spendable ++ ledger.accepted.map fun out => (out.spendMeta.id, out.recipient)

/-- A call, and what it adds to the ledger: an output where `add_out` returns true. -/
def AccountCall.run (state : Account × Ledger) : AccountCall → Account × Ledger
  | .construct source spendable pubs => (.ofRow source spendable pubs, ⟨pubs, spendable, []⟩)
  | .readBytes fields => (fields.readBytes, ⟨fields.pubs, fields.spendable, []⟩)
  | .addOut out =>
    match state.1.addOutSearch out with
    | none => state
    | some user => (user, { state.2 with accepted := state.2.accepted ++ [out] })
  | .addSpend spend => (state.1.addSpend spend, state.2)
  | .updated newHeight => (state.1.updated newHeight, state.2)

def runCalls (calls : List AccountCall) : Account × Ledger := calls.foldl AccountCall.run (.invalid, ⟨[], [], []⟩)

/-- The account is sorted and holds what the ledger says. -/
structure Tracks (user : Account) (ledger : Ledger) : Prop where
  sorted : user.Sorted
  pubs : user.pubs.Perm ledger.keys
  spendable : user.spendable.Perm ledger.entries
  /-- No key was accepted that was there before. -/
  fresh : (ledger.accepted.map (·.pub)).Nodup ∧ ∀ out ∈ ledger.accepted, out.pub ∉ ledger.pubs

/-- In a sorted list the first that is not less is the key where the list has it. -/
theorem find?_eq_some_key {α : Type} [LinearOrder α] {xs : List α} (h : xs.Pairwise (· ≤ ·)) (key : α) :
    xs.find? (fun a => decide (key ≤ a)) = some key ↔ key ∈ xs := by
  constructor
  · exact List.mem_of_find?_eq_some
  · intro hmem
    induction xs with
    | nil => cases hmem
    | cons a xs ih =>
      obtain ⟨hfirst, hrest⟩ := List.pairwise_cons.mp h
      by_cases hle : key ≤ a
      · rcases List.mem_cons.mp hmem with rfl | hmem
        · simp
        · have heq : key = a := le_antisymm hle (hfirst key hmem)
          simp [heq]
      · have hne : key ≠ a := fun heq => hle heq.le
        have hmem := (List.mem_cons.mp hmem).resolve_left hne
        simp [hle, ih hrest hmem]

theorem Account.addOut_eq_none {user : Account} (h : user.Sorted) (out : Output) :
    user.addOut out = none ↔ out.pub ∈ user.pubs := by
  unfold Account.addOut
  rw [← find?_eq_some_key h.pubs out.pub]
  split
  · rename_i hsome
    exact iff_of_true rfl hsome
  · rename_i hnone
    exact iff_of_false (by simp) hnone

theorem zero_le_index (index : AddressIndex) : (⟨0, 0⟩ : AddressIndex) ≤ index := by
  show toLex (0, 0) ≤ toLex (index.majI, index.minI)
  rw [Prod.Lex.toLex_le_toLex]
  rcases Nat.eq_zero_or_pos index.majI with hzero | hpos
  · exact .inr ⟨hzero.symm, Nat.zero_le _⟩
  · exact .inl hpos

theorem spendableLe_iff {a b : OutputId × AddressIndex} : spendableLe a b ↔ a.1 < b.1 ∨ a.1 = b.1 ∧ a.2 ≤ b.2 :=
  Prod.Lex.toLex_le_toLex

/-- The primary address is the least recipient, so the search stops at the first pair of the output. -/
theorem searchable_le (id : OutputId) (entry : OutputId × AddressIndex) :
    toLex (id, (⟨0, 0⟩ : AddressIndex)) ≤ toLex entry ↔ id ≤ entry.1 := by
  rw [Prod.Lex.toLex_le_toLex, le_iff_lt_or_eq (a := id)]
  simp only [zero_le_index, and_true]

theorem Account.getSpendable_eq_some {user : Account} (h : user.Sorted) (id : OutputId) (index : AddressIndex) :
    user.getSpendable id = some index ↔
      (id, index) ∈ user.spendable ∧ ∀ index', (id, index') ∈ user.spendable → index ≤ index' := by
  unfold Account.getSpendable
  simp only [searchable_le]
  cases hfind : user.spendable.find? fun entry => decide (id ≤ entry.1) with
  | none =>
    refine iff_of_false (by simp) fun hmem => ?_
    simpa using List.find?_eq_none.mp hfind _ hmem.1
  | some entry =>
    obtain ⟨found, first⟩ := entry
    obtain ⟨hle, front, rest, hsplit, hfront⟩ := List.find?_eq_some_iff_append.mp hfind
    have hsorted := h.spendable
    rw [hsplit] at hsorted
    -- the first pair of the output is not above any other
    have hfirst : ∀ index', (id, index') ∈ user.spendable → spendableLe (found, first) (id, index') := by
      intro index' hmem
      rw [hsplit] at hmem
      rcases List.mem_append.mp hmem with hmem | hmem
      · simpa using hfront _ hmem
      · rcases List.mem_cons.mp hmem with heq | hmem
        · rw [heq]
          exact le_rfl
        · exact (List.pairwise_cons.mp (List.pairwise_append.mp hsorted).2.1).1 _ hmem
    have hmem : (found, first) ∈ user.spendable := List.mem_of_find?_eq_some hfind
    have hle : id ≤ found := by simpa using hle
    constructor
    · intro hsome
      obtain ⟨rfl, rfl⟩ : found = id ∧ first = index := by simpa using hsome
      refine ⟨hmem, fun index' hother => ?_⟩
      rcases spendableLe_iff.mp (hfirst index' hother) with hlt | ⟨-, hle⟩
      · exact absurd hlt (lt_irrefl _)
      · exact hle
    · rintro ⟨hin, hleast⟩
      rcases spendableLe_iff.mp (hfirst index hin) with hlt | ⟨rfl, hle'⟩
      · exact absurd hlt (not_lt.mpr hle)
      · simpa using le_antisymm hle' (hleast first hmem)

theorem perm_insert_concat {α : Type} (le : α → α → Prop) [DecidableRel le] {xs ys : List α} (h : xs.Perm ys) (a : α) :
    (xs.orderedInsert le a).Perm (ys ++ [a]) := by
  have hinsert := (List.perm_orderedInsert le a xs).trans (h.cons a)
  exact hinsert.trans (List.perm_append_singleton a ys).symm

theorem Tracks.addOut {user user' : Account} {ledger : Ledger} {out : Output} (h : Tracks user ledger)
    (hadd : user.addOut out = some user') : Tracks user' { ledger with accepted := ledger.accepted ++ [out] } := by
  have hnew : out.pub ∉ ledger.keys := by
    rw [← h.pubs.mem_iff, ← Account.addOut_eq_none h.sorted, hadd]
    simp
  unfold Account.addOut at hadd
  split at hadd
  · cases hadd
  · cases hadd
    refine ⟨⟨h.sorted.pubs.orderedInsert _ _, h.sorted.spendable.orderedInsert _ _⟩, ?_, ?_, ?_, ?_⟩
    · simpa [Ledger.keys] using perm_insert_concat (· ≤ ·) h.pubs out.pub
    · simpa [Ledger.entries] using perm_insert_concat spendableLe h.spendable (out.spendMeta.id, out.recipient)
    · have hfresh : out.pub ∉ ledger.accepted.map (·.pub) := fun hin => hnew (List.mem_append_right _ hin)
      rw [List.map_append]
      exact List.Nodup.append h.fresh.1 (List.nodup_singleton _) (by simpa using hfresh)
    · intro o ho
      rcases List.mem_append.mp ho with ho | ho
      · exact h.fresh.2 o ho
      · rw [List.mem_singleton.mp ho]
        exact fun hin => hnew (List.mem_append_left _ hin)

/-- Lists from outside are sorted, and nothing was accepted since. -/
theorem Tracks.sorted_lists (user : Account) (spendable : List (OutputId × AddressIndex)) (pubs : List PublicKey) :
    Tracks { user with spendable := sortSpendable spendable, pubs := sortPubs pubs } ⟨pubs, spendable, []⟩ := by
  refine ⟨⟨List.pairwise_insertionSort _ _, List.pairwise_insertionSort _ _⟩, ?_, ?_, List.nodup_nil, by simp⟩
  · simpa [Ledger.keys, sortPubs] using List.perm_insertionSort (· ≤ ·) pubs
  · simpa [Ledger.entries, sortSpendable] using List.perm_insertionSort spendableLe spendable

theorem Tracks.run {state : Account × Ledger} (h : Tracks state.1 state.2) (call : AccountCall) :
    Tracks (call.run state).1 (call.run state).2 := by
  obtain ⟨user, ledger⟩ := state
  cases call with
  | construct source spendable pubs => exact Tracks.sorted_lists (.ofRow source [] []) spendable pubs
  | readBytes fields => exact Tracks.sorted_lists fields fields.spendable fields.pubs
  | addOut out =>
    simp only [AccountCall.run, Account.addOutSearch_eq h.sorted]
    cases hadd : user.addOut out with
    | none => exact h
    | some user' => exact h.addOut hadd
  | addSpend spend => exact ⟨⟨h.sorted.pubs, h.sorted.spendable⟩, h.pubs, h.spendable, h.fresh⟩
  | updated newHeight => exact ⟨⟨h.sorted.pubs, h.sorted.spendable⟩, h.pubs, h.spendable, h.fresh⟩

theorem runCalls_tracks (calls : List AccountCall) : Tracks (runCalls calls).1 (runCalls calls).2 := by
  induction calls using List.reverseRecOn with
  | nil => exact Tracks.sorted_lists .invalid [] []
  | append_singleton calls call ih =>
    rw [runCalls, List.foldl_append]
    exact ih.run call

/-- After any calls the vectors are sorted, the next output is accepted exactly when its key was
    not in the lists from outside or accepted before, and the recipient of an output is the
    least that was recorded for it. -/
theorem account_exact (calls : List AccountCall) :
    let user := (runCalls calls).1
    let ledger := (runCalls calls).2
    (user.pubs.Pairwise (· ≤ ·) ∧ user.spendable.Pairwise spendableLe) ∧
    (∀ out, (user.addOutSearch out).isSome = true ↔ out.pub ∉ ledger.keys) ∧
    ((ledger.accepted.map (·.pub)).Nodup ∧ ∀ out ∈ ledger.accepted, out.pub ∉ ledger.pubs) ∧
    ∀ id index, user.getSpendableSearch id = some index ↔
      (id, index) ∈ ledger.entries ∧ ∀ index', (id, index') ∈ ledger.entries → index ≤ index' := by
  intro user ledger
  have h := runCalls_tracks calls
  refine ⟨⟨h.sorted.pubs, h.sorted.spendable⟩, fun out => ?_, h.fresh, fun id index => ?_⟩
  · rw [Account.addOutSearch_eq h.sorted, ← h.pubs.mem_iff, ← Account.addOut_eq_none h.sorted,
        Option.isSome_iff_ne_none]
  · rw [Account.getSpendableSearch_eq h.sorted, Account.getSpendable_eq_some h.sorted]
    simp only [h.spendable.mem_iff]
    exact Iff.rfl

end Lws
