/-
  Lws.Scanner.Blocks — the scan of a reply of blocks (`src/scanner.cpp`: `add_spend`,
  `add_output`, the block loop of `scanner::loop`).

  Every transaction of a block is tested against all accounts of the thread, and what is
  reported for an account is added to it before the next transaction.

  - `scanBlocks_each`: when a reply goes through, every account is left as it would be
    had it been scanned alone.
  - `scanBlocks_base`: what is found for an account above its scan height depends on what
    it can spend and has received, and on nothing else that was found before.
  - `Indexed.scanBlocks`: the vectors of an account hold what it was started with, and what
    was found since.
-/

import Lws.Ownership
import Lws.Scanner.Found

namespace Lws.Scanner

open Lws.Db

/-! ## The loop -/

/-- A transaction of a block; the miner's comes without a hash. -/
structure BlockTx where
  hash : Option Hash
  tx : Transaction
  outIds : List Nat
  deriving DecidableEq, Repr

/-- An entry of `get_blocks_fast`, with its output indices. -/
structure BlockData where
  /-- `get_block_hash`. -/
  hash : Hash
  timestamp : Nat
  txHashes : List Hash
  minerTx : Transaction
  transactions : List Transaction
  indices : List (List Nat)
  deriving DecidableEq, Repr

inductive BlockError where
  /-- "Bad daemon response - need same number of txes and tx hashes". -/
  | hashes
  /-- "Bad daemon response - missing /coinbase tx indices". -/
  | coinbase
  /-- "Bad daemon respnse - need same number of txes and indices". -/
  | indices
  | test (error : ScanError)
  deriving DecidableEq, Repr

def stepOf : Report → ScanStep
  | .spend spend => .spend spend
  | .output out => .out out

/-- `add_spend` and `add_output`, for all that was reported. -/
def deliver (user : Account) (reports : List Report) : Account := (reports.map stepOf).foldl Account.scanStep user

def scanTransaction (monero : Monero) (height timestamp : Nat) (t : BlockTx) (users : List Account) :
    Except ScanError (List Account) := do
  let results ← ownershipTest monero users height timestamp t.hash t.tx t.outIds
  return users.zipWith deliver results

/-- What `find_subaddress` answers for an id and a key, at a transaction of a block: the table
    can change between two of them. -/
abbrev Lookup := Nat → Nat → Nat → PublicKey → Option AddressIndex

abbrev Find := Option (Account → PublicKey → Option AddressIndex)

def setFind (lib : Monero) (find : Find) : Monero := { lib with findSubaddress := find }

/-- The functions that transaction `i` of a block is tested with. -/
def testWith (lib : Monero) (lookup : Lookup) (height i : Nat) : Monero :=
  setFind lib (lib.findSubaddress.map fun _ user key => lookup height i user.id key)

/-- The transactions of a block from `i` on. -/
def scanTransactions (lib : Monero) (lookup : Lookup) (height timestamp : Nat) :
    Nat → List BlockTx → List Account → Except ScanError (List Account)
  | _, [], users => .ok users
  | i, t :: rest, users => do
    let users ← scanTransaction (testWith lib lookup height i) height timestamp t users
    scanTransactions lib lookup height timestamp (i + 1) rest users

def combine : List Hash → List Transaction → List (List Nat) → List BlockTx
  | hash :: hashes, tx :: txes, outIds :: indices => ⟨some hash, tx, outIds⟩ :: combine hashes txes indices
  | _, _, _ => []

def scanBlock (lib : Monero) (lookup : Lookup) (height : Nat) (block : BlockData) (users : List Account) :
    Except BlockError (List Account) :=
  if block.txHashes.length ≠ block.transactions.length then .error .hashes
  else match block.indices with
  | [] => .error .coinbase
  | coinbase :: indices => do
    let users ← (scanTransaction (testWith lib lookup height 0) height block.timestamp
      ⟨none, block.minerTx, coinbase⟩ users).mapError .test
    if block.transactions.length ≠ indices.length then .error .indices
    else (scanTransactions lib lookup height block.timestamp 1
      (combine block.txHashes block.transactions indices) users).mapError .test

def scanBlocks (lib : Monero) (lookup : Lookup) :
    Nat → List BlockData → List Account → Except BlockError (List Account)
  | _, [], users => .ok users
  | start, block :: rest, users => do
    let users ← scanBlock lib lookup (start + 1) block users
    scanBlocks lib lookup (start + 1) rest users

/-! ## One account -/

def reportsOf (monero : Monero) (height timestamp : Nat) (t : BlockTx) (user : Account) : List Report :=
  match ownershipTest monero [user] height timestamp t.hash t.tx t.outIds with
  | .ok [reports] => reports
  | _ => []

def BlockData.txes (block : BlockData) : List BlockTx :=
  match block.indices with
  | [] => []
  | coinbase :: indices => ⟨none, block.minerTx, coinbase⟩ :: combine block.txHashes block.transactions indices

def passTxes (lib : Monero) (lookup : Lookup) (height timestamp : Nat) : Nat → List BlockTx → Account → Account
  | _, [], user => user
  | i, t :: rest, user =>
    passTxes lib lookup height timestamp (i + 1) rest
      (deliver user (reportsOf (testWith lib lookup height i) height timestamp t user))

def pass (lib : Monero) (lookup : Lookup) : Nat → List BlockData → Account → Account
  | _, [], user => user
  | start, block :: rest, user =>
    pass lib lookup (start + 1) rest (passTxes lib lookup (start + 1) block.timestamp 0 block.txes user)

section Carry

variable {p : Pass}

/-- What is reported of the outputs, and that they are read at all, depends on what can be
    seen of the carry. -/
theorem scanOutputs_carry (user : Account) (derived : Derivation) (mixin : Nat) :
    ∀ (outs : List TxOut) (index ext : Nat) (id : Nat × Nat) (c c₁ : Carry) (reports : List Report),
      p.scanOutputs user derived mixin index outs ext id c = .ok (reports, c₁) → p.view c₁ = p.view c ∧
        ∀ c', p.view c' = p.view c → ∃ c₁', p.scanOutputs user derived mixin index outs ext id c' = .ok (reports, c₁') ∧
          p.view c₁' = p.view c := by
  intro outs
  induction outs with
  | nil =>
    intro index ext id c c₁ reports h
    cases h
    exact ⟨rfl, fun c' hc' => ⟨c', rfl, hc'⟩⟩
  | cons out rest ih =>
    intro index ext id c c₁ reports h
    have hadditional : ∀ c', p.view c' = p.view c → c'.additional = c.additional :=
      fun c' hc' => congrArg (fun v => v.2.2) hc'
    unfold Pass.scanOutputs at h
    cases hpub : out.publicKey with
    | none =>
      rw [hpub] at h
      obtain ⟨hview, hrest⟩ := ih _ _ _ _ _ _ h
      refine ⟨hview, fun c' hc' => ?_⟩
      simpa only [Pass.scanOutputs, hpub] using hrest c' hc'
    | some outPub =>
      rw [hpub] at h
      obtain ⟨matched, hmatched, h⟩ := bind_ok.mp h
      cases matched with
      | false =>
        obtain ⟨hview, hrest⟩ := ih _ _ _ _ _ _ h
        refine ⟨hview, fun c' hc' => ?_⟩
        simpa [Pass.scanOutputs, hpub, hadditional c' hc', hmatched, bind, Except.bind] using hrest c' hc'
      | true =>
        rw [if_neg Bool.noConfusion] at h
        obtain ⟨owner?, howner, h⟩ := bind_ok.mp h
        rcases owner? with _ | owner
        · obtain ⟨hview, hrest⟩ := ih _ _ _ _ _ _ h
          refine ⟨hview, fun c' hc' => ?_⟩
          simpa [Pass.scanOutputs, hpub, hadditional c' hc', hmatched, howner, bind, Except.bind] using hrest c' hc'
        · obtain ⟨decoded?, hamount, h⟩ := bind_ok.mp h
          rcases decoded? with _ | decoded
          · obtain ⟨hview, hrest⟩ := ih _ _ _ _ _ _ h
            refine ⟨hview, fun c' hc' => ?_⟩
            obtain ⟨c₁', hrun, hc₁⟩ := hrest (p.getPrefixHash c').2 hc'
            refine ⟨c₁', ?_, hc₁⟩
            simp [Pass.scanOutputs, hpub, hadditional c' hc', hmatched, howner, hamount, hrun, bind, Except.bind]
          · obtain ⟨outId, hid, h⟩ := bind_ok.mp h
            obtain ⟨⟨more, c₂⟩, hmore, h⟩ := bind_ok.mp h
            cases h
            obtain ⟨hview, hrest⟩ := ih _ _ _ _ _ _ hmore
            refine ⟨hview, fun c' hc' => ?_⟩
            obtain ⟨c₁', hrun, hc₁⟩ := hrest (p.getTxHash (p.getPrefixHash c').2).2 hc'
            refine ⟨c₁', ?_, hc₁⟩
            have hhash := congrArg (fun v => v.1) hc'
            have hprefix := congrArg (fun v => v.2.1) hc'
            simp only [Pass.view] at hhash hprefix
            simp only [Pass.getTxHash, Pass.getPrefixHash, hhash, hprefix, hadditional c' hc'] at hrun
            simp [Pass.scanOutputs, hpub, hadditional c' hc', hmatched, howner, hamount, hid, hrun, Pass.getTxHash,
              Pass.getPrefixHash, hhash, hprefix, bind, Except.bind, pure, Except.pure]

/-- An account is tested as it would be with any other carry that is as good. -/
theorem scanUser_carry {hash : Hash} {user : Account} {c c₁ : Carry} {reports : List Report} (hc : p.CarryOk hash c)
    (h : p.scanUser user c = .ok (reports, c₁)) :
    p.CarryOk hash c₁ ∧ ∀ c', p.CarryOk hash c' → ∃ c₁', p.scanUser user c' = .ok (reports, c₁') := by
  by_cases hheight : p.height ≤ user.scanHeight
  · simp only [Pass.scanUser, if_pos hheight] at h
    cases h
    exact ⟨hc, fun c' _ => ⟨c', by simp only [Pass.scanUser, if_pos hheight]⟩⟩
  cases hderived : p.monero.generateKeyDerivation p.key user.viewKey with
  | none =>
    simp only [Pass.scanUser, if_neg hheight, hderived] at h
    cases h
    exact ⟨hc, fun c' _ => ⟨c', by simp only [Pass.scanUser, if_neg hheight, hderived]⟩⟩
  | some derived =>
    obtain ⟨additional, -, hadditional⟩ := @additional_spec p hash user
    obtain ⟨spends, mixin, ext, hinputs⟩ := @scanInputs_spec p (hash, p.monero.prefixHash p.tx, additional) user p.tx.vin 0 0
    have hstart : ∀ c', p.CarryOk hash c' →
        p.view { c' with additional := p.additional user c' } = (hash, p.monero.prefixHash p.tx, additional) := by
      intro c' hc'
      rw [hadditional c' hc', ← hc'.txHash, ← hc'.prefixHash]
      rfl
    obtain ⟨c₂, hrun₂, hc₂⟩ := hinputs _ (hstart c hc)
    simp only [Pass.scanUser, if_neg hheight, hderived, hrun₂] at h
    obtain ⟨⟨outputs, c₃⟩, houtputs, h⟩ := bind_ok.mp h
    cases h
    obtain ⟨hview, hothers⟩ := scanOutputs_carry user derived mixin _ _ _ _ _ _ _ houtputs
    have hkept : p.view c₃ = (hash, p.monero.prefixHash p.tx, additional) := hview.trans hc₂
    refine ⟨⟨?_, ?_, fun husable => ?_⟩, fun c' hc' => ?_⟩
    · rw [hkept]
    · rw [hkept]
    · have hnone : p.additional user c = additional := hadditional c hc
      rw [Pass.additional, if_neg husable, hc.additional husable] at hnone
      have hlast : (p.view c₃).2.2 = additional := by rw [hkept]
      rw [hnone]
      exact hlast
    · obtain ⟨c₄, hrun₄, hc₄⟩ := hinputs _ (hstart c' hc')
      obtain ⟨c₅, hrun₅, -⟩ := hothers c₄ (hc₄.trans hc₂.symm)
      exact ⟨c₅, by simp [Pass.scanUser, hheight, hderived, hrun₄, hrun₅, bind, Except.bind, pure, Except.pure]⟩

theorem scanUsers_each {hash : Hash} {c₀ : Carry} (hc₀ : p.CarryOk hash c₀) (alone : Account → List Report)
    (halone : ∀ user reports c₁, p.scanUser user c₀ = .ok (reports, c₁) → alone user = reports) (users : List Account) :
    ∀ (c : Carry) (results : List (List Report)), p.CarryOk hash c → p.scanUsers users c = .ok results →
      results = users.map alone := by
  induction users with
  | nil =>
    intro c results _ h
    cases h
    rfl
  | cons user rest ih =>
    intro c results hc h
    obtain ⟨⟨reports, c₁⟩, huser, h⟩ := bind_ok.mp h
    obtain ⟨more, hmore, h⟩ := bind_ok.mp h
    cases h
    obtain ⟨hc₁, hothers⟩ := scanUser_carry hc huser
    obtain ⟨c₂, hfresh⟩ := hothers c₀ hc₀
    rw [List.map_cons, halone user reports c₂ hfresh, ih c₁ more hc₁ hmore]

end Carry

/-- What a pass reports for an account, when it goes through, is what it reports for it alone. -/
theorem ownershipTest_each {monero : Monero} {users : List Account} {height timestamp : Nat} {t : BlockTx}
    {results : List (List Report)}
    (h : ownershipTest monero users height timestamp t.hash t.tx t.outIds = .ok results) :
    results = users.map (reportsOf monero height timestamp t) := by
  unfold ownershipTest at h
  split at h
  · cases h
  · rename_i hversion
    split at h
    · rename_i hkey
      cases h
      refine List.map_congr_left fun user _ => ?_
      simp only [reportsOf, ownershipTest, if_neg hversion, hkey, List.map_cons, List.map_nil]
    · rename_i key hkey
      have hc : Pass.CarryOk ⟨monero, t.tx, height, timestamp, t.outIds, key⟩ (t.hash.getD (monero.transactionHash t.tx))
        ⟨t.hash, none, []⟩ := ⟨rfl, rfl, fun _ => rfl⟩
      refine scanUsers_each hc _ (fun user reports c₁ hrun => ?_) users _ results hc h
      simp [reportsOf, ownershipTest, hversion, hkey, Pass.scanUsers, hrun, bind, Except.bind, pure, Except.pure]

section Each

variable {lib : Monero} {lookup : Lookup}

theorem scanTransaction_each {monero : Monero} {height timestamp : Nat} {t : BlockTx} {users users' : List Account}
    (h : scanTransaction monero height timestamp t users = .ok users') :
    users' = users.map fun user => deliver user (reportsOf monero height timestamp t user) := by
  obtain ⟨results, hresults, h⟩ := bind_ok.mp h
  cases h
  rw [ownershipTest_each hresults, List.zipWith_map_right, List.zipWith_self]

theorem scanTransactions_each {height timestamp : Nat} (txes : List BlockTx) :
    ∀ (i : Nat) (users users' : List Account),
      scanTransactions lib lookup height timestamp i txes users = .ok users' →
        users' = users.map (passTxes lib lookup height timestamp i txes) := by
  induction txes with
  | nil =>
    intro i users users' h
    cases h
    exact (List.map_id _).symm
  | cons t rest ih =>
    intro i users users' h
    obtain ⟨mid, hmid, h⟩ := bind_ok.mp h
    rw [ih (i + 1) mid users' h, scanTransaction_each hmid, List.map_map]
    rfl

theorem mapError_ok {ε ε' α : Type} {f : ε → ε'} {x : Except ε α} {a : α} (h : x.mapError f = .ok a) : x = .ok a := by
  cases x with
  | error e => cases h
  | ok b =>
    cases h
    rfl

theorem scanBlock_each {height : Nat} {block : BlockData} {users users' : List Account}
    (h : scanBlock lib lookup height block users = .ok users') :
    users' = users.map (passTxes lib lookup height block.timestamp 0 block.txes) := by
  unfold scanBlock at h
  split at h
  · cases h
  · split at h
    · cases h
    · rename_i coinbase indices hindices
      obtain ⟨mid, hmid, h⟩ := bind_ok.mp h
      split at h
      · cases h
      · rw [scanTransactions_each _ _ _ _ (mapError_ok h), scanTransaction_each (mapError_ok hmid), List.map_map,
          BlockData.txes, hindices]
        rfl

/-- Where a reply goes through, every account is left as by a pass over it alone. -/
theorem scanBlocks_each (blocks : List BlockData) : ∀ (start : Nat) (users users' : List Account),
    scanBlocks lib lookup start blocks users = .ok users' → users' = users.map (pass lib lookup start blocks) := by
  induction blocks with
  | nil =>
    intro start users users' h
    cases h
    exact (List.map_id _).symm
  | cons block rest ih =>
    intro start users users' h
    obtain ⟨mid, hmid, h⟩ := bind_ok.mp h
    rw [ih (start + 1) mid users' h, scanBlock_each hmid, List.map_map]
    rfl

end Each

/-! ## What the next blocks depend on -/

def base (user : Account) : Account := { user with scanHeight := 0, spends := [], outputs := [] }

/-- What was found is added to what `user` had found before. -/
def extendBy (user found : Account) : Account :=
  { found with
    scanHeight := user.scanHeight
    spends := user.spends ++ found.spends
    outputs := user.outputs ++ found.outputs }

theorem extendBy_base (user : Account) : extendBy user (base user) = user := by
  simp only [extendBy, base, List.append_nil]

section Extend

variable {find find' : Find} {u u' : Account}

def withFind (p : Pass) (find : Find) : Pass := { p with monero := setFind p.monero find }

/-- The test reads of an account its keys, what it can spend, and its subaddresses. -/
structure ReadsAlike (find find' : Find) (u u' : Account) : Prop where
  address : u.address = u'.address
  viewKey : u.viewKey = u'.viewKey
  spendable : u.spendable = u'.spendable
  find : find.map (fun f => f u) = find'.map fun f => f u'

section Test

variable (h : ReadsAlike find find' u u') (p : Pass)

include h

theorem ReadsAlike.scanOffsets (amount : Nat) (image : KeyImage) (mixin : Nat) (offsets : List Nat) :
    ∀ (goffset : Nat) (c : Carry), (withFind p find).scanOffsets u amount image mixin goffset offsets c =
      (withFind p find').scanOffsets u' amount image mixin goffset offsets c := by
  have hspendable : ∀ id, u.getSpendable id = u'.getSpendable id := by
    intro id
    unfold Account.getSpendable
    rw [h.spendable]
  have hhash : ∀ c, (withFind p find).getTxHash c = (withFind p find').getTxHash c := fun c => rfl
  have hid : (withFind p find).unencryptedId = (withFind p find').unencryptedId := rfl
  have hp : (withFind p find).height = p.height ∧ (withFind p find').height = p.height := ⟨rfl, rfl⟩
  induction offsets with
  | nil => exact fun goffset c => rfl
  | cons offset rest ih =>
    intro goffset c
    simp only [Pass.scanOffsets, hspendable, ih, hhash, hid]
    rfl

theorem ReadsAlike.scanInputs (inputs : List TxIn) : ∀ (mixin ext : Nat) (c : Carry),
    (withFind p find).scanInputs u inputs mixin ext c = (withFind p find').scanInputs u' inputs mixin ext c := by
  induction inputs with
  | nil => exact fun mixin ext c => rfl
  | cons input rest ih =>
    intro mixin ext c
    cases input with
    | toKey amount keyOffsets image => simp only [Pass.scanInputs, h.scanOffsets p, ih]
    | gen => exact ih _ _ _
    | other => exact ih _ _ _

theorem ReadsAlike.attempt (outPub : PublicKey) (index : Nat) (derivation : Derivation) (pub : PublicKey) :
    (withFind p find).attempt u outPub index derivation pub = (withFind p find').attempt u' outPub index derivation pub := by
  have hfind := h.find
  unfold Pass.attempt
  rw [h.address]
  show (do
      let derived ← p.monero.deriveSubaddressPublicKey outPub derivation index
      if u'.address.spendPublic = derived then some ⟨derivation, pub, ⟨0, 0⟩⟩
      else do
        let f ← find
        let found ← f u derived
        some ⟨derivation, pub, found⟩ : Option Owner) = do
      let derived ← p.monero.deriveSubaddressPublicKey outPub derivation index
      if u'.address.spendPublic = derived then some ⟨derivation, pub, ⟨0, 0⟩⟩
      else do
        let f ← find'
        let found ← f u' derived
        some ⟨derivation, pub, found⟩
  cases find with
  | none =>
    cases find' with
    | none => rfl
    | some f' => cases hfind
  | some f =>
    cases find' with
    | none => cases hfind
    | some f' =>
      have hf : f u = f' u' := Option.some.inj hfind
      simp only [bind, Option.bind_some, hf]

theorem ReadsAlike.scanOutputs (derived : Derivation) (mixin : Nat) (outs : List TxOut) :
    ∀ (index ext : Nat) (id : Nat × Nat) (c : Carry), (withFind p find).scanOutputs u derived mixin index outs ext id c =
      (withFind p find').scanOutputs u' derived mixin index outs ext id c := by
  have hsame : (withFind p find).matchesTag = (withFind p find').matchesTag ∧
      (withFind p find).amount = (withFind p find').amount ∧
      (withFind p find).paymentId = (withFind p find').paymentId ∧
      (withFind p find).foundOutput = (withFind p find').foundOutput ∧
      (withFind p find).getTxHash = (withFind p find').getTxHash ∧
      (withFind p find).getPrefixHash = (withFind p find').getPrefixHash := ⟨rfl, rfl, rfl, rfl, rfl, rfl⟩
  obtain ⟨hmatches, hamount, hid, hfound, hhash, hprefix⟩ := hsame
  induction outs with
  | nil => exact fun index ext id c => rfl
  | cons out rest ih =>
    intro index ext id c
    simp only [Pass.scanOutputs, Pass.findOwner, h.attempt p, ih, hmatches, hamount, hid, hfound, hhash, hprefix]
    rfl

theorem ReadsAlike.scanUser (hu : u.scanHeight < p.height) (hu' : u'.scanHeight < p.height) (c : Carry) :
    (withFind p find).scanUser u c = (withFind p find').scanUser u' c := by
  have hadditional : (withFind p find).additional u c = (withFind p find').additional u' c := by
    have hsome : (withFind p find).monero.findSubaddress.isSome = (withFind p find').monero.findSubaddress.isSome := by
      have hmap := congrArg Option.isSome h.find
      rwa [Option.isSome_map, Option.isSome_map] at hmap
    simp only [Pass.additional, hsome, h.viewKey]
    rfl
  have hheight : ¬ (withFind p find).height ≤ u.scanHeight := Nat.not_le.mpr hu
  have hheight' : ¬ (withFind p find').height ≤ u'.scanHeight := Nat.not_le.mpr hu'
  simp only [Pass.scanUser, hadditional, if_neg hheight, if_neg hheight', h.viewKey, h.scanInputs p, h.scanOutputs p]
  rfl

end Test

theorem ReadsAlike.reportsOf {lib : Monero} {height timestamp : Nat} {t : BlockTx} (h : ReadsAlike find find' u u')
    (hu : u.scanHeight < height) (hu' : u'.scanHeight < height) :
    reportsOf (setFind lib find) height timestamp t u = reportsOf (setFind lib find') height timestamp t u' := by
  have hone : ∀ key c, Pass.scanUsers ⟨setFind lib find, t.tx, height, timestamp, t.outIds, key⟩ [u] c =
      Pass.scanUsers ⟨setFind lib find', t.tx, height, timestamp, t.outIds, key⟩ [u'] c := by
    intro key c
    have huser := h.scanUser ⟨lib, t.tx, height, timestamp, t.outIds, key⟩ hu hu' c
    unfold withFind at huser
    simp only [Pass.scanUsers, huser]
  simp only [Scanner.reportsOf, ownershipTest, hone, List.map_cons, List.map_nil]

theorem deliver_extendBy (user : Account) (reports : List Report) : ∀ v : Account,
    deliver (extendBy user v) reports = extendBy user (deliver v reports) := by
  induction reports with
  | nil => exact fun v => rfl
  | cons r rest ih =>
    intro v
    have hstep : (extendBy user v).scanStep (stepOf r) = extendBy user (v.scanStep (stepOf r)) := by
      cases r with
      | spend spend => simp only [stepOf, Account.scanStep, Account.addSpend, extendBy, List.append_assoc]
      | output out =>
        simp only [stepOf, Account.scanStep, Account.addOut, extendBy]
        by_cases hdup : v.pubs.find? (fun pub => out.pub ≤ pub) = some out.pub
        · simp [hdup]
        · simp [hdup]
    show deliver ((extendBy user v).scanStep (stepOf r)) rest = _
    rw [hstep, ih]
    rfl

def identity (user : Account) : Nat × AccountAddress × SecretKey × Nat :=
  (user.id, user.address, user.viewKey, user.scanHeight)

theorem deliver_identity (reports : List Report) : ∀ v : Account, identity (deliver v reports) = identity v := by
  induction reports with
  | nil => exact fun v => rfl
  | cons r rest ih =>
    intro v
    refine (ih (v.scanStep (stepOf r))).trans ?_
    cases r with
    | spend spend => rfl
    | output out =>
      simp only [stepOf, Account.scanStep, Account.addOut]
      split <;> rfl

end Extend

section Passes

variable {lib : Monero} {lookup : Lookup}

theorem passTxes_identity {height timestamp : Nat} (txes : List BlockTx) : ∀ (i : Nat) (v : Account),
    identity (passTxes lib lookup height timestamp i txes v) = identity v := by
  induction txes with
  | nil => exact fun i v => rfl
  | cons t rest ih => exact fun i v => (ih (i + 1) _).trans (deliver_identity _ v)

theorem pass_identity (blocks : List BlockData) : ∀ (start : Nat) (v : Account),
    identity (pass lib lookup start blocks v) = identity v := by
  induction blocks with
  | nil => exact fun start v => rfl
  | cons block rest ih => exact fun start v => (ih (start + 1) _).trans (passTxes_identity block.txes 0 v)

theorem scanHeight_of_identity {u v : Account} (h : identity u = identity v) : u.scanHeight = v.scanHeight :=
  congrArg (fun x => x.2.2.2) h

theorem readsAlike_testWith {lookup' : Lookup} {height i : Nat} {u u' : Account} (hid : u.id = u'.id)
    (haddress : u.address = u'.address) (hkey : u.viewKey = u'.viewKey) (hspendable : u.spendable = u'.spendable)
    (hlookup : ∀ key, lookup height i u'.id key = lookup' height i u'.id key) :
    ReadsAlike (lib.findSubaddress.map fun _ user key => lookup height i user.id key)
      (lib.findSubaddress.map fun _ user key => lookup' height i user.id key) u u' := by
  refine ⟨haddress, hkey, hspendable, ?_⟩
  rw [Option.map_map, Option.map_map]
  refine Option.map_congr fun f _ => funext fun key => ?_
  show lookup height i u.id key = _
  rw [hid]
  exact hlookup key

theorem passTxes_extendBy {height timestamp : Nat} {user : Account} (huser : user.scanHeight < height)
    (txes : List BlockTx) : ∀ (i : Nat) (v : Account), v.scanHeight < height →
      passTxes lib lookup height timestamp i txes (extendBy user v) =
        extendBy user (passTxes lib lookup height timestamp i txes v) := by
  induction txes with
  | nil => exact fun i v _ => rfl
  | cons t rest ih =>
    intro i v hv
    have halike : ReadsAlike _ _ (extendBy user v) v :=
      @readsAlike_testWith lib lookup lookup height i _ _ rfl rfl rfl rfl fun _ => rfl
    have hreports : reportsOf (testWith lib lookup height i) height timestamp t (extendBy user v) =
        reportsOf (testWith lib lookup height i) height timestamp t v := halike.reportsOf huser hv
    simp only [passTxes, hreports, deliver_extendBy]
    refine ih (i + 1) _ ?_
    rw [scanHeight_of_identity (deliver_identity _ v)]
    exact hv

theorem pass_extendBy {user : Account} (blocks : List BlockData) : ∀ (start : Nat) (v : Account),
    user.scanHeight ≤ start → v.scanHeight ≤ start →
      pass lib lookup start blocks (extendBy user v) = extendBy user (pass lib lookup start blocks v) := by
  induction blocks with
  | nil => exact fun start v _ _ => rfl
  | cons block rest ih =>
    intro start v huser hv
    simp only [pass, passTxes_extendBy (Nat.lt_succ_of_le huser) block.txes 0 v (Nat.lt_succ_of_le hv)]
    refine ih (start + 1) _ (Nat.le_succ_of_le huser) ?_
    rw [scanHeight_of_identity (passTxes_identity _ 0 v)]
    exact Nat.le_succ_of_le hv

/-- What is found above the scan height of an account depends on its base. -/
theorem pass_base {user : Account} {start : Nat} (h : user.scanHeight ≤ start) (blocks : List BlockData) :
    pass lib lookup start blocks user = extendBy user (pass lib lookup start blocks (base user)) := by
  rw [← pass_extendBy blocks start (base user) h (Nat.zero_le _), extendBy_base]

/-- Two tables that answer alike for an account above its scan height. -/
theorem pass_lookup {lookup' : Lookup} (blocks : List BlockData) : ∀ (start : Nat) (v : Account), v.scanHeight ≤ start →
    (∀ height i key, start < height → height ≤ start + blocks.length →
      lookup' height i v.id key = lookup height i v.id key) →
        pass lib lookup' start blocks v = pass lib lookup start blocks v := by
  have htxes : ∀ (height timestamp : Nat) (txes : List BlockTx) (i : Nat) (v : Account), v.scanHeight < height →
      (∀ i key, lookup' height i v.id key = lookup height i v.id key) →
        passTxes lib lookup' height timestamp i txes v = passTxes lib lookup height timestamp i txes v := by
    intro height timestamp txes
    induction txes with
    | nil => exact fun i v _ _ => rfl
    | cons t rest ih =>
      intro i v hv hlookup
      have halike : ReadsAlike _ _ v v := @readsAlike_testWith lib _ _ _ _ _ _ rfl rfl rfl rfl (hlookup i)
      have hreports : reportsOf (testWith lib lookup' height i) height timestamp t v =
          reportsOf (testWith lib lookup height i) height timestamp t v := halike.reportsOf hv hv
      have hkept := deliver_identity (reportsOf (testWith lib lookup height i) height timestamp t v) v
      simp only [passTxes, hreports]
      refine ih (i + 1) _ ?_ fun i key => ?_
      · rw [scanHeight_of_identity hkept]
        exact hv
      · rw [show (deliver v _).id = v.id from congrArg Prod.fst hkept]
        exact hlookup i key
  induction blocks with
  | nil => exact fun start v _ _ => rfl
  | cons block rest ih =>
    intro start v hv hlookup
    rw [List.length_cons] at hlookup
    have hkept := @passTxes_identity lib lookup (start + 1) block.timestamp block.txes 0 v
    simp only [pass, htxes (start + 1) block.timestamp block.txes 0 v (Nat.lt_succ_of_le hv)
      fun i key => hlookup (start + 1) i key (by omega) (by omega)]
    refine ih (start + 1) _ ?_ fun height i key hlow hle => ?_
    · rw [scanHeight_of_identity hkept]
      exact Nat.le_succ_of_le hv
    · rw [show (passTxes lib lookup (start + 1) block.timestamp 0 block.txes v).id = v.id from congrArg Prod.fst hkept]
      exact hlookup height i key (by omega) (by omega)

theorem pass_append (before after : List BlockData) : ∀ (start : Nat) (user : Account),
    pass lib lookup start (before ++ after) user =
      pass lib lookup (start + before.length) after (pass lib lookup start before user) := by
  induction before with
  | nil => exact fun start user => rfl
  | cons block rest ih =>
    intro start user
    simp only [List.cons_append, pass, ih, List.length_cons, Nat.add_right_comm, Nat.add_assoc]

theorem reportsOf_below {monero : Monero} {height timestamp : Nat} {t : BlockTx} {user : Account}
    (h : height ≤ user.scanHeight) : reportsOf monero height timestamp t user = [] := by
  unfold reportsOf ownershipTest
  split
  · rename_i reports hreports
    split at hreports
    · cases hreports
    · split at hreports
      · cases hreports
        rfl
      · simp only [Pass.scanUsers, Pass.scanUser, if_pos h] at hreports
        cases hreports
        rfl
  · rfl

/-- Blocks up to the scan height of an account are left out. -/
theorem pass_below (blocks : List BlockData) : ∀ (start : Nat) (user : Account),
    start + blocks.length ≤ user.scanHeight → pass lib lookup start blocks user = user := by
  have htxes : ∀ (height timestamp : Nat) (txes : List BlockTx) (i : Nat) (user : Account), height ≤ user.scanHeight →
      passTxes lib lookup height timestamp i txes user = user := by
    intro height timestamp txes
    induction txes with
    | nil => exact fun i user _ => rfl
    | cons t rest ih =>
      intro i user h
      simp only [passTxes, reportsOf_below h]
      exact ih (i + 1) user h
  induction blocks with
  | nil => exact fun start user _ => rfl
  | cons block rest ih =>
    intro start user h
    rw [List.length_cons] at h
    simp only [pass, htxes (start + 1) block.timestamp block.txes 0 user (by omega)]
    exact ih (start + 1) user (by omega)

end Passes

/-! ## The vectors of an account -/

instance : Std.Antisymm spendableLe := ⟨fun _ _ h h' => toLex.injective (le_antisymm h h')⟩

theorem sortSpendable_perm {l l' : List (OutputId × AddressIndex)} (h : l.Perm l') :
    sortSpendable l = sortSpendable l' :=
  List.Perm.eq_of_pairwise' (List.pairwise_insertionSort _ _) (List.pairwise_insertionSort _ _)
    ((List.perm_insertionSort _ _).trans (h.trans (List.perm_insertionSort _ _).symm))

theorem sortPubs_perm {l l' : List PublicKey} (h : l.Perm l') : sortPubs l = sortPubs l' :=
  List.Perm.eq_of_pairwise' (List.pairwise_insertionSort _ _) (List.pairwise_insertionSort _ _)
    ((List.perm_insertionSort _ _).trans (h.trans (List.perm_insertionSort _ _).symm))

def entryOf (o : Output) : OutputId × AddressIndex := (o.spendMeta.id, o.recipient)

/-- The vectors of an account are those of a list of outputs. -/
structure Indexed (user : Account) (outs : List Output) : Prop where
  spendable : user.spendable = sortSpendable (outs.map entryOf)
  pubs : user.pubs = sortPubs (outs.map (·.pub))

theorem Indexed.perm {user : Account} {outs outs' : List Output} (h : Indexed user outs) (hperm : outs.Perm outs') :
    Indexed user outs' :=
  ⟨h.spendable.trans (sortSpendable_perm (hperm.map _)), h.pubs.trans (sortPubs_perm (hperm.map _))⟩

/-- Two accounts with one identity and the same outputs have one base. -/
theorem base_congr {u v : Account} {outs : List Output} (hid : u.id = v.id) (haddress : u.address = v.address)
    (hkey : u.viewKey = v.viewKey) (hu : Indexed u outs) (hv : Indexed v outs) : base u = base v := by
  unfold base
  rw [hid, haddress, hkey, hu.spendable, hv.spendable, hu.pubs, hv.pubs]

theorem Indexed.step {v : Account} {outs : List Output} (h : Indexed v (outs ++ v.outputs)) (r : Report) :
    Indexed (v.scanStep (stepOf r)) (outs ++ (v.scanStep (stepOf r)).outputs) := by
  cases r with
  | spend spend => exact ⟨h.spendable, h.pubs⟩
  | output out =>
    simp only [stepOf, Account.scanStep, Account.addOut]
    by_cases hdup : v.pubs.find? (fun pub => out.pub ≤ pub) = some out.pub
    · simpa [hdup] using h
    · simp only [hdup, if_false, Option.getD_some]
      have hlast : (out :: (outs ++ v.outputs)).Perm (outs ++ (v.outputs ++ [out])) := by
        rw [← List.append_assoc]
        exact (List.perm_append_singleton _ _).symm
      refine Indexed.perm ⟨?_, ?_⟩ hlast
      · rw [h.spendable]
        rfl
      · rw [h.pubs]
        rfl

theorem Indexed.deliver {outs : List Output} (reports : List Report) : ∀ v : Account,
    Indexed v (outs ++ v.outputs) → Indexed (deliver v reports) (outs ++ (deliver v reports).outputs) := by
  induction reports with
  | nil => exact fun v h => h
  | cons r rest ih => exact fun v h => ih _ (h.step r)

theorem Indexed.passTxes {lib : Monero} {lookup : Lookup} {height timestamp : Nat} {outs : List Output}
    (txes : List BlockTx) : ∀ (i : Nat) (v : Account), Indexed v (outs ++ v.outputs) →
      Indexed (passTxes lib lookup height timestamp i txes v)
        (outs ++ (passTxes lib lookup height timestamp i txes v).outputs) := by
  induction txes with
  | nil => exact fun i v h => h
  | cons t rest ih => exact fun i v h => ih (i + 1) _ (h.deliver _ v)

/-- After blocks, an account searches what it started with and what was found since. -/
theorem Indexed.pass {lib : Monero} {lookup : Lookup} {outs : List Output} (blocks : List BlockData) :
    ∀ (start : Nat) (v : Account), Indexed v (outs ++ v.outputs) →
      Indexed (pass lib lookup start blocks v) (outs ++ (pass lib lookup start blocks v).outputs) := by
  induction blocks with
  | nil => exact fun start v h => h
  | cons block rest ih => exact fun start v h => ih (start + 1) _ (h.passTxes _ 0 v)

end Lws.Scanner
