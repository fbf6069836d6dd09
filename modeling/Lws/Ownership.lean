/-
  Lws.Ownership — which outputs and inputs of a transaction are an account's
  (`src/util/ownership_test.cpp`: `ownership_test::operator()`).

  One pass over the accounts. What it keeps from one account to the next is `Carry`: the
  hashes, which are computed when first needed, and the vector of additional derivations,
  which an account overwrites, clears, or leaves as it is. `scanUser_spec` says that what
  is reported for an account depends on nothing of it; `ownershipTest_alone` that the
  reports are those of a pass over that account alone.
-/

import Lws.Account

namespace Lws

open Lws.Db

/-! ## Transactions -/

inductive TxIn where
  /-- `txin_to_key`; the offsets are relative. -/
  | toKey (amount : Nat) (keyOffsets : List Nat) (image : KeyImage)
  | gen
  | other
  deriving DecidableEq, Repr

structure TxOut where
  amount : Nat
  /-- `get_output_public_key`. -/
  publicKey : Option PublicKey
  viewTag : Option Nat
  deriving DecidableEq, Repr

/-- What `tx_extra_nonce` has. -/
structure Nonce where
  paymentId : Option Nat
  encryptedId : Option Nat
  deriving DecidableEq, Repr

/-- What the test reads of a `cryptonote::transaction`, with the fields of its `extra` found. -/
structure Transaction where
  version : Nat
  unlockTime : Nat
  vin : List TxIn
  vout : List TxOut
  publicKey : Option PublicKey
  nonce : Option Nonce
  additionalKeys : List PublicKey
  rctType : Nat
  outPk : List Nat
  ecdhInfo : List (Nat × Nat)
  fee : Nat
  deriving DecidableEq, Repr

abbrev Derivation := Nat

/-- The functions of libraries outside the repository, and the lookup of subaddresses where that is enabled. -/
structure Monero where
  generateKeyDerivation : PublicKey → SecretKey → Option Derivation
  outCanBeToAcc : Option Nat → Derivation → Nat → Bool
  deriveSubaddressPublicKey : PublicKey → Derivation → Nat → Option PublicKey
  decodeAmount : Nat → Nat × Nat → Derivation → Nat → Bool → Option (Nat × Nat)
  decryptPaymentId : Nat → Derivation → Nat
  transactionHash : Transaction → Hash
  prefixHash : Transaction → Hash
  rctIdentity : Nat
  findSubaddress : Option (Account → PublicKey → Option AddressIndex)

/-- `db::extra`. -/
def coinbaseOutput : Nat := 1
def ringctOutput : Nat := 2

def packExtra (extra length : Nat) : Nat := (extra <<< 6 ||| (length &&& 0x3f)) % 256

def unpackExtra (packed : Nat) : Nat × Nat := (packed >>> 6, packed &&& 0x3f)

theorem unpackExtra_packExtra : ∀ extra < 4, ∀ length < 64, unpackExtra (packExtra extra length) = (extra, length) := by
  decide

def rctTypeBulletproof2 : Nat := 4

/-! ## The test -/

inductive Report where
  | spend (spend : Spend)
  | output (output : Output)
  deriving DecidableEq, Repr

inductive ScanError where
  /-- "Unsupported tx version". -/
  | version
  /-- `at` past the end of a vector. -/
  | outOfRange
  deriving DecidableEq, Repr

/-- What is kept from one account to the next. -/
structure Carry where
  txHash : Option Hash
  prefixHash : Option Hash
  additional : List Derivation
  deriving DecidableEq, Repr

/-- What does not change during a pass. -/
structure Pass where
  monero : Monero
  tx : Transaction
  height : Nat
  timestamp : Nat
  outIds : List Nat
  /-- The transaction's own public key. -/
  key : PublicKey

def Pass.getTxHash (p : Pass) (c : Carry) : Hash × Carry :=
  let hash := c.txHash.getD (p.monero.transactionHash p.tx)
  (hash, { c with txHash := some hash })

def Pass.getPrefixHash (p : Pass) (c : Carry) : Hash × Carry :=
  let hash := c.prefixHash.getD (p.monero.prefixHash p.tx)
  (hash, { c with prefixHash := some hash })

/-- The payment id that is not encrypted, with its length. -/
def Pass.unencryptedId (p : Pass) : Nat × Nat :=
  match p.tx.nonce with
  | some ⟨some id, _⟩ => (32, id)
  | _ => (0, 0)

/-- One input: an offset each for the members of its ring. -/
def Pass.scanOffsets (p : Pass) (user : Account) (amount : Nat) (image : KeyImage) (mixin : Nat) :
    Nat → List Nat → Carry → List Report × Carry
  | _, [], c => ([], c)
  | goffset, offset :: rest, c =>
    let goffset := (goffset + offset) % 2 ^ 64
    match user.getSpendable ⟨amount, goffset⟩ with
    | none => p.scanOffsets user amount image mixin goffset rest c
    | some index =>
      let (hash, c) := p.getTxHash c
      let (reports, c) := p.scanOffsets user amount image mixin goffset rest c
      (.spend ⟨⟨p.height, hash⟩, image, ⟨amount, goffset⟩, p.timestamp, p.tx.unlockTime, mixin,
        p.unencryptedId.1, p.unencryptedId.2, index⟩ :: reports, c)

/-- The spends, the mixin of the last input, and whether an output is a coinbase one. -/
def Pass.scanInputs (p : Pass) (user : Account) : List TxIn → Nat → Nat → Carry → List Report × Nat × Nat × Carry
  | [], mixin, ext, c => ([], mixin, ext, c)
  | .toKey amount keyOffsets image :: rest, _, ext, c =>
    let mixin := max 1 keyOffsets.length - 1
    let (reports, c) := p.scanOffsets user amount image mixin 0 keyOffsets c
    let (more, out) := p.scanInputs user rest mixin ext c
    (reports ++ more, out)
  | .gen :: rest, mixin, ext, c => p.scanInputs user rest mixin (ext ||| coinbaseOutput) c
  | .other :: rest, mixin, ext, c => p.scanInputs user rest mixin ext c

/-- The derivation and key an output is found with, and the address that received it. -/
structure Owner where
  derivation : Derivation
  pub : PublicKey
  index : AddressIndex
  deriving DecidableEq, Repr

def Pass.attempt (p : Pass) (user : Account) (outPub : PublicKey) (index : Nat) (derivation : Derivation)
    (pub : PublicKey) :
    Option Owner := do
  let derived ← p.monero.deriveSubaddressPublicKey outPub derivation index
  if user.address.spendPublic = derived then some ⟨derivation, pub, ⟨0, 0⟩⟩
  else
    let find ← p.monero.findSubaddress
    let found ← find user derived
    some ⟨derivation, pub, found⟩

/-- `additional_derivations.at(index)`. -/
def at? {α : Type} (values : List α) (index : Nat) : Except ScanError α :=
  match values[index]? with
  | some value => .ok value
  | none => .error .outOfRange

/-- Two attempts: with the transaction's key, and with the output's own. -/
def Pass.findOwner (p : Pass) (user : Account) (derived : Derivation) (additional : List Derivation)
    (outPub : PublicKey) (index : Nat) :
    Except ScanError (Option Owner) :=
  match p.attempt user outPub index derived p.key with
  | some owner => .ok (some owner)
  | none =>
    if additional = [] then .ok none
    else do
      let derivation ← at? additional index
      let pub ← at? p.tx.additionalKeys index
      return p.attempt user outPub index derivation pub

def Pass.matchesTag (p : Pass) (derived : Derivation) (additional : List Derivation) (out : TxOut) (index : Nat) :
    Except ScanError Bool := do
  if additional ≠ [] then
    let derivation ← at? additional index
    if p.monero.outCanBeToAcc out.viewTag derivation index then return true
  return p.monero.outCanBeToAcc out.viewTag derived index

/-- The amount, the mask and the new flags; `none` where the amount does not decode. -/
def Pass.amount (p : Pass) (out : TxOut) (index : Nat) (derivation : Derivation) (ext : Nat) :
    Except ScanError (Option (Nat × Nat × Nat)) :=
  if out.amount = 0 ∧ ext &&& coinbaseOutput = 0 ∧ 1 < p.tx.version then do
    let commitment ← at? p.tx.outPk index
    let info ← at? p.tx.ecdhInfo index
    match p.monero.decodeAmount commitment info derivation index (decide (rctTypeBulletproof2 ≤ p.tx.rctType)) with
    | none => return none
    | some (amount, mask) => return some (amount, mask, ext ||| ringctOutput)
  else if 1 < p.tx.version then .ok (some (out.amount, p.monero.rctIdentity, ext ||| ringctOutput))
  else .ok (some (out.amount, p.monero.rctIdentity, ext))

/-- An account decrypts its own copy of the payment id, at its first output. -/
def Pass.paymentId (p : Pass) (derivation : Derivation) (id : Nat × Nat) : Nat × Nat :=
  match p.tx.nonce with
  | some ⟨_, some encrypted⟩ => if id.1 = 0 then (8, p.monero.decryptPaymentId encrypted derivation) else id
  | _ => id

def Pass.foundOutput (p : Pass) (hash txPrefix : Hash) (mixin index : Nat) (out : TxOut) (outPub : PublicKey)
    (outId : Nat) (owner : Owner) (decoded : Nat × Nat × Nat) (id : Nat × Nat) : Output :=
  ⟨⟨p.height, hash⟩, ⟨⟨if p.tx.version < 2 then out.amount else 0, outId⟩, decoded.1, mixin, index, owner.pub⟩,
    p.timestamp, p.tx.unlockTime, txPrefix, outPub, decoded.2.1, packExtra decoded.2.2 id.1, id.2, p.tx.fee, owner.index⟩

def Pass.scanOutputs (p : Pass) (user : Account) (derived : Derivation) (mixin : Nat) :
    Nat → List TxOut → Nat → Nat × Nat → Carry → Except ScanError (List Report × Carry)
  | _, [], _, _, c => .ok ([], c)
  | index, out :: rest, ext, id, c =>
    match out.publicKey with
    | none => p.scanOutputs user derived mixin (index + 1) rest ext id c
    | some outPub => do
      if (← p.matchesTag derived c.additional out index) = false then
        p.scanOutputs user derived mixin (index + 1) rest ext id c
      else match ← p.findOwner user derived c.additional outPub index with
      | none => p.scanOutputs user derived mixin (index + 1) rest ext id c
      | some owner =>
        let (txPrefix, c) := p.getPrefixHash c
        match ← p.amount out index owner.derivation ext with
        | none => p.scanOutputs user derived mixin (index + 1) rest ext id c
        | some decoded =>
          let id := p.paymentId owner.derivation id
          let (hash, c) := p.getTxHash c
          let outId ← at? p.outIds index
          let (reports, c) ← p.scanOutputs user derived mixin (index + 1) rest decoded.2.2 id c
          return (.output (p.foundOutput hash txPrefix mixin index out outPub outId owner decoded id) :: reports, c)

/-- The additional derivations: filled, cleared where one fails, or left as they are. -/
def Pass.additional (p : Pass) (user : Account) (c : Carry) : List Derivation :=
  if p.monero.findSubaddress.isSome ∧ p.tx.additionalKeys.length = p.tx.vout.length then
    (p.tx.additionalKeys.mapM fun key => p.monero.generateKeyDerivation key user.viewKey).getD []
  else c.additional

def Pass.scanUser (p : Pass) (user : Account) (c : Carry) : Except ScanError (List Report × Carry) :=
  if p.height ≤ user.scanHeight then .ok ([], c)
  else match p.monero.generateKeyDerivation p.key user.viewKey with
    | none => .ok ([], c)
    | some derived => do
      let c := { c with additional := p.additional user c }
      let (spends, mixin, ext, c) := p.scanInputs user p.tx.vin 0 0 c
      let (outputs, c) ← p.scanOutputs user derived mixin 0 p.tx.vout ext p.unencryptedId c
      return (spends ++ outputs, c)

def Pass.scanUsers (p : Pass) : List Account → Carry → Except ScanError (List (List Report))
  | [], _ => .ok []
  | user :: rest, c => do
    let (reports, c) ← p.scanUser user c
    let more ← p.scanUsers rest c
    return reports :: more

def ownershipTest (monero : Monero) (users : List Account) (height timestamp : Nat) (txHash : Option Hash)
    (tx : Transaction) (outIds : List Nat) : Except ScanError (List (List Report)) :=
  if 2 < tx.version then .error .version
  else match tx.publicKey with
    | none => .ok (users.map fun _ => [])
    | some key => Pass.scanUsers ⟨monero, tx, height, timestamp, outIds, key⟩ users ⟨txHash, none, []⟩

/-! ## One account does not see the others -/

/-- The rct data and the ids are there for all outputs. -/
structure Covers (tx : Transaction) (outIds : List Nat) : Prop where
  ids : tx.vout.length ≤ outIds.length
  rct : 1 < tx.version → tx.vout.length ≤ tx.outPk.length ∧ tx.vout.length ≤ tx.ecdhInfo.length

/-- What can be seen of the carry: not whether a hash is computed yet. -/
def Pass.view (p : Pass) (c : Carry) : Hash × Hash × List Derivation :=
  (c.txHash.getD (p.monero.transactionHash p.tx), c.prefixHash.getD (p.monero.prefixHash p.tx), c.additional)

section Alone

variable {p : Pass} {v : Hash × Hash × List Derivation}

@[simp] theorem getTxHash_fst (c : Carry) : (p.getTxHash c).1 = (p.view c).1 := rfl
@[simp] theorem getTxHash_view (c : Carry) : p.view (p.getTxHash c).2 = p.view c := rfl
@[simp] theorem getPrefixHash_fst (c : Carry) : (p.getPrefixHash c).1 = (p.view c).2.1 := rfl
@[simp] theorem getPrefixHash_view (c : Carry) : p.view (p.getPrefixHash c).2 = p.view c := rfl

theorem at?_ok {α : Type} {values : List α} {index : Nat} (h : index < values.length) :
    ∃ value, at? values index = .ok value :=
  ⟨values[index], by simp [at?, h]⟩

theorem scanOffsets_spec (user : Account) (amount : Nat) (image : KeyImage) (mixin : Nat) :
    ∀ (offsets : List Nat) (goffset : Nat),
    ∃ reports, ∀ c, p.view c = v → ∃ c', p.scanOffsets user amount image mixin goffset offsets c = (reports, c') ∧
      p.view c' = v := by
  intro offsets
  induction offsets with
  | nil => intro goffset; exact ⟨[], fun c hc => ⟨c, rfl, hc⟩⟩
  | cons offset rest ih =>
    intro goffset
    obtain ⟨reports, hrest⟩ := ih ((goffset + offset) % 2 ^ 64)
    cases hfound : user.getSpendable ⟨amount, (goffset + offset) % 2 ^ 64⟩ with
    | none =>
      refine ⟨reports, fun c hc => ?_⟩
      obtain ⟨c', hrun, hc'⟩ := hrest c hc
      exact ⟨c', by simp only [Pass.scanOffsets, hfound, hrun], hc'⟩
    | some index =>
      refine ⟨.spend ⟨⟨p.height, v.1⟩, image, ⟨amount, (goffset + offset) % 2 ^ 64⟩, p.timestamp, p.tx.unlockTime, mixin,
        p.unencryptedId.1, p.unencryptedId.2, index⟩ :: reports, fun c hc => ?_⟩
      obtain ⟨c', hrun, hc'⟩ := hrest (p.getTxHash c).2 (by simpa using hc)
      exact ⟨c', by simp only [Pass.scanOffsets, hfound, hrun, hc, getTxHash_fst], hc'⟩

theorem scanInputs_spec (user : Account) : ∀ (inputs : List TxIn) (mixin ext : Nat), ∃ reports mixin' ext',
    ∀ c, p.view c = v → ∃ c', p.scanInputs user inputs mixin ext c = (reports, mixin', ext', c') ∧ p.view c' = v := by
  intro inputs
  induction inputs with
  | nil => intro mixin ext; exact ⟨[], mixin, ext, fun c hc => ⟨c, rfl, hc⟩⟩
  | cons input rest ih =>
    intro mixin ext
    cases input with
    | toKey amount keyOffsets image =>
      obtain ⟨reports, hone⟩ := @scanOffsets_spec p v user amount image (max 1 keyOffsets.length - 1) keyOffsets 0
      obtain ⟨more, mixin', ext', hrest⟩ := ih (max 1 keyOffsets.length - 1) ext
      refine ⟨reports ++ more, mixin', ext', fun c hc => ?_⟩
      obtain ⟨c₁, hrun, hc₁⟩ := hone c hc
      obtain ⟨c₂, hrun₂, hc₂⟩ := hrest c₁ hc₁
      exact ⟨c₂, by simp [Pass.scanInputs, hrun, hrun₂], hc₂⟩
    | gen => exact ih mixin (ext ||| coinbaseOutput)
    | other => exact ih mixin ext

/-- The additional derivations are none, or one for each output. -/
def Pass.Filled (p : Pass) (additional : List Derivation) : Prop :=
  additional = [] ∨ (additional.length = p.tx.vout.length ∧ p.tx.additionalKeys.length = p.tx.vout.length)

section Outputs

variable {index : Nat} (hindex : index < p.tx.vout.length)

include hindex

theorem matchesTag_ok {additional : List Derivation} (hfilled : p.Filled additional) (derived : Derivation)
    (out : TxOut) :
    ∃ matched, p.matchesTag derived additional out index = .ok matched := by
  unfold Pass.matchesTag
  split
  · rename_i hne
    obtain ⟨hlen, _⟩ := hfilled.resolve_left hne
    obtain ⟨derivation, hat⟩ := @at?_ok _ additional index (by omega)
    simp only [hat, bind, Except.bind, pure, Except.pure]
    split
    · exact ⟨_, rfl⟩
    · exact ⟨_, rfl⟩
  · exact ⟨_, rfl⟩

theorem findOwner_ok {additional : List Derivation} (hfilled : p.Filled additional) (user : Account)
    (derived : Derivation)
    (outPub : PublicKey) : ∃ owner, p.findOwner user derived additional outPub index = .ok owner := by
  unfold Pass.findOwner
  split
  · exact ⟨_, rfl⟩
  · split
    · exact ⟨_, rfl⟩
    · rename_i hne
      obtain ⟨hlen, hkeys⟩ := hfilled.resolve_left hne
      obtain ⟨derivation, hat⟩ := @at?_ok _ additional index (by omega)
      obtain ⟨pub, hpub⟩ := @at?_ok _ p.tx.additionalKeys index (by omega)
      rw [hat, hpub]
      exact ⟨_, rfl⟩

theorem amount_ok (hcovers : Covers p.tx p.outIds) (out : TxOut) (derivation : Derivation) (ext : Nat) :
    ∃ amount, p.amount out index derivation ext = .ok amount := by
  unfold Pass.amount
  split
  · rename_i hrct
    obtain ⟨hpk, hinfo⟩ := hcovers.rct hrct.2.2
    obtain ⟨commitment, hat⟩ := @at?_ok _ p.tx.outPk index (by omega)
    obtain ⟨info, hat'⟩ := @at?_ok _ p.tx.ecdhInfo index (by omega)
    simp only [hat, hat', bind, Except.bind, pure, Except.pure]
    split
    · exact ⟨_, rfl⟩
    · exact ⟨_, rfl⟩
  · split
    · exact ⟨_, rfl⟩
    · exact ⟨_, rfl⟩

end Outputs

/-- What is reported of the outputs depends on what can be seen of the carry alone. -/
theorem scanOutputs_spec (hcovers : Covers p.tx p.outIds) (hfilled : p.Filled v.2.2) (user : Account)
    (derived : Derivation)
    (mixin : Nat) : ∀ (outs : List TxOut) (index ext : Nat) (id : Nat × Nat), index + outs.length = p.tx.vout.length →
    ∃ reports, ∀ c, p.view c = v → ∃ c', p.scanOutputs user derived mixin index outs ext id c = .ok (reports, c') ∧
      p.view c' = v := by
  intro outs
  induction outs with
  | nil => intro index ext id _; exact ⟨[], fun c hc => ⟨c, rfl, hc⟩⟩
  | cons out rest ih =>
    intro index ext id hlen
    rw [List.length_cons] at hlen
    have hindex : index < p.tx.vout.length := by omega
    have hrest := fun ext id => ih (index + 1) ext id (by omega)
    obtain ⟨skipped, hskip⟩ := hrest ext id
    cases hpub : out.publicKey with
    | none => exact ⟨skipped, fun c hc => by simpa [Pass.scanOutputs, hpub] using hskip c hc⟩
    | some outPub =>
    obtain ⟨matched, hmatch⟩ := matchesTag_ok hindex hfilled derived out
    obtain ⟨owner, howner⟩ := findOwner_ok hindex hfilled user derived outPub
    have hadditional : ∀ c, p.view c = v → c.additional = v.2.2 := fun c hc => by rw [← hc]; rfl
    cases matched with
    | false =>
      refine ⟨skipped, fun c hc => ?_⟩
      simpa [Pass.scanOutputs, hpub, hadditional c hc, hmatch, bind, Except.bind] using hskip c hc
    | true =>
    cases owner with
    | none =>
      refine ⟨skipped, fun c hc => ?_⟩
      simpa [Pass.scanOutputs, hpub, hadditional c hc, hmatch, howner, bind, Except.bind] using hskip c hc
    | some owner =>
    obtain ⟨amount, hamount⟩ := amount_ok hindex hcovers out owner.derivation ext
    cases amount with
    | none =>
      refine ⟨skipped, fun c hc => ?_⟩
      simpa [Pass.scanOutputs, hpub, hadditional c hc, hmatch, howner, hamount, bind, Except.bind] using
        hskip (p.getPrefixHash c).2 hc
    | some decoded =>
      obtain ⟨outId, hid⟩ := @at?_ok _ p.outIds index (Nat.lt_of_lt_of_le hindex hcovers.ids)
      obtain ⟨reports, hreports⟩ := hrest decoded.2.2 (p.paymentId owner.derivation id)
      refine ⟨.output (p.foundOutput v.1 v.2.1 mixin index out outPub outId owner decoded (p.paymentId owner.derivation id)) ::
        reports, fun c hc => ?_⟩
      obtain ⟨c', hrun, hc'⟩ := hreports (p.getTxHash (p.getPrefixHash c).2).2 (by simpa using hc)
      refine ⟨c', ?_, hc'⟩
      simp [Pass.scanOutputs, hpub, hadditional c hc, hmatch, howner, hamount, hid, hrun, hc, bind, Except.bind, pure,
        Except.pure]

/-- What an account needs of the carry. -/
structure Pass.CarryOk (p : Pass) (hash : Hash) (c : Carry) : Prop where
  txHash : (p.view c).1 = hash
  prefixHash : (p.view c).2.1 = p.monero.prefixHash p.tx
  additional : ¬ (p.monero.findSubaddress.isSome ∧ p.tx.additionalKeys.length = p.tx.vout.length) → c.additional = []

theorem length_mapM {α β : Type} {f : α → Option β} :
    ∀ {as : List α} {bs : List β}, as.mapM f = some bs → bs.length = as.length := by
  intro as
  induction as with
  | nil => intro bs h; simp at h; simp [← h]
  | cons a as ih =>
    intro bs h
    simp only [List.mapM_cons, bind, Option.bind_eq_some_iff, pure, Option.some.injEq] at h
    obtain ⟨b, _, bs', hbs, rfl⟩ := h
    simp [ih hbs]

/-- Each account has the additional derivations it would have alone. -/
theorem additional_spec {hash : Hash} (user : Account) : ∃ additional, p.Filled additional ∧
    ∀ c, p.CarryOk hash c → p.additional user c = additional := by
  by_cases husable : p.monero.findSubaddress.isSome ∧ p.tx.additionalKeys.length = p.tx.vout.length
  · refine ⟨(p.tx.additionalKeys.mapM fun key => p.monero.generateKeyDerivation key user.viewKey).getD [], ?_, fun c _ => ?_⟩
    · cases hall : p.tx.additionalKeys.mapM fun key => p.monero.generateKeyDerivation key user.viewKey with
      | none => exact Or.inl rfl
      | some derivations => exact Or.inr ⟨by simp [length_mapM hall, husable.2], husable.2⟩
    · rw [Pass.additional, if_pos husable]
  · refine ⟨[], Or.inl rfl, fun c hc => ?_⟩
    rw [Pass.additional, if_neg husable, hc.additional husable]

/-- The reports for an account, and a carry that is as good as the one before. -/
theorem scanUser_spec {hash : Hash} (hcovers : Covers p.tx p.outIds) (user : Account) :
    ∃ reports, ∀ c, p.CarryOk hash c →
    ∃ c', p.scanUser user c = .ok (reports, c') ∧ p.CarryOk hash c' := by
  by_cases hheight : p.height ≤ user.scanHeight
  · exact ⟨[], fun c hc => ⟨c, by simp [Pass.scanUser, hheight], hc⟩⟩
  cases hderived : p.monero.generateKeyDerivation p.key user.viewKey with
  | none => exact ⟨[], fun c hc => ⟨c, by simp [Pass.scanUser, hheight, hderived], hc⟩⟩
  | some derived =>
    obtain ⟨additional, hfilled, hadditional⟩ := @additional_spec p hash user
    obtain ⟨spends, mixin, ext, hinputs⟩ := @scanInputs_spec p (hash, p.monero.prefixHash p.tx, additional) user p.tx.vin 0 0
    obtain ⟨outputs, houtputs⟩ := @scanOutputs_spec p (hash, p.monero.prefixHash p.tx, additional) hcovers hfilled user derived
      mixin p.tx.vout 0 ext p.unencryptedId (Nat.zero_add _)
    refine ⟨spends ++ outputs, fun c hc => ?_⟩
    obtain ⟨c₁, hrun₁, hc₁⟩ := hinputs { c with additional := p.additional user c } (by
      rw [hadditional c hc, ← hc.txHash, ← hc.prefixHash]; rfl)
    obtain ⟨c₂, hrun₂, hc₂⟩ := houtputs c₁ hc₁
    refine ⟨c₂, ?_, ⟨by rw [hc₂], by rw [hc₂], fun husable => ?_⟩⟩
    · simp [Pass.scanUser, hheight, hderived, hrun₁, hrun₂, bind, Except.bind, pure, Except.pure]
    · have hkept : p.additional user c = additional := hadditional c hc
      rw [Pass.additional, if_neg husable, hc.additional husable] at hkept
      have hlast : (p.view c₂).2.2 = additional := by rw [hc₂]
      rw [hkept]
      exact hlast

end Alone

theorem ownershipTest_map {monero : Monero} {height timestamp : Nat} {txHash : Option Hash} {tx : Transaction}
    {outIds : List Nat} (hcovers : Covers tx outIds) (hversion : ¬ 2 < tx.version) :
    ∃ alone : Account → List Report, ∀ users,
      ownershipTest monero users height timestamp txHash tx outIds = .ok (users.map alone) := by
  simp only [ownershipTest, if_neg hversion]
  cases tx.publicKey with
  | none => exact ⟨fun _ => [], fun users => rfl⟩
  | some key =>
    dsimp only
    generalize hp : (⟨monero, tx, height, timestamp, outIds, key⟩ : Pass) = p
    have hcovers' : Covers p.tx p.outIds := by rw [← hp]; exact hcovers
    choose alone halone using fun user => @scanUser_spec p (txHash.getD (p.monero.transactionHash p.tx)) hcovers' user
    refine ⟨alone, fun users => ?_⟩
    have hall : ∀ (users : List Account) (c : Carry), p.CarryOk (txHash.getD (p.monero.transactionHash p.tx)) c →
        p.scanUsers users c = .ok (users.map alone) := by
      intro users
      induction users with
      | nil => intro c _; rfl
      | cons user rest ih =>
        intro c hc
        obtain ⟨c', hrun, hc'⟩ := halone user c hc
        simp [Pass.scanUsers, hrun, ih c' hc', bind, Except.bind, pure, Except.pure]
    exact hall users ⟨txHash, none, []⟩ ⟨rfl, rfl, fun _ => rfl⟩

/-- Where the transaction's data covers its outputs, what is reported for a user is what a pass over that user alone
    reports, whatever the others are and in whatever order. -/
theorem ownershipTest_alone (monero : Monero) (height timestamp : Nat) (txHash : Option Hash) (tx : Transaction)
    (outIds : List Nat) (hcovers : Covers tx outIds) :
    (∀ users, ownershipTest monero users height timestamp txHash tx outIds = .error .version) ∨
      ∀ users, ∃ results, ownershipTest monero users height timestamp txHash tx outIds = .ok results ∧
        (∀ (i : Nat) (user : Account), users[i]? = some user → ∃ reports, results[i]? = some reports ∧
          ownershipTest monero [user] height timestamp txHash tx outIds = .ok [reports]) ∧
        ∀ users', users.Perm users' → ∃ results', ownershipTest monero users' height timestamp txHash tx outIds = .ok results' ∧
          (users.zip results).Perm (users'.zip results') := by
  by_cases hversion : 2 < tx.version
  · exact Or.inl fun users => by rw [ownershipTest, if_pos hversion]
  obtain ⟨alone, halone⟩ := @ownershipTest_map monero height timestamp txHash tx outIds hcovers hversion
  refine Or.inr fun users => ⟨users.map alone, halone users, fun i user hi => ⟨alone user, ?_, halone [user]⟩,
    fun users' hperm => ⟨users'.map alone, halone users', ?_⟩⟩
  · simp [hi]
  · have hzip : ∀ users : List Account, users.zip (users.map alone) = users.map fun user => (user, alone user) := by
      intro users
      induction users with
      | nil => rfl
      | cons user rest ih => simp [ih]
    rw [hzip, hzip]
    exact hperm.map _

/-! ## Two accounts and an encrypted payment id -/

/-- Keys are numbers, and a derivation is the product of both. -/
def sampleMonero : Monero where
  generateKeyDerivation key view := some (key * view)
  outCanBeToAcc tag derivation _ := tag = none ∨ tag = some (derivation % 256)
  deriveSubaddressPublicKey outPub derivation _ := if derivation ≤ outPub then some (outPub - derivation) else none
  decodeAmount commitment info derivation _ _ :=
    if commitment = info.1 ^^^ derivation then some (info.1 ^^^ derivation, info.2) else none
  decryptPaymentId encrypted derivation := encrypted ^^^ derivation
  transactionHash tx := 1000 + tx.fee
  prefixHash tx := 2000 + tx.fee
  rctIdentity := 1
  findSubaddress := none

/-- An output each for the keys 100 and 200, and an input that spends output 15. -/
def sampleTx : Transaction :=
  ⟨2, 0, [.toKey 0 [11, 4] 77], [⟨0, some 121, none⟩, ⟨0, some 235, some 35⟩], some 7, some ⟨none, some 9⟩, [], 6, [21, 35],
    [(0, 5), (0, 6)], 30⟩

def sender : Account := ⟨1, ⟨1001, 100⟩, 3, 5, [(⟨0, 15⟩, ⟨0, 0⟩)], [], [], []⟩
def receiver : Account := ⟨2, ⟨1002, 200⟩, 5, 5, [], [], [], []⟩

theorem ownershipTest_alone_two : ∃ results,
    ownershipTest sampleMonero [sender, receiver] 10 60 none sampleTx [500, 501] = .ok results ∧
      ∃ reports, results[1]? = some reports ∧
        ownershipTest sampleMonero [receiver] 10 60 none sampleTx [500, 501] = .ok [reports] := by
  rcases ownershipTest_alone sampleMonero 10 60 none sampleTx [500, 501] ⟨by decide, by decide⟩ with h | h
  · exact absurd (h []) (by decide)
  · obtain ⟨results, hrun, hone, _⟩ := h [sender, receiver]
    exact ⟨results, hrun, hone 1 receiver rfl⟩

end Lws
