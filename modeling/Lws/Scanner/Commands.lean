/-
  Lws.Scanner.Commands — accounts as they are sent to a remote scanner and back
  (`src/rpc/scanner/commands.cpp`, `account::map` of `src/db/account.cpp`, `read_bytes` and
  `write_bytes` of `src/db/data.cpp`).

  The keys of the fields are numbers. A hash or key is a blob of its 32 bytes, read as the
  number they spell; a payment id is little-endian (see `Lws.Db.Data`). What is not in a
  message is zero in the record that is read, since elements of a vector are value-initialised.

  The text of an address goes along with each account. It is computed from the address by
  `address_string`, which is not in the repository, and nothing but a log reads it.
-/

import Lws.Ownership
import Lws.Wire.Msgpack

namespace Lws.Scanner

open Lws.Db Lws.Wire

def ascii (text : String) : List UInt8 := text.toList.map fun c => UInt8.ofNat c.toNat

/-! ## Numbers, hashes and keys -/

/-- An unsigned integer, or an enum read and written as one. -/
def unsigned (w : Width) : Schema Nat :=
  .convert (.uint w) (fun n => ⟨n % 2 ^ w.bits, Nat.mod_lt n (Nat.two_pow_pos w.bits)⟩) fun a => .ok a.1

/-- A type with `is_blob` of 32 bytes. -/
def key32 : Schema Nat :=
  .convert (.blob 32) (fun n => ⟨BigEndian.toBytes 32 n, BigEndian.length_toBytes 32 n⟩) fun a => .ok (BigEndian.ofBytes a.1)

def paymentBytes (length paymentId : Nat) : List UInt8 := (BigEndian.toBytes length paymentId).reverse

def paymentOfBytes (bytes : List UInt8) : Nat := BigEndian.ofBytes bytes.reverse

/-- `wire::trusted_array` has no constraints. -/
def trustedArray {α : Type} (elem : Schema α) : Schema (List α) := .array 0 sizeMax elem

/-- `WIRE_DEFINE_OBJECT` of two members. -/
def pairOf {α β γ : Type} (first second : String) (a : Schema α) (b : Schema β) (encode : γ → α × β)
    (decode : α → β → γ) :
    Schema γ :=
  .convert (.object (.required (ascii first) 0 a (.required (ascii second) 1 b .nil)))
    (fun x => ((encode x).1, (encode x).2, ())) fun (x, y, _) => .ok (decode x y)

/-- `map_output_id`. -/
def outputId : Schema OutputId :=
  pairOf "high" "low" (unsigned .w64) (unsigned .w64) (fun id => (id.high, id.low)) OutputId.mk

/-- `map_address_index`. -/
def addressIndex : Schema AddressIndex :=
  pairOf "maj_i" "min_i" (unsigned .w32) (unsigned .w32) (fun i => (i.majI, i.minI)) AddressIndex.mk

/-- `map_account_address`. -/
def accountAddress : Schema AccountAddress :=
  pairOf "spend_public" "view_public" key32 key32 (fun a => (a.spendPublic, a.viewPublic))
    fun spendPublic viewPublic => ⟨viewPublic, spendPublic⟩

/-- `map_pair` of an entry of `spendable_`. -/
def spendableEntry : Schema (OutputId × AddressIndex) := pairOf "first" "second" outputId addressIndex id Prod.mk

/-! ## Outputs -/

def txpoolId : OutputId := ⟨0, 2 ^ 64 - 1⟩

def txpoolBlock : Nat := 2 ^ 64 - 1

/-- What `wire::object` reads and writes of an `output`. -/
structure OutputFields where
  id : OutputId
  block : Nat
  index : Nat
  amount : Nat
  timestamp : Nat
  txHash : Hash
  txPrefixHash : Hash
  txPublic : PublicKey
  rctMask : Option Nat
  paymentId : Option (List UInt8)
  unlockTime : Nat
  mixinCount : Nat
  coinbase : Bool
  fee : Nat
  recipient : AddressIndex
  pub : PublicKey
  deriving DecidableEq, Repr

def outputFields : Schema OutputFields :=
  .convert
    (.object <|
      .defaulted (ascii "id") 0 outputId txpoolId inferInstance <|
      .defaulted (ascii "block") 1 (unsigned .w64) txpoolBlock inferInstance <|
      .required (ascii "index") 2 (unsigned .w32) <|
      .required (ascii "amount") 3 (unsigned .w64) <|
      .required (ascii "timestamp") 4 (unsigned .w64) <|
      .required (ascii "tx_hash") 5 key32 <|
      .required (ascii "tx_prefix_hash") 6 key32 <|
      .required (ascii "tx_public") 7 key32 <|
      .optional (ascii "rct_mask") 8 key32 <|
      .optional (ascii "payment_id") 9 .binary <|
      .required (ascii "unlock_time") 10 (unsigned .w64) <|
      .required (ascii "mixin_count") 11 (unsigned .w32) <|
      .required (ascii "coinbase") 12 .bool <|
      .required (ascii "fee") 13 (unsigned .w64) <|
      .required (ascii "recipient") 14 addressIndex <|
      .required (ascii "pub") 15 key32 .nil)
    (fun f => (f.id, f.block, f.index, f.amount, f.timestamp, f.txHash, f.txPrefixHash, f.txPublic, f.rctMask, f.paymentId,
      f.unlockTime, f.mixinCount, f.coinbase, f.fee, f.recipient, f.pub, ()))
    fun (id, block, index, amount, timestamp, txHash, txPrefixHash, txPublic, rctMask, paymentId, unlockTime, mixinCount,
      coinbase, fee, recipient, pub, _) =>
      .ok ⟨id, block, index, amount, timestamp, txHash, txPrefixHash, txPublic, rctMask, paymentId, unlockTime, mixinCount,
        coinbase, fee, recipient, pub⟩

/-- `write_bytes` of an `output`. -/
def encodeOutput (o : Output) : OutputFields :=
  let unpacked := unpackExtra o.extra
  { id := o.spendMeta.id
    block := o.link.height
    index := o.spendMeta.index
    amount := o.spendMeta.amount
    timestamp := o.timestamp
    txHash := o.link.txHash
    txPrefixHash := o.txPrefixHash
    txPublic := o.spendMeta.txPublic
    rctMask := if unpacked.1 &&& ringctOutput ≠ 0 then some o.ringctMask else none
    paymentId := if unpacked.2 = 32 ∨ unpacked.2 = 8 then some (paymentBytes unpacked.2 o.paymentId) else none
    unlockTime := o.unlockTime
    mixinCount := o.spendMeta.mixinCount
    coinbase := decide (unpacked.1 &&& coinbaseOutput ≠ 0)
    fee := o.fee
    recipient := o.recipient
    pub := o.pub }

/-- `read_bytes` of an `output`, after its fields: `pay_length` is a `std::uint8_t`. -/
def decodeOutput (f : OutputFields) : Except WireError Output :=
  let payLength := (f.paymentId.getD []).length % 256
  if payLength ≠ 0 ∧ payLength ≠ 8 ∧ payLength ≠ 32 then .error .binary
  else
    let flags := (if f.coinbase then coinbaseOutput else 0) ||| (if f.rctMask.isSome then ringctOutput else 0)
    .ok
      { link := ⟨f.block, f.txHash⟩
        spendMeta := ⟨f.id, f.amount, f.mixinCount, f.index, f.txPublic⟩
        timestamp := f.timestamp
        unlockTime := f.unlockTime
        txPrefixHash := f.txPrefixHash
        pub := f.pub
        ringctMask := f.rctMask.getD 0
        extra := packExtra flags payLength
        paymentId := paymentOfBytes ((f.paymentId.getD []).take payLength)
        fee := f.fee
        recipient := f.recipient }

def output : Schema Output := .convert outputFields encodeOutput decodeOutput

/-! ## Spends -/

/-- `map_spend`; the payment id is a `crypto::hash`. -/
def spendKeys : Fields (Nat × Hash × KeyImage × OutputId × Nat × Nat × Nat × Option (Blob 32) × AddressIndex × Unit)
    (Option Nat × Option Hash × Option KeyImage × Option OutputId × Option Nat × Option Nat × Option Nat × Option (Blob 32) ×
      Option AddressIndex × Unit) :=
  .required (ascii "height") 0 (unsigned .w64) <|
  .required (ascii "tx_hash") 1 key32 <|
  .required (ascii "image") 2 key32 <|
  .required (ascii "source") 3 outputId <|
  .required (ascii "timestamp") 4 (unsigned .w64) <|
  .required (ascii "unlock_time") 5 (unsigned .w64) <|
  .required (ascii "mixin_count") 6 (unsigned .w32) <|
  .optional (ascii "payment_id") 7 (.blob 32) <|
  .required (ascii "sender") 8 addressIndex .nil

def paymentBlob (paymentId : Nat) : Blob 32 :=
  ⟨paymentBytes 32 paymentId, by rw [paymentBytes, List.length_reverse, BigEndian.length_toBytes]⟩

def spend : Schema Spend :=
  .convert (.object spendKeys)
    (fun s => (s.link.height, s.link.txHash, s.image, s.source, s.timestamp, s.unlockTime, s.mixinCount,
      if s.length = 32 then some (paymentBlob s.paymentId) else none, s.sender, ()))
    fun (height, txHash, image, source, timestamp, unlockTime, mixinCount, paymentId, sender, _) =>
      let (length, paymentId) := paymentId.elim (0, 0) fun bytes => (32, paymentOfBytes bytes.1)
      .ok ⟨⟨height, txHash⟩, image, source, timestamp, unlockTime, mixinCount, length, paymentId, sender⟩

/-! ## Accounts -/

def accountInternal : Schema (List UInt8 × Nat × AccountAddress × SecretKey × Unit) :=
  .object <|
    .required (ascii "address") 0 .string <|
    .required (ascii "id") 1 (unsigned .w32) <|
    .required (ascii "pubs") 2 accountAddress <|
    .required (ascii "view_key") 3 key32 .nil

/-- `account::map`. -/
def accountFields : Schema ((List UInt8 × Nat × AccountAddress × SecretKey × Unit) × List (OutputId × AddressIndex) ×
    List PublicKey × List Spend × List Output × Nat × Unit) :=
  .object <|
    .required (ascii "immutable_") 0 accountInternal <|
    .onEmpty (ascii "spendable_") 1 (trustedArray spendableEntry) <|
    .onEmpty (ascii "pubs_") 2 (trustedArray key32) <|
    .onEmpty (ascii "spends_") 3 (trustedArray spend) <|
    .onEmpty (ascii "outputs_") 4 (trustedArray output) <|
    .required (ascii "height_") 5 (unsigned .w64) .nil

section Account

-- `address_string`
variable (text : AccountAddress → List UInt8)

/-- `read_bytes` and `write_bytes` of an `account`: the vectors are sorted after they are read. -/
def account : Schema Account :=
  .convert accountFields
    (fun u => ((text u.address, u.id, u.address, u.viewKey, ()), u.spendable, u.pubs, u.spends, u.outputs, u.scanHeight, ()))
    fun ((_, id, address, viewKey, _), spendable, pubs, spends, outputs, height, _) =>
      .ok ⟨id, address, viewKey, height, sortSpendable spendable, sortPubs pubs, spends, outputs⟩

/-- `map_account_update`. -/
def updateAccounts : Schema (List Account × List Hash × Unit) :=
  .object <|
    .onEmpty (ascii "users") 0 (trustedArray (account text)) <|
    .onEmpty (ascii "blocks") 1 (trustedArray key32) .nil

/-- A command that has accounts only. -/
def usersCommand : Schema (List Account × Unit) :=
  .object <| .onEmpty (ascii "users") 0 (trustedArray (account text)) .nil

/-- `map_push_accounts`. -/
def pushAccounts : Schema (List Account × Unit) := usersCommand text

/-- `map_replace_accounts`. -/
def replaceAccounts : Schema (List Account × Unit) := usersCommand text

end Account

end Lws.Scanner
