/-
  Lws.Scanner.Found — the accounts of a scanner: what is in the outputs and spends that
  `ownership_test` reports (`ownershipTest_packed`), and what every account keeps while they
  are added to it (`Produced.wellKept`).

  The flags and the length of a payment id share a byte, and what the length does not cover
  is zero. The vectors an account searches are sorted.
-/

import Lws.Db.Meaningful

namespace Lws.Db

/-! ## Widths -/

def OutputId.Sized (id : OutputId) : Prop := id.high < 2 ^ 64 ∧ id.low < 2 ^ 64

def AddressIndex.Sized (i : AddressIndex) : Prop := i.majI < 2 ^ 32 ∧ i.minI < 2 ^ 32

def AccountAddress.Sized (a : AccountAddress) : Prop := a.viewPublic < 2 ^ 256 ∧ a.spendPublic < 2 ^ 256

/-- The members of an `output` have the widths of their C++ types. -/
structure Output.Sized (o : Output) : Prop where
  height : o.link.height < 2 ^ 64
  txHash : o.link.txHash < 2 ^ 256
  id : o.spendMeta.id.Sized
  amount : o.spendMeta.amount < 2 ^ 64
  mixinCount : o.spendMeta.mixinCount < 2 ^ 32
  index : o.spendMeta.index < 2 ^ 32
  txPublic : o.spendMeta.txPublic < 2 ^ 256
  timestamp : o.timestamp < 2 ^ 64
  unlockTime : o.unlockTime < 2 ^ 64
  txPrefixHash : o.txPrefixHash < 2 ^ 256
  pub : o.pub < 2 ^ 256
  ringctMask : o.ringctMask < 2 ^ 256
  fee : o.fee < 2 ^ 64
  recipient : o.recipient.Sized

/-- The members of a `spend` do. -/
structure Spend.Sized (s : Spend) : Prop where
  height : s.link.height < 2 ^ 64
  txHash : s.link.txHash < 2 ^ 256
  image : s.image < 2 ^ 256
  source : s.source.Sized
  timestamp : s.timestamp < 2 ^ 64
  unlockTime : s.unlockTime < 2 ^ 64
  mixinCount : s.mixinCount < 2 ^ 32
  sender : s.sender.Sized

/-! ## Payment ids -/

/-- The length of a payment id, and the id. -/
def IsPaymentId (id : Nat × Nat) : Prop := id.1 ∈ [0, 8, 32] ∧ id.2 < 256 ^ id.1

def Output.Packed (o : Output) : Prop :=
  ∃ flags < 4, ∃ length, IsPaymentId (length, o.paymentId) ∧ o.extra = packExtra flags length

def Spend.Packed (s : Spend) : Prop := s.length ∈ [0, 32] ∧ s.paymentId < 256 ^ s.length

theorem Output.Packed.unpack {o : Output} (h : o.Packed) :
    (unpackExtra o.extra).1 < 4 ∧ IsPaymentId ((unpackExtra o.extra).2, o.paymentId) ∧
      o.extra = packExtra (unpackExtra o.extra).1 (unpackExtra o.extra).2 := by
  obtain ⟨flags, hflags, length, hid, hextra⟩ := h
  have hlength : length < 64 := by
    have hmem := hid.1
    simp only [List.mem_cons, List.not_mem_nil, or_false] at hmem
    omega
  rw [hextra, unpackExtra_packExtra flags hflags length hlength]
  exact ⟨hflags, hid, rfl⟩

theorem Output.Sized.meaningful {o : Output} (h : o.Sized) : o.meaningful.Sized :=
  ⟨h.height, h.txHash, h.id, h.amount, h.mixinCount, h.index, h.txPublic, h.timestamp, h.unlockTime, h.txPrefixHash, h.pub, by
    show (if o.isRingct then o.ringctMask else 0) < 2 ^ 256
    split
    · exact h.ringctMask
    · exact Nat.two_pow_pos 256, h.fee, h.recipient⟩

end Lws.Db

namespace Lws

open Lws.Db

/-! ## What a scan reports -/

def Report.Packed : Report → Prop
  | .spend s => s.Packed
  | .output o => o.Packed

/-- The payment ids that a transaction has, and that are decrypted, are of 32 and 8 bytes. -/
structure Pass.PaymentIds (p : Pass) : Prop where
  plain : IsPaymentId p.unencryptedId
  decrypted : ∀ encrypted derivation, p.monero.decryptPaymentId encrypted derivation < 256 ^ 8

section Reports

variable {p : Pass}

theorem spend_packed (hids : p.PaymentIds) (hash : Hash) (image : KeyImage) (source : OutputId) (mixin : Nat)
    (index : AddressIndex) :
    (⟨⟨p.height, hash⟩, image, source, p.timestamp, p.tx.unlockTime, mixin, p.unencryptedId.1, p.unencryptedId.2, index⟩ :
      Spend).Packed := by
  refine ⟨?_, hids.plain.2⟩
  show p.unencryptedId.1 ∈ [0, 32]
  unfold Pass.unencryptedId
  split <;> simp

theorem scanOffsets_packed (hids : p.PaymentIds) (user : Account) (amount : Nat) (image : KeyImage) (mixin : Nat)
    (offsets : List Nat) (goffset : Nat) (c : Carry) :
    ∀ r ∈ (p.scanOffsets user amount image mixin goffset offsets c).1, r.Packed := by
  induction offsets generalizing goffset c with
  | nil => intro r hr; cases hr
  | cons offset rest ih =>
    unfold Pass.scanOffsets
    dsimp only
    split
    · exact ih _ c
    · intro r hr
      rcases List.mem_cons.mp hr with rfl | hr
      · exact spend_packed hids _ image _ mixin _
      · exact ih _ _ r hr

theorem or_flag_lt {extra flag : Nat} (hextra : extra < 4) (hflag : flag < 4) : extra ||| flag < 4 :=
  Nat.or_lt_two_pow (n := 2) hextra hflag

/-- The flags after the inputs are those of `db::extra`. -/
theorem scanInputs_packed (hids : p.PaymentIds) (user : Account) (inputs : List TxIn) (mixin extra : Nat) (c : Carry)
    (hextra : extra < 4) :
    (∀ r ∈ (p.scanInputs user inputs mixin extra c).1, r.Packed) ∧ (p.scanInputs user inputs mixin extra c).2.2.1 < 4 := by
  induction inputs generalizing mixin extra c with
  | nil => exact ⟨fun r hr => (by cases hr), hextra⟩
  | cons input rest ih =>
    cases input with
    | toKey amount keyOffsets image =>
      obtain ⟨hreports, hflags⟩ := ih (max 1 keyOffsets.length - 1) extra
        (p.scanOffsets user amount image (max 1 keyOffsets.length - 1) 0 keyOffsets c).2 hextra
      refine ⟨fun r hr => ?_, hflags⟩
      rcases List.mem_append.mp hr with hr | hr
      · exact scanOffsets_packed hids user amount image _ keyOffsets 0 c r hr
      · exact hreports r hr
    | gen => exact ih mixin (extra ||| coinbaseOutput) c (or_flag_lt hextra (by decide))
    | other => exact ih mixin extra c hextra

theorem amount_flags {out : TxOut} {index derivation extra : Nat} {decoded : Nat × Nat × Nat} (hextra : extra < 4)
    (h : p.amount out index derivation extra = .ok (some decoded)) : decoded.2.2 < 4 := by
  have hringct : extra ||| ringctOutput < 4 := or_flag_lt hextra (by decide)
  unfold Pass.amount at h
  split at h
  · obtain ⟨commitment, -, h⟩ := bind_ok.mp h
    obtain ⟨info, -, h⟩ := bind_ok.mp h
    split at h
    · cases h
    · cases h
      exact hringct
  · split at h
    · cases h
      exact hringct
    · cases h
      exact hextra

theorem paymentId_valid (hids : p.PaymentIds) (derivation : Derivation) {id : Nat × Nat} (hid : IsPaymentId id) :
    IsPaymentId (p.paymentId derivation id) := by
  unfold Pass.paymentId
  split
  · split
    · exact ⟨by simp, hids.decrypted _ _⟩
    · exact hid
  · exact hid

theorem scanOutputs_packed (hids : p.PaymentIds) (user : Account) (derived : Derivation) (mixin : Nat)
    (outs : List TxOut)
    (index extra : Nat) (id : Nat × Nat) (c : Carry) (hextra : extra < 4) (hid : IsPaymentId id) {reports : List Report}
      {c' : Carry}
    (h : p.scanOutputs user derived mixin index outs extra id c = .ok (reports, c')) : ∀ r ∈ reports, r.Packed := by
  induction outs generalizing index extra id c reports c' with
  | nil =>
    cases h
    intro r hr
    cases hr
  | cons out rest ih =>
    unfold Pass.scanOutputs at h
    split at h
    · exact ih _ extra id c hextra hid h
    · obtain ⟨tagged, -, h⟩ := bind_ok.mp h
      split at h
      · exact ih _ extra id c hextra hid h
      · obtain ⟨owner?, -, h⟩ := bind_ok.mp h
        rcases owner? with _ | owner
        · exact ih _ extra id c hextra hid h
        · obtain ⟨decoded?, hamount, h⟩ := bind_ok.mp h
          rcases decoded? with _ | decoded
          · exact ih _ extra id _ hextra hid h
          · have hflags := amount_flags hextra hamount
            have hid' := paymentId_valid hids owner.derivation hid
            obtain ⟨outId, -, h⟩ := bind_ok.mp h
            obtain ⟨⟨more, c₁⟩, hrest, h⟩ := bind_ok.mp h
            cases h
            intro r hr
            rcases List.mem_cons.mp hr with rfl | hr
            · exact ⟨decoded.2.2, hflags, _, hid', rfl⟩
            · exact ih _ decoded.2.2 _ _ hflags hid' hrest r hr

theorem scanUser_packed (hids : p.PaymentIds) (user : Account) (c : Carry) {reports : List Report} {c' : Carry}
    (h : p.scanUser user c = .ok (reports, c')) : ∀ r ∈ reports, r.Packed := by
  unfold Pass.scanUser at h
  split at h
  · cases h
    intro r hr
    cases hr
  · split at h
    · cases h
      intro r hr
      cases hr
    · obtain ⟨hspends, hflags⟩ :=
        scanInputs_packed hids user p.tx.vin 0 0 { c with additional := p.additional user c } (by decide)
      obtain ⟨⟨outputs, c₁⟩, houtputs, h⟩ := bind_ok.mp h
      cases h
      intro r hr
      rcases List.mem_append.mp hr with hr | hr
      · exact hspends r hr
      · exact scanOutputs_packed hids user _ _ p.tx.vout 0 _ _ _ hflags hids.plain houtputs r hr

theorem scanUsers_packed (hids : p.PaymentIds) (users : List Account) (c : Carry) {results : List (List Report)}
    (h : p.scanUsers users c = .ok results) : ∀ reports ∈ results, ∀ r ∈ reports, r.Packed := by
  induction users generalizing c results with
  | nil =>
    cases h
    intro reports hr
    cases hr
  | cons user rest ih =>
    obtain ⟨⟨reports, c₁⟩, huser, h⟩ := bind_ok.mp h
    obtain ⟨more, hrest, h⟩ := bind_ok.mp h
    cases h
    intro reports' hr
    rcases List.mem_cons.mp hr with rfl | hr
    · exact scanUser_packed hids user c huser
    · exact ih c₁ hrest reports' hr

end Reports

/-- Every output and spend that is reported has flags and a payment id of a known length. -/
theorem ownershipTest_packed (monero : Monero) (users : List Account) (height timestamp : Nat) (txHash : Option Hash)
    (tx : Transaction) (outIds : List Nat) (hids : ∀ key, Pass.PaymentIds ⟨monero, tx, height, timestamp, outIds, key⟩)
    {results : List (List Report)} (h : ownershipTest monero users height timestamp txHash tx outIds = .ok results) :
    ∀ reports ∈ results, ∀ r ∈ reports, r.Packed := by
  unfold ownershipTest at h
  split at h
  · cases h
  · split at h
    · cases h
      intro reports hr r hin
      obtain ⟨user, -, rfl⟩ := List.mem_map.mp hr
      cases hin
    · exact scanUsers_packed (hids _) users _ h

/-! ## Accounts -/

/-- The accounts of a scanner: read from the database, added to as blocks are scanned, handed
    over, and received from another process. -/
inductive Account.Produced : Account → Prop
  | ofRow (source : Db.Account) (spendable : List (OutputId × AddressIndex)) (pubs : List PublicKey) :
      source.id < 2 ^ 32 → source.address.Sized → source.key < 2 ^ 256 → source.scanHeight < 2 ^ 64 →
      (∀ e ∈ spendable, e.1.Sized ∧ e.2.Sized) → (∀ pub ∈ pubs, pub < 2 ^ 256) →
      Produced (.ofRow source spendable pubs)
  | addOut {user user' : Account} {out : Output} : Produced user → out.Sized → out.Packed → user.addOut out = some user' →
      Produced user'
  | addSpend {user : Account} {spend : Spend} : Produced user → spend.Sized → spend.Packed → Produced (user.addSpend spend)
  | updated {user : Account} {newHeight : Nat} : Produced user → newHeight < 2 ^ 64 → Produced (user.updated newHeight)
  | received {user : Account} : Produced user → Produced user.meaningful

/-- The members of an account have their widths, and the vectors it searches are sorted. -/
structure Account.WellKept (user : Account) : Prop where
  id : user.id < 2 ^ 32
  address : user.address.Sized
  viewKey : user.viewKey < 2 ^ 256
  scanHeight : user.scanHeight < 2 ^ 64
  spendable : ∀ e ∈ user.spendable, e.1.Sized ∧ e.2.Sized
  pubs : ∀ pub ∈ user.pubs, pub < 2 ^ 256
  spends : ∀ s ∈ user.spends, s.Sized ∧ s.Packed
  outputs : ∀ o ∈ user.outputs, o.Sized ∧ o.Packed
  spendableSorted : user.spendable.Pairwise spendableLe
  pubsSorted : user.pubs.Pairwise (· ≤ ·)

theorem Account.WellKept.addOut {user user' : Account} {out : Output} (h : user.WellKept) (hsized : out.Sized)
    (hpacked : out.Packed) (hadd : user.addOut out = some user') : user'.WellKept := by
  unfold Account.addOut at hadd
  split at hadd
  · cases hadd
  · cases hadd
    refine ⟨h.id, h.address, h.viewKey, h.scanHeight, fun e he => ?_, fun pub hpub => ?_, h.spends, fun o ho => ?_,
      h.spendableSorted.orderedInsert _ _, h.pubsSorted.orderedInsert _ _⟩
    · rcases (List.mem_orderedInsert _).mp he with rfl | he
      · exact ⟨hsized.id, hsized.recipient⟩
      · exact h.spendable e he
    · rcases (List.mem_orderedInsert _).mp hpub with rfl | hpub
      · exact hsized.pub
      · exact h.pubs pub hpub
    · rcases List.mem_append.mp ho with ho | ho
      · exact h.outputs o ho
      · rw [List.mem_singleton.mp ho]
        exact ⟨hsized, hpacked⟩

theorem Account.WellKept.meaningful {user : Account} (h : user.WellKept) : user.meaningful.WellKept := by
  refine ⟨h.id, h.address, h.viewKey, h.scanHeight, h.spendable, h.pubs, h.spends, fun o ho => ?_, h.spendableSorted,
    h.pubsSorted⟩
  obtain ⟨found, hfound, rfl⟩ := List.mem_map.mp ho
  obtain ⟨hsized, hpacked⟩ := h.outputs found hfound
  exact ⟨hsized.meaningful, hpacked⟩

theorem Account.Produced.wellKept {user : Account} (h : user.Produced) : user.WellKept := by
  induction h with
  | ofRow source spendable pubs hid haddress hkey hheight hspendable hpubs =>
    refine ⟨hid, haddress, hkey, hheight, fun e he => ?_, fun pub hpub => ?_, fun s hs => ?_, fun o ho => ?_,
      List.pairwise_insertionSort _ _, List.pairwise_insertionSort _ _⟩
    · exact hspendable e ((List.mem_insertionSort _).mp he)
    · exact hpubs pub ((List.mem_insertionSort _).mp hpub)
    · cases hs
    · cases ho
  | addOut _ hsized hpacked hadd ih => exact ih.addOut hsized hpacked hadd
  | @addSpend user spend _ hsized hpacked ih =>
    refine ⟨ih.id, ih.address, ih.viewKey, ih.scanHeight, ih.spendable, ih.pubs, fun s hs => ?_, ih.outputs, ih.spendableSorted,
      ih.pubsSorted⟩
    rcases List.mem_append.mp hs with hs | hs
    · exact ih.spends s hs
    · rw [List.mem_singleton.mp hs]
      exact ⟨hsized, hpacked⟩
  | updated _ hheight ih =>
    refine ⟨ih.id, ih.address, ih.viewKey, max_lt ih.scanHeight hheight, ih.spendable, ih.pubs, fun s hs => ?_, fun o ho => ?_,
      ih.spendableSorted, ih.pubsSorted⟩
    · cases hs
    · cases ho
  | received _ ih => exact ih.meaningful

/-! ## Two accounts that scan alike -/

/-- What a scanner does to an account. -/
inductive ScanStep where
  | out (out : Output)
  | spend (spend : Spend)
  | updated (newHeight : Nat)
  deriving DecidableEq, Repr

/-- An output that is not accepted changes nothing. -/
def Account.scanStep (user : Account) : ScanStep → Account
  | .out out => (user.addOut out).getD user
  | .spend spend => user.addSpend spend
  | .updated newHeight => user.updated newHeight

/-- The two cannot be told apart by scanning, whatever is done to both. -/
def ScanAlike (user user' : Account) : Prop :=
  ∀ steps : List ScanStep, let u := steps.foldl Account.scanStep user
    let u' := steps.foldl Account.scanStep user'
    (u'.id = u.id ∧ u'.address = u.address ∧ u'.viewKey = u.viewKey ∧ u'.scanHeight = u.scanHeight) ∧
      (∀ id, u'.getSpendable id = u.getSpendable id) ∧ ∀ out, (u'.addOut out).isSome = (u.addOut out).isSome

/-- Accounts with the same keys that search the same vectors. -/
structure SameIndex (user user' : Account) : Prop where
  id : user'.id = user.id
  address : user'.address = user.address
  viewKey : user'.viewKey = user.viewKey
  scanHeight : user'.scanHeight = user.scanHeight
  spendable : user'.spendable = user.spendable
  pubs : user'.pubs = user.pubs

theorem SameIndex.addOut {user user' : Account} (h : SameIndex user user') (out : Output) :
    (user'.addOut out).isSome = (user.addOut out).isSome ∧
      SameIndex ((user.addOut out).getD user) ((user'.addOut out).getD user') := by
  unfold Account.addOut
  rw [h.pubs, h.spendable]
  split
  · exact ⟨rfl, h⟩
  · exact ⟨rfl, h.id, h.address, h.viewKey, h.scanHeight, rfl, rfl⟩

theorem SameIndex.scanStep {user user' : Account} (h : SameIndex user user') (step : ScanStep) :
    SameIndex (user.scanStep step) (user'.scanStep step) := by
  cases step with
  | out out => exact (h.addOut out).2
  | spend spend => exact ⟨h.id, h.address, h.viewKey, h.scanHeight, h.spendable, h.pubs⟩
  | updated newHeight => exact ⟨h.id, h.address, h.viewKey, congrArg (max · newHeight) h.scanHeight, h.spendable, h.pubs⟩

theorem SameIndex.scan {user user' : Account} (h : SameIndex user user') (steps : List ScanStep) :
    SameIndex (steps.foldl Account.scanStep user) (steps.foldl Account.scanStep user') := by
  induction steps generalizing user user' with
  | nil => exact h
  | cons step steps ih => exact ih (h.scanStep step)

theorem SameIndex.alike {user user' : Account} (h : SameIndex user user') : ScanAlike user user' := by
  intro steps
  have hrun := h.scan steps
  refine ⟨⟨hrun.id, hrun.address, hrun.viewKey, hrun.scanHeight⟩, fun id => ?_, fun out => (hrun.addOut out).1⟩
  unfold Account.getSpendable
  rw [hrun.spendable]

theorem meaningful_alike (user : Account) : ScanAlike user user.meaningful :=
  SameIndex.alike ⟨rfl, rfl, rfl, rfl, rfl, rfl⟩

end Lws
