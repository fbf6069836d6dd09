/-
  Lws.Scanner.Remote — accounts sent to a remote scanner and back.

  Every account a scanner has is read as it was written, the mask of an output that has none
  aside (`account_allowed`, `account_write_meaningful`): so it scans and is stored as if it
  had not been sent. The length of a payment id is narrowed to 8 bits before it is checked,
  though, so ids of 256, 264 or 288 bytes are taken for ones of 0, 8 or 32
  (`long_payment_id_accepted`).
-/

import Lws.Scanner.Commands
import Lws.Scanner.Found
import Lws.Wire.RoundTrip

namespace Lws.Scanner

open Lws.Db Lws.Wire

/-! ## Reading back what was written -/

theorem unsigned_allowed {w : Width} {n : Nat} (h : n < 2 ^ w.bits) : (unsigned w).Allowed true n :=
  ⟨trivial, congrArg Except.ok (Nat.mod_eq_of_lt h)⟩

theorem key32_allowed {n : Nat} (h : n < 2 ^ 256) : key32.Allowed true n :=
  ⟨trivial, congrArg Except.ok (BigEndian.ofBytes_toBytes_of_lt h)⟩

theorem pairOf_allowed {α β γ : Type} {first second : String} {a : Schema α} {b : Schema β} {encode : γ → α × β}
    {decode : α → β → γ} {x : γ} (ha : a.Allowed true (encode x).1) (hb : b.Allowed true (encode x).2)
    (hx : decode (encode x).1 (encode x).2 = x) : (pairOf first second a b encode decode).Allowed true x :=
  ⟨⟨ha, hb, trivial⟩, congrArg Except.ok hx⟩

theorem outputId_allowed {id : OutputId} (h : id.Sized) : outputId.Allowed true id :=
  pairOf_allowed (unsigned_allowed h.1) (unsigned_allowed h.2) rfl

theorem addressIndex_allowed {i : AddressIndex} (h : i.Sized) : addressIndex.Allowed true i :=
  pairOf_allowed (unsigned_allowed h.1) (unsigned_allowed h.2) rfl

theorem accountAddress_allowed {a : AccountAddress} (h : a.Sized) : accountAddress.Allowed true a :=
  pairOf_allowed (key32_allowed h.2) (key32_allowed h.1) rfl

theorem spendableEntry_allowed {e : OutputId × AddressIndex} (h : e.1.Sized ∧ e.2.Sized) :
    spendableEntry.Allowed true e :=
  pairOf_allowed (outputId_allowed h.1) (addressIndex_allowed h.2) rfl

/-- The counts that can be written are allowed. -/
theorem trustedArray_allowed {α : Type} {elem : Schema α} {l : List α} (hlengths : (trustedArray elem).Lengths l)
    (h : ∀ x ∈ l, elem.Lengths x → elem.Allowed true x) : (trustedArray elem).Allowed true l := by
  obtain ⟨hcount, helems⟩ := hlengths
  refine ⟨?_, longEnough_zero _ _, fun x hx => h x hx (helems x hx)⟩
  have hmax : 2 ^ 32 ≤ sizeMax := by decide
  omega

theorem paymentOfBytes_paymentBytes {length paymentId : Nat} (h : paymentId < 256 ^ length) :
    paymentOfBytes (paymentBytes length paymentId) = paymentId := by
  rw [paymentOfBytes, paymentBytes, List.reverse_reverse, BigEndian.ofBytes_toBytes_of_lt h]

theorem length_paymentBytes (length paymentId : Nat) : (paymentBytes length paymentId).length = length := by
  rw [paymentBytes, List.length_reverse, BigEndian.length_toBytes]

/-! ## Outputs and spends -/

/-- The flags are put together as they were. -/
theorem flags_eq : ∀ flags < 4, ((if decide (flags &&& coinbaseOutput ≠ 0) then coinbaseOutput else 0) |||
    (if decide (flags &&& ringctOutput ≠ 0) then ringctOutput else 0)) = flags := by
  decide

/-- The bytes that are written are as many as the length says. -/
theorem encodeOutput_paymentId {o : Output} (hid : IsPaymentId ((unpackExtra o.extra).2, o.paymentId)) :
    (encodeOutput o).paymentId.getD [] = paymentBytes (unpackExtra o.extra).2 o.paymentId := by
  show (if (unpackExtra o.extra).2 = 32 ∨ (unpackExtra o.extra).2 = 8 then
    some (paymentBytes (unpackExtra o.extra).2 o.paymentId) else none).getD [] = _
  split
  · rfl
  · rename_i hlength
    have hmem := hid.1
    simp only [List.mem_cons, List.not_mem_nil, or_false] at hmem
    have hzero : (unpackExtra o.extra).2 = 0 := by omega
    rw [hzero]
    rfl

theorem isPaymentId_narrow {length paymentId : Nat} (hid : IsPaymentId (length, paymentId)) :
    length % 256 = length ∧ ¬ (length ≠ 0 ∧ length ≠ 8 ∧ length ≠ 32) := by
  have hmem := hid.1
  simp only [List.mem_cons, List.not_mem_nil, or_false] at hmem
  omega

theorem decodeOutput_encodeOutput {o : Output} (h : o.Packed) : decodeOutput (encodeOutput o) = .ok o.meaningful := by
  obtain ⟨hflags, hid, hextra⟩ := h.unpack
  obtain ⟨hnarrow, hknown⟩ := isPaymentId_narrow hid
  have hmask : (encodeOutput o).rctMask.isSome = o.isRingct ∧
      (encodeOutput o).rctMask.getD 0 = if o.isRingct then o.ringctMask else 0 := by
    unfold encodeOutput Output.isRingct
    dsimp only
    by_cases hringct : (unpackExtra o.extra).1 &&& ringctOutput ≠ 0
    · simp [hringct]
    · simp [hringct]
  unfold decodeOutput
  rw [encodeOutput_paymentId hid, length_paymentBytes, hnarrow, if_neg hknown, hmask.1, hmask.2,
    List.take_of_length_le (Nat.le_of_eq (length_paymentBytes _ _)), paymentOfBytes_paymentBytes hid.2]
  have hpack : packExtra ((if (encodeOutput o).coinbase then coinbaseOutput else 0) |||
      (if o.isRingct then ringctOutput else 0)) (unpackExtra o.extra).2 = o.extra :=
    (congrArg (packExtra · (unpackExtra o.extra).2) (flags_eq _ hflags)).trans hextra.symm
  exact congrArg (fun extra => Except.ok { o.meaningful with extra }) hpack

theorem output_allowed {o : Output} (hsized : o.Sized) (hpacked : o.Packed) (hmask : o.meaningful = o) :
    output.Allowed true o := by
  refine ⟨⟨⟨fun _ => outputId_allowed hsized.id, fun _ => unsigned_allowed hsized.height, unsigned_allowed hsized.index,
    unsigned_allowed hsized.amount, unsigned_allowed hsized.timestamp, key32_allowed hsized.txHash,
    key32_allowed hsized.txPrefixHash, key32_allowed hsized.txPublic, fun mask hm => ?_, fun _ _ => trivial,
    unsigned_allowed hsized.unlockTime, unsigned_allowed hsized.mixinCount, trivial, unsigned_allowed hsized.fee,
    addressIndex_allowed hsized.recipient, key32_allowed hsized.pub, trivial⟩, rfl⟩, ?_⟩
  · have hsome : mask = o.ringctMask := by
      unfold encodeOutput at hm
      dsimp only at hm
      split at hm
      · cases hm
        rfl
      · cases hm
    rw [hsome]
    exact key32_allowed hsized.ringctMask
  · rw [decodeOutput_encodeOutput hpacked, hmask]

theorem spend_allowed {s : Spend} (hsized : s.Sized) (hpacked : s.Packed) : spend.Allowed true s := by
  refine ⟨⟨unsigned_allowed hsized.height, key32_allowed hsized.txHash, key32_allowed hsized.image,
    outputId_allowed hsized.source, unsigned_allowed hsized.timestamp, unsigned_allowed hsized.unlockTime,
    unsigned_allowed hsized.mixinCount, fun _ _ => trivial, addressIndex_allowed hsized.sender, trivial⟩, ?_⟩
  obtain ⟨hlength, hid⟩ := hpacked
  have hread : ((if s.length = 32 then some (paymentBlob s.paymentId) else none).elim (0, 0)
      fun bytes => (32, paymentOfBytes bytes.1)) = (s.length, s.paymentId) := by
    simp only [List.mem_cons, List.not_mem_nil, or_false] at hlength
    rcases hlength with hzero | hlong
    · rw [hzero, Nat.pow_zero, Nat.lt_one_iff] at hid
      rw [if_neg (by omega), hzero, hid]
      rfl
    · rw [hlong] at hid
      rw [if_pos hlong, hlong]
      exact congrArg (32, ·) (paymentOfBytes_paymentBytes hid)
  exact congrArg (fun id => Except.ok { s with length := id.1, paymentId := id.2 }) hread

/-! ## Accounts -/

section Account

variable {text : AccountAddress → List UInt8}

theorem account_allowed {user : Account} (h : user.WellKept) (hmask : ∀ o ∈ user.outputs, o.meaningful = o)
    (hlengths : (account text).Lengths user) : (account text).Allowed true user := by
  obtain ⟨-, hspendable, hpubs, hspends, houtputs, -⟩ := hlengths
  refine ⟨⟨⟨trivial, unsigned_allowed h.id, accountAddress_allowed h.address, key32_allowed h.viewKey, trivial⟩,
    fun hne => ?_, fun hne => ?_, fun hne => ?_, fun hne => ?_, unsigned_allowed h.scanHeight, trivial⟩, ?_⟩
  · exact trustedArray_allowed (hspendable hne) fun e he _ => spendableEntry_allowed (h.spendable e he)
  · exact trustedArray_allowed (hpubs hne) fun pub hpub _ => key32_allowed (h.pubs pub hpub)
  · exact trustedArray_allowed (hspends hne) fun s hs _ => spend_allowed (h.spends s hs).1 (h.spends s hs).2
  · exact trustedArray_allowed (houtputs hne) fun o ho _ => output_allowed (h.outputs o ho).1 (h.outputs o ho).2 (hmask o ho)
  · -- sorting what is sorted changes nothing
    have hsortedSpendable : sortSpendable user.spendable = user.spendable := h.spendableSorted.insertionSort_eq
    have hsortedPubs : sortPubs user.pubs = user.pubs := h.pubsSorted.insertionSort_eq
    show Except.ok { user with spendable := sortSpendable user.spendable, pubs := sortPubs user.pubs } = Except.ok user
    rw [hsortedSpendable, hsortedPubs]

/-! ## The mask is not written -/

theorem array_write_map {α : Type} {elem : Schema α} {f : α → α} (h : ∀ x, elem.write (f x) = elem.write x)
    (l : List α) :
    (trustedArray elem).write (l.map f) = (trustedArray elem).write l := by
  funext w
  show (do
    let w ← w.startArray (l.map f).length
    let w ← (l.map f).foldlM (fun w x => elem.write x w) w
    .ok w.done) = _
  rw [List.length_map]
  simp only [List.foldlM_map, h]
  rfl

theorem array_lengths_map {α : Type} {elem : Schema α} {f : α → α} (h : ∀ x, elem.Lengths x → elem.Lengths (f x))
    {l : List α}
    (hl : l ≠ [] → (trustedArray elem).Lengths l) (hne : l.map f ≠ []) : (trustedArray elem).Lengths (l.map f) := by
  obtain ⟨hcount, helems⟩ := hl fun he => hne (by rw [he]; rfl)
  refine ⟨by rw [List.length_map]; exact hcount, fun x hx => ?_⟩
  obtain ⟨y, hy, rfl⟩ := List.mem_map.mp hx
  exact h y (helems y hy)

/-- Two values that are written alike. -/
structure SameFields {α τ : Type} (fields : Fields α τ) (a b : α) : Prop where
  available : fields.available a = fields.available b
  write : fields.write a = fields.write b

section SameFields

variable {α β τ : Type} {name : List UInt8} {id : Nat} {rest : Fields β τ} {b b' : β}

theorem SameFields.required {value : Schema α} (a : α) (h : SameFields rest b b') :
    SameFields (.required name id value rest) (a, b) (a, b') := by
  constructor
  · simp only [Fields.available, h.available]
  · funext w
    simp only [Fields.write, h.write]

theorem SameFields.onEmpty {value : Schema (List α)} (a : List α) (h : SameFields rest b b') :
    SameFields (.onEmpty name id value rest) (a, b) (a, b') := by
  constructor
  · simp only [Fields.available, h.available]
  · funext w
    simp only [Fields.write, h.write]

theorem keepIf_map (l : List α) (f : α → α) :
    keepIf (!(l.map f).isEmpty) (l.map f) = (keepIf (!l.isEmpty) l).map (List.map f) := by
  rw [List.isEmpty_map]
  unfold keepIf
  split <;> rfl

theorem SameFields.onEmpty_map {value : Schema (List α)} {f : α → α} (h : ∀ l, value.write (l.map f) = value.write l)
    (l : List α) : SameFields (.onEmpty name id value rest) (l.map f, b) (l, b) := by
  constructor
  · simp only [Fields.available, keepIf_map]
    rcases keepIf (!l.isEmpty) l with _ | kept
    · rfl
    · rfl
  · funext w
    simp only [Fields.write, keepIf_map]
    rcases keepIf (!l.isEmpty) l with _ | kept
    · rfl
    · simp only [Option.map_some, writeField, h]

theorem SameFields.object {fields : Fields β τ} (h : SameFields fields b b') :
    (Schema.object fields).write b = (Schema.object fields).write b' := by
  funext w
  simp only [Schema.write, h.available, h.write]

end SameFields

theorem encodeOutput_meaningful (o : Output) : encodeOutput o.meaningful = encodeOutput o := by
  have hmask : (if (unpackExtra o.extra).1 &&& ringctOutput ≠ 0 then some o.meaningful.ringctMask else none) =
      if (unpackExtra o.extra).1 &&& ringctOutput ≠ 0 then some o.ringctMask else none := by
    split
    · rename_i hringct
      have hflag : o.isRingct = true := decide_eq_true hringct
      show some (if o.isRingct then o.ringctMask else 0) = _
      rw [if_pos hflag]
    · rfl
  exact congrArg (fun rctMask => { encodeOutput o with rctMask }) hmask

theorem output_write_meaningful (o : Output) : output.write o.meaningful = output.write o := by
  funext w
  show outputFields.write (encodeOutput o.meaningful) w = _
  rw [encodeOutput_meaningful]
  rfl

theorem account_write_meaningful (user : Account) :
    (account text).write user.meaningful = (account text).write user := by
  funext w
  refine congrFun (SameFields.object ?_) w
  exact .required _ (.onEmpty _ (.onEmpty _ (.onEmpty _ (.onEmpty_map (array_write_map output_write_meaningful) user.outputs))))

/-! ## Commands -/

theorem account_lengths_meaningful {user : Account} (h : (account text).Lengths user) :
    (account text).Lengths user.meaningful := by
  obtain ⟨hinternal, hspendable, hpubs, hspends, houtputs, hheight⟩ := h
  refine ⟨hinternal, hspendable, hpubs, hspends, array_lengths_map (fun o ho => ?_) houtputs, hheight⟩
  show outputFields.Lengths (encodeOutput o.meaningful)
  rw [encodeOutput_meaningful]
  exact ho

theorem users_allowed {users : List Account} (hkept : ∀ u ∈ users, u.WellKept)
    (hlengths : (trustedArray (account text)).Lengths (users.map Account.meaningful)) :
    (trustedArray (account text)).Allowed true (users.map Account.meaningful) := by
  refine trustedArray_allowed hlengths fun user hu husize => ?_
  obtain ⟨sent, hsent, rfl⟩ := List.mem_map.mp hu
  refine account_allowed (hkept sent hsent).meaningful (fun o ho => ?_) husize
  obtain ⟨found, -, rfl⟩ := List.mem_map.mp ho
  exact found.meaningful_idem

/-- Whatever is written for `a` is read as `b`, and it is written if the lengths fit. -/
def Carried {α : Type} (s : Schema α) (a b : α) : Prop :=
  (∀ bytes, toBytes s true a = .ok bytes → fromBytes s bytes = .ok b) ∧ (s.Lengths a → ∃ bytes, toBytes s true a = .ok bytes)

theorem carried {α : Type} {s : Schema α} {a b : α} (hs : s.WellFormed true) (hnesting : s.nesting < maxReadDepth)
    (hwrite : s.write b = s.write a) (hlengths : s.Lengths a → s.Lengths b) (hallowed : s.Lengths b → s.Allowed true b) :
    Carried s a b := by
  have hbytes : toBytes s true b = toBytes s true a := by
    unfold toBytes
    rw [hwrite]
  unfold Carried
  rw [← hbytes]
  exact ⟨fun bytes h => toBytes_read hs hallowed hnesting h, fun h => toBytes_written hs hallowed (hlengths h)⟩

theorem accountFields_wellFormed : accountFields.WellFormed true := by decide

theorem updateAccounts_carried {users : List Account} {blocks : List Hash} (hkept : ∀ u ∈ users, u.WellKept)
    (hblocks : ∀ b ∈ blocks, b < 2 ^ 256) :
    Carried (updateAccounts text) (users, blocks, ()) (users.map Account.meaningful, blocks, ()) := by
  refine carried ?_ ?_ ?_ (fun h => ?_) fun h => ?_
  · exact ⟨by show Distinct true [(ascii "users", 0), (ascii "blocks", 1)]; decide, by show 2 < 2 ^ 32; decide,
      ⟨by decide, by decide⟩, accountFields_wellFormed, ⟨by decide, by decide⟩, by decide, trivial⟩
  · show 1 + max (1 + accountFields.nesting) (max 1 0) < maxReadDepth
    decide
  · exact SameFields.object (.onEmpty_map (array_write_map account_write_meaningful) users)
  · exact ⟨array_lengths_map (fun _ => account_lengths_meaningful) h.1, h.2⟩
  · exact ⟨fun hne => users_allowed hkept (h.1 hne),
      fun hne => trustedArray_allowed (h.2.1 hne) fun b hb _ => key32_allowed (hblocks b hb), trivial⟩

theorem usersCommand_carried {users : List Account} (hkept : ∀ u ∈ users, u.WellKept) :
    Carried (usersCommand text) (users, ()) (users.map Account.meaningful, ()) := by
  refine carried ?_ ?_ ?_ (fun h => ?_) fun h => ?_
  · exact ⟨by show Distinct true [(ascii "users", 0)]; decide, by show 1 < 2 ^ 32; decide, ⟨by decide, by decide⟩,
      accountFields_wellFormed, trivial⟩
  · show 1 + max (1 + accountFields.nesting) 0 < maxReadDepth
    decide
  · exact SameFields.object (.onEmpty_map (array_write_map account_write_meaningful) users)
  · exact ⟨array_lengths_map (fun _ => account_lengths_meaningful) h.1, h.2⟩
  · exact ⟨fun hne => users_allowed hkept (h.1 hne), trivial⟩

end Account

/-! ## Payment ids of other lengths -/

/-- How many bytes the payment id of an output has. -/
def OutputFields.payLength (f : OutputFields) : Nat := (f.paymentId.getD []).length

theorem decodeOutput_ok_iff (f : OutputFields) : (∃ o, decodeOutput f = .ok o) ↔ f.payLength % 256 ∈ [0, 8, 32] := by
  unfold decodeOutput
  dsimp only
  rw [show (f.paymentId.getD []).length = f.payLength from rfl]
  simp only [List.mem_cons, List.not_mem_nil, or_false]
  split
  · rename_i hother
    exact ⟨nofun, fun h => absurd h (by omega)⟩
  · rename_i hknown
    exact ⟨fun _ => by omega, fun _ => ⟨_, rfl⟩⟩

theorem output_read_iff {r r' : Reader} {f : OutputFields} (h : outputFields.read r = .ok (f, r')) :
    (∃ o r'', output.read r = .ok (o, r'')) ↔ f.payLength % 256 ∈ [0, 8, 32] := by
  rw [← decodeOutput_ok_iff]
  have hread : output.read r = (decodeOutput f).map fun o => (o, r') := by
    show (do
      let (a, r) ← outputFields.read r
      let b ← decodeOutput a
      .ok (b, r)) = _
    rw [h]
    rfl
  rw [hread]
  constructor
  · rintro ⟨o, r'', hok⟩
    obtain ⟨o', ho', -⟩ := map_eq_ok.mp hok
    exact ⟨o', ho'⟩
  · rintro ⟨o, ho⟩
    exact ⟨o, r', by rw [ho]; rfl⟩

/-- The length is checked after it was narrowed. -/
theorem output_rejects_iff {r r' : Reader} {f : OutputFields} (h : outputFields.read r = .ok (f, r')) :
    ((∃ o r'', output.read r = .ok (o, r'')) → f.payLength ∈ [0, 8, 32]) ↔
      f.payLength < 256 ∨ f.payLength % 256 ∉ [0, 8, 32] := by
  rw [output_read_iff h]
  simp only [List.mem_cons, List.not_mem_nil, or_false]
  omega

theorem spend_rejects {r r' : Reader} {bytes : List UInt8} (h : r.binary = .ok (bytes, r'))
    (hlength : bytes.length ∉ [0, 8, 32])
    (t : Option Nat × Option Hash × Option KeyImage × Option OutputId × Option Nat × Option Nat × Option Nat ×
      Option (Blob 32) × Option AddressIndex × Unit) : ∃ e, spendKeys.tryRead 7 t r = .error e := by
  have hblob : (Schema.blob 32).read r = .error .fixedBinary := by
    have hne : bytes.length ≠ 32 := fun he => hlength (by simp [he])
    simp only [Schema.read, h, bind, Except.bind, toBlob, hne, dite_false]
  obtain ⟨_, _, _, _, _, _, _, paymentId, _⟩ := t
  rcases paymentId with _ | _
  · refine ⟨.fixedBinary, ?_⟩
    simp only [spendKeys, Fields.tryRead, tryField, hblob, Except.map]
  · exact ⟨.invalidKey, rfl⟩

/-! ## The result -/

/-- Updates with the accounts of either list leave the same outputs and spends, and publish
    the same, as far as the flags say that a field is set. -/
def StoredAlike (users users' : List Account) : Prop :=
  ∀ (env : Env) (height : Nat) (chain : List Hash) (pow : List PowSync) (regtest : Bool) (db : Storage),
    (db.update env height chain users' pow regtest).map meaningfulResult =
      (db.update env height chain users pow regtest).map meaningfulResult

/-- Accounts that a scanner has are read back from each of the commands, the masks that are
    not set aside, and they scan and are stored alike. An output with a payment id of another
    length than 0, 8 or 32 is rejected unless the low byte of its length is one of them, a
    spend is always. -/
theorem remote_accounts (text : AccountAddress → List UInt8) :
    (∀ (users : List Account) (blocks : List Hash), (∀ u ∈ users, u.Produced) → (∀ b ∈ blocks, b < 2 ^ 256) →
      let users' := users.map Account.meaningful
      Carried (updateAccounts text) (users, blocks, ()) (users', blocks, ()) ∧
        Carried (pushAccounts text) (users, ()) (users', ()) ∧ Carried (replaceAccounts text) (users, ()) (users', ()) ∧
        List.Forall₂ ScanAlike users users' ∧ StoredAlike users users') ∧
    (∀ (r r' : Reader) (f : OutputFields), outputFields.read r = .ok (f, r') →
      (((∃ o r'', output.read r = .ok (o, r'')) → f.payLength ∈ [0, 8, 32]) ↔
        f.payLength < 256 ∨ f.payLength % 256 ∉ [0, 8, 32])) ∧
    (∀ (r r' : Reader) (bytes : List UInt8), r.binary = .ok (bytes, r') → bytes.length ∉ [0, 8, 32] →
      ∀ t, ∃ e, spendKeys.tryRead 7 t r = .error e) := by
  refine ⟨fun users blocks hproduced hblocks => ?_, fun _ _ _ h => output_rejects_iff h, fun _ _ _ h hlength t =>
    spend_rejects h hlength t⟩
  have hkept : ∀ u ∈ users, u.WellKept := fun u hu => (hproduced u hu).wellKept
  refine ⟨updateAccounts_carried hkept hblocks, usersCommand_carried hkept, usersCommand_carried hkept, ?_,
    fun env height chain pow regtest db => ?_⟩
  · rw [List.forall₂_map_right_iff]
    exact List.forall₂_same.mpr fun user _ => meaningful_alike user
  · exact update_users_meaningful env height chain users pow regtest db

/-- An output of a version 1 transaction with a short payment id; its mask is the identity. -/
def shortIdOutput : Output :=
  ⟨⟨5, 0xaa⟩, ⟨⟨3, 9⟩, 3, 4, 1, 0xbb⟩, 1600000000, 0, 0xcc, 0xdd, 2 ^ 248, packExtra 0 8, 0x0102030405060708, 0, ⟨0, 2⟩⟩

def longIdSpend : Spend := ⟨⟨6, 0xee⟩, 0xff, ⟨3, 9⟩, 1600000001, 0, 4, 32, 2 ^ 255, ⟨0, 2⟩⟩

/-- An account from the database, with an output and a spend that were found. -/
def sentAccount : Account :=
  let row : Db.Account := ⟨7, 0, ⟨0x11, 0x22⟩, 0x33, 4, 0, 0, 0, ⟨0, 0⟩, 0⟩
  let user := Account.ofRow row [(⟨0, 8⟩, ⟨1, 0⟩), (⟨0, 2⟩, ⟨0, 0⟩)] [0xff, 0x12]
  ((user.addOut shortIdOutput).getD user).addSpend longIdSpend

theorem sentAccount_produced : sentAccount.Produced := by
  have hrow : (Account.ofRow ⟨7, 0, ⟨0x11, 0x22⟩, 0x33, 4, 0, 0, 0, ⟨0, 0⟩, 0⟩ [(⟨0, 8⟩, ⟨1, 0⟩), (⟨0, 2⟩, ⟨0, 0⟩)]
      [0xff, 0x12]).Produced :=
    .ofRow _ _ _ (by decide) ⟨by decide, by decide⟩ (by decide) (by decide) (by simp [OutputId.Sized, AddressIndex.Sized])
      (by decide)
  have hout : shortIdOutput.Sized :=
    ⟨by decide, by decide, ⟨by decide, by decide⟩, by decide, by decide, by decide, by decide, by decide, by decide,
      by decide, by decide, by decide, by decide, ⟨by decide, by decide⟩⟩
  have hspend : longIdSpend.Sized :=
    ⟨by decide, by decide, by decide, ⟨by decide, by decide⟩, by decide, by decide, by decide, ⟨by decide, by decide⟩⟩
  exact .addSpend (.addOut hrow hout ⟨0, by decide, 8, ⟨by decide, by decide⟩, rfl⟩ rfl) hspend ⟨by decide, by decide⟩

def idMessage (n : Nat) : List UInt8 :=
  (toBytes outputFields true { encodeOutput shortIdOutput with paymentId := some (List.replicate n 0) }).toOption.getD []

theorem exists_fields {r : Reader} {n : Nat} (h : (outputFields.read r).toOption.map (·.1.payLength) = some n) :
    ∃ f r', outputFields.read r = .ok (f, r') ∧ f.payLength = n := by
  rcases hread : outputFields.read r with e | ⟨f, r'⟩
  · rw [hread] at h
    cases h
  · rw [hread] at h
    exact ⟨f, r', rfl, Option.some.inj h⟩

/-- An account that is sent and scans and is stored alike, an output with a payment id of 9
    bytes and a spend with one of 16. -/
theorem remote_accounts_sent :
    (∃ bytes, toBytes (pushAccounts fun _ => [0x41]) true ([sentAccount], ()) = .ok bytes ∧
      fromBytes (pushAccounts fun _ => [0x41]) bytes = .ok ([sentAccount.meaningful], ())) ∧
    StoredAlike [sentAccount] [sentAccount.meaningful] ∧
    (¬ ∃ o r, output.read ⟨idMessage 9, 1, 0⟩ = .ok (o, r)) ∧
    ∃ e, spendKeys.tryRead 7 spendKeys.blank ⟨0xc4 :: 16 :: List.replicate 16 0, 2, 1⟩ = .error e := by
  obtain ⟨haccounts, houtputs, hspends⟩ := remote_accounts fun _ => [0x41]
  obtain ⟨-, hpush, -, -, hstored⟩ := haccounts [sentAccount] [] (by
    intro u hu
    rw [List.mem_singleton.mp hu]
    exact sentAccount_produced) nofun
  refine ⟨?_, hstored, ?_, hspends _ _ _ rfl (by decide) _⟩
  · rcases hbytes : toBytes (pushAccounts fun _ => [0x41]) true ([sentAccount], ()) with e | bytes
    · have hok : (toBytes (pushAccounts fun _ => [0x41]) true ([sentAccount], ())).toOption.isSome = true := by
        decide +kernel
      rw [hbytes] at hok
      cases hok
    · exact ⟨bytes, rfl, hpush.1 bytes hbytes⟩
  · obtain ⟨f, r', hread, hlength⟩ := @exists_fields ⟨idMessage 9, 1, 0⟩ 9 (by decide +kernel)
    intro haccepted
    have hmem := (houtputs _ r' f hread).mpr (.inl (by rw [hlength]; decide)) haccepted
    rw [hlength] at hmem
    exact absurd hmem (by decide)

/-- An output with a payment id of 256 bytes is taken for one without. -/
theorem long_payment_id_accepted :
    ∃ f r o r', outputFields.read ⟨idMessage 256, 1, 0⟩ = .ok (f, r) ∧ f.payLength = 256 ∧
      output.read ⟨idMessage 256, 1, 0⟩ = .ok (o, r') := by
  obtain ⟨f, r, hread, hlength⟩ := @exists_fields ⟨idMessage 256, 1, 0⟩ 256 (by decide +kernel)
  obtain ⟨o, r', haccepted⟩ := (output_read_iff hread).mpr (by rw [hlength]; decide)
  exact ⟨f, r, o, r', hread, hlength, haccepted⟩

end Lws.Scanner
