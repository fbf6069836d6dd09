/-
  Lws.Db.LookaheadRuns — an account whose lookahead did not fail has it.

  `lookahead_fail` is raised by `do_lookahead`, to the start height, and by
  `update_lookahead`, to the height of the output it was called for. A rescan from at or
  below it clears it. For a flag of `update_lookahead` that is right: the rescan drops the
  outputs from there on and finds them again. For one of `do_lookahead` it is not: the
  subaddresses below the lookahead were never made, and a rescan does not make them
  (`rescan_hides_failure`). `lookahead_held` says that the flag can be trusted otherwise.
  An output is stored some time after its `update_lookahead`, so the state keeps the calls
  that still count (`Looked`): a rescan in between, or an import with another lookahead,
  voids them.
-/

import Lws.Db.Lookahead
import Lws.Db.SubaddressRuns
import Lws.Db.History

namespace Lws.Db

open Lws.Lmdb Lws.Transition

/-! ## What is to hold -/

def Storage.Tracks (env : Env) (db : Storage) (a : Account) (i : AddressIndex) : Prop :=
  Lws.Db.Tracks env a.id a.address a.key db.subaddressRanges db.subaddressIndexes i

/-- Every account with a lookahead that did not fail has the subaddresses of the lookahead
    and those of the lookahead of every output it received. -/
def LookaheadHeld (env : Env) (db : Storage) : Prop :=
  ∀ r ∈ db.accounts, r.2.lookaheadFail = 0 → 0 < r.2.lookahead.majI → 0 < r.2.lookahead.minI →
    (∀ i, Ahead r.2.lookahead i → db.Tracks env r.2 i) ∧
      ∀ o, (r.2.id, o) ∈ db.outputs → o.recipient.isZero = false → ∀ i, AheadOf r.2.lookahead o.recipient i →
        db.Tracks env r.2 i

/-! ## The calls of the scanner -/

/-- A call of `update_lookahead`: the account's public view key, the block and the
    subaddress of the output. -/
structure Look where
  view : PublicKey
  height : Nat
  index : AddressIndex
  deriving DecidableEq

/-- The database, and the calls for outputs that are not stored yet. -/
structure Looked where
  db : Storage
  calls : List Look

/-- The accounts an operation takes back, with the height from which their calls are void:
    all of them where it changes the lookahead. -/
def Op.voids (db : Storage) : Op → List (PublicKey × Nat)
  | .rescan height addresses => addresses.map fun address => (address.viewPublic, height)
  | .acceptRequests _ .importScan addresses _ =>
    addresses.filterMap fun address => (db.requests.get? .importScan address.spendPublic).map fun info =>
      (address.viewPublic, if info.lookahead.isZero then info.startHeight else 0)
  | _ => []

def Op.calls (db : Storage) (calls : List Look) : Op → List Look
  | .updateLookahead address height fresh _ => ⟨address.viewPublic, height, fresh⟩ :: calls
  | op => calls.filter fun l => decide (∀ v ∈ op.voids db, v.1 = l.view → l.height < v.2)

def Op.look (env : Env) (op : Op) (s : Looked) : Except Error Looked := do
  let db ← op.run env s.db
  .ok ⟨db, op.calls s.db s.calls⟩

/-! ## Conditions -/

/-- Going back to `height` clears a flag that stands where `do_lookahead` puts it. -/
def Account.clearsStart (a : Account) (height : Nat) : Bool :=
  decide (a.lookahead.majI ≠ 0 ∧ a.lookahead.minI ≠ 0 ∧ a.lookaheadFail ≠ 0 ∧ height ≤ a.lookaheadFail ∧
    a.lookaheadFail ≤ max 1 a.startHeight)

def clearsFailure (height : Nat) (address : AccountAddress) (db : Storage) : Bool :=
  match findAccount db address with
  | .ok (_, a) => a.clearsStart height
  | .error _ => false

/-- The imports of the list that come without a lookahead clear no such flag; each starts
    from the state the one before it leaves. -/
def importsKeep (env : Env) (maxSubaddresses : Nat) : List AccountAddress → Storage → Bool
  | [], _ => true
  | address :: addresses, db =>
    match db.requests.get? .importScan address.spendPublic with
    | none => importsKeep env maxSubaddresses addresses db
    | some info =>
      let db := { db with requests := db.requests.erase .importScan address.spendPublic }
      (!info.lookahead.isZero || !clearsFailure info.startHeight address db) &&
        match changeHeight env info.startHeight address info.lookahead (some maxSubaddresses) db with
        | .ok db => importsKeep env maxSubaddresses addresses db
        | .error _ => importsKeep env maxSubaddresses addresses db

/-- No failed lookahead is cleared without being made again. -/
def Op.keepsFailures (env : Env) (db : Storage) : Op → Bool
  | .rescan height addresses => decide (∀ address ∈ addresses, clearsFailure height address db = false)
  | .acceptRequests _ .importScan addresses maxSubaddresses => importsKeep env maxSubaddresses addresses db
  | _ => true

def Op.received : Op → Option AddressIndex
  | .updateLookahead _ _ fresh _ => some fresh
  | _ => none

/-- Every output an update stores was looked up before. -/
def StoresLooked (s : Looked) (op : Op) : Prop :=
  ∀ b ∈ op.batch, ∀ u ∈ b.2, ∀ r ∈ s.db.accounts, r.2.id = u.id → u.scanHeight ≤ r.2.scanHeight →
    r.2.scanHeight < b.1 → ∀ o ∈ u.outputs, o.recipient.isZero = false →
      (⟨r.2.address.viewPublic, o.link.height, o.recipient⟩ : Look) ∈ s.calls

/-- An operation that leaves the flags true: it clears no failure of `do_lookahead`, an
    `update_lookahead` is for the account's own address, not at the last major index, and
    loses no row of ranges, and what is stored was looked up. Blocks are dropped only
    while no flag is up. -/
structure Tended (env : Env) (s : Looked) (op : Op) : Prop where
  keeps : op.keepsFailures env s.db = true
  lookedUp : ∀ address ∈ op.lookedUp,
      (∀ r ∈ s.db.accountsBa, r.2.address.viewPublic = address.viewPublic → r.2.address = address) ∧
    op.fits env s.db = true
  last : ∀ fresh ∈ op.received, fresh.majI < uint32Max
  stored : StoresLooked s op
  forks : (op.forkAt s.db).isSome = true → ∀ r ∈ s.db.accounts, r.2.lookaheadFail = 0

instance (s : Looked) (op : Op) : Decidable (StoresLooked s op) :=
  inferInstanceAs (Decidable (∀ b ∈ op.batch, ∀ u ∈ b.2, ∀ r ∈ s.db.accounts, r.2.id = u.id → u.scanHeight ≤ r.2.scanHeight →
    r.2.scanHeight < b.1 → ∀ o ∈ u.outputs, o.recipient.isZero = false →
      (⟨r.2.address.viewPublic, o.link.height, o.recipient⟩ : Look) ∈ s.calls))

instance (env : Env) (s : Looked) (op : Op) : Decidable (Tended env s op) :=
  decidable_of_iff (op.keepsFailures env s.db = true ∧ (∀ address ∈ op.lookedUp, (∀ r ∈ s.db.accountsBa,
      r.2.address.viewPublic = address.viewPublic → r.2.address = address) ∧ op.fits env s.db = true) ∧
      (∀ fresh ∈ op.received, fresh.majI < uint32Max) ∧ StoresLooked s op ∧
      ((op.forkAt s.db).isSome = true → ∀ r ∈ s.db.accounts, r.2.lookaheadFail = 0))
    ⟨fun h => ⟨h.1, h.2.1, h.2.2.1, h.2.2.2.1, h.2.2.2.2⟩, fun h => ⟨h.keeps, h.lookedUp, h.last, h.stored, h.forks⟩⟩

/-! ## The invariant -/

/-- The flag is down, or above where `do_lookahead` puts it. -/
def Account.Provided (a : Account) : Prop := a.lookaheadFail = 0 ∨ max 1 a.startHeight < a.lookaheadFail

/-- Outputs of the block are not in doubt. -/
def Account.Sure (a : Account) (height : Nat) : Prop := a.lookaheadFail = 0 ∨ height < a.lookaheadFail

/-- An output of the account, stored or looked up, of this block and subaddress. -/
def Wanted (calls : List Look) (db : Storage) (a : Account) (height : Nat) (x : AddressIndex) : Prop :=
  (∃ o, (a.id, o) ∈ db.outputs ∧ o.recipient.isZero = false ∧ o.link.height = height ∧ o.recipient = x) ∨
    (⟨a.address.viewPublic, height, x⟩ : Look) ∈ calls

structure Met (env : Env) (calls : List Look) (db : Storage) (a : Account) : Prop where
  own : ∀ i, Ahead a.lookahead i → db.Tracks env a i
  received : ∀ height x, Wanted calls db a height x → a.Sure height → ∀ i, AheadOf a.lookahead x i → db.Tracks env a i

def Held (env : Env) (calls : List Look) (db : Storage) : Prop :=
  ∀ r ∈ db.accounts, 0 < r.2.lookahead.majI → 0 < r.2.lookahead.minI → r.2.Provided → Met env calls db r.2

/-- What is tracked for an account of the first state is tracked in the second. -/
def Retains (env : Env) (db db' : Storage) (a : Account) : Prop := ∀ i, db.Tracks env a i → db'.Tracks env a i

/-- An account of a state that asks for no more than one of the state before. -/
structure Follows (env : Env) (calls calls' : List Look) (db db' : Storage) (a a' : Account) : Prop where
  id : a'.id = a.id
  address : a'.address = a.address
  key : a'.key = a.key
  majI : a'.lookahead.majI ≤ a.lookahead.majI
  minI : a'.lookahead.minI ≤ a.lookahead.minI
  provided : a'.Provided → a.Provided
  retains : Retains env db db' a
  wanted : ∀ height x, Wanted calls' db' a' height x → a'.Sure height → Wanted calls db a height x ∧ a.Sure height

section Held

variable {env : Env} {calls calls' : List Look} {db db' : Storage} {a a' : Account}

theorem Storage.Tracks.same (hid : a'.id = a.id) (haddr : a'.address = a.address) (hkey : a'.key = a.key)
    {i : AddressIndex} (h : db.Tracks env a i) : db.Tracks env a' i := by
  unfold Storage.Tracks at h ⊢
  rw [hid, haddr, hkey]
  exact h

theorem Met.follow (h : Met env calls db a) (hf : Follows env calls calls' db db' a a') : Met env calls' db' a' := by
  refine ⟨fun i hi => ?_, fun height x hw hs i hi => ?_⟩
  · exact (hf.retains i (h.own i (hi.mono hf.majI hf.minI))).same hf.id hf.address hf.key
  · obtain ⟨hw, hs⟩ := hf.wanted height x hw hs
    exact (hf.retains i (h.received height x hw hs i (hi.mono hf.majI hf.minI))).same hf.id hf.address hf.key

/-- It is enough that every account follows one of the state before, or has its lookahead. -/
theorem Held.step (h : Held env calls db)
    (hstep : ∀ r' ∈ db'.accounts, 0 < r'.2.lookahead.majI → 0 < r'.2.lookahead.minI → r'.2.Provided →
      (∃ r ∈ db.accounts, Follows env calls calls' db db' r.2 r'.2) ∨ Met env calls' db' r'.2) :
    Held env calls' db' := by
  intro r' hr' hmaj hmin hp
  rcases hstep r' hr' hmaj hmin hp with ⟨r, hr, hf⟩ | hm
  · exact (h r hr (hmaj.trans_le hf.majI) (hmin.trans_le hf.minI) (hf.provided hp)).follow hf
  · exact hm

/-- An account that keeps what the lookahead is about. -/
theorem Follows.same (hid : a'.id = a.id) (haddr : a'.address = a.address) (hkey : a'.key = a.key)
    (hlook : a'.lookahead = a.lookahead) (hfail : a'.lookaheadFail = a.lookaheadFail)
    (hstart : a'.startHeight = a.startHeight) (hret : Retains env db db' a)
    (hout : ∀ o, (a.id, o) ∈ db'.outputs → (a.id, o) ∈ db.outputs) (hcalls : ∀ l ∈ calls', l ∈ calls) :
    Follows env calls calls' db db' a a' := by
  refine ⟨hid, haddr, hkey, by rw [hlook], by rw [hlook], ?_, hret, fun height x hw hs => ⟨?_, ?_⟩⟩
  · unfold Account.Provided
    rw [hfail, hstart]
    exact fun h => h
  · unfold Wanted at hw ⊢
    rw [hid, haddr] at hw
    exact hw.imp (fun ⟨o, ho, h⟩ => ⟨o, hout o ho, h⟩) (hcalls _)
  · unfold Account.Sure at hs ⊢
    rwa [hfail] at hs

theorem Follows.refl_of (hret : Retains env db db' a) (hout : ∀ o, (a.id, o) ∈ db'.outputs → (a.id, o) ∈ db.outputs)
    (hcalls : ∀ l ∈ calls', l ∈ calls) : Follows env calls calls' db db' a a :=
  .same rfl rfl rfl rfl rfl rfl hret hout hcalls

theorem Retains.of_eq (hr : db'.subaddressRanges = db.subaddressRanges)
    (hi : db'.subaddressIndexes = db.subaddressIndexes) :
    Retains env db db' a := by
  intro i h
  unfold Storage.Tracks
  rw [hr, hi]
  exact h

theorem Retains.other {id : Nat} (hne : a.id ≠ id)
    (hr : ∀ r, r.1 ≠ id → (r ∈ db'.subaddressRanges ↔ r ∈ db.subaddressRanges))
    (hi : ∀ r, r.1 ≠ id → (r ∈ db'.subaddressIndexes ↔ r ∈ db.subaddressIndexes)) : Retains env db db' a := by
  intro i h
  obtain ⟨⟨d, hd, hc⟩, v, hv, hkey⟩ := h
  exact ⟨⟨d, (hr _ hne).mpr hd, hc⟩, v, (hi _ hne).mpr hv, hkey⟩

theorem Held.fewer (h : Held env calls db) (hcalls : ∀ l ∈ calls', l ∈ calls) : Held env calls' db :=
  h.step fun r hr _ _ _ => Or.inl ⟨r, hr, .refl_of (fun _ h => h) (fun _ h => h) hcalls⟩

theorem Held.frame (h : Held env calls db) (ha : db'.accounts = db.accounts) (ho : db'.outputs = db.outputs)
    (hr : db'.subaddressRanges = db.subaddressRanges) (hi : db'.subaddressIndexes = db.subaddressIndexes) :
    Held env calls db' := by
  refine h.step fun r hr' _ _ _ => Or.inl ⟨r, ha ▸ hr', .refl_of (.of_eq hr hi) (fun o hx => ?_) fun _ h => h⟩
  rwa [ho] at hx

/-- An account is replaced; the others keep what they have. -/
theorem Held.put (h : Held env calls db) {st : AccountStatus} (haccounts : db'.accounts = db.accounts.put st a')
    (hnew : 0 < a'.lookahead.majI → 0 < a'.lookahead.minI → a'.Provided →
      (∃ r ∈ db.accounts, Follows env calls calls' db db' r.2 a') ∨ Met env calls' db' a')
    (hothers : ∀ r ∈ db.accounts, ¬ (r.1 = st ∧ r.2.id = a'.id) → Follows env calls calls' db db' r.2 r.2) :
    Held env calls' db' := by
  refine h.step fun r' hr' hmaj hmin hp => ?_
  rw [haccounts] at hr'
  rcases Table.mem_put.mp hr' with rfl | ⟨hr', hne⟩
  · exact hnew hmaj hmin hp
  · exact Or.inl ⟨r', hr', hothers r' hr' hne⟩

/-! ## Changes that leave the lookaheads -/

/-- Changes of requests, blocks, webhooks and status. -/
def Act.Quiet : Act → Prop
  | .aside | .chain | .hook | .unhook | .move => True
  | _ => False

theorem held_quiet {act : Act} (hq : act.Quiet) (hc : Change env act db db') (h : Held env calls db) :
    Held env calls db' := by
  cases hc with
  | @move _ b a l status hb hne ha hid hl hl' hfree =>
    refine h.step fun r' hr' _ _ _ => Or.inl ?_
    rcases Table.mem_put.mp hr' with rfl | ⟨hr', -⟩
    · exact ⟨_, ha, .refl_of (.of_eq rfl rfl) (fun _ h => h) fun _ h => h⟩
    · exact ⟨r', (Table.mem_erase.mp hr').1, .refl_of (.of_eq rfl rfl) (fun _ h => h) fun _ h => h⟩
  | aside => exact h.frame rfl rfl rfl rfl
  | chain => exact h.frame rfl rfl rfl rfl
  | hook => exact h.frame rfl rfl rfl rfl
  | unhook => exact h.frame rfl rfl rfl rfl
  | unhookIds => exact h.frame rfl rfl rfl rfl
  | _ => exact hq.elim

theorem held_rewind {height : Nat} (hflags : ∀ r ∈ db.accounts, r.2.lookaheadFail = 0) (hrw : Rewound height db db')
    (h : Held env calls db) : Held env calls db' := by
  have htables : db'.subaddressRanges = db.subaddressRanges ∧ db'.subaddressIndexes = db.subaddressIndexes := by
    rw [hrw.frame]
    exact ⟨rfl, rfl⟩
  refine h.step fun r' hr' _ _ _ => Or.inl ?_
  obtain ⟨a, ha, he⟩ := (hrw.accounts r'.1 r'.2).mp hr'
  have hout : ∀ o, (a.id, o) ∈ db'.outputs → (a.id, o) ∈ db.outputs := fun o ho => ((hrw.outputs _).mp ho).1
  have hfail := hflags _ ha
  refine ⟨_, ha, ?_⟩
  rw [he]
  split
  · refine ⟨rfl, rfl, rfl, Nat.le_refl _, Nat.le_refl _, fun _ => Or.inl hfail, .of_eq htables.1 htables.2, ?_⟩
    exact fun height x hw _ => ⟨hw.imp_left fun ⟨o, ho, hx⟩ => ⟨o, hout o ho, hx⟩, Or.inl hfail⟩
  · exact .refl_of (.of_eq htables.1 htables.2) hout fun _ h => h

/-! ## Changing the height -/

/-- What going back to `height` without a lookahead leaves of an account. -/
theorem Follows.lowered {height : Nat} (hclear : a.clearsStart height = false) (hmaj : 0 < a.lookahead.majI)
    (hmin : 0 < a.lookahead.minI) (hret : Retains env db db' a)
    (hout : ∀ o, (a.id, o) ∈ db'.outputs → (a.id, o) ∈ db.outputs ∧ o.link.height < height)
    (hcalls : ∀ l ∈ calls, l.view = a.address.viewPublic → l.height < height) :
    Follows env calls calls db db' a (a.lowered height) := by
  have hflag : a.lookaheadFail = 0 ∨ ¬ height ≤ a.lookaheadFail ∨ max 1 a.startHeight < a.lookaheadFail := by
    unfold Account.clearsStart at hclear
    have := of_decide_eq_false hclear
    omega
  have hkept : ¬ height ≤ a.lookaheadFail → (a.lowered height).lookaheadFail = a.lookaheadFail := fun h => if_neg h
  refine ⟨rfl, rfl, rfl, Nat.le_refl _, Nat.le_refl _, fun hp => ?_, hret, fun h x hw hs => ?_⟩
  · rcases hflag with h0 | hgt | hlt
    · exact Or.inl h0
    · unfold Account.Provided at hp ⊢
      rw [hkept hgt] at hp
      have hstart : (a.lowered height).startHeight = min height a.startHeight := rfl
      rw [hstart] at hp
      omega
    · exact Or.inr hlt
  · -- what is left is below the height
    have hbelow : Wanted calls db a h x ∧ h < height := by
      rcases hw with ⟨o, ho, hnz, rfl, rfl⟩ | hl
      · obtain ⟨ho, hlt⟩ := hout o ho
        exact ⟨Or.inl ⟨o, ho, hnz, rfl, rfl⟩, hlt⟩
      · exact ⟨Or.inr hl, hcalls _ hl rfl⟩
    refine ⟨hbelow.1, ?_⟩
    by_cases hle : height ≤ a.lookaheadFail
    · exact Or.inr (hbelow.2.trans_le hle)
    · unfold Account.Sure at hs ⊢
      rwa [hkept hle] at hs

/-- `change_height`: without a lookahead it must not clear a failure, and the calls from
    the height on are void; with one all calls are. -/
theorem held_changeHeight {height : Nat} {address : AccountAddress} {lookahead : AddressIndex} {limit : Option Nat}
    (hagree : db.Agree env) (h : Held env calls db) (hch : changeHeight env height address lookahead limit db = .ok db')
    (hclear : limit = none ∨ lookahead.isZero = true → clearsFailure height address db = false)
    (hcalls : ∀ l ∈ calls, l.view = address.viewPublic →
      l.height < if limit = none ∨ lookahead.isZero = true then height else 0) :
    Held env calls db' := by
  obtain ⟨b, a, a', l, spends, images, ranges, indexes, hb, hview, ha, hid, -, -, -, hlook, rfl⟩ := changeHeight_ok hch
  have hsame := applyLookahead_same hlook
  have hrow := hagree.address_row ha hb hid.symm
  have hviewA : a.address.viewPublic = address.viewPublic := by rw [← hview, hrow]
  have hout : ∀ id o, (id, o) ∈ (db.outputs.filter fun r => !outputAbove a.id height r) → (id, o) ∈ db.outputs :=
    fun id o ho => (Table.mem_filter.mp ho).1
  have hothers := applyLookahead_others hlook
  refine h.put rfl (fun hmaj hmin hp => ?_) (fun r hr hne => ?_)
  · rcases applyLookahead_cases hlook with ⟨rfl, rfl, rfl, hno⟩ | rfl | ⟨rfl, hyes, htracks⟩
    · -- no lookahead
      have hc := hclear hno
      unfold clearsFailure at hc
      rw [findAccount_eq hb hview ha hid] at hc
      rw [if_pos hno] at hcalls
      refine Or.inl ⟨_, ha, Follows.lowered hc hmaj hmin (.of_eq rfl rfl) (fun o ho => ?_) fun l hl hv => ?_⟩
      · obtain ⟨ho, hn⟩ := Table.mem_filter.mp ho
        exact ⟨ho, not_le.mp fun hle => not_outputAbove.mp hn ⟨rfl, hle⟩⟩
      · exact hcalls l hl (hv.trans hviewA)
    · -- past the limit
      unfold Account.Provided at hp
      dsimp only at hp
      omega
    · refine Or.inr ⟨fun i hi => htracks hmaj hmin i (Or.inl hi), fun h x hw _ i hi => htracks hmaj hmin i (Or.inr ?_)⟩
      rw [if_neg hyes] at hcalls
      rcases hw with ⟨o, ho, hnz, -, rfl⟩ | hl
      · exact ⟨o, Table.mem_dups.mpr ho, hnz, hi⟩
      · exact absurd (hcalls _ hl hviewA) (Nat.not_lt_zero _)
  · have hida : r.2.id ≠ a.id := by
      intro he
      cases hagree.ids r hr _ ha he
      exact hne ⟨rfl, hsame.id.symm⟩
    exact .refl_of (.other hida hothers.1 hothers.2) (hout _) fun _ h => h

theorem agree_changeHeight {height : Nat} {address : AccountAddress} {lookahead : AddressIndex} {limit : Option Nat}
    (hagree : db.Agree env) (hch : changeHeight env height address lookahead limit db = .ok db') : db'.Agree env := by
  obtain ⟨user, mid, -, hc, -, -, -, he⟩ := changeHeight_change hch
  have hmid : mid.Agree env := agree_change hagree (fun e => by cases e) hc
  rw [he]
  exact hmid

/-- Once an account is back at a height, going there again clears nothing. -/
theorem clearsFailure_changeHeight {height : Nat} {address x : AccountAddress}
    (hch : changeHeight env height address ⟨0, 0⟩ none db = .ok db') (h : clearsFailure height x db = false) :
    clearsFailure height x db' = false := by
  obtain ⟨b, a, a', l, spends, images, ranges, indexes, -, -, -, -, -, -, -, hlook, rfl⟩ := changeHeight_ok hch
  cases hlook
  unfold clearsFailure at h ⊢
  split
  · rename_i lookup y hf
    obtain ⟨b', hb', hview', -, hy, hidy⟩ := findAccount_ok hf
    rcases Table.mem_put.mp hy with hy | ⟨hy, -⟩
    · obtain rfl : y = a.lowered height := congrArg Prod.snd hy
      unfold Account.clearsStart
      refine decide_eq_false fun ⟨_, _, hne, hle, _⟩ => ?_
      unfold Account.lowered at hne hle
      dsimp only at hne hle
      split at hne
      · exact hne rfl
      · rename_i hn
        rw [if_neg hn] at hle
        exact hn hle
    · have hf : findAccount db x = .ok (b'.lookup, y) := findAccount_eq hb' hview' hy hidy
      rw [hf] at h
      exact h
  · rfl

theorem held_rescanLoop {height : Nat} : ∀ (addresses : List AccountAddress) {db db' : Storage}
    {updated : List AccountAddress}, db.Agree env → Held env calls db →
    (∀ x ∈ addresses, clearsFailure height x db = false) →
    (∀ x ∈ addresses, ∀ l ∈ calls, l.view = x.viewPublic → l.height < height) →
    rescanLoop env height addresses db = .ok (db', updated) → Held env calls db' := by
  intro addresses
  induction addresses with
  | nil =>
    intro db db' updated _ h _ _ hrun
    cases hrun
    exact h
  | cons address addresses ih =>
    intro db db' updated hagree h hclear hcalls hrun
    rw [List.forall_mem_cons] at hclear hcalls
    unfold rescanLoop at hrun
    split at hrun
    · rename_i db₁ hch
      obtain ⟨⟨db₂, u⟩, hloop, hrun⟩ := bind_ok.mp hrun
      cases hrun
      have hone : Held env calls db₁ := by
        refine held_changeHeight hagree h hch (fun _ => hclear.1) fun l hl hv => ?_
        rw [if_pos (Or.inl rfl)]
        exact hcalls.1 l hl hv
      refine ih (agree_changeHeight hagree hch) hone (fun x hx => ?_) hcalls.2 hloop
      exact clearsFailure_changeHeight hch (hclear.2 x hx)
    · exact ih hagree h hclear.2 hcalls.2 hrun
    · cases hrun

theorem held_importAccounts {maxSubaddresses : Nat} : ∀ (addresses : List AccountAddress) {db db' : Storage}
    {updated : List AccountAddress}, db.Agree env → Held env calls db →
    importsKeep env maxSubaddresses addresses db = true →
    (∀ x ∈ addresses, ∀ info, db.requests.get? .importScan x.spendPublic = some info → ∀ l ∈ calls,
      l.view = x.viewPublic → l.height < if info.lookahead.isZero then info.startHeight else 0) →
    importAccounts env maxSubaddresses addresses db = .ok (db', updated) → Held env calls db' := by
  intro addresses
  induction addresses with
  | nil =>
    intro db db' updated _ h _ _ hrun
    cases hrun
    exact h
  | cons address addresses ih =>
    intro db db' updated hagree h hkeep hcalls hrun
    rw [List.forall_mem_cons] at hcalls
    unfold importAccounts at hrun
    unfold importsKeep at hkeep
    rcases hget : db.requests.get? .importScan address.spendPublic with _ | info
    · simp only [hget] at hrun hkeep
      exact ih hagree h hkeep hcalls.2 hrun
    · simp only [hget, Bool.and_eq_true] at hrun hkeep
      let db₀ : Storage := { db with requests := db.requests.erase .importScan address.spendPublic }
      have hagree₀ : db₀.Agree env := hagree
      have h₀ : Held env calls db₀ := h.frame rfl rfl rfl rfl
      have hcalls₀ : ∀ x ∈ addresses, ∀ i, db₀.requests.get? .importScan x.spendPublic = some i → ∀ l ∈ calls,
          l.view = x.viewPublic → l.height < if i.lookahead.isZero then i.startHeight else 0 := by
        intro x hx i hi
        obtain ⟨hi, hs⟩ := Table.get?_eq_some.mp hi
        exact hcalls.2 x hx i (Table.get?_eq_some.mpr ⟨(Table.mem_erase.mp hi).1, hs⟩)
      rcases hch : changeHeight env info.startHeight address info.lookahead (some maxSubaddresses) db₀ with e | db₁
      · simp only [db₀] at hch
        simp only [hch] at hrun hkeep
        cases e with
        | accountNotFound => exact ih hagree₀ h₀ hkeep.2 hcalls₀ hrun
        | _ => cases hrun
      · have hch' := hch
        simp only [db₀] at hch'
        simp only [hch'] at hrun hkeep
        obtain ⟨⟨db₂, u⟩, hloop, hrun⟩ := bind_ok.mp hrun
        cases hrun
        have hone : Held env calls db₁ := by
          refine held_changeHeight hagree₀ h₀ hch (fun hno => ?_) fun l hl hv => ?_
          · have hz : info.lookahead.isZero = true := hno.resolve_left (fun hn => nomatch hn)
            have hk := hkeep.1
            rw [hz] at hk
            simpa using hk
          · have hlt := hcalls.1 info hget l hl hv
            by_cases hz : info.lookahead.isZero = true
            · rw [if_pos (Or.inr hz)]
              rwa [if_pos hz] at hlt
            · rw [if_neg hz] at hlt
              exact absurd hlt (Nat.not_lt_zero _)
        obtain ⟨user, mid, -, -, -, hreq, -, he⟩ := changeHeight_change hch
        refine ih (agree_changeHeight hagree₀ hch) hone hkeep.2 ?_ hloop
        have hreq₁ : db₁.requests = db₀.requests := by rw [he]; exact hreq
        rw [hreq₁]
        exact hcalls₀

/-! ## New accounts -/

def Known (calls : List Look) (db : Storage) : Prop := ∀ l ∈ calls, ∃ r ∈ db.accounts, r.2.address.viewPublic = l.view

theorem held_added {user : Account} (hagree : db.Agree env) (hknown : Known calls db) (h : Held env calls db)
    (hba : ∀ b, ((), b) ∈ db.accountsBa → b.address.viewPublic ≠ user.address.viewPublic)
    (hfree : ∀ x, (newStatus user, x) ∈ db.accounts → x.id ≠ user.id)
    (hnew : 0 < user.lookahead.majI → 0 < user.lookahead.minI → user.Provided → ∀ i,
      (Ahead user.lookahead i ∨ ∃ o ∈ db.outputs.dups user.id, o.recipient.isZero = false ∧
        AheadOf user.lookahead o.recipient i) → db.Tracks env user i) :
    Held env calls (added user db) ∧ Known calls (added user db) := by
  refine ⟨h.put rfl (fun hmaj hmin hp => Or.inr ?_) fun r hr _ => ?_, fun l hl => ?_⟩
  · refine ⟨fun i hi => hnew hmaj hmin hp i (Or.inl hi), fun height x hw _ i hi => hnew hmaj hmin hp i (Or.inr ?_)⟩
    rcases hw with ⟨o, ho, hnz, -, rfl⟩ | hl
    · exact ⟨o, Table.mem_dups.mpr ho, hnz, hi⟩
    · -- no call is for a view key that no account had
      obtain ⟨r, hr, hv⟩ := hknown _ hl
      exact absurd hv (hba _ (hagree.byAddress r.1 r.2 hr))
  · exact .refl_of (.of_eq rfl rfl) (fun _ h => h) fun _ h => h
  · obtain ⟨r, hr, hv⟩ := hknown l hl
    refine ⟨r, Table.mem_put.mpr (Or.inr ⟨hr, fun hn => ?_⟩), hv⟩
    exact hfree r.2 (show (newStatus user, r.2) ∈ db.accounts from hn.1 ▸ hr) hn.2

theorem held_createAccountsLoop {currentTime maxSubaddresses : Nat} : ∀ (addresses : List AccountAddress)
    {lastId : Nat} {db db' : Storage} {stored : List AccountAddress}, db.Agree env →
    db'.accounts.rows.length < 2 ^ 32 - 2 → (findLastId db.accounts + 1 < 2 ^ 32 → lastId = findLastId db.accounts) →
    Known calls db → Held env calls db →
    createAccountsLoop env currentTime maxSubaddresses lastId addresses db = .ok (db', stored) → Held env calls db' := by
  intro addresses
  induction addresses with
  | nil =>
    intro lastId db db' stored _ _ _ _ h hrun
    cases hrun
    exact h
  | cons address addresses ih =>
    intro lastId db db' stored hagree hcount hlast hknown h hrun
    have hle := count_changes (@createAccountsLoop_changes env 0 [] _ _ db (address :: addresses) _ _ _ _ hlast hrun)
    obtain ⟨hlt, hfree⟩ := hagree.next_free (hle.trans_lt hcount)
    unfold createAccountsLoop at hrun
    split at hrun
    · exact ih hagree hcount hlast hknown h hrun
    · rename_i info hget
      dsimp only at hrun
      split at hrun
      · cases hrun
      · obtain ⟨⟨user, ranges, indexes⟩, hlook, hrun⟩ := bind_ok.mp hrun
        have hsame := applyLookahead_same hlook
        have hid : user.id = findLastId db.accounts + 1 := by
          rw [hsame.id, ← hlast hlt]
          exact nextId_of_lt (by rw [hlast hlt]; exact hlt)
        have hne : ∀ r ∈ db.accounts, r.2.id ≠ user.id := by
          rw [hid]
          exact hfree
        -- the rows of the lookahead are under an id no account has
        let db₀ : Storage := { db with
          requests := db.requests.erase .create address.spendPublic
          subaddressRanges := ranges, subaddressIndexes := indexes }
        have hagree₀ : db₀.Agree env := hagree
        obtain ⟨hr, hi⟩ := applyLookahead_others hlook
        rw [← hsame.id] at hr hi
        have h₀ : Held env calls db₀ :=
          h.step fun r hx _ _ _ => Or.inl ⟨r, hx, .refl_of (.other (hne r hx) hr hi) (fun _ h => h) fun _ h => h⟩
        split at hrun
        · rename_i db₁ hadd
          obtain ⟨⟨db₂, stored'⟩, hloop, hrun⟩ := bind_ok.mp hrun
          cases hrun
          have hid' : findLastId db₀.accounts + 1 < 2 ^ 32 → user.id = findLastId db₀.accounts + 1 := fun _ => hid
          obtain ⟨hkey, hba, hbh, hfree', rfl⟩ := doAddAccount_ok hadd
          have hadd' : Change env .add db₀ (added user db₀) :=
            .add hkey hid' (by rw [hsame.startHeight, hsame.scanHeight]; rfl) hba hbh hfree'
          have hagree₁ := agree_change hagree₀ (fun _ => hle.trans_lt hcount) hadd'
          have hnew : 0 < user.lookahead.majI → 0 < user.lookahead.minI → user.Provided → ∀ i,
              (Ahead user.lookahead i ∨ ∃ o ∈ db₀.outputs.dups user.id, o.recipient.isZero = false ∧
                AheadOf user.lookahead o.recipient i) → db₀.Tracks env user i := by
            intro hmaj hmin hp
            rcases applyLookahead_cases hlook with ⟨rfl, -⟩ | rfl | ⟨rfl, -, htracks⟩
            · exact absurd hmaj (Nat.lt_irrefl 0)
            · unfold Account.Provided at hp
              dsimp only at hp
              omega
            · exact htracks hmaj hmin
          obtain ⟨h₁, hknown₁⟩ := held_added hagree₀ hknown h₀ hba hfree' hnew
          exact ih hagree₁ hcount (fun hlt => hsame.id.symm.trans (findLastId_put hid' hlt).symm) hknown₁ h₁ hloop
        · exact ih hagree₀ hcount hlast hknown h₀ hrun
        · exact ih hagree₀ hcount hlast hknown h₀ hrun
        · cases hrun

/-! ## After an output -/

/-- An upsert that succeeds, or whose merges fit, loses nothing of any account. -/
theorem Retains.upsert {id : Nat} {address : AccountAddress} {viewKey : SecretKey} {entries : List SubaddressDict}
    {m : Nat}
    (hsafe : (entries.map (·.1)).Nodup ∧ upsertFits m id db.subaddressRanges db.subaddressIndexes entries = true ∨
      ∃ out, (doUpsert env id address viewKey entries m db.subaddressRanges db.subaddressIndexes).result = .ok out)
    (hr : db'.subaddressRanges = (doUpsert env id address viewKey entries m db.subaddressRanges db.subaddressIndexes).ranges)
    (hi : db'.subaddressIndexes =
      (doUpsert env id address viewKey entries m db.subaddressRanges db.subaddressIndexes).indexes) :
    Retains env db db' a := by
  obtain ⟨hup, -⟩ := @doUpsert_upserted env id address viewKey m db.subaddressRanges db.subaddressIndexes entries
  by_cases e : a.id = id
  · intro i h
    obtain ⟨-, hranged⟩ := doUpsert_exact hsafe
    unfold Storage.Tracks at h ⊢
    rw [hr, hi]
    refine h.grow (fun i hri => ?_) hup.grows
    rw [e] at hri ⊢
    exact hranged i hri
  · refine .other e (fun r hne => ?_) fun r hne => ?_
    · rw [hr]
      exact hup.otherRanges r hne
    · rw [hi]
      exact hup.otherIndexes r hne

/-- A call that an account may rely on from here on. -/
theorem Held.look (h : Held env calls db) {l : Look}
    (hnew : ∀ r ∈ db.accounts, r.2.address.viewPublic = l.view → 0 < r.2.lookahead.majI → 0 < r.2.lookahead.minI →
      r.2.Provided → r.2.Sure l.height → ∀ i, AheadOf r.2.lookahead l.index i → db.Tracks env r.2 i) :
    Held env (l :: calls) db := by
  intro r hr hmaj hmin hp
  have hm := h r hr hmaj hmin hp
  refine ⟨hm.own, fun height x hw hs i hi => ?_⟩
  rcases hw with hw | hl
  · exact hm.received height x (Or.inl hw) hs i hi
  · rcases List.mem_cons.mp hl with rfl | hl
    · exact hnew r hr rfl hmaj hmin hp hs i hi
    · exact hm.received height x (Or.inr hl) hs i hi

/-- Past the limit the account is marked at the output's block or below. -/
theorem Follows.failed {height : Nat} (hret : Retains env db db' a) (hout : db'.outputs = db.outputs) :
    Follows env calls calls db db' a (a.lookaheadFailedAt height) := by
  have hfail : (a.lookaheadFailedAt height).lookaheadFail =
      if a.lookaheadFail = 0 then max 1 height else max 1 (min a.lookaheadFail height) := rfl
  have hstart : (a.lookaheadFailedAt height).startHeight = a.startHeight := rfl
  refine ⟨rfl, rfl, rfl, Nat.le_refl _, Nat.le_refl _, fun hp => ?_, hret, fun h x hw hs => ⟨?_, ?_⟩⟩
  · unfold Account.Provided at hp ⊢
    rw [hfail, hstart] at hp
    split at hp <;> omega
  · unfold Wanted at hw ⊢
    rw [hout] at hw
    exact hw
  · unfold Account.Sure at hs ⊢
    rw [hfail] at hs
    split at hs
    · exact Or.inl ‹_›
    · omega

theorem held_updateLookahead {address : AccountAddress} {height maxSubaddresses : Nat} {fresh : AddressIndex} {n : Int}
    (hagree : db.Agree env)
    (hown : ∀ r ∈ db.accountsBa, r.2.address.viewPublic = address.viewPublic → r.2.address = address)
    (hfits : (Op.updateLookahead address height fresh maxSubaddresses).fits env db = true) (hlast : fresh.majI < uint32Max)
    (h : Held env calls db) (hrun : db.updateLookahead env address height fresh maxSubaddresses = .ok (db', n)) :
    Held env (⟨address.viewPublic, height, fresh⟩ :: calls) db' := by
  unfold Storage.updateLookahead at hrun
  obtain ⟨⟨lookup, user⟩, hf, hrun⟩ := bind_ok.mp hrun
  obtain ⟨b, hb, hview, rfl, ha, hid⟩ := findAccount_ok hf
  have haddress : user.address = address := by
    have hrow := hagree.address_row ha hb hid.symm
    rw [← hown _ hb hview, hrow]
  subst haddress
  have honly : ∀ r ∈ db.accounts, r.2.address.viewPublic = user.address.viewPublic → r = (b.lookup.status, user) :=
    fun r hr hv => hagree.same_view hr ha hv
  dsimp only at hrun
  split at hrun
  · rename_i hzero
    cases hrun
    refine h.look fun r hr hv hmaj hmin => ?_
    cases honly r hr hv
    dsimp only at hmaj hmin
    omega
  · rename_i hzero
    push Not at hzero
    unfold Op.fits at hfits
    simp only [hf] at hfits
    -- the failed account is in doubt from the output on
    have hmarked : ∀ tables : Storage, tables.accounts = db.accounts → tables.outputs = db.outputs →
        (∀ a, Retains env db tables a) →
        Held env (⟨user.address.viewPublic, height, fresh⟩ :: calls)
          { tables with accounts := tables.accounts.put b.lookup.status (user.lookaheadFailedAt height) } := by
      intro tables hta hto hret
      have hput : Held env calls
          { tables with accounts := tables.accounts.put b.lookup.status (user.lookaheadFailedAt height) } := by
        refine h.put (show _ = db.accounts.put _ _ by rw [← hta]) (fun _ _ _ => Or.inl ⟨_, ha, ?_⟩) fun r _ _ => ?_
        · exact Follows.failed (hret user) hto
        · exact .refl_of (hret r.2) (fun o ho => by rw [← hto]; exact ho) fun _ h => h
      refine hput.look fun r hr hv _ _ hp hs => ?_
      rw [hta] at hr
      exfalso
      rcases Table.mem_put.mp hr with rfl | ⟨hr, hne⟩
      · unfold Account.Provided at hp
        unfold Account.Sure at hs
        unfold Account.lookaheadFailedAt at hp hs
        dsimp only at hp hs
        split at hp <;> split at hs <;> omega
      · cases honly r hr hv
        exact hne ⟨rfl, rfl⟩
    unfold updateLookaheadUpsert at hrun
    dsimp only at hrun
    by_cases hl : user.lookahead.majI ≤ uint32Max / user.lookahead.minI ∧
        user.lookahead.majI * user.lookahead.minI ≤ maxSubaddresses
    · have hlooks : looks maxSubaddresses user.lookahead = true := decide_eq_true ⟨hzero.1, hzero.2, hl⟩
      rw [hlooks] at hfits
      have hret := fun (u : Storage) (a : Account) => @Retains.upsert env db u a user.id user.address user.key _ maxSubaddresses
        (Or.inl ⟨lookaheadUpsertions_majors fresh user.lookahead.majI user.lookahead.minI, hfits⟩)
      simp only [if_pos hl] at hrun
      let tables : Storage := UpsertCall.apply env ⟨user.id, user.address, user.key,
        lookaheadUpsertions fresh user.lookahead.majI user.lookahead.minI, maxSubaddresses⟩ db
      split at hrun
      · rename_i out hok
        cases hrun
        have hgrown : Held env calls tables :=
          h.step fun r hr _ _ _ => Or.inl ⟨r, hr, .refl_of (hret _ _ rfl rfl) (fun _ h => h) fun _ h => h⟩
        refine hgrown.look fun r hr hv _ _ _ _ i hi => ?_
        cases honly r hr hv
        obtain ⟨e, he, hmajor, hc⟩ := lookaheadUpsertions_cover hlooks hlast (Or.inr hi)
        have htracks := doUpsert_tracks hok e he i.minI hc
        rw [hmajor] at htracks
        exact htracks
      · cases hrun
        exact hmarked tables rfl rfl fun a => hret tables a rfl rfl
      · cases hrun
    · simp only [if_neg hl] at hrun
      cases hrun
      exact hmarked _ rfl rfl fun a => .of_eq rfl rfl

/-! ## Storing outputs -/

theorem held_update {height : Nat} {chain : List Hash} {users : List Lws.Account} {pow : List PowSync} {regtest : Bool}
    {out : Updated} (hagree : db.Agree env) (hcount : db'.accounts.rows.length < 2 ^ 32 - 2)
    (hstored : StoresLooked ⟨db, calls⟩ (.update height chain users pow regtest)) (h : Held env calls db)
    (hrun : db.update env height chain users pow regtest = .ok (db', out)) : Held env calls db' := by
  rcases update_stores hrun with rfl | ⟨blocks, pows, hc⟩
  · exact h
  · -- an account below the last block is as it was
    have hkeep := hc.keeps_agree (fun mid => Held env calls mid ∧
      ∀ r ∈ mid.accounts, r ∈ db.accounts ∨ height + chain.length - 1 ≤ r.2.scanHeight) ?_ hcount hagree
      ⟨h.frame rfl rfl rfl rfl, fun r hr => Or.inl hr⟩
    · exact hkeep.2.1
    · intro mid mid' act hagree₁ hagree₂ ⟨hheld, hold⟩ hact hchange
      cases hchange with
      | @store _ h' lastUpdate user status existing l pubs pubs' events ha hid hscan hlt hl hl' hooks =>
        obtain ⟨rfl, rfl, huser, -⟩ := hact
        have hdb : (status, existing) ∈ db.accounts := (hold _ ha).resolve_right (by dsimp only; omega)
        have hlooked := hstored _ rfl user huser _ hdb hid hscan hlt
        refine ⟨hheld.put rfl (fun _ _ _ => Or.inl ⟨_, ha, ?_⟩) fun r hr hne => ?_, fun r hr => ?_⟩
        · refine ⟨rfl, rfl, rfl, Nat.le_refl _, Nat.le_refl _, fun hp => hp, .of_eq rfl rfl, fun _ x hw hs => ⟨?_, hs⟩⟩
          rcases hw with ⟨o, ho, hnz, rfl, rfl⟩ | hw
          · rcases Table.mem_putAllAbsent ho with ho | ⟨-, ho⟩
            · exact Or.inl ⟨o, ho, hnz, rfl, rfl⟩
            · exact Or.inr (hlooked o ho hnz)
          · exact Or.inr hw
        · refine .refl_of (.of_eq rfl rfl) (fun o ho => (Table.mem_putAllAbsent ho).resolve_right fun hn => ?_) fun _ h => h
          cases hagree₁.ids r hr _ ha (hn.1.trans hid.symm)
          exact hne ⟨rfl, rfl⟩
        · rcases Table.mem_put.mp hr with rfl | ⟨hr, -⟩
          · exact Or.inr (Nat.le_refl _)
          · exact hold r hr
      | _ => exact hact.elim

/-! ## Every operation -/

theorem mem_calls {op : Op} (hop : op.received = none) {l : Look} :
    l ∈ op.calls db calls ↔ l ∈ calls ∧ ∀ v ∈ op.voids db, v.1 = l.view → l.height < v.2 := by
  cases op with
  | updateLookahead _ _ _ _ => cases hop
  | _ => simp [Op.calls]

theorem held_addAccount {clock : Int} {address : AccountAddress} {key : SecretKey} {flags : Nat} (hagree : db.Agree env)
    (hknown : Known calls db) (h : Held env calls db) (hrun : db.addAccount env clock address key flags = .ok db') :
    Held env calls db' := by
  obtain ⟨time, -, hrun⟩ := bind_ok.mp hrun
  obtain ⟨height, -, hrun⟩ := bind_ok.mp hrun
  obtain ⟨-, hba, -, hfree, rfl⟩ := doAddAccount_ok hrun
  exact (held_added hagree hknown h hba hfree fun hmaj => absurd hmaj (Nat.lt_irrefl 0)).1

theorem held_updateAccessTime {clock : Int} {address : AccountAddress} (h : Held env calls db)
    (hrun : db.updateAccessTime clock address = .ok db') : Held env calls db' := by
  obtain ⟨access, -, hrun⟩ := bind_ok.mp hrun
  obtain ⟨⟨lookup, user⟩, hf, hrun⟩ := bind_ok.mp hrun
  cases hrun
  obtain ⟨b, -, -, rfl, ha, -⟩ := findAccount_ok hf
  refine h.put rfl (fun _ _ _ => Or.inl ⟨_, ha, ?_⟩) fun r _ _ => ?_
  · exact .same rfl rfl rfl rfl rfl rfl (.of_eq rfl rfl) (fun _ h => h) fun _ h => h
  · exact .refl_of (.of_eq rfl rfl) (fun _ h => h) fun _ h => h

/-- The calls are those that the import leaves. -/
theorem held_acceptRequests {clock : Int} {req : Request} {addresses : List AccountAddress} {maxSubaddresses : Nat}
    {stored : List AccountAddress} (hagree : db.Agree env) (hcount : db'.accounts.rows.length < 2 ^ 32 - 2)
    (hknown : Known calls db) (h : Held env calls db)
    (hkeep : (Op.acceptRequests clock req addresses maxSubaddresses).keepsFailures env db = true)
    (hcalls : ∀ l ∈ calls, ∀ v ∈ (Op.acceptRequests clock req addresses maxSubaddresses).voids db,
      v.1 = l.view → l.height < v.2)
    (hrun : db.acceptRequests env clock req addresses maxSubaddresses = .ok (db', stored)) : Held env calls db' := by
  cases req with
  | create =>
    rcases acceptRequests_created hrun with rfl | ⟨time, hloop⟩
    · exact h
    · exact held_createAccountsLoop addresses hagree hcount (fun _ => rfl) hknown h hloop
  | importScan =>
    refine held_importAccounts addresses hagree h hkeep (fun x hx info hinfo l hl hv => ?_) hrun
    refine hcalls l hl (x.viewPublic, _) (List.mem_filterMap.mpr ⟨x, hx, ?_⟩) hv.symm
    rw [hinfo]
    rfl

theorem held_rescan {height : Nat} {addresses updated : List AccountAddress} (hagree : db.Agree env)
    (h : Held env calls db) (hkeep : (Op.rescan height addresses).keepsFailures env db = true)
    (hcalls : ∀ l ∈ calls, ∀ v ∈ (Op.rescan height addresses).voids db, v.1 = l.view → l.height < v.2)
    (hrun : db.rescan env height addresses = .ok (db', updated)) : Held env calls db' := by
  obtain ⟨last, -, hrun⟩ := bind_ok.mp hrun
  split at hrun
  · cases hrun
  · refine held_rescanLoop addresses hagree h (of_decide_eq_true hkeep) (fun x hx l hl hv => ?_) hrun
    exact hcalls l hl (x.viewPublic, height) (List.mem_map.mpr ⟨x, hx, rfl⟩) hv.symm

theorem held_shrinkLookahead {address : AccountAddress} {lookahead : AddressIndex} (h : Held env calls db)
    (hrun : db.shrinkLookahead address lookahead = .ok db') : Held env calls db' := by
  obtain ⟨lookup, user, hf, -, hmajor, hminor, rfl⟩ := shrinkLookahead_ok hrun
  obtain ⟨b, -, -, rfl, ha, -⟩ := findAccount_ok hf
  refine h.put rfl (fun _ _ _ => Or.inl ⟨_, ha, ?_⟩) fun r _ _ => ?_
  · exact ⟨rfl, rfl, rfl, hmajor, hminor, fun hp => hp, .of_eq rfl rfl, fun _ _ hw hs => ⟨hw, hs⟩⟩
  · exact .refl_of (.of_eq rfl rfl) (fun _ h => h) fun _ h => h

theorem held_upsertSubaddresses {id : Nat} {address : AccountAddress} {viewKey : SecretKey}
    {subaddrs : List SubaddressDict} {maxSubaddr : Nat} {out : List SubaddressDict} (h : Held env calls db)
    (hrun : db.upsertSubaddresses env id address viewKey subaddrs maxSubaddr = .ok (db', out)) : Held env calls db' := by
  obtain ⟨hres, rfl⟩ := upsertSubaddresses_ok hrun
  refine h.step fun r hr _ _ _ => Or.inl ⟨r, hr, .refl_of ?_ (fun _ h => h) fun _ h => h⟩
  exact .upsert (Or.inr ⟨_, hres⟩) rfl rfl

/-- Blocks that are dropped are dropped from all accounts, and else only the blocks change. -/
theorem held_blocks {op : Op} (h : Held env calls db)
    (hflags : (op.forkAt db).isSome = true → ∀ r ∈ db.accounts, r.2.lookaheadFail = 0)
    (hstay : op.forkAt db = none → ∃ blocks pows, db' = { db with blocks, pows }) (hrun : op.run env db = .ok db') :
    Held env calls db' := by
  rcases hf : op.forkAt db with _ | height
  · obtain ⟨blocks, pows, rfl⟩ := hstay hf
    exact h.frame rfl rfl rfl rfl
  · obtain ⟨mid, blocks, pows, hrw, rfl⟩ := run_forked hrun hf
    exact (held_rewind (hflags (by rw [hf]; rfl)) hrw h).frame rfl rfl rfl rfl

theorem syncChain_stays {height : Nat} {hashes : List Hash} {regtest : Bool}
    (hrun : db.syncChain env height hashes regtest = .ok db')
    (hf : (Op.syncChain height hashes regtest).forkAt db = none) : ∃ blocks pows, db' = { db with blocks, pows } := by
  rcases syncChain_cases hrun with ⟨-, blocks, rfl⟩ | ⟨current, mid, blocks, hfork, -, -⟩
  · exact ⟨blocks, db.pows, rfl⟩
  · cases hf.symm.trans hfork

theorem syncPow_stays {height : Nat} {hashes : List Hash} {pow : List PowSync}
    (hrun : db.syncPow env height hashes pow = .ok db')
    (hf : (Op.syncPow height hashes pow).forkAt db = none) : ∃ blocks pows, db' = { db with blocks, pows } := by
  rcases syncPow_cases hrun with ⟨-, blocks, pows, rfl⟩ | ⟨fork, mid, blocks, pows, hfork, -, -⟩
  · exact ⟨blocks, pows, rfl⟩
  · cases hf.symm.trans hfork

theorem rollback_stays {height : Nat} (hrun : db.rollback height = .ok db')
    (hf : (Op.rollback height).forkAt db = none) :
    ∃ blocks pows, db' = { db with blocks, pows } := by
  rcases rollback_ok hrun with ⟨-, rfl⟩ | ⟨hsome, -⟩
  · exact ⟨_, _, rfl⟩
  · simp [Op.forkAt, hsome] at hf

theorem held_run {op : Op} (hagree : db.Agree env) (hcount : db'.accounts.rows.length < 2 ^ 32 - 2)
    (hknown : Known calls db) (h : Held env calls db) (hok : Tended env ⟨db, calls⟩ op) (hrun : op.run env db = .ok db') :
    Held env (op.calls db calls) db' := by
  -- the calls of an operation that makes none
  have hfewer : op.received = none → Held env (op.calls db calls) db := fun hn => h.fewer fun l hl => ((mem_calls hn).mp hl).1
  have hknown' : op.received = none → Known (op.calls db calls) db := fun hn l hl => hknown l ((mem_calls hn).mp hl).1
  have hcalls : op.received = none → ∀ l ∈ op.calls db calls, ∀ v ∈ op.voids db, v.1 = l.view → l.height < v.2 :=
    fun hn l hl => ((mem_calls hn).mp hl).2
  have hquiet : ∀ {allowed : Storage → Act → Prop}, op.received = none → (∀ mid act, allowed mid act → act.Quiet) →
      Changes env allowed db db' → Held env (op.calls db calls) db' := by
    intro allowed hn hall hc
    exact hc.keeps _ (fun hu ha hone => held_quiet (hall _ _ ha) hone hu) (hfewer hn)
  cases op with
  | addAccount clock address key flags => exact held_addAccount hagree (hknown' rfl) (hfewer rfl) hrun
  | updateAccessTime clock address => exact held_updateAccessTime (hfewer rfl) hrun
  | changeStatus status addresses =>
    obtain ⟨changed, hrun⟩ := fst_ok hrun
    refine hquiet rfl (fun mid act ha => ?_) (changeStatus_changes addresses hrun)
    rw [ha]
    trivial
  | creationRequest clock address key flags lookahead =>
    obtain ⟨hooks, hrun⟩ := fst_ok hrun
    obtain ⟨-, -, requests, -, rfl⟩ := creationRequest_files hrun
    exact (hfewer rfl).frame rfl rfl rfl rfl
  | importRequest clock address height lookahead =>
    obtain ⟨requests, -, rfl⟩ := importRequest_files hrun
    exact (hfewer rfl).frame rfl rfl rfl rfl
  | acceptRequests clock req addresses maxSubaddresses =>
    obtain ⟨stored, hrun⟩ := fst_ok hrun
    exact held_acceptRequests hagree hcount (hknown' rfl) (hfewer rfl) hok.keeps (hcalls rfl) hrun
  | rejectRequests req addresses =>
    obtain ⟨requests, he⟩ := @rejectRequests_aside req addresses db
    obtain rfl : { db with requests } = db' := he.symm.trans (Except.ok.inj hrun)
    exact (hfewer rfl).frame rfl rfl rfl rfl
  | rescan height addresses =>
    obtain ⟨updated, hrun⟩ := fst_ok hrun
    exact held_rescan hagree (hfewer rfl) hok.keeps (hcalls rfl) hrun
  | shrinkLookahead address lookahead => exact held_shrinkLookahead (hfewer rfl) hrun
  | upsertSubaddresses id address viewKey subaddrs maxSubaddr =>
    obtain ⟨out, hrun⟩ := fst_ok hrun
    exact held_upsertSubaddresses (hfewer rfl) hrun
  | updateLookahead address height fresh maxSubaddresses =>
    obtain ⟨n, hrun⟩ := fst_ok hrun
    obtain ⟨hown, hfits⟩ := hok.lookedUp address rfl
    exact held_updateLookahead hagree hown hfits (hok.last fresh rfl) h hrun
  | syncChain height hashes regtest => exact held_blocks (hfewer rfl) hok.forks (syncChain_stays hrun) hrun
  | syncPow height hashes pow => exact held_blocks (hfewer rfl) hok.forks (syncPow_stays hrun) hrun
  | rollback height => exact held_blocks (hfewer rfl) hok.forks (rollback_stays hrun) hrun
  | update height chain users pow regtest =>
    obtain ⟨out, hrun⟩ := fst_ok hrun
    have hsame : ∀ l ∈ calls, l ∈ (Op.update height chain users pow regtest).calls db calls :=
      fun l hl => (mem_calls rfl).mpr ⟨hl, fun v hv => absurd hv List.not_mem_nil⟩
    refine held_update hagree hcount (fun b hb u hu r hr hid hs hlt o ho hnz => ?_) (hfewer rfl) hrun
    exact hsame _ (hok.stored b hb u hu r hr hid hs hlt o ho hnz)
  | addWebhook type address event =>
    exact @held_quiet env _ _ _ .hook trivial (addWebhook_change hrun) (hfewer rfl)
  | clearWebhooks addresses =>
    refine hquiet rfl (fun mid act ha => ?_) (clearWebhooks_changes addresses hrun)
    rw [ha]
    trivial
  | clearWebhookIds ids =>
    rcases @clearWebhookIds_change env _ _ _ hrun with rfl | hc
    · exact hfewer rfl
    · exact @held_quiet env _ _ _ .unhook trivial hc (hfewer rfl)

end Held

/-! ## Over whole runs -/

section Runs

variable {env : Env} {s : Looked}

theorem look_ok {op : Op} {s' : Looked} (h : op.look env s = .ok s') :
    ∃ db', op.run env s.db = .ok db' ∧ s' = ⟨db', op.calls s.db s.calls⟩ := by
  obtain ⟨db', hrun, h⟩ := bind_ok.mp h
  cases h
  exact ⟨db', hrun, rfl⟩

/-- A call is for an account that was found, and accounts stay. -/
theorem known_run {op : Op} {db db' : Storage} {calls : List Look} (hknown : Known calls db)
    (hrun : op.run env db = .ok db') (hagree : db.Agree env) : Known (op.calls db calls) db' := by
  have hstay : ∀ r ∈ db.accounts, ∃ r' ∈ db'.accounts, r'.2.address.viewPublic = r.2.address.viewPublic := by
    intro r hr
    obtain ⟨r', hr', -, haddr, -⟩ := run_owners hrun ⟨r, hr, rfl, rfl, rfl⟩
    exact ⟨r', hr', by rw [haddr]⟩
  have hcall : ∀ l ∈ op.calls db calls, ∃ r ∈ db.accounts, r.2.address.viewPublic = l.view := by
    intro l hl
    cases op with
    | updateLookahead address height fresh m =>
      rcases List.mem_cons.mp hl with rfl | hl
      · obtain ⟨n, hrun⟩ := fst_ok hrun
        obtain ⟨⟨lookup, user⟩, hf, -⟩ := bind_ok.mp hrun
        obtain ⟨b, hb, hview, -, ha, hid⟩ := findAccount_ok hf
        refine ⟨_, ha, ?_⟩
        rw [← hview, hagree.address_row ha hb hid.symm]
      · exact hknown l hl
    | _ => exact hknown l ((mem_calls rfl).mp hl).1
  intro l hl
  obtain ⟨r, hr, hv⟩ := hcall l hl
  obtain ⟨r', hr', hv'⟩ := hstay r hr
  exact ⟨r', hr', hv'.trans hv⟩

theorem held_steps (h : Steps (Op.look env) (Tended env) ⟨fresh env, []⟩ s)
    (hcount : s.db.accounts.rows.length < 2 ^ 32 - 2) :
    s.db.Agree env ∧ Known s.calls s.db ∧ Held env s.calls s.db := by
  refine h.invariant (fun s => s.db.accounts.rows.length < 2 ^ 32 - 2 →
    s.db.Agree env ∧ Known s.calls s.db ∧ Held env s.calls s.db) (fun _ => ?_) (fun u op u' ih hok hlook hlt => ?_) hcount
  · exact ⟨agree_fresh env, fun l hl => absurd hl List.not_mem_nil, fun r hr => absurd hr (Table.not_mem_empty _)⟩
  · obtain ⟨db', hrun, rfl⟩ := look_ok hlook
    obtain ⟨hagree, hknown, hheld⟩ := ih ((count_changes (run_changes hrun)).trans_lt hlt)
    exact ⟨agree_run hrun hlt hagree, known_run hknown hrun hagree, held_run hagree hlt hknown hheld hok hrun⟩

/-- An output at `{0, 1}` is looked up and stored, the lookahead of one at `{5, 0}` fails,
    and a rescan clears the flag. -/
def lookaheadOps : List Op :=
  [.creationRequest 5 ⟨1007, 50⟩ 7 0 ⟨1, 2⟩, .acceptRequests 6 .create [⟨1007, 50⟩] 10,
    .updateLookahead ⟨1007, 50⟩ 1 ⟨0, 1⟩ 10,
    .update 0 [100, 101, 102] [sampleUser 0 [{ sampleOutput 1 1 with recipient := ⟨0, 1⟩ }] []] [] false,
    .updateLookahead ⟨1007, 50⟩ 3 ⟨5, 0⟩ 10, .rescan 2 [⟨1007, 50⟩]]

def Op.lookAll (env : Env) (ops : List Op) : Looked := runAll (Op.look env) ops ⟨fresh env, []⟩

def failureOps : List Op :=
  [.creationRequest 5 ⟨1007, 50⟩ 7 0 ⟨2, 2⟩, .acceptRequests 6 .create [⟨1007, 50⟩] 3, .rescan 0 [⟨1007, 50⟩]]

end Runs

end Lws.Db
