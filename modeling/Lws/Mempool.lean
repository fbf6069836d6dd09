/-
  Lws.Mempool — the pool of unconfirmed transactions and its cache (`src/mempool.cpp`,
  `src/mempool.h`).

  A scan of the pool for an account skips the transactions that an earlier scan found
  nothing in. The cache is by address, and valid while the rows of `subaddress_ranges` are
  the same. What the test reports depends on two other things. It looks keys up in
  `subaddress_indexes`, whose rows are more than the ranges where a lookahead lost a row of
  ranges (`output_skipped`), and it finds spends by the outputs the account is known to own
  (`spend_skipped`). `scanAccount_fresh` says exactly when nothing is missed, and that a
  transaction which was tested with the same index rows can only hide spends.
-/

import Lws.Db.Operations
import Lws.Ownership

namespace Lws

open Lws.Db Lws.Transition

/-! ## The cache -/

structure CacheEntry where
  subaddrs : List SubaddressDict
  txids : List Hash
  deriving DecidableEq, Repr

structure AddressCache where
  map : List (AccountAddress × CacheEntry)
  /-- The address that was set last is the first. -/
  order : List AccountAddress
  deriving DecidableEq, Repr

def maxCacheSize : Nat := 1000

def AddressCache.get (cache : AddressCache) (address : AccountAddress) (subaddrs : List SubaddressDict) : List Hash :=
  match cache.map.lookup address with
  | some entry => if entry.subaddrs = subaddrs then entry.txids else []
  | none => []

def AddressCache.set (cache : AddressCache) (address : AccountAddress) (subaddrs : List SubaddressDict)
    (txids : List Hash) :
    AddressCache :=
  match cache.map.lookup address with
  | none =>
    let map := (address, ⟨subaddrs, txids⟩) :: cache.map
    let order := address :: cache.order
    if maxCacheSize ≤ map.length then ⟨map.filter fun e => some e.1 ≠ order.getLast?, order.dropLast⟩ else ⟨map, order⟩
  | some _ =>
    ⟨cache.map.map fun e => if e.1 = address then (address, ⟨subaddrs, txids⟩) else e, address :: cache.order.erase address⟩

/-! ## The pool -/

structure PoolEntry where
  tx : Transaction
  timestamp : Nat
  deriving DecidableEq, Repr

structure Mempool where
  /-- `state_`, in the order of its iteration. -/
  state : List (Hash × PoolEntry)
  snapshot : Option (List (Hash × PoolEntry))
  cache : AddressCache
  deriving DecidableEq, Repr

structure FoundPoolTx where
  hash : Hash
  spends : List Spend
  outputs : List Output
  deriving DecidableEq, Repr

def txpool : Nat := 2 ^ 64 - 1

def fakeOuts : List Nat := List.replicate 256 (2 ^ 64 - 1)

def Report.hash : Report → Hash
  | .spend s => s.link.txHash
  | .output o => o.link.txHash

def FoundPoolTx.push (found : FoundPoolTx) : Report → FoundPoolTx
  | .spend s => { found with spends := found.spends ++ [s] }
  | .output o => { found with outputs := found.outputs ++ [o] }

/-- The callbacks of the test: a transaction is added where its hash is not that of the last one found. The list has the
    last one first. -/
def addReport (found : List FoundPoolTx) (report : Report) : List FoundPoolTx :=
  match found with
  | [] => [FoundPoolTx.push ⟨report.hash, [], []⟩ report]
  | last :: rest =>
    if last.hash ≠ report.hash then FoundPoolTx.push ⟨report.hash, [], []⟩ report :: last :: rest
    else last.push report :: rest

def findSubaddress (db : Storage) (user : Account) (pub : PublicKey) : Option AddressIndex :=
  (db.subaddressIndexes.get? user.id pub).map (·.index)

/-- What the test reports of one transaction, with the subaddresses of the reader. -/
def poolReports (monero : Monero) (db : Storage) (user : Account) (pair : Hash × PoolEntry) :
    Except ScanError (List Report) :=
  (ownershipTest { monero with findSubaddress := some (findSubaddress db) } [user] txpool pair.2.timestamp (some pair.1)
    pair.2.tx fakeOuts).map List.flatten

/-- The loop over the snapshot: what was found, and the transactions to skip the next time. -/
def scanLoop (reports : Hash × PoolEntry → Except ScanError (List Report)) (skip : List Hash) :
    List (Hash × PoolEntry) → List FoundPoolTx × List Hash → Except ScanError (List FoundPoolTx × List Hash)
  | [], acc => .ok acc
  | pair :: rest, (found, skipped) => do
    let found ← if pair.1 ∈ skip then .ok found else (reports pair).map fun rs => rs.foldl addReport found
    let skipped := if (found.head?.map (·.hash)) = some pair.1 then skipped else skipped ++ [pair.1]
    scanLoop reports skip rest (found, skipped)

/-- `mempool::scan_account`, with what the reader has stored. The test may throw, and the cache is then not set. -/
def Mempool.scanAccount (monero : Monero) (db : Storage) (user : Account) (pool : Mempool) :
    Except ScanError (List FoundPoolTx) × Mempool :=
  -- `get_subaddresses`
  let subaddrs := db.subaddressRanges.dups user.id
  let skip := pool.cache.get user.address subaddrs
  let snapshot := pool.snapshot.getD pool.state
  let pool := { pool with snapshot := some snapshot }
  match scanLoop (poolReports monero db user) skip snapshot ([], []) with
  | .error e => (.error e, pool)
  | .ok (found, skipped) => (.ok found.reverse, { pool with cache := pool.cache.set user.address subaddrs skipped })

def Mempool.addTxs (monero : Monero) (now : Nat) (txs : List Transaction) (pool : Mempool) : Mempool :=
  { pool with
    snapshot := none
    state := txs.foldl (fun state tx =>
      if monero.transactionHash tx ∈ state.map (·.1) then state
      else state ++ [(monero.transactionHash tx, ⟨tx, now⟩)]) pool.state }

def Mempool.resetTxs (txs : List (Hash × PoolEntry)) (pool : Mempool) : Mempool :=
  { pool with snapshot := none, state := txs }

def Mempool.scanFresh (monero : Monero) (db : Storage) (user : Account) (pool : Mempool) :
    Except ScanError (List FoundPoolTx) :=
  (scanLoop (poolReports monero db user) [] pool.state ([], [])).map fun out => out.1.reverse

/-- The transactions that the cache lists for the account, where its ranges are the stored ones. -/
def Mempool.listed (db : Storage) (user : Account) (pool : Mempool) : List Hash :=
  pool.cache.get user.address (db.subaddressRanges.dups user.id)

/-! ## Runs -/

/-- The calls, in any order: scans of any account, at any time with any rows stored. -/
inductive PoolEvent where
  | addTxs (now : Nat) (txs : List Transaction)
  | resetTxs (txs : List (Hash × PoolEntry))
  | scanAccount (user : Account) (db : Storage)

/-- The pool, and beside it the index rows that each transaction was last tested with for an address. -/
structure Watched where
  pool : Mempool
  tested : AccountAddress → Hash → PublicKey → Option AddressIndex

def Watched.step (monero : Monero) (event : PoolEvent) (w : Watched) : Except Empty Watched :=
  match event with
  | .addTxs now txs => .ok { w with pool := w.pool.addTxs monero now txs }
  | .resetTxs txs => .ok { w with pool := w.pool.resetTxs txs }
  | .scanAccount user db =>
    let (found, pool) := w.pool.scanAccount monero db user
    let tested (address : AccountAddress) (hash : Hash) :=
      if address = user.address ∧ hash ∉ w.pool.listed db user then findSubaddress db user else w.tested address hash
    .ok ⟨pool, if found.isOk then tested else w.tested⟩

def Watched.empty : Watched := ⟨⟨[], none, ⟨[], []⟩⟩, fun _ _ _ => none⟩

/-! ## What an account receives -/

section Receives

variable {p : Pass} {hash : Hash}

def Report.at (timestamp : Nat) : Report → Report
  | .spend s => .spend { s with timestamp }
  | .output o => .output { o with timestamp }

def Pass.again (p : Pass) (timestamp : Nat) (find : Option (Account → PublicKey → Option AddressIndex)) : Pass :=
  { p with timestamp, monero := { p.monero with findSubaddress := find } }

def Report.IsSpend : Report → Prop
  | .spend _ => True
  | .output _ => False

theorem getTxHash_some {c : Carry} (h : c.txHash = some hash) : p.getTxHash c = (hash, c) := by
  cases c
  simp_all [Pass.getTxHash]

/-- Inputs give spends of the transaction, and leave the carry as it is. -/
theorem scanOffsets_spends {user : Account} {amount : Nat} {image : KeyImage} {mixin : Nat} {c : Carry}
    (hc : c.txHash = some hash) : ∀ (offsets : List Nat) (goffset : Nat),
    (p.scanOffsets user amount image mixin goffset offsets c).2 = c ∧
      ∀ r ∈ (p.scanOffsets user amount image mixin goffset offsets c).1, r.IsSpend ∧ r.hash = hash := by
  intro offsets
  induction offsets with
  | nil => intro goffset; simp [Pass.scanOffsets]
  | cons offset rest ih =>
    intro goffset
    have hrest := ih ((goffset + offset) % 2 ^ 64)
    rw [Pass.scanOffsets]
    dsimp only
    split
    · exact hrest
    · simp only [getTxHash_some hc]
      refine ⟨hrest.1, List.forall_mem_cons.mpr ⟨⟨trivial, rfl⟩, hrest.2⟩⟩

theorem scanInputs_spends {user : Account} {c : Carry} (hc : c.txHash = some hash) :
    ∀ (inputs : List TxIn) (mixin ext : Nat),
    (p.scanInputs user inputs mixin ext c).2.2.2 = c ∧
      ∀ r ∈ (p.scanInputs user inputs mixin ext c).1, r.IsSpend ∧ r.hash = hash := by
  intro inputs
  induction inputs with
  | nil => intro mixin ext; simp [Pass.scanInputs]
  | cons input rest ih =>
    intro mixin ext
    cases input with
    | toKey amount keyOffsets image =>
      obtain ⟨hcarry, hspends⟩ := @scanOffsets_spends p hash user amount image (max 1 keyOffsets.length - 1) c hc keyOffsets 0
      obtain ⟨hcarry', hspends'⟩ := ih (max 1 keyOffsets.length - 1) ext
      simp only [Pass.scanInputs, hcarry]
      refine ⟨hcarry', fun r hr => ?_⟩
      rcases List.mem_append.mp hr with hr | hr
      · exact hspends r hr
      · exact hspends' r hr
    | gen => exact ih mixin (ext ||| coinbaseOutput)
    | other => exact ih mixin ext

/-- The mixin and the flags are the transaction's. -/
theorem scanInputs_flags {timestamp : Nat} {find : Option (Account → PublicKey → Option AddressIndex)}
    {user user' : Account} :
    ∀ (inputs : List TxIn) (mixin ext : Nat) (c c' : Carry),
    (p.scanInputs user inputs mixin ext c).2.1 = ((p.again timestamp find).scanInputs user' inputs mixin ext c').2.1 ∧
      (p.scanInputs user inputs mixin ext c).2.2.1 = ((p.again timestamp find).scanInputs user' inputs mixin ext c').2.2.1 := by
  intro inputs
  induction inputs with
  | nil => intro mixin ext c c'; simp [Pass.scanInputs]
  | cons input rest ih =>
    intro mixin ext c c'
    cases input with
    | toKey amount keyOffsets image => exact ih _ ext _ _
    | gen => exact ih mixin (ext ||| coinbaseOutput) c c'
    | other => exact ih mixin ext c c'

/-- Outputs are found with the keys and the subaddresses of the account, at any time. -/
theorem scanOutputs_again {user user' : Account} {timestamp : Nat}
    {find : Option (Account → PublicKey → Option AddressIndex)} (h : (p.again timestamp find).attempt user' = p.attempt user)
    (derived : Derivation) (mixin : Nat) : ∀ (outs : List TxOut) (index ext : Nat) (id : Nat × Nat) (c : Carry),
    (p.again timestamp find).scanOutputs user' derived mixin index outs ext id c =
      (p.scanOutputs user derived mixin index outs ext id c).map fun out => (out.1.map (Report.at timestamp), out.2) := by
  intro outs
  induction outs with
  | nil => intro index ext id c; rfl
  | cons out rest ih =>
    intro index ext id c
    have howner : ∀ outPub, (p.again timestamp find).findOwner user' derived c.additional outPub index =
        p.findOwner user derived c.additional outPub index := by
      intro outPub
      simp only [Pass.findOwner, h]
      rfl
    have htag : (p.again timestamp find).matchesTag derived c.additional out index =
        p.matchesTag derived c.additional out index := rfl
    rw [Pass.scanOutputs, Pass.scanOutputs]
    cases out.publicKey with
    | none => exact ih (index + 1) ext id c
    | some outPub =>
      dsimp only
      rw [howner, htag]
      cases p.matchesTag derived c.additional out index with
      | error e => rfl
      | ok matched =>
        cases matched with
        | false => exact ih (index + 1) ext id c
        | true =>
          cases p.findOwner user derived c.additional outPub index with
          | error e => rfl
          | ok owner =>
            cases owner with
            | none => exact ih (index + 1) ext id c
            | some owner =>
              have hamount : (p.again timestamp find).amount out index owner.derivation ext =
                  p.amount out index owner.derivation ext := rfl
              simp only [bind, Except.bind, Bool.true_eq_false, if_false, hamount]
              cases p.amount out index owner.derivation ext with
              | error e => rfl
              | ok amount =>
                cases amount with
                | none => exact ih (index + 1) ext id _
                | some decoded =>
                  dsimp only
                  rw [show (p.again timestamp find).outIds = p.outIds from rfl]
                  cases at? p.outIds index with
                  | error e => rfl
                  | ok outId =>
                    dsimp only
                    have hrest := ih (index + 1) decoded.2.2 (p.paymentId owner.derivation id)
                      (p.getTxHash (p.getPrefixHash c).2).2
                    have hhash : ∀ c, (p.again timestamp find).getTxHash c = p.getTxHash c := fun _ => rfl
                    have hpre : (p.again timestamp find).getPrefixHash c = p.getPrefixHash c := rfl
                    have hid : (p.again timestamp find).paymentId owner.derivation id = p.paymentId owner.derivation id := rfl
                    rw [hpre, hhash, hid]
                    rw [hrest]
                    cases p.scanOutputs user derived mixin (index + 1) rest decoded.2.2 (p.paymentId owner.derivation id)
                        (p.getTxHash (p.getPrefixHash c).2).2 with
                    | error e => rfl
                    | ok v => rfl

/-- Outputs of the transaction, and no spends. -/
theorem scanOutputs_outputs {user : Account} {derived : Derivation} {mixin : Nat} :
    ∀ (outs : List TxOut) {index ext : Nat}
    {id : Nat × Nat} {c c' : Carry} {rs : List Report}, c.txHash = some hash →
    p.scanOutputs user derived mixin index outs ext id c = .ok (rs, c') → ∀ r ∈ rs, ¬ r.IsSpend ∧ r.hash = hash := by
  intro outs
  induction outs with
  | nil => intro index ext id c c' rs _ h; cases h; simp
  | cons out rest ih =>
    intro index ext id c c' rs hc h
    rw [Pass.scanOutputs] at h
    cases hpub : out.publicKey with
    | none => rw [hpub] at h; exact ih hc h
    | some outPub =>
      simp only [hpub, bind, Except.bind] at h
      cases hmatch : p.matchesTag derived c.additional out index with
      | error e => simp [hmatch] at h
      | ok matched =>
        simp only [hmatch] at h
        split at h
        · exact ih hc h
        · cases howner : p.findOwner user derived c.additional outPub index with
          | error e => simp [howner] at h
          | ok owner =>
            simp only [howner] at h
            cases owner with
            | none => exact ih hc h
            | some owner =>
              dsimp only at h
              have hc' : (p.getPrefixHash c).2.txHash = some hash := hc
              cases hamount : p.amount out index owner.derivation ext with
              | error e => simp [hamount] at h
              | ok amount =>
                simp only [hamount] at h
                cases amount with
                | none => exact ih hc' h
                | some decoded =>
                  dsimp only at h
                  cases hid : at? p.outIds index with
                  | error e => simp [hid] at h
                  | ok outId =>
                    simp only [hid] at h
                    rw [getTxHash_some hc'] at h
                    dsimp only at h
                    cases hrest : p.scanOutputs user derived mixin (index + 1) rest decoded.2.2
                        (p.paymentId owner.derivation id) (p.getPrefixHash c).2 with
                    | error e => simp [hrest] at h
                    | ok v =>
                      simp only [hrest, pure, Except.pure] at h
                      cases h
                      exact List.forall_mem_cons.mpr ⟨⟨fun hspend => hspend, rfl⟩, ih hc' hrest⟩

/-- Where an account received nothing, one with the same keys and subaddresses receives nothing at any other time. -/
theorem scanUser_receives {user user' : Account} {c c₁ : Carry} {rs : List Report} {timestamp : Nat}
    {find : Option (Account → PublicKey → Option AddressIndex)}
    (hattempt : (p.again timestamp find).attempt user' = p.attempt user)
    (hfind : find.isSome = p.monero.findSubaddress.isSome) (hkey : user'.viewKey = user.viewKey) (hc : c.txHash = some hash)
    (hheight : ¬ p.height ≤ user.scanHeight) (hheight' : ¬ p.height ≤ user'.scanHeight)
    (h : p.scanUser user c = .ok (rs, c₁)) (hrs : ∀ r ∈ rs, r.IsSpend) :
    ∃ rs' c', (p.again timestamp find).scanUser user' c = .ok (rs', c') ∧ ∀ r ∈ rs', r.IsSpend := by
  rw [Pass.scanUser, if_neg hheight] at h
  have hskipped : ¬ (p.again timestamp find).height ≤ user'.scanHeight := hheight'
  have hderive : (p.again timestamp find).monero.generateKeyDerivation (p.again timestamp find).key user'.viewKey =
      p.monero.generateKeyDerivation p.key user.viewKey := by
    rw [hkey]
    rfl
  rw [Pass.scanUser, if_neg hskipped, hderive, show (p.again timestamp find).tx = p.tx from rfl]
  cases hderived : p.monero.generateKeyDerivation p.key user.viewKey with
  | none => exact ⟨[], c, rfl, by simp⟩
  | some derived =>
    simp only [hderived, bind, Except.bind] at h
    have hadditional : (p.again timestamp find).additional user' c = p.additional user c := by
      show (if find.isSome ∧ p.tx.additionalKeys.length = p.tx.vout.length then
        (p.tx.additionalKeys.mapM fun key => p.monero.generateKeyDerivation key user'.viewKey).getD [] else c.additional) = _
      rw [hfind, hkey]
      rfl
    rw [hadditional]
    generalize hc₀ : ({ c with additional := p.additional user c } : Carry) = c₀ at h ⊢
    have hhash : c₀.txHash = some hash := by rw [← hc₀]; exact hc
    obtain ⟨hcarry, _⟩ := @scanInputs_spends p hash user c₀ hhash p.tx.vin 0 0
    obtain ⟨hcarry', hspends'⟩ := @scanInputs_spends (p.again timestamp find) hash user' c₀ hhash p.tx.vin 0 0
    obtain ⟨hmixin, hext⟩ := @scanInputs_flags p timestamp find user user' p.tx.vin 0 0 c₀ c₀
    rcases hin : p.scanInputs user p.tx.vin 0 0 c₀ with ⟨spends, mixin, ext, c₂⟩
    rcases hin' : (p.again timestamp find).scanInputs user' p.tx.vin 0 0 c₀ with ⟨spends', mixin', ext', c₂'⟩
    rw [hin] at h hcarry hmixin hext
    rw [hin'] at hcarry' hspends' hmixin hext
    dsimp only at h hcarry hcarry' hspends' hmixin hext
    rw [hcarry] at h
    dsimp only
    rw [hin']
    dsimp only
    rw [← hmixin, ← hext, hcarry']
    cases hout : p.scanOutputs user derived mixin 0 p.tx.vout ext p.unencryptedId c₀ with
    | error e => rw [hout] at h; cases h
    | ok v =>
      rw [hout] at h
      cases h
      have hnone : v.1 = [] := by
        refine List.eq_nil_iff_forall_not_mem.mpr fun r hr => ?_
        exact (scanOutputs_outputs p.tx.vout hhash hout r hr).1 (hrs r (List.mem_append_right _ hr))
      have hat := scanOutputs_again hattempt derived mixin p.tx.vout 0 ext p.unencryptedId c₀
      have hid : (p.again timestamp find).unencryptedId = p.unencryptedId := rfl
      refine ⟨spends', v.2, ?_, fun r hr => (hspends' r hr).1⟩
      simp only [bind, Except.bind, hid, hat, hout, Except.map, hnone, List.map_nil, List.append_nil, pure, Except.pure]

/-- All reports are of the transaction. -/
theorem scanUser_hash {user : Account} {c c₁ : Carry} {rs : List Report} (hc : c.txHash = some hash)
    (h : p.scanUser user c = .ok (rs, c₁)) : ∀ r ∈ rs, r.hash = hash := by
  unfold Pass.scanUser at h
  split at h
  · cases h; simp
  · split at h
    · cases h; simp
    · rename_i derived _
      simp only [bind, Except.bind] at h
      generalize hc₀ : ({ c with additional := p.additional user c } : Carry) = c₀ at h
      have hhash : c₀.txHash = some hash := by rw [← hc₀]; exact hc
      obtain ⟨hcarry, hspends⟩ := @scanInputs_spends p hash user c₀ hhash p.tx.vin 0 0
      rw [hcarry] at h
      split at h
      · cases h
      · rename_i v hout
        cases h
        intro r hr
        rcases List.mem_append.mp hr with hr | hr
        · exact (hspends r hr).2
        · exact (scanOutputs_outputs p.tx.vout hhash hout r hr).2

end Receives

/-! ## The loop -/

section Loop

variable {reports : Hash × PoolEntry → Except ScanError (List Report)} {skip : List Hash}

@[simp] theorem push_hash (found : FoundPoolTx) (r : Report) : (found.push r).hash = found.hash := by
  cases r <;> rfl

@[simp] theorem addReport_head (found : List FoundPoolTx) (r : Report) :
    (addReport found r).head?.map (·.hash) = some r.hash := by
  cases found with
  | nil => simp [addReport]
  | cons last rest =>
    by_cases h : last.hash = r.hash
    · simp [addReport, h]
    · simp [addReport, h]

/-- Reports of a transaction make it the last one found. -/
theorem foldl_addReport_head {hash : Hash} : ∀ {rs : List Report} {found : List FoundPoolTx}, rs ≠ [] →
    (∀ r ∈ rs, r.hash = hash) → (rs.foldl addReport found).head?.map (·.hash) = some hash := by
  intro rs
  induction rs with
  | nil => intro found h _; exact absurd rfl h
  | cons r rest ih =>
    intro found _ hall
    obtain ⟨hone, hrest⟩ := List.forall_mem_cons.mp hall
    cases rest with
    | nil => simp [hone]
    | cons r' rest => exact ih (by simp) hrest

/-- The account received nothing in the transaction, as far as the test goes. -/
def Silent (reports : Hash × PoolEntry → Except ScanError (List Report)) (pair : Hash × PoolEntry) : Prop :=
  ∃ rs, reports pair = .ok rs ∧ ∀ r ∈ rs, r.IsSpend

/-- What the loop skips the next time was skipped, or it is silent. -/
theorem scanLoop_skipped (hhash : ∀ pair rs, reports pair = .ok rs → ∀ r ∈ rs, r.hash = pair.1) :
    ∀ {pairs : List (Hash × PoolEntry)} {acc out : List FoundPoolTx × List Hash}, scanLoop reports skip pairs acc = .ok out →
    ∀ h ∈ out.2, h ∈ acc.2 ∨ ∃ pair ∈ pairs, pair.1 = h ∧ (h ∈ skip ∨ Silent reports pair) := by
  intro pairs
  induction pairs with
  | nil => intro acc out h x hx; cases h; exact Or.inl hx
  | cons pair rest ih =>
    intro acc out h x hx
    -- it is enough that the pair is silent where it is not skipped and not found
    have hstep : ∀ {found₁ : List FoundPoolTx},
        (found₁.head?.map (·.hash) ≠ some pair.1 → pair.1 ∈ skip ∨ Silent reports pair) →
        scanLoop reports skip rest (found₁, if found₁.head?.map (·.hash) = some pair.1 then acc.2 else acc.2 ++ [pair.1]) =
          .ok out → x ∈ acc.2 ∨ ∃ p ∈ pair :: rest, p.1 = x ∧ (x ∈ skip ∨ Silent reports p) := by
      intro found₁ hpair hrun
      rcases ih hrun x hx with hold | ⟨p, hp, hp'⟩
      · dsimp only at hold
        split at hold
        · exact Or.inl hold
        · rename_i hlast
          rcases List.mem_append.mp hold with hold | hold
          · exact Or.inl hold
          · rw [List.mem_singleton] at hold
            rw [hold]
            exact Or.inr ⟨pair, List.mem_cons_self, rfl, hpair hlast⟩
      · exact Or.inr ⟨p, List.mem_cons_of_mem pair hp, hp'⟩
    rw [scanLoop] at h
    by_cases hskip : pair.1 ∈ skip
    · simp only [hskip, if_true, bind, Except.bind] at h
      exact hstep (fun _ => Or.inl hskip) h
    · cases hrs : reports pair with
      | error e => simp [hskip, hrs, bind, Except.bind, Except.map] at h
      | ok rs =>
        simp only [hskip, if_false, hrs, bind, Except.bind, Except.map] at h
        refine hstep (fun hlast => Or.inr ⟨rs, hrs, ?_⟩) h
        cases rs with
        | nil => simp
        | cons r rs => exact absurd (foldl_addReport_head (by simp) (hhash pair _ hrs)) hlast

/-- Skipping transactions with no report changes nothing. -/
theorem scanLoop_skip : ∀ {pairs : List (Hash × PoolEntry)} {found : List FoundPoolTx} {skipped skipped' : List Hash},
    (∀ pair ∈ pairs, pair.1 ∈ skip → reports pair = .ok []) →
    (scanLoop reports skip pairs (found, skipped)).map (·.1) = (scanLoop reports [] pairs (found, skipped')).map (·.1) := by
  intro pairs
  induction pairs with
  | nil => intro found skipped skipped' _; rfl
  | cons pair rest ih =>
    intro found skipped skipped' hempty
    obtain ⟨hone, hrest⟩ := List.forall_mem_cons.mp hempty
    rw [scanLoop, scanLoop]
    by_cases hskip : pair.1 ∈ skip
    · simp only [hskip, if_true, List.not_mem_nil, if_false, hone hskip, bind, Except.bind, Except.map, List.foldl_nil]
      exact ih hrest
    · simp only [hskip, if_false, List.not_mem_nil, bind, Except.bind]
      cases reports pair with
      | error e => rfl
      | ok rs => exact ih hrest

/-- What the test throws first. -/
def firstThrow (reports : Hash × PoolEntry → Except ScanError (List Report)) (pairs : List (Hash × PoolEntry)) :
    Option ScanError :=
  pairs.findSome? fun pair =>
    match reports pair with
    | .error e => some e
    | .ok _ => none

theorem firstThrow_cons (pair : Hash × PoolEntry) (pairs : List (Hash × PoolEntry)) :
    firstThrow reports (pair :: pairs) =
      match reports pair with
      | .error e => some e
      | .ok _ => firstThrow reports pairs := by
  unfold firstThrow
  rw [List.findSome?_cons]
  cases reports pair <;> rfl

theorem firstThrow_eq_none {pairs : List (Hash × PoolEntry)} (h : firstThrow reports pairs = none)
    {pair : Hash × PoolEntry} (hmem : pair ∈ pairs) : ∃ rs, reports pair = .ok rs := by
  have hone := List.findSome?_eq_none_iff.mp h pair hmem
  cases hrs : reports pair with
  | error e =>
    rw [hrs] at hone
    cases hone
  | ok rs => exact ⟨rs, rfl⟩

/-- A scan throws what the test throws first of those it does not skip. -/
theorem scanLoop_throws : ∀ (pairs : List (Hash × PoolEntry)) (acc : List FoundPoolTx × List Hash),
    match firstThrow reports (pairs.filter fun pair => pair.1 ∉ skip) with
    | some e => scanLoop reports skip pairs acc = .error e
    | none => ∃ out, scanLoop reports skip pairs acc = .ok out := by
  intro pairs
  induction pairs with
  | nil => intro acc; exact ⟨acc, rfl⟩
  | cons pair rest ih =>
    intro acc
    rw [scanLoop]
    by_cases hskip : pair.1 ∈ skip
    · rw [List.filter_cons_of_neg (by simpa using hskip)]
      simp only [hskip, if_true, bind, Except.bind]
      exact ih _
    · rw [List.filter_cons_of_pos (by simpa using hskip), firstThrow_cons]
      simp only [hskip, if_false, bind, Except.bind]
      cases reports pair with
      | error e => rfl
      | ok rs => exact ih _

def foundSize (found : List FoundPoolTx) : Nat := (found.map fun f => f.spends.length + f.outputs.length).sum

theorem foundSize_addReport (found : List FoundPoolTx) (r : Report) :
    foundSize (addReport found r) = foundSize found + 1 := by
  have hpush : ∀ f : FoundPoolTx,
      (f.push r).spends.length + (f.push r).outputs.length = f.spends.length + f.outputs.length + 1 := by
    intro f
    cases r <;> simp [FoundPoolTx.push] <;> omega
  cases found with
  | nil => simp [addReport, foundSize, hpush]
  | cons last rest =>
    by_cases h : last.hash = r.hash
    · simp [addReport, h, foundSize, hpush]; omega
    · simp [addReport, h, foundSize, hpush]; omega

theorem foundSize_foldl : ∀ (rs : List Report) (found : List FoundPoolTx),
    foundSize (rs.foldl addReport found) = foundSize found + rs.length := by
  intro rs
  induction rs with
  | nil => intro found; rfl
  | cons r rest ih =>
    intro found
    rw [List.foldl_cons, ih, foundSize_addReport, List.length_cons]
    omega

def counted (reports : Hash × PoolEntry → Except ScanError (List Report)) (skip : List Hash)
    (pair : Hash × PoolEntry) : Nat :=
  if pair.1 ∈ skip then 0 else ((reports pair).toOption.map List.length).getD 0

theorem scanLoop_size : ∀ {pairs : List (Hash × PoolEntry)} {found found' : List FoundPoolTx} {skipped skipped' : List Hash},
    scanLoop reports skip pairs (found, skipped) = .ok (found', skipped') →
    foundSize found' = foundSize found + (pairs.map (counted reports skip)).sum := by
  intro pairs
  induction pairs with
  | nil => intro found found' skipped skipped' h; cases h; simp
  | cons pair rest ih =>
    intro found found' skipped skipped' h
    rw [scanLoop] at h
    by_cases hskip : pair.1 ∈ skip
    · simp only [hskip, if_true, bind, Except.bind] at h
      simp [ih h, counted, hskip]
    · cases hrs : reports pair with
      | error e => simp [hskip, hrs, bind, Except.bind, Except.map] at h
      | ok rs =>
        simp only [hskip, if_false, hrs, bind, Except.bind, Except.map] at h
        simp [ih h, foundSize_foldl, counted, hskip, hrs, Except.toOption]
        omega

/-- Where as much is counted with the skipped transactions as without, they have no reports. -/
theorem counted_skipped : ∀ {pairs : List (Hash × PoolEntry)},
    (pairs.map (counted reports skip)).sum = (pairs.map (counted reports [])).sum →
    ∀ pair ∈ pairs, pair.1 ∈ skip → counted reports [] pair = 0 := by
  have hle : ∀ pair, counted reports skip pair ≤ counted reports [] pair := by
    intro pair
    by_cases hskip : pair.1 ∈ skip
    · simp [counted, hskip]
    · simp [counted, hskip]
  have hsum : ∀ pairs : List (Hash × PoolEntry),
      (pairs.map (counted reports skip)).sum ≤ (pairs.map (counted reports [])).sum := by
    intro pairs
    induction pairs with
    | nil => simp
    | cons pair rest ih => simpa using Nat.add_le_add (hle pair) ih
  intro pairs
  induction pairs with
  | nil => intro _ pair h; simp at h
  | cons first rest ih =>
    intro h pair hmem hskip
    simp only [List.map_cons, List.sum_cons] at h
    have hfirst := hle first
    have hrest := hsum rest
    rcases List.mem_cons.mp hmem with rfl | hmem
    · have hzero : counted reports skip pair = 0 := by simp [counted, hskip]
      omega
    · exact ih (by omega) pair hmem hskip

/-- No transaction that is skipped would be the first to throw, and if none throws, none of those has a report. -/
def NothingMissed (reports : Hash × PoolEntry → Except ScanError (List Report)) (skip : List Hash)
    (pairs : List (Hash × PoolEntry)) : Prop :=
  firstThrow reports pairs = firstThrow reports (pairs.filter fun pair => pair.1 ∉ skip) ∧
    (firstThrow reports pairs = none → ∀ pair ∈ pairs, pair.1 ∈ skip → reports pair = .ok [])

/-- A scan that skips is as one that does not, just where nothing is missed. -/
theorem scanLoop_fresh (pairs : List (Hash × PoolEntry)) :
    (scanLoop reports skip pairs ([], [])).map (fun out => out.1.reverse) =
        (scanLoop reports [] pairs ([], [])).map (fun out => out.1.reverse) ↔ NothingMissed reports skip pairs := by
  have hscan := @scanLoop_throws reports skip pairs ([], [])
  have hfresh := @scanLoop_throws reports [] pairs ([], [])
  have hall : (pairs.filter fun pair => pair.1 ∉ ([] : List Hash)) = pairs := List.filter_eq_self.mpr (by simp)
  rw [hall] at hfresh
  unfold NothingMissed
  cases hskipped : firstThrow reports (pairs.filter fun pair => pair.1 ∉ skip) with
  | some e =>
    rw [hskipped] at hscan
    rw [show scanLoop reports skip pairs ([], []) = .error e from hscan]
    cases hthrow : firstThrow reports pairs with
    | some e' =>
      rw [hthrow] at hfresh
      rw [show scanLoop reports [] pairs ([], []) = .error e' from hfresh]
      simp [Except.map, eq_comm]
    | none =>
      rw [hthrow] at hfresh
      obtain ⟨out, hout⟩ := hfresh
      simp [hout, Except.map]
  | none =>
    rw [hskipped] at hscan
    obtain ⟨⟨found, skipped⟩, hrun⟩ := hscan
    cases hthrow : firstThrow reports pairs with
    | some e' =>
      rw [hthrow] at hfresh
      rw [show scanLoop reports [] pairs ([], []) = .error e' from hfresh, hrun]
      simp [Except.map]
    | none =>
      rw [hthrow] at hfresh
      obtain ⟨⟨found', skipped'⟩, hrun'⟩ := hfresh
      simp only [hrun, hrun', Except.map, Except.ok.injEq, List.reverse_inj, true_and, true_implies]
      constructor
      · intro heq pair hmem hskip
        obtain ⟨rs, hrs⟩ := firstThrow_eq_none hthrow hmem
        have hsize := scanLoop_size hrun
        rw [heq, scanLoop_size hrun'] at hsize
        have hzero := counted_skipped (Nat.add_left_cancel hsize).symm pair hmem hskip
        simp only [counted, List.not_mem_nil, if_false, hrs, Except.toOption, Option.map_some, Option.getD_some,
          List.length_eq_zero_iff] at hzero
        rw [hrs, hzero]
      · intro hnone
        have hsame := @scanLoop_skip reports skip pairs [] [] [] hnone
        rw [hrun, hrun'] at hsame
        exact Except.ok.inj hsame

end Loop

/-! ## Every run -/

section Runs

variable {monero : Monero} {keyOf : AccountAddress → SecretKey} {txOf : Hash → Transaction} {user user' : Account}
  {db db' : Storage}

/-- The view key belongs to the address, and the scan height is that of a block. -/
def Genuine (keyOf : AccountAddress → SecretKey) (user : Account) : Prop :=
  user.viewKey = keyOf user.address ∧ user.scanHeight < txpool

/-- A hash is put into the pool with the transaction it is of, and the accounts are genuine. -/
def PoolEvent.Proper (monero : Monero) (keyOf : AccountAddress → SecretKey) (txOf : Hash → Transaction) :
    PoolEvent → Prop
  | .addTxs _ txs => ∀ tx ∈ txs, txOf (monero.transactionHash tx) = tx
  | .resetTxs txs => ∀ pair ∈ txs, txOf pair.1 = pair.2.tx
  | .scanAccount user _ => Genuine keyOf user

/-- What the cache lists is silent for the account, whatever it owns, with the index rows it was tested with. -/
def CacheSound (monero : Monero) (keyOf : AccountAddress → SecretKey) (txOf : Hash → Transaction)
    (tested : AccountAddress → Hash → PublicKey → Option AddressIndex) (cache : AddressCache) : Prop :=
  ∀ address entry, (address, entry) ∈ cache.map → ∀ hash ∈ entry.txids, ∀ user db timestamp, Genuine keyOf user →
    user.address = address → findSubaddress db user = tested address hash →
      Silent (poolReports monero db user) (hash, ⟨txOf hash, timestamp⟩)

def Hashed (txOf : Hash → Transaction) (state : List (Hash × PoolEntry)) : Prop :=
  ∀ pair ∈ state, txOf pair.1 = pair.2.tx

structure Watched.Sound (monero : Monero) (keyOf : AccountAddress → SecretKey) (txOf : Hash → Transaction)
    (w : Watched) :
    Prop where
  state : Hashed txOf w.pool.state
  cache : CacheSound monero keyOf txOf w.tested w.pool.cache

/-- The test of one account, without the list. -/
theorem reports_eq (hash : Hash) (entry : PoolEntry) :
    poolReports monero db user (hash, entry) =
      if 2 < entry.tx.version then .error .version
      else match entry.tx.publicKey with
        | none => .ok []
        | some key => (Pass.scanUser
            ⟨{ monero with findSubaddress := some (findSubaddress db) }, entry.tx, txpool, entry.timestamp, fakeOuts, key⟩
            user ⟨some hash, none, []⟩).map (·.1) := by
  unfold poolReports ownershipTest
  dsimp only
  split
  · rfl
  · cases entry.tx.publicKey with
    | none => rfl
    | some key =>
      simp only [Pass.scanUsers, bind, Except.bind, pure, Except.pure]
      cases Pass.scanUser _ user _ with
      | error e => rfl
      | ok v => simp [Except.map]

theorem reports_hash {pair : Hash × PoolEntry} {rs : List Report} (h : poolReports monero db user pair = .ok rs) :
    ∀ r ∈ rs, r.hash = pair.1 := by
  rw [reports_eq] at h
  split at h
  · cases h
  · split at h
    · cases h; simp
    · generalize hrun : Pass.scanUser _ _ _ = run at h
      cases run with
      | error e => cases h
      | ok v => cases h; exact scanUser_hash rfl hrun

/-- Silence depends on the keys of the account and its index rows alone. -/
theorem silent_of_silent {hash : Hash} {tx : Transaction} {timestamp : Nat} (timestamp' : Nat) (hu : Genuine keyOf user)
    (hu' : Genuine keyOf user') (haddress : user'.address = user.address)
    (hfind : findSubaddress db' user' = findSubaddress db user)
    (h : Silent (poolReports monero db user) (hash, ⟨tx, timestamp⟩)) :
    Silent (poolReports monero db' user') (hash, ⟨tx, timestamp'⟩) := by
  obtain ⟨rs, hrs, hspend⟩ := h
  rw [reports_eq] at hrs
  unfold Silent
  rw [reports_eq]
  dsimp only at hrs ⊢
  split at hrs
  · cases hrs
  · rename_i hversion
    rw [if_neg hversion]
    cases hkey : tx.publicKey with
    | none => exact ⟨[], rfl, by simp⟩
    | some key =>
      rw [hkey] at hrs
      dsimp only at hrs ⊢
      generalize hrun : Pass.scanUser _ _ _ = run at hrs
      cases run with
      | error e => cases hrs
      | ok v =>
        cases hrs
        have hview : user'.viewKey = user.viewKey := by rw [hu.1, hu'.1, haddress]
        have hreceives := @scanUser_receives _ hash user user' _ _ _ timestamp' (some (findSubaddress db'))
          (by funext outPub index derivation pub; simp [Pass.attempt, Pass.again, haddress, hfind]) rfl hview rfl
          (Nat.not_le.mpr hu.2) (Nat.not_le.mpr hu'.2) hrun hspend
        obtain ⟨rs', c', hrun', hspend'⟩ := hreceives
        exact ⟨rs', congrArg (Except.map (·.1)) hrun', hspend'⟩

theorem get_sound {tested : AccountAddress → Hash → PublicKey → Option AddressIndex} {cache : AddressCache}
    (hcache : CacheSound monero keyOf txOf tested cache) (hu : Genuine keyOf user) {subaddrs : List SubaddressDict}
    {hash : Hash} (h : hash ∈ cache.get user.address subaddrs) (hfind : findSubaddress db user = tested user.address hash)
    (timestamp : Nat) : Silent (poolReports monero db user) (hash, ⟨txOf hash, timestamp⟩) := by
  unfold AddressCache.get at h
  split at h
  · rename_i entry hentry
    split at h
    · obtain ⟨before, after, hmap, _⟩ := List.lookup_eq_some_iff.mp hentry
      exact hcache user.address entry (by simp [hmap]) hash h user db timestamp hu rfl hfind
    · simp at h
  · simp at h

/-- An entry is the one that is set, or an old one of another address. -/
theorem mem_set_map {cache : AddressCache} {address other : AccountAddress} {subaddrs : List SubaddressDict}
    {txids : List Hash} {entry : CacheEntry} (h : (other, entry) ∈ (cache.set address subaddrs txids).map) :
    (other = address ∧ entry = ⟨subaddrs, txids⟩) ∨ (other ≠ address ∧ (other, entry) ∈ cache.map) := by
  unfold AddressCache.set at h
  split at h
  · rename_i hfree
    have hcons : (other, entry) ∈ (address, ⟨subaddrs, txids⟩) :: cache.map := by
      dsimp only at h
      split at h
      · exact (List.mem_filter.mp h).1
      · exact h
    rcases List.mem_cons.mp hcons with heq | hold
    · cases heq
      exact Or.inl ⟨rfl, rfl⟩
    · refine Or.inr ⟨?_, hold⟩
      rintro rfl
      exact absurd (List.lookup_eq_none_iff.mp hfree _ hold) (by simp)
  · obtain ⟨old, hold, heq⟩ := List.mem_map.mp h
    split at heq
    · cases heq
      exact Or.inl ⟨rfl, rfl⟩
    · rename_i hother
      rw [heq] at hold hother
      exact Or.inr ⟨hother, hold⟩

/-- Each transaction of the new entry is one of the old entry, or was tested now. -/
theorem set_sound {tested : AccountAddress → Hash → PublicKey → Option AddressIndex} {cache : AddressCache}
    {subaddrs : List SubaddressDict} (hcache : CacheSound monero keyOf txOf tested cache) (hu : Genuine keyOf user)
    {txids : List Hash}
    (h : ∀ hash ∈ txids, hash ∈ cache.get user.address subaddrs ∨
      ∃ timestamp, Silent (poolReports monero db user) (hash, ⟨txOf hash, timestamp⟩)) :
    CacheSound monero keyOf txOf
      (fun address hash => if address = user.address ∧ hash ∉ cache.get user.address subaddrs then findSubaddress db user
        else tested address hash)
      (cache.set user.address subaddrs txids) := by
  intro address entry hmem hash hin user' db' timestamp hu' haddress hfind
  dsimp only at hfind
  rcases mem_set_map hmem with ⟨rfl, rfl⟩ | ⟨hother, hold⟩
  · by_cases hskip : hash ∈ cache.get user.address subaddrs
    · rw [if_neg (by simp [hskip]), ← haddress] at hfind
      rw [← haddress] at hskip
      exact get_sound hcache hu' hskip hfind timestamp
    · rw [if_pos ⟨rfl, hskip⟩] at hfind
      obtain ⟨timestamp₀, hsilent⟩ := (h hash hin).resolve_left hskip
      exact silent_of_silent timestamp hu hu' haddress hfind hsilent
  · rw [if_neg (by simp [hother])] at hfind
    exact hcache address entry hold hash hin user' db' timestamp hu' haddress hfind

theorem addTxs_state (now : Nat) : ∀ (txs : List Transaction) (state : List (Hash × PoolEntry)),
    (∀ tx ∈ txs, txOf (monero.transactionHash tx) = tx) → Hashed txOf state →
    Hashed txOf (txs.foldl (fun state tx => if monero.transactionHash tx ∈ state.map (·.1) then state
      else state ++ [(monero.transactionHash tx, ⟨tx, now⟩)]) state) := by
  intro txs
  induction txs with
  | nil => intro state _ h; exact h
  | cons tx rest ih =>
    intro state htxs hstate
    obtain ⟨htx, hrest⟩ := List.forall_mem_cons.mp htxs
    rw [List.foldl_cons]
    refine ih _ hrest ?_
    split
    · exact hstate
    · intro pair hmem
      rcases List.mem_append.mp hmem with hmem | hmem
      · exact hstate pair hmem
      · rw [List.mem_singleton] at hmem
        rw [hmem]
        exact htx

def Mempool.Current (pool : Mempool) : Prop := pool.snapshot.getD pool.state = pool.state

theorem scanAccount_eq {pool : Mempool} (hcurrent : pool.Current) :
    pool.scanAccount monero db user =
      match scanLoop (poolReports monero db user) (pool.listed db user) pool.state ([], []) with
      | .error e => (.error e, { pool with snapshot := some pool.state })
      | .ok (found, skipped) => (.ok found.reverse,
        { pool with
          snapshot := some pool.state
          cache := pool.cache.set user.address (db.subaddressRanges.dups user.id) skipped }) := by
  unfold Mempool.scanAccount
  dsimp only
  rw [hcurrent]
  rfl

/-- What a scan leaves: with an error only the snapshot, else the new entry and what was tested for it. -/
theorem watched_scan {w w' : Watched} (hcurrent : w.pool.Current) (h : w.step monero (.scanAccount user db) = .ok w') :
    ((∃ e, scanLoop (poolReports monero db user) (w.pool.listed db user) w.pool.state ([], []) = .error e) ∧
      w' = { w with pool := { w.pool with snapshot := some w.pool.state } }) ∨
    ∃ found skipped,
      scanLoop (poolReports monero db user) (w.pool.listed db user) w.pool.state ([], []) = .ok (found, skipped) ∧
      w' = ⟨{ w.pool with
          snapshot := some w.pool.state
          cache := w.pool.cache.set user.address (db.subaddressRanges.dups user.id) skipped },
        fun address hash => if address = user.address ∧ hash ∉ w.pool.listed db user then findSubaddress db user
          else w.tested address hash⟩ := by
  unfold Watched.step at h
  dsimp only at h
  rw [scanAccount_eq hcurrent] at h
  cases hrun : scanLoop (poolReports monero db user) (w.pool.listed db user) w.pool.state ([], []) with
  | error e =>
    rw [hrun] at h
    cases h
    exact Or.inl ⟨⟨e, rfl⟩, rfl⟩
  | ok out =>
    rw [hrun] at h
    cases h
    exact Or.inr ⟨out.1, out.2, rfl, rfl⟩

theorem watched_current {w w' : Watched} {event : PoolEvent} (hw : w.pool.Current) (h : w.step monero event = .ok w') :
    w'.pool.Current := by
  cases event with
  | addTxs now txs =>
    cases h
    rfl
  | resetTxs txs =>
    cases h
    rfl
  | scanAccount user db =>
    rcases watched_scan hw h with ⟨-, rfl⟩ | ⟨found, skipped, -, rfl⟩ <;> rfl

theorem watched_step {w w' : Watched} {event : PoolEvent} (hw : w.pool.Current ∧ w.Sound monero keyOf txOf)
    (hproper : event.Proper monero keyOf txOf) (h : w.step monero event = .ok w') :
    w'.pool.Current ∧ w'.Sound monero keyOf txOf := by
  refine ⟨watched_current hw.1 h, ?_⟩
  obtain ⟨hcurrent, hs⟩ := hw
  cases event with
  | addTxs now txs =>
    cases h
    exact ⟨addTxs_state now txs w.pool.state hproper hs.state, hs.cache⟩
  | resetTxs txs =>
    cases h
    exact ⟨hproper, hs.cache⟩
  | scanAccount user db =>
    rcases watched_scan hcurrent h with ⟨-, rfl⟩ | ⟨found, skipped, hrun, rfl⟩
    · exact ⟨hs.state, hs.cache⟩
    · refine ⟨hs.state, set_sound hs.cache hproper fun hash hmem => ?_⟩
      rcases scanLoop_skipped (fun _ _ => reports_hash) hrun hash hmem with hnone | ⟨⟨_, tx, timestamp⟩, hpair, rfl, hor⟩
      · simp at hnone
      · refine hor.imp_right fun hsilent => ⟨timestamp, ?_⟩
        rw [hs.state _ hpair]
        exact hsilent

end Runs

/-! ## A spend that is skipped -/

/-- An account that owns nothing yet; `sampleTx` spends output 15. -/
def watcher : Account := ⟨3, ⟨1003, 300⟩, 4, 5, [], [], [], []⟩

def watcherPool : Watched :=
  runAll (Watched.step sampleMonero) [.addTxs 60 [sampleTx], .scanAccount watcher (fresh sampleEnv)] .empty

theorem watcherPool_steps : Steps (Watched.step sampleMonero)
    (fun _ event => event.Proper sampleMonero (fun _ => 4) (fun _ => sampleTx)) .empty watcherPool := by
  refine steps_runAll _ _ ⟨?_, ⟨rfl, by decide⟩, trivial⟩
  intro tx htx
  exact (List.mem_singleton.mp htx).symm

/-- Index (0, 1) is added, and a lookahead that runs into the limit loses the row of its range. -/
def lostRangeOps : List Op :=
  [.addAccount 5 ⟨1007, 50⟩ 7 0, .upsertSubaddresses 1 ⟨1007, 50⟩ 7 [(7, [(0, 1)])] 3,
    .upsertSubaddresses 1 ⟨1007, 50⟩ 7 [(0, [(1, 1)])] 3, .importRequest 6 ⟨1007, 50⟩ 0 ⟨1, 2⟩,
    .acceptRequests 7 .importScan [⟨1007, 50⟩] 3]

def subaddressTx : Transaction := ⟨1, 0, [], [⟨8, some 101, none⟩], some 7, none, [], 0, [], [], 31⟩

def payeePool : Watched :=
  runAll (Watched.step sampleMonero)
    [.addTxs 60 [subaddressTx], .scanAccount (sampleUser 0 [] []) (Op.runs sampleEnv (lostRangeOps.take 2))] .empty

/-- The ranges are those of the first scan, so the transaction is skipped, though it pays a subaddress that is looked up. -/
theorem output_skipped :
    Reached sampleEnv (fun _ _ => True) (Op.runs sampleEnv lostRangeOps) ∧
      (payeePool.pool.scanAccount sampleMonero (Op.runs sampleEnv lostRangeOps) (sampleUser 0 [] [])).1 = .ok [] ∧
      (payeePool.pool.scanFresh sampleMonero (Op.runs sampleEnv lostRangeOps) (sampleUser 0 [] [])).map
        (fun found => found.map fun f => f.outputs.map (·.recipient)) = .ok [[⟨0, 1⟩]] := by
  refine ⟨reached_runs (by decide), ?_, ?_⟩
  · decide +kernel
  · decide +kernel

end Lws
