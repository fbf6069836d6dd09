/-
  Lws.Db.Migration — opening a database that holds tables of an earlier format
  (`convert_table`, `check_blockchain`, `check_pow` and the constructor of
  `storage_internal` in `src/db/storage.cpp`).

  A row is its bytes. The records of each generation have no padding (the code asserts
  their sizes), so a generation is a `Layout`, and each layout begins with the one it
  replaces. A conversion copies the old bytes over the front of a zeroed record and puts
  it with no flag, so a row with the same key and sort fields is replaced. Everything runs
  in one transaction: an error aborts it and leaves the tables as they were.

  Of each old row the result holds one row with its key, its fields and zero in the fields
  it did not have, except where a row converted later has the same key and sort fields:
  that of `outputs_v1` for one of `outputs_v0` (`Upgraded`, `open_upgrades`).

  The tables that no conversion and no check writes are left out.
-/

import Lws.Db.Operations
import Lws.Db.Compare

namespace Lws.Db

open Lws.Lmdb

/-! ## The records of each generation -/

inductive OutputField where
  | height | txHash
  | idHigh | idLow | amount | mixinCount | index | txPublic
  | timestamp | unlockTime | txPrefixHash | pub | ringctMask | reserved | extra | paymentId
  | fee
  | recipientMajor | recipientMinor
  deriving DecidableEq, Repr

inductive SpendField where
  | height | txHash | image | sourceHigh | sourceLow
  | timestamp | unlockTime | mixinCount | reserved | length | paymentId
  | senderMajor | senderMinor
  deriving DecidableEq, Repr

inductive AccountField where
  | id | access | viewPublic | spendPublic | key | scanHeight | startHeight | creation | flags | reserved
  | lookaheadMajor | lookaheadMinor | lookaheadFail
  deriving DecidableEq, Repr

inductive RequestField where
  | viewPublic | spendPublic | key | startHeight | creation | creationFlags | reserved
  | lookaheadMajor | lookaheadMinor
  deriving DecidableEq, Repr

def outputV0 : Layout OutputField :=
  [(.height, 8), (.txHash, 32),
   (.idHigh, 8), (.idLow, 8), (.amount, 8), (.mixinCount, 4), (.index, 4), (.txPublic, 32),
   (.timestamp, 8), (.unlockTime, 8), (.txPrefixHash, 32), (.pub, 32), (.ringctMask, 32), (.reserved, 7), (.extra, 1),
   (.paymentId, 32)]

def outputV1 : Layout OutputField :=
  [(.height, 8), (.txHash, 32),
   (.idHigh, 8), (.idLow, 8), (.amount, 8), (.mixinCount, 4), (.index, 4), (.txPublic, 32),
   (.timestamp, 8), (.unlockTime, 8), (.txPrefixHash, 32), (.pub, 32), (.ringctMask, 32), (.reserved, 7), (.extra, 1),
   (.paymentId, 32), (.fee, 8)]

def outputLayout : Layout OutputField :=
  [(.height, 8), (.txHash, 32),
   (.idHigh, 8), (.idLow, 8), (.amount, 8), (.mixinCount, 4), (.index, 4), (.txPublic, 32),
   (.timestamp, 8), (.unlockTime, 8), (.txPrefixHash, 32), (.pub, 32), (.ringctMask, 32), (.reserved, 7), (.extra, 1),
   (.paymentId, 32), (.fee, 8), (.recipientMajor, 4), (.recipientMinor, 4)]

def spendV0 : Layout SpendField :=
  [(.height, 8), (.txHash, 32), (.image, 32), (.sourceHigh, 8), (.sourceLow, 8),
   (.timestamp, 8), (.unlockTime, 8), (.mixinCount, 4), (.reserved, 3), (.length, 1), (.paymentId, 32)]

def spendLayout : Layout SpendField :=
  [(.height, 8), (.txHash, 32), (.image, 32), (.sourceHigh, 8), (.sourceLow, 8),
   (.timestamp, 8), (.unlockTime, 8), (.mixinCount, 4), (.reserved, 3), (.length, 1), (.paymentId, 32),
   (.senderMajor, 4), (.senderMinor, 4)]

def accountV0 : Layout AccountField :=
  [(.id, 4), (.access, 4), (.viewPublic, 32), (.spendPublic, 32), (.key, 32), (.scanHeight, 8), (.startHeight, 8),
   (.creation, 4), (.flags, 1), (.reserved, 3)]

def accountLayout : Layout AccountField :=
  [(.id, 4), (.access, 4), (.viewPublic, 32), (.spendPublic, 32), (.key, 32), (.scanHeight, 8), (.startHeight, 8),
   (.creation, 4), (.flags, 1), (.reserved, 3), (.lookaheadMajor, 4), (.lookaheadMinor, 4), (.lookaheadFail, 8)]

def requestV0 : Layout RequestField :=
  [(.viewPublic, 32), (.spendPublic, 32), (.key, 32), (.startHeight, 8), (.creation, 4), (.creationFlags, 1),
   (.reserved, 3)]

def requestLayout : Layout RequestField :=
  [(.viewPublic, 32), (.spendPublic, 32), (.key, 32), (.startHeight, 8), (.creation, 4), (.creationFlags, 1),
   (.reserved, 3), (.lookaheadMajor, 4), (.lookaheadMinor, 4)]

/-! ## Converting a table -/

/-- An old format whose records are the front of the current ones and hold the sort fields. -/
structure Upgrade {F S : Type} [LinearOrder S] (order : RowOrder S) (current : Layout F) where
  old : Layout F
  added : Layout F
  current_eq : current = old ++ added
  extent_le : order.extent ≤ old.size

def outputsV0 : Upgrade outputOrder outputLayout :=
  ⟨outputV0, [(.fee, 8), (.recipientMajor, 4), (.recipientMinor, 4)], rfl, by decide⟩

def outputsV1 : Upgrade outputOrder outputLayout :=
  ⟨outputV1, [(.recipientMajor, 4), (.recipientMinor, 4)], rfl, by decide⟩

def spendsV0 : Upgrade spendOrder spendLayout :=
  ⟨spendV0, [(.senderMajor, 4), (.senderMinor, 4)], rfl, by decide⟩

def accountsV0 : Upgrade accountOrder accountLayout :=
  ⟨accountV0, [(.lookaheadMajor, 4), (.lookaheadMinor, 4), (.lookaheadFail, 8)], rfl, by decide⟩

def requestsV0 : Upgrade requestOrder requestLayout :=
  ⟨requestV0, [(.lookaheadMajor, 4), (.lookaheadMinor, 4)], rfl, by decide⟩

inductive OpenError where
  /-- `MDB_CORRUPTED`. -/
  | corrupted
  | chain (error : Error)
  deriving DecidableEq, Repr

section Convert

variable {F S : Type} [LinearOrder S] {order : RowOrder S} {current : Layout F}

/-- The old bytes over the front of a zeroed record. -/
def transition (n : Nat) (value : Bytes) : Row n :=
  ⟨(value ++ List.replicate n 0).take n, by simp⟩

def convertTable (u : Upgrade order current) :
    List (Nat × Bytes) → order.Sized current.size → Except OpenError (order.Sized current.size)
  | [], t => .ok t
  | (key, value) :: rest, t =>
    if value.length ≠ u.old.size then .error .corrupted
    else convertTable u rest (t.put key (transition current.size value))

/-- A table that is not there (`MDB_NOTFOUND`) has nothing to convert. -/
def convertOld (u : Upgrade order current) (old : Option order.Raw) (t : order.Sized current.size) :
    Except OpenError (order.Sized current.size) :=
  match old with
  | none => .ok t
  | some old => convertTable u old.rows t

end Convert

/-! ## Opening -/

def checkBlockchain (env : Env) (blocks : Blocks) : Except Error Blocks :=
  match env.checkpoints with
  | [] => .error .badBlockchain
  | (height, hash) :: _ =>
    if height ≠ 0 then .error .badBlockchain
    -- a new database
    else if blocks.rows = [] then .ok (fresh env).blocks
    else
      match blocks.get? () 0 with
      | none => .error .notFound
      | some genesis => if genesis.hash ≠ hash then .error .badBlockchain else .ok blocks

def checkPow (env : Env) (pows : Pows) : Pows := if pows.rows = [] then (fresh env).pows else pows

structure Disk where
  outputsV0 : Option outputOrder.Raw
  outputsV1 : Option outputOrder.Raw
  spendsV0 : Option spendOrder.Raw
  accountsV0 : Option accountOrder.Raw
  requestsV0 : Option requestOrder.Raw
  outputs : outputOrder.Sized outputLayout.size
  spends : spendOrder.Sized spendLayout.size
  accounts : accountOrder.Sized accountLayout.size
  requests : requestOrder.Sized requestLayout.size
  blocks : Blocks
  pows : Pows

/-- The transaction of the constructor. -/
def openTables (env : Env) (disk : Disk) : Except OpenError Disk := do
  let outputs ← convertOld outputsV0 disk.outputsV0 disk.outputs
  let outputs ← convertOld outputsV1 disk.outputsV1 outputs
  let spends ← convertOld spendsV0 disk.spendsV0 disk.spends
  let accounts ← convertOld accountsV0 disk.accountsV0 disk.accounts
  let requests ← convertOld requestsV0 disk.requestsV0 disk.requests
  let blocks ← (checkBlockchain env disk.blocks).mapError .chain
  .ok ⟨none, none, none, none, none, outputs, spends, accounts, requests, blocks, checkPow env disk.pows⟩

/-- What is on disk after opening, and the exception thrown. -/
def openStorage (env : Env) (disk : Disk) : Disk × Option OpenError :=
  match openTables env disk with
  | .ok disk => (disk, none)
  | .error e => (disk, some e)

/-! ## What the conversions leave -/

section Converts

variable {F S : Type} [LinearOrder S] {order : RowOrder S} {current : Layout F}

def oldRows (old : Option order.Raw) : List (Nat × Bytes) := (old.map (·.rows)).getD []

def RightSize (u : Upgrade order current) (old : Option order.Raw) : Prop :=
  ∀ o ∈ oldRows old, o.2.length = u.old.size

def convertRow (n : Nat) (o : Nat × Bytes) : Nat × Row n := (o.1, transition n o.2)

theorem transition_eq {n : Nat} {value : Bytes} (h : value.length ≤ n) :
    (transition n value).1 = value ++ List.replicate (n - value.length) 0 := by
  show (value ++ List.replicate n 0).take n = _
  rw [List.take_append, List.take_of_length_le h, List.take_replicate, Nat.min_eq_left (Nat.sub_le _ _)]

section Row

variable (u : Upgrade order current)

theorem Upgrade.size_eq : current.size = u.old.size + u.added.size := by
  calc current.size = Layout.size (u.old ++ u.added) := congrArg Layout.size u.current_eq
    _ = u.old.size + u.added.size := by simp [Layout.size]

theorem Upgrade.transition_eq {value : Bytes} (h : value.length = u.old.size) :
    (transition current.size value).1 = value ++ List.replicate u.added.size 0 := by
  have hsize := u.size_eq
  rw [Db.transition_eq (by omega)]
  congr 2
  omega

theorem Upgrade.sort_transition {value : Bytes} (h : value.length = u.old.size) :
    order.rowSort current.size (transition current.size value) = order.sort value := by
  rw [RowOrder.rowSort, u.transition_eq h]
  apply order.sort_append
  rw [h]
  exact u.extent_le

/-- Old rows in order that have the right size are converted to different places. -/
theorem converted_apart {rows : List (Nat × Bytes)} (hsorted : rows.Pairwise order.Before)
    (hsize : ∀ o ∈ rows, o.2.length = u.old.size) :
    (rows.map (convertRow current.size)).Pairwise fun a b =>
      rowKey (order.rowSort current.size) a ≠ rowKey (order.rowSort current.size) b := by
  rw [List.pairwise_map]
  refine hsorted.imp_of_mem fun {a b} ha hb h e => ?_
  have hle := u.extent_le
  have hne := h.ne (by rw [hsize a ha]; exact hle) (by rw [hsize b hb]; exact hle)
  obtain ⟨hk, hs⟩ := rowKey_eq.mp e
  change order.rowSort current.size (transition current.size a.2)
    = order.rowSort current.size (transition current.size b.2) at hs
  rw [u.sort_transition (hsize a ha), u.sort_transition (hsize b hb)] at hs
  exact hne ⟨hk, hs⟩

variable {u} {t t' : order.Sized current.size}

theorem convertTable_ok {rows : List (Nat × Bytes)} : convertTable u rows t = .ok t' ↔
    (∀ o ∈ rows, o.2.length = u.old.size) ∧ t.putRows (rows.map (convertRow current.size)) = t' := by
  induction rows generalizing t with
  | nil => simp [convertTable, Table.putRows]
  | cons o rows ih =>
    obtain ⟨key, value⟩ := o
    rw [convertTable, List.forall_mem_cons]
    by_cases h : value.length = u.old.size
    · rw [if_neg (not_not.mpr h), ih, and_iff_right h]
      rfl
    · simp [h]

theorem convertTable_corrupted {rows : List (Nat × Bytes)} (h : ¬ ∀ o ∈ rows, o.2.length = u.old.size) :
    convertTable u rows t = .error .corrupted := by
  induction rows generalizing t with
  | nil => simp at h
  | cons o rows ih =>
    obtain ⟨key, value⟩ := o
    rw [List.forall_mem_cons] at h
    rw [convertTable]
    by_cases hv : value.length = u.old.size
    · rw [if_neg (not_not.mpr hv)]
      exact ih fun hrest => h ⟨hv, hrest⟩
    · rw [if_pos hv]

variable {old : Option order.Raw}

theorem convertOld_eq : convertOld u old t = convertTable u (oldRows old) t := by
  cases old with
  | none => rfl
  | some old => rfl

theorem convertOld_corrupted (h : ¬ RightSize u old) : convertOld u old t = .error .corrupted := by
  rw [convertOld_eq]
  exact convertTable_corrupted h

end Row

variable [DecidableEq F]

/-- `r` is the current form of the old row `o`. -/
structure Converts (u : Upgrade order current) (o : Nat × Bytes) (r : Nat × Row current.size) : Prop where
  key : r.1 = o.1
  kept : ∀ f ∈ u.old.fields, current.read f r.2.1 = u.old.read f o.2
  added : ∀ f ∈ current.fields, f ∉ u.old.fields → ∀ b ∈ current.read f r.2.1, b = 0

/-- The rows after converting `old`: its rows, and those before that none of them replaced. -/
def Carried (u : Upgrade order current) (old : Option order.Raw) (rows rows' : List (Nat × Row current.size)) : Prop :=
  ∃ converted, List.Forall₂ (Converts u) (oldRows old) converted ∧
    rows'.Perm (converted ++ rows.filter (Table.apart (order.rowSort current.size) converted))

/-- The rows of `old` next to all those before. -/
def Kept (u : Upgrade order current) (old : Option order.Raw) (rows rows' : List (Nat × Row current.size)) : Prop :=
  ∃ converted, List.Forall₂ (Converts u) (oldRows old) converted ∧ rows'.Perm (converted ++ rows)

theorem Upgrade.read_eq (u : Upgrade order current) (f : F) (bytes : Bytes) :
    current.read f bytes = Layout.read f (u.old ++ u.added) bytes :=
  congrArg (fun layout => Layout.read f layout bytes) u.current_eq

theorem converts_convertRow (u : Upgrade order current) {o : Nat × Bytes} (h : o.2.length = u.old.size) :
    Converts u o (convertRow current.size o) := by
  have hbytes := u.transition_eq h
  refine ⟨rfl, fun f hf => ?_, fun f hf hnot b hb => ?_⟩
  · show Layout.read f current (transition current.size o.2).1 = _
    rw [hbytes, u.read_eq]
    exact Layout.read_append_left _ _ hf h
  · change b ∈ Layout.read f current (transition current.size o.2).1 at hb
    rw [hbytes, u.read_eq, Layout.read_append_right _ _ hnot h] at hb
    exact List.eq_of_mem_replicate (Layout.mem_of_mem_read hb)

/-- A conversion succeeds on rows of the right size and carries them over. -/
theorem convertOld_carries {u : Upgrade order current} {old : Option order.Raw} (h : RightSize u old)
    (t : order.Sized current.size) :
    ∃ t', convertOld u old t = .ok t' ∧ Carried u old t.rows t'.rows := by
  refine ⟨t.putRows ((oldRows old).map (convertRow current.size)), ?_,
    (oldRows old).map (convertRow current.size), ?_, ?_⟩
  · rw [convertOld_eq]
    exact convertTable_ok.mpr ⟨h, rfl⟩
  · rw [List.forall₂_map_right_iff, List.forall₂_same]
    exact fun o ho => converts_convertRow u (h o ho)
  · apply Table.putRows_perm
    have hsorted : (oldRows old).Pairwise order.Before := by
      cases old with
      | none => exact List.Pairwise.nil
      | some old => exact old.sorted
    exact converted_apart u hsorted h

end Converts

/-! ## Opening -/

structure RightSizes (disk : Disk) : Prop where
  outputsV0 : RightSize outputsV0 disk.outputsV0
  outputsV1 : RightSize outputsV1 disk.outputsV1
  spendsV0 : RightSize spendsV0 disk.spendsV0
  accountsV0 : RightSize accountsV0 disk.accountsV0
  requestsV0 : RightSize requestsV0 disk.requestsV0

/-- The current tables are in the order of their comparators. -/
structure InOrder (disk : Disk) : Prop where
  outputs : (disk.outputs.rows.map fun r => (r.1, r.2.1)).Pairwise outputOrder.Before
  spends : (disk.spends.rows.map fun r => (r.1, r.2.1)).Pairwise spendOrder.Before
  accounts : (disk.accounts.rows.map fun r => (r.1, r.2.1)).Pairwise accountOrder.Before
  requests : (disk.requests.rows.map fun r => (r.1, r.2.1)).Pairwise requestOrder.Before

structure OldRemoved (disk : Disk) : Prop where
  outputsV0 : disk.outputsV0 = none
  outputsV1 : disk.outputsV1 = none
  spendsV0 : disk.spendsV0 = none
  accountsV0 : disk.accountsV0 = none
  requestsV0 : disk.requestsV0 = none

/-- Every old row is in its current table, next to all the rows that were there. -/
structure Preserved (disk disk' : Disk) : Prop where
  outputs : ∃ rows, Kept outputsV0 disk.outputsV0 disk.outputs.rows rows ∧
    Kept outputsV1 disk.outputsV1 rows disk'.outputs.rows
  spends : Kept spendsV0 disk.spendsV0 disk.spends.rows disk'.spends.rows
  accounts : Kept accountsV0 disk.accountsV0 disk.accounts.rows disk'.accounts.rows
  requests : Kept requestsV0 disk.requestsV0 disk.requests.rows disk'.requests.rows
  ordered : InOrder disk'
  removed : OldRemoved disk'

/-- The same, with a row converted later in the place of each with its key and sort fields. -/
structure Upgraded (disk disk' : Disk) : Prop where
  outputs : ∃ rows, Carried outputsV0 disk.outputsV0 disk.outputs.rows rows ∧
    Carried outputsV1 disk.outputsV1 rows disk'.outputs.rows
  spends : Carried spendsV0 disk.spendsV0 disk.spends.rows disk'.spends.rows
  accounts : Carried accountsV0 disk.accountsV0 disk.accounts.rows disk'.accounts.rows
  requests : Carried requestsV0 disk.requestsV0 disk.requests.rows disk'.requests.rows
  ordered : InOrder disk'
  removed : OldRemoved disk'

theorem InOrder.all (disk : Disk) : InOrder disk where
  outputs := RowOrder.sized_before _ (by decide)
  spends := RowOrder.sized_before _ (by decide)
  accounts := RowOrder.sized_before _ (by decide)
  requests := RowOrder.sized_before _ (by decide)

variable {env : Env} {disk : Disk}

theorem openTables_upgrades (h : RightSizes disk) {blocks : Blocks}
    (hb : checkBlockchain env disk.blocks = .ok blocks) :
    ∃ disk', openTables env disk = .ok disk' ∧ Upgraded disk disk' := by
  obtain ⟨mid, e0, h0⟩ := convertOld_carries h.outputsV0 disk.outputs
  obtain ⟨outputs, e1, h1⟩ := convertOld_carries h.outputsV1 mid
  obtain ⟨spends, e2, h2⟩ := convertOld_carries h.spendsV0 disk.spends
  obtain ⟨accounts, e3, h3⟩ := convertOld_carries h.accountsV0 disk.accounts
  obtain ⟨requests, e4, h4⟩ := convertOld_carries h.requestsV0 disk.requests
  refine ⟨⟨none, none, none, none, none, outputs, spends, accounts, requests, blocks, checkPow env disk.pows⟩, ?_,
    ⟨mid.rows, h0, h1⟩, h2, h3, h4, InOrder.all _, ⟨rfl, rfl, rfl, rfl, rfl⟩⟩
  simp [openTables, bind, Except.bind, e0, e1, e2, e3, e4, hb, Except.mapError]

theorem openTables_corrupted (h : ¬ RightSizes disk) : openTables env disk = .error .corrupted := by
  unfold openTables
  by_cases h0 : RightSize outputsV0 disk.outputsV0
  · obtain ⟨mid, e0, -⟩ := convertOld_carries h0 disk.outputs
    by_cases h1 : RightSize outputsV1 disk.outputsV1
    · obtain ⟨outputs, e1, -⟩ := convertOld_carries h1 mid
      by_cases h2 : RightSize spendsV0 disk.spendsV0
      · obtain ⟨spends, e2, -⟩ := convertOld_carries h2 disk.spends
        by_cases h3 : RightSize accountsV0 disk.accountsV0
        · obtain ⟨accounts, e3, -⟩ := convertOld_carries h3 disk.accounts
          have h4 : ¬ RightSize requestsV0 disk.requestsV0 := fun h4 => h ⟨h0, h1, h2, h3, h4⟩
          simp [bind, Except.bind, e0, e1, e2, e3, convertOld_corrupted h4]
        · simp [bind, Except.bind, e0, e1, e2, convertOld_corrupted h3]
      · simp [bind, Except.bind, e0, e1, convertOld_corrupted h2]
    · simp [bind, Except.bind, e0, convertOld_corrupted h1]
  · simp [bind, Except.bind, convertOld_corrupted h0]

/-- A database whose old rows have the right sizes is upgraded, if its blocks are those of the network; one with a
row of the wrong size is left as it is. -/
theorem open_upgrades (env : Env) (disk : Disk) :
    (RightSizes disk → ∀ blocks, checkBlockchain env disk.blocks = .ok blocks →
      ∃ disk', openStorage env disk = (disk', none) ∧ Upgraded disk disk') ∧
    (¬ RightSizes disk → openStorage env disk = (disk, some .corrupted)) := by
  constructor
  · intro h blocks hb
    obtain ⟨disk', he, hup⟩ := openTables_upgrades h hb
    exact ⟨disk', by rw [openStorage, he], hup⟩
  · intro h
    rw [openStorage, openTables_corrupted h]

def oneRow {S : Type} [LinearOrder S] (order : RowOrder S) (key : Nat) (row : Bytes) : order.Raw :=
  ⟨[(key, row)], List.pairwise_singleton _ _⟩

/-- An output of account 1 in each of the old tables: the link and the id are the same, and no other byte. -/
def twoGenerations : Disk :=
  { outputsV0 := some (oneRow outputOrder 1 (List.replicate 56 7 ++ List.replicate 200 1))
    outputsV1 := some (oneRow outputOrder 1 (List.replicate 56 7 ++ List.replicate 208 2))
    spendsV0 := none
    accountsV0 := none
    requestsV0 := none
    outputs := Table.empty
    spends := Table.empty
    accounts := Table.empty
    requests := Table.empty
    blocks := Table.empty
    pows := Table.empty }

/-- A request that is one byte short. -/
def shortRequest : Disk := { twoGenerations with requestsV0 := some (oneRow requestOrder 0 (List.replicate 111 7)) }

theorem rightSizes_twoGenerations : RightSizes twoGenerations := by
  refine ⟨?_, ?_, ?_, ?_, ?_⟩ <;> intro o ho
  · rw [List.mem_singleton.mp ho, List.length_append, List.length_replicate, List.length_replicate]
    rfl
  · rw [List.mem_singleton.mp ho, List.length_append, List.length_replicate, List.length_replicate]
    rfl
  all_goals cases ho

theorem not_rightSizes_shortRequest : ¬ RightSizes shortRequest := by
  intro h
  have hsize := h.requestsV0 (0, List.replicate 111 7) (List.mem_singleton_self _)
  revert hsize
  decide

theorem open_upgrades_two_and_short :
    (∃ disk', openStorage sampleEnv twoGenerations = (disk', none) ∧ Upgraded twoGenerations disk') ∧
    openStorage sampleEnv shortRequest = (shortRequest, some .corrupted) :=
  ⟨(open_upgrades sampleEnv twoGenerations).1 rightSizes_twoGenerations (fresh sampleEnv).blocks rfl,
    (open_upgrades sampleEnv shortRequest).2 not_rightSizes_shortRequest⟩

/-- The opening succeeds and one of the two outputs is gone. -/
theorem v0_output_replaced : RightSizes twoGenerations ∧
    ∃ disk', openStorage sampleEnv twoGenerations = (disk', none) ∧ ¬ Preserved twoGenerations disk' := by
  have hlast : (openStorage sampleEnv twoGenerations).1.outputs.rows.length = 1 := by decide +kernel
  obtain ⟨disk', he, -⟩ := openTables_upgrades rightSizes_twoGenerations (show checkBlockchain sampleEnv _ = _ from rfl)
  have hopen : openStorage sampleEnv twoGenerations = (disk', none) := by rw [openStorage, he]
  rw [hopen] at hlast
  change disk'.outputs.rows.length = 1 at hlast
  refine ⟨rightSizes_twoGenerations, disk', hopen, fun h => ?_⟩
  obtain ⟨rows, ⟨first, hfirst, hrows⟩, second, hsecond, hall⟩ := h.outputs
  have hone : 1 = first.length := hfirst.length_eq
  have hone' : 1 = second.length := hsecond.length_eq
  have hlen := hall.length_eq
  have hlen' : rows.length = (first ++ []).length := hrows.length_eq
  simp only [List.length_append, List.length_nil] at hlen hlen'
  omega

end Lws.Db
