/-
  Lws.Scanner.Stored — what is stored for an account is what one pass over the chain finds
  (`src/scanner.cpp`: `scanner::loop`, `user_data::store`; `src/db/storage.cpp`:
  `storage_reader::get_full_account`, `storage::update`).

  An account is scanned in batches, along with others that stand elsewhere, kept in memory
  between two batches or read back from the database, taken back by a reorg or a rescan, and
  scanned again. `Timeline` is the chain, and what the table of subaddresses answers at each
  transaction; `onePass` scans an account from its start height in one go.

  - `stored_is_scanned`: in every state, the rows of an account are those of `onePass` up to
    its scan height, and after a batch an account that is kept in memory is the one that
    would be read back.
-/

import Lws.Scanner.Traced
import Lws.Scanner.Loop
import Lws.Db.Ledger

namespace Lws.Scanner

open Lws.Db Lws.Lmdb Lws.Transition

/-- The blocks after genesis, and the answers of `find_subaddress` at their transactions. -/
structure Timeline where
  blocks : List BlockData
  lookup : Lookup

def getFullAccount (db : Storage) (user : Db.Account) : Account :=
  .ofRow user ((db.outputs.dups user.id).map entryOf) ((db.outputs.dups user.id).map (·.pub))

/-- The blocks above `a`, up to `b`. -/
def Timeline.between (tl : Timeline) (a b : Nat) : List BlockData := (tl.blocks.drop a).take (b - a)

/-- The account scanned from its start height up to `last`, in one go. -/
def Timeline.onePass (lib : Monero) (tl : Timeline) (a : Db.Account) (last : Nat) : Account :=
  pass lib tl.lookup a.startHeight (tl.between a.startHeight last) (base (.ofRow a [] []))

structure Timeline.Sound (lib : Monero) (tl : Timeline) : Prop where
  blocks : ∀ b ∈ tl.blocks, SoundBlock lib b
  /-- An image is of one transaction. -/
  images : ∀ (k k' : Nat) (b b' : BlockData), tl.blocks[k]? = some b → tl.blocks[k']? = some b' → ∀ t ∈ b.txes, ∀ t' ∈ b'.txes,
    ∀ image, image ∈ imagesOf t.tx → image ∈ imagesOf t'.tx → k = k' ∧ hashOf lib t = hashOf lib t'

/-! ## Parts of a pass -/

section Between

variable {tl : Timeline} {a s b : Nat}

theorem between_length (tl : Timeline) (a b : Nat) : (tl.between a b).length = min (b - a) (tl.blocks.length - a) := by
  unfold Timeline.between
  rw [List.length_take, List.length_drop]

theorem between_append (has : a ≤ s) (hsb : s ≤ b) : tl.between a b = tl.between a s ++ tl.between s b := by
  unfold Timeline.between
  rw [show b - a = (s - a) + (b - s) by omega, List.take_add, List.drop_drop, Nat.add_sub_cancel' has]

theorem between_empty (h : tl.blocks.length ≤ s) : tl.between s b = [] := by
  unfold Timeline.between
  rw [List.drop_eq_nil_of_le h, List.take_nil]

theorem mem_between {block : BlockData} (h : block ∈ tl.between a b) : block ∈ tl.blocks :=
  List.mem_of_mem_drop (List.mem_of_mem_take h)

theorem getElem_between {k : Nat} {block : BlockData} (h : (tl.between a b)[k]? = some block) :
    tl.blocks[a + k]? = some block ∧ k < b - a := by
  unfold Timeline.between at h
  rw [List.getElem?_take, List.getElem?_drop] at h
  split at h
  · rename_i hlt
    exact ⟨h, hlt⟩
  · cases h

variable {lib : Monero} {lookup : Lookup}

theorem pass_between (has : a ≤ s) (hsb : s ≤ b) (user : Account) :
    pass lib lookup a (tl.between a b) user = pass lib lookup s (tl.between s b) (pass lib lookup a (tl.between a s) user) := by
  rw [between_append has hsb, pass_append]
  by_cases hlong : s ≤ tl.blocks.length
  · rw [between_length, min_eq_left (by omega), Nat.add_sub_cancel' has]
  · rw [between_empty (Nat.le_of_not_le hlong)]
    rfl

/-- What a pass finds for an account that has nothing yet lies in the blocks of the pass. -/
theorem has_between {user : Account} {r : Report} (hr : Has (pass lib lookup a (tl.between a b) (base user)) r) :
    a < (linkOf r).height ∧ (linkOf r).height ≤ b := by
  rcases pass_has _ _ _ r hr with hr | ⟨k, block, hblock, t, -, he, -⟩
  · cases r with
    | spend s => cases hr
    | output o => cases hr
  · obtain ⟨-, hk⟩ := getElem_between hblock
    rw [he]
    dsimp only
    omega

end Between

theorem has_extendBy {u v : Account} {r : Report} : Has (extendBy u v) r ↔ Has u r ∨ Has v r := by
  cases r with
  | spend s => exact List.mem_append
  | output o => exact List.mem_append

section OnePass

variable {lib : Monero} {tl : Timeline} {a : Db.Account} {s b : Nat}

theorem identity_onePass (b : Nat) : identity (tl.onePass lib a b) = (a.id, a.address, a.key, 0) :=
  pass_identity _ _ _

/-- A pass up to `s`, and what the blocks from there on to `b` add. -/
theorem onePass_extend (has : a.startHeight ≤ s) (hsb : s ≤ b) : tl.onePass lib a b =
    extendBy (tl.onePass lib a s) (pass lib tl.lookup s (tl.between s b) (base (tl.onePass lib a s))) := by
  have hheight : (tl.onePass lib a s).scanHeight ≤ s := by
    rw [show (tl.onePass lib a s).scanHeight = 0 from congrArg (fun x => x.2.2.2) (identity_onePass s)]
    exact Nat.zero_le s
  rw [← pass_base hheight]
  exact pass_between has hsb _

theorem onePass_indexed (b : Nat) : Indexed (tl.onePass lib a b) (tl.onePass lib a b).outputs :=
  @Indexed.pass _ _ [] _ _ _ ⟨rfl, rfl⟩

/-- The blocks after `s` up to `last` bring what the whole pass finds in them. -/
theorem onePass_range {last : Nat} {r : Report} (has : a.startHeight ≤ s) (hsl : s ≤ last) (hlb : last ≤ b) :
    Has (pass lib tl.lookup s (tl.between s last) (base (tl.onePass lib a s))) r ↔
      Has (tl.onePass lib a b) r ∧ s < (linkOf r).height ∧ (linkOf r).height ≤ last := by
  rw [onePass_extend (has.trans hsl) hlb, onePass_extend has hsl, has_extendBy, has_extendBy]
  constructor
  · intro hr
    exact ⟨Or.inl (Or.inr hr), has_between hr⟩
  · rintro ⟨(hr | hr) | hr, hlow, hle⟩
    · have hearly := (has_between hr).2
      omega
    · exact hr
    · have hlate := (has_between hr).1
      omega

/-- Up to `s`, a pass and a longer one find the same. -/
theorem onePass_below {r : Report} (has : a.startHeight ≤ s) (hsb : s ≤ b) :
    Has (tl.onePass lib a s) r ↔ Has (tl.onePass lib a b) r ∧ a.startHeight < (linkOf r).height ∧ (linkOf r).height ≤ s := by
  rw [onePass_extend has hsb, has_extendBy]
  constructor
  · intro hr
    exact ⟨Or.inl hr, has_between hr⟩
  · rintro ⟨hr | hr, hlow, hle⟩
    · exact hr
    · have hlate := (has_between hr).1
      omega

variable (hsound : tl.Sound lib)

include hsound

theorem onePass_keyed (b : Nat) : Keyed (tl.onePass lib a b) := by
  refine pass_keyed _ _ _ (fun block hblock => hsound.blocks block (mem_between hblock)) (fun r _ hr => ?_) fun r hr => ?_
  · cases r with
    | spend s => cases hr
    | output o => cases hr
  · cases r with
    | spend s => cases hr
    | output o => cases hr

theorem onePass_nodup (b : Nat) : (tl.onePass lib a b).outputs.Nodup := by
  refine pass_nodup _ _ _ (fun block hblock => hsound.blocks block (mem_between hblock)) List.nodup_nil fun o ho => ?_
  cases ho

/-- Spends of one image, of any two accounts, are of one transaction. -/
theorem onePass_images {a' : Db.Account} {b' : Nat} {s t : Spend} (hs : s ∈ (tl.onePass lib a b).spends)
    (ht : t ∈ (tl.onePass lib a' b').spends) (himage : s.image = t.image) : s.link = t.link := by
  have horigin : ∀ {a : Db.Account} {b : Nat} {s : Spend}, s ∈ (tl.onePass lib a b).spends →
      ∃ k block, tl.blocks[k]? = some block ∧ ∃ t ∈ block.txes, s.link = ⟨k + 1, hashOf lib t⟩ ∧ s.image ∈ imagesOf t.tx := by
    intro a b s hs
    rcases pass_has _ _ _ (.spend s) hs with hs | ⟨k, block, hblock, t, ht, hlink, himage⟩
    · cases hs
    · refine ⟨_, block, (getElem_between hblock).1, t, ht, hlink.trans ?_, himage s rfl⟩
      rw [Nat.add_right_comm]
  obtain ⟨k, block, hblock, tx, htx, hlink, hin⟩ := horigin hs
  obtain ⟨k', block', hblock', tx', htx', hlink', hin'⟩ := horigin ht
  rw [← himage] at hin'
  obtain ⟨rfl, hhash⟩ := hsound.images k k' block block' hblock hblock' tx htx tx' htx' _ hin hin'
  rw [hlink, hlink', hhash]

end OnePass

/-! ## The system -/

/-- The database, and the chain that is scanned. -/
structure Synced where
  db : Storage
  tl : Timeline

inductive SyncError where
  | block (error : BlockError)
  | db (error : Db.Error)
  deriving DecidableEq, Repr

def Timeline.batchHashes (tl : Timeline) (start : Nat) (blocks : List BlockData) : List Hash :=
  ((tl.blocks[start - 1]?).map (·.hash)).getD 0 :: blocks.map (·.hash)

/-- The accounts of a thread are scanned over the next `count` blocks, and what was found is
    stored: the database, and the accounts that are kept. -/
def scanAndStore (env : Env) (lib : Monero) (publisher : Bool) (s : Synced) (users : List Account) (count : Nat)
    (pow : List PowSync) (regtest : Bool) : Except SyncError (Synced × List Account) := do
  let users := sortByHeight users
  let start := oldest users
  let blocks := s.tl.between start (start + count)
  let scanned ← (scanBlocks lib s.tl.lookup start blocks users).mapError .block
  let (db, _) ← (s.db.update env start (s.tl.batchHashes start blocks) scanned pow regtest).mapError .db
  return ({ s with db }, pushUpdates publisher (start + blocks.length) scanned)

inductive SyncOp where
  | write (op : Op)
  | scan (publisher : Bool) (users : List Account) (count : Nat) (pow : List PowSync) (regtest : Bool)
  /-- Other blocks, or other subaddresses. -/
  | follow (tl : Timeline)

def SyncOp.run (env : Env) (lib : Monero) : SyncOp → Synced → Except SyncError Synced
  | .write op, s => ((op.run env s.db).map fun db => { s with db }).mapError .db
  | .scan publisher users count pow regtest, s => (scanAndStore env lib publisher s users count pow regtest).map (·.1)
  | .follow tl, s => .ok { s with tl }

/-- The accounts are as they are read from the database, each once. -/
structure Loaded (db : Storage) (users : List Account) : Prop where
  current : ∀ u ∈ users, ∃ r ∈ db.accounts, u = getFullAccount db r.2
  once : (users.map (·.id)).Nodup

/-- An account that was scanned to `b` from `a` is scanned alike on both. -/
structure Timeline.Alike (tl tl' : Timeline) (id a b : Nat) : Prop where
  blocks : tl'.between a b = tl.between a b
  lookup : ∀ height i key, a < height → height ≤ b → tl'.lookup height i id key = tl.lookup height i id key

def SyncOp.Ok (lib : Monero) (s : Synced) : SyncOp → Prop
  | .write op => op.batch = none ∧ NoRowAtTarget s.db op
  | .scan _ users _ _ _ => Loaded s.db users
  | .follow tl => tl.Sound lib ∧ ∀ r ∈ s.db.accounts, s.tl.Alike tl r.2.id r.2.startHeight r.2.scanHeight

/-- `s` is reached from a fresh database with the chain `tl`. -/
def Synced.Reached (env : Env) (lib : Monero) (tl : Timeline) (s : Synced) : Prop :=
  Steps (SyncOp.run env lib) (SyncOp.Ok lib) ⟨fresh env, tl⟩ s

/-! ## The chain of an account -/

/-- The pass over the whole chain. -/
def Timeline.whole (lib : Monero) (tl : Timeline) (a : Db.Account) : Account := tl.onePass lib a tl.blocks.length

/-- What the chain has for the accounts of the database. -/
def Timeline.found (lib : Monero) (tl : Timeline) (accounts : Accounts) : Found where
  hashes i := ((tl.blocks[i - 1]?).map (·.hash)).getD 0
  outputs id := ((accounts.rows.find? fun r => r.2.id = id).map fun r => (tl.whole lib r.2).outputs).getD []
  spends id := ((accounts.rows.find? fun r => r.2.id = id).map fun r => (tl.whole lib r.2).spends).getD []

section Found

variable {lib : Monero} {tl tl' : Timeline} {accounts : Accounts} {a a' : Db.Account} {s last : Nat}

theorem onePass_beyond {b : Nat} (hb : tl.blocks.length ≤ b) : tl.onePass lib a b = tl.whole lib a := by
  unfold Timeline.whole Timeline.onePass Timeline.between
  rw [List.take_of_length_le (by rw [List.length_drop]; omega), List.take_of_length_le (by rw [List.length_drop])]

theorem whole_range {r : Report} (has : a.startHeight ≤ s) (hsl : s ≤ last) :
    Has (pass lib tl.lookup s (tl.between s last) (base (tl.onePass lib a s))) r ↔
      Has (tl.whole lib a) r ∧ s < (linkOf r).height ∧ (linkOf r).height ≤ last := by
  rw [← onePass_beyond (Nat.le_max_left tl.blocks.length last)]
  exact onePass_range has hsl (Nat.le_max_right _ _)

theorem whole_below {r : Report} (has : a.startHeight ≤ s) :
    Has (tl.onePass lib a s) r ↔ Has (tl.whole lib a) r ∧ a.startHeight < (linkOf r).height ∧ (linkOf r).height ≤ s := by
  rw [← onePass_beyond (Nat.le_max_left tl.blocks.length s)]
  exact onePass_below has (Nat.le_max_right _ _)

/-- A pass reads of an account row its keys, its id and its start height. -/
theorem onePass_congr (hid : a.id = a'.id) (haddress : a.address = a'.address) (hkey : a.key = a'.key)
    (hstart : a.startHeight = a'.startHeight) (b : Nat) : tl.onePass lib a b = tl.onePass lib a' b := by
  have hbase : base (.ofRow a [] []) = base (.ofRow a' [] []) := by
    unfold base Account.ofRow
    rw [hid, haddress, hkey]
  unfold Timeline.onePass
  rw [hstart, hbase]

theorem onePass_alike (h : tl.Alike tl' a.id a.startHeight s) : tl'.onePass lib a s = tl.onePass lib a s := by
  unfold Timeline.onePass
  rw [h.blocks]
  refine pass_lookup _ _ _ (Nat.zero_le _) fun height i key hlow hle => h.lookup height i key hlow ?_
  rw [between_length] at hle
  omega

theorem found_row (hids : ∀ r ∈ accounts, ∀ s ∈ accounts, r.2.id = s.2.id → r = s) {r : AccountStatus × Db.Account}
    (hr : r ∈ accounts) : (tl.found lib accounts).outputs r.2.id = (tl.whole lib r.2).outputs ∧
      (tl.found lib accounts).spends r.2.id = (tl.whole lib r.2).spends := by
  have hsome : (accounts.rows.find? fun x => decide (x.2.id = r.2.id)).isSome :=
    List.find?_isSome.mpr ⟨r, hr, decide_eq_true rfl⟩
  obtain ⟨x, hx⟩ := Option.isSome_iff_exists.mp hsome
  have hid : x.2.id = r.2.id := by
    have hfound := List.find?_some hx
    exact of_decide_eq_true hfound
  have hxr : x = r := hids x (List.mem_of_find?_eq_some hx) r hr hid
  unfold Timeline.found
  dsimp only
  rw [hx, hxr]
  exact ⟨rfl, rfl⟩

theorem found_keyed (hsound : tl.Sound lib) (accounts : Accounts) : (tl.found lib accounts).Keyed := by
  have hrow : ∀ id, ((tl.found lib accounts).outputs id = [] ∧ (tl.found lib accounts).spends id = []) ∨
      ∃ a : Db.Account, (tl.found lib accounts).outputs id = (tl.whole lib a).outputs ∧
        (tl.found lib accounts).spends id = (tl.whole lib a).spends := by
    intro id
    unfold Timeline.found
    dsimp only
    cases accounts.rows.find? fun r => r.2.id = id with
    | none => exact Or.inl ⟨rfl, rfl⟩
    | some r => exact Or.inr ⟨r.2, rfl, rfl⟩
  refine ⟨fun id o ho p hp hkey => ?_, fun id s hs t ht hkey => ?_⟩
  · rcases hrow id with ⟨he, -⟩ | ⟨a, he, -⟩
    · rw [he] at ho
      cases ho
    · rw [he] at ho hp
      cases onePass_keyed hsound tl.blocks.length (.output o) (.output p) ho hp hkey
      rfl
  · rcases hrow id with ⟨-, he⟩ | ⟨a, -, he⟩
    · rw [he] at hs
      cases hs
    · rw [he] at hs ht
      cases onePass_keyed hsound tl.blocks.length (.spend s) (.spend t) hs ht hkey
      rfl

end Found

/-! ## One operation -/

/-- Two rows that are scanned alike. -/
structure SameStart (a a' : Db.Account) : Prop where
  id : a.id = a'.id
  address : a.address = a'.address
  key : a.key = a'.key
  startHeight : a.startHeight = a'.startHeight

/-- Every account covers nothing, or was there and is scanned alike. -/
def Starts (db db' : Storage) : Prop :=
  ∀ r' ∈ db'.accounts, r'.2.scanHeight ≤ r'.2.startHeight ∨ ∃ r ∈ db.accounts, SameStart r.2 r'.2

section Steps

variable {env : Env} {lib : Monero} {tl tl' : Timeline} {db mid db' : Storage}

theorem starts_change {act : Act} (hact : ∀ height last user, act ≠ .store height last user) (hagree : mid.Agree env)
    (h : Starts db mid) (hc : Change env act mid db') : Starts db db' := by
  have hput : ∀ {st : AccountStatus} {a a' : Db.Account}, (st, a) ∈ mid.accounts → a.id = a'.id → a.address = a'.address →
      a.key = a'.key → (a.startHeight = a'.startHeight ∧ a'.scanHeight ≤ a.scanHeight ∨ a'.scanHeight ≤ a'.startHeight) →
        a'.scanHeight ≤ a'.startHeight ∨ ∃ r ∈ db.accounts, SameStart r.2 a' := by
    intro st a a' ha hid haddress hkey hcase
    rcases hcase with ⟨hstart, hscan⟩ | hnone
    · rcases h _ ha with hnone | ⟨r, hr, hsame⟩
      · left
        dsimp only at hnone
        omega
      · exact Or.inr ⟨r, hr, hsame.id.trans hid, hsame.address.trans haddress, hsame.key.trans hkey,
          hsame.startHeight.trans hstart⟩
    · exact Or.inl hnone
  cases hc with
  | @touch _ st a a' ha hsame =>
    intro r' hr'
    rcases Table.mem_put.mp hr' with rfl | ⟨hr', -⟩
    · exact hput ha hsame.id.symm hsame.address.symm hsame.key.symm
        (Or.inl ⟨hsame.startHeight.symm, hsame.scanHeight.le⟩)
    · exact h r' hr'
  | @move _ b a l status hb hne ha hid hl hl' hfree =>
    intro r' hr'
    rcases Table.mem_put.mp hr' with rfl | ⟨hr', -⟩
    · exact h (b.lookup.status, a) ha
    · exact h r' (Table.mem_erase.mp hr').1
  | add _ _ hstart _ _ _ =>
    intro r' hr'
    rcases Table.mem_put.mp hr' with rfl | ⟨hr', -⟩
    · exact Or.inl hstart.ge
    · exact h r' hr'
  | @lower _ b a a' l height spends images hb ha hid hsame hs hl hl' =>
    intro r' hr'
    rcases Table.mem_put.mp hr' with rfl | ⟨hr', -⟩
    · refine hput ha hsame.id.symm hsame.address.symm hsame.key.symm ?_
      rw [hsame.startHeight, hsame.scanHeight]
      show a.startHeight = min height a.startHeight ∧ min height a.scanHeight ≤ a.scanHeight ∨
        min height a.scanHeight ≤ min height a.startHeight
      omega
    · exact h r' hr'
  | @rewind _ _ height hrw =>
    intro r' hr'
    obtain ⟨a, ha, he⟩ := (hrw.accounts r'.1 r'.2).mp hr'
    rw [he]
    split
    · rename_i hin
      have habove := (hagree.above ha).mp hin
      refine hput ha rfl rfl rfl ?_
      show a.startHeight = min (max height 1 - 1) a.startHeight ∧ max height 1 - 1 ≤ a.scanHeight ∨
        max height 1 - 1 ≤ min (max height 1 - 1) a.startHeight
      omega
    · exact h _ ha
  | store _ _ _ _ _ _ _ => exact absurd rfl (hact _ _ _)
  | _ => exact h

theorem starts_run {op : Op} (hbatch : op.batch = none) (hagree : db.Agree env)
    (hcount : db'.accounts.rows.length < 2 ^ 32 - 2) (hrun : op.run env db = .ok db') : Starts db db' := by
  refine ((run_changes hrun).keeps_agree (Starts db) ?_ hcount hagree fun r hr => Or.inr ⟨r, hr, rfl, rfl, rfl, rfl⟩).2
  intro u u' act hu _ hstarts hact hc
  refine starts_change (fun height last user he => ?_) hu hstarts hc
  subst he
  obtain ⟨chain, users, pow, regtest, rfl, -⟩ := acts_store hact
  cases hbatch

theorem starts_update {height : Nat} {chain : List Hash} {users : List Account} {pow : List PowSync} {regtest : Bool}
    {out : Updated} (hrun : db.update env height chain users pow regtest = .ok (db', out)) : Starts db db' := by
  have hrefl : ∀ r ∈ db.accounts, ∃ r₀ ∈ db.accounts, SameStart r₀.2 r.2 := fun r hr => ⟨r, hr, rfl, rfl, rfl, rfl⟩
  rcases update_stores hrun with rfl | ⟨blocks, pows, hstores⟩
  · exact fun r hr => Or.inr (hrefl r hr)
  · refine fun r hr => Or.inr (hstores.keeps (fun u => ∀ r ∈ u.accounts, ∃ r₀ ∈ db.accounts, SameStart r₀.2 r.2) ?_ hrefl r hr)
    intro u u' act hu hact hc
    cases hc with
    | @store _ _ _ _ _ existing _ _ _ _ ha _ _ _ _ _ _ =>
      intro r hr
      rcases Table.mem_put.mp hr with rfl | ⟨hr, -⟩
      · obtain ⟨r₀, hr₀, hsame⟩ := hu _ ha
        exact ⟨r₀, hr₀, hsame.id, hsame.address, hsame.key, hsame.startHeight⟩
      · exact hu r hr
    | _ => exact hact.elim

/-- The chain of the accounts after an operation is that before it, for all that they cover. -/
theorem learns_starts (hagree : db.Agree env) (hagree' : db'.Agree env) (hsound : tl.Sound lib) (h : Starts db db') :
    Learns db' (tl.found lib db.accounts) (tl.found lib db'.accounts) := by
  have hrow : ∀ r' ∈ db'.accounts, ∀ height, r'.2.Covers height →
      (tl.found lib db'.accounts).outputs r'.2.id = (tl.found lib db.accounts).outputs r'.2.id ∧
        (tl.found lib db'.accounts).spends r'.2.id = (tl.found lib db.accounts).spends r'.2.id := by
    intro r' hr' height hcovers
    rcases h r' hr' with hnone | ⟨r, hr, hsame⟩
    · unfold Account.Covers at hcovers
      omega
    · obtain ⟨houtputs', hspends'⟩ := @found_row lib tl _ hagree'.ids _ hr'
      obtain ⟨houtputs, hspends⟩ := @found_row lib tl _ hagree.ids _ hr
      have hwhole : tl.whole lib r.2 = tl.whole lib r'.2 :=
        onePass_congr hsame.id hsame.address hsame.key hsame.startHeight _
      rw [houtputs', hspends', ← hwhole, ← hsame.id]
      exact ⟨houtputs.symm, hspends.symm⟩
  refine ⟨found_keyed hsound _, fun r' hr' o hcovers => ?_, fun r' hr' t hcovers => ?_⟩
  · rw [(hrow r' hr' _ hcovers).1]
  · rw [(hrow r' hr' _ hcovers).2]

/-- Other blocks, where no account was scanned. -/
theorem learns_follow (hagree : db.Agree env) (hsound : tl'.Sound lib)
    (h : ∀ r ∈ db.accounts, tl.Alike tl' r.2.id r.2.startHeight r.2.scanHeight) :
    Learns db (tl.found lib db.accounts) (tl'.found lib db.accounts) := by
  have hrow : ∀ r ∈ db.accounts, ∀ x : Report, r.2.Covers (linkOf x).height →
      (Has (tl'.whole lib r.2) x ↔ Has (tl.whole lib r.2) x) := by
    intro r hr x hcovers
    have hstart := hagree.start r hr
    have hone := @onePass_alike lib _ _ _ _ (h r hr)
    have hx := @whole_below lib tl _ _ x hstart
    have hx' := @whole_below lib tl' _ _ x hstart
    rw [hone, hx] at hx'
    have hin : r.2.startHeight < (linkOf x).height ∧ (linkOf x).height ≤ r.2.scanHeight := hcovers
    exact ⟨fun hhas => (hx'.mpr ⟨hhas, hin⟩).1, fun hhas => (hx'.mp ⟨hhas, hin⟩).1⟩
  refine ⟨found_keyed hsound _, fun r hr o hcovers => ?_, fun r hr t hcovers => ?_⟩
  · rw [(found_row hagree.ids hr).1, (found_row hagree.ids hr).1]
    exact hrow r hr (.output o) hcovers
  · rw [(found_row hagree.ids hr).2, (found_row hagree.ids hr).2]
    exact hrow r hr (.spend t) hcovers

end Steps

/-! ## A batch -/

/-- The rows of the accounts are those of one pass. -/
structure Exact (env : Env) (lib : Monero) (s : Synced) : Prop where
  sound : s.tl.Sound lib
  agree : s.db.Agree env
  ledger : Ledger (s.tl.found lib s.db.accounts) s.db

section Batch

variable {env : Env} {lib : Monero} {s s' : Synced} {r : AccountStatus × Db.Account}

theorem Exact.spends (h : Exact env lib s) (hr : r ∈ s.db.accounts) (t : Spend) :
    (r.2.id, t) ∈ s.db.spends ↔ t ∈ (s.tl.onePass lib r.2 r.2.scanHeight).spends := by
  rw [h.ledger.spends.rows r hr, (found_row h.agree.ids hr).2]
  exact (@whole_below lib s.tl r.2 _ (.spend t) (h.agree.start r hr)).symm

/-- The outputs of an account are those of one pass over its blocks, each once. -/
theorem Exact.outputs (h : Exact env lib s) (hr : r ∈ s.db.accounts) :
    (s.db.outputs.dups r.2.id).Perm (s.tl.onePass lib r.2 r.2.scanHeight).outputs := by
  refine (List.perm_ext_iff_of_nodup (Table.dups_nodup _ _) (onePass_nodup h.sound _)).mpr fun o => ?_
  rw [Table.mem_dups, h.ledger.outputs.rows r hr, (found_row h.agree.ids hr).1]
  exact (@whole_below lib s.tl r.2 _ (.output o) (h.agree.start r hr)).symm

theorem Exact.indexed (h : Exact env lib s) (hr : r ∈ s.db.accounts) :
    Indexed (getFullAccount s.db r.2) (s.tl.onePass lib r.2 r.2.scanHeight).outputs := by
  have hread : Indexed (getFullAccount s.db r.2) (s.db.outputs.dups r.2.id) := ⟨rfl, rfl⟩
  exact hread.perm (h.outputs hr)

/-- An account that is read back goes on where one pass is. -/
theorem Exact.reloaded (h : Exact env lib s) (hr : r ∈ s.db.accounts) :
    base (getFullAccount s.db r.2) = base (s.tl.onePass lib r.2 r.2.scanHeight) := by
  have hidentity := @identity_onePass lib s.tl r.2 r.2.scanHeight
  exact base_congr (congrArg Prod.fst hidentity).symm (congrArg (fun x => x.2.1) hidentity).symm
    (congrArg (fun x => x.2.2.1) hidentity).symm (h.indexed hr) (onePass_indexed _)

theorem between_self (tl : Timeline) (start b : Nat) :
    tl.between start (start + (tl.between start b).length) = tl.between start b := by
  unfold Timeline.between
  rw [Nat.add_sub_cancel_left, List.length_take]
  by_cases hlong : b - start ≤ (tl.blocks.drop start).length
  · rw [min_eq_left hlong]
  · rw [min_eq_right (Nat.le_of_not_le hlong), List.take_of_length_le (Nat.le_refl _),
      List.take_of_length_le (Nat.le_of_not_le hlong)]

theorem Exact.scanned (h : Exact env lib s) (hr : r ∈ s.db.accounts) {start last : Nat}
    (hstart : start ≤ r.2.scanHeight) (hlast : start + (s.tl.between start last).length = last) {v : Account}
    (hv : v = pass lib s.tl.lookup start (s.tl.between start last) (getFullAccount s.db r.2)) :
    identity v = (r.2.id, r.2.address, r.2.key, r.2.scanHeight) ∧
      (∀ x, Has v x ↔ Has (s.tl.whole lib r.2) x ∧ r.2.scanHeight < (linkOf x).height ∧ (linkOf x).height ≤ last) ∧
      Indexed v (s.tl.onePass lib r.2 (max r.2.scanHeight last)).outputs := by
  have hfrom := h.agree.start r hr
  have hnone : ∀ x, ¬ Has (getFullAccount s.db r.2) x := by
    intro x hx
    cases x with
    | spend t => cases hx
    | output o => cases hx
  refine ⟨hv ▸ pass_identity _ _ _, ?_⟩
  by_cases hsl : r.2.scanHeight ≤ last
  · have hgoes : v = extendBy (getFullAccount s.db r.2)
        (pass lib s.tl.lookup r.2.scanHeight (s.tl.between r.2.scanHeight last)
          (base (s.tl.onePass lib r.2 r.2.scanHeight))) := by
      rw [hv, pass_between hstart hsl, pass_below _ start (getFullAccount s.db r.2) ?_, ← h.reloaded hr]
      · exact @pass_base lib s.tl.lookup (getFullAccount s.db r.2) r.2.scanHeight (Nat.le_refl r.2.scanHeight) _
      · show start + (s.tl.between start r.2.scanHeight).length ≤ r.2.scanHeight
        rw [between_length]
        omega
    refine ⟨fun x => ?_, ?_⟩
    · rw [hgoes, has_extendBy, or_iff_right (hnone x)]
      exact whole_range hfrom hsl
    · have hextend := @onePass_extend lib s.tl r.2 _ _ hfrom hsl
      rw [max_eq_right hsl, hextend]
      have hindexed := @Indexed.pass lib s.tl.lookup (s.tl.onePass lib r.2 r.2.scanHeight).outputs
        (s.tl.between r.2.scanHeight last) r.2.scanHeight (base (s.tl.onePass lib r.2 r.2.scanHeight))
        ⟨by simpa [Scanner.base] using (@onePass_indexed lib s.tl r.2 r.2.scanHeight).spendable,
          by simpa [Scanner.base] using (@onePass_indexed lib s.tl r.2 r.2.scanHeight).pubs⟩
      rw [hgoes]
      exact ⟨hindexed.spendable, hindexed.pubs⟩
  · have hkept : v = getFullAccount s.db r.2 := by
      rw [hv]
      refine pass_below _ _ _ ?_
      rw [hlast]
      exact Nat.le_of_not_le hsl
    refine ⟨fun x => ?_, ?_⟩
    · rw [hkept]
      refine iff_of_false (hnone x) ?_
      rintro ⟨-, hlow, hle⟩
      exact hsl (hlow.le.trans hle)
    · rw [hkept, max_eq_left (Nat.le_of_not_le hsl)]
      exact h.indexed hr

/-- What a batch that goes through did. -/
structure Scans (env : Env) (lib : Monero) (s : Synced) (users : List Account) (start last : Nat)
    (scanned : List Account) (db' : Storage) : Prop where
  length : start + (s.tl.between start last).length = last
  each : ∀ v ∈ scanned, ∃ r ∈ s.db.accounts, start ≤ r.2.scanHeight ∧
    v = pass lib s.tl.lookup start (s.tl.between start last) (getFullAccount s.db r.2)
  ids : (scanned.map (·.id)).Nodup
  update : ∃ chain pow regtest out, chain ≠ [] ∧ start + chain.length - 1 = last ∧
    s.db.update env start chain scanned pow regtest = .ok (db', out)

theorem scanAndStore_scans {publisher regtest : Bool} {users kept : List Account} {count : Nat} {pow : List PowSync}
    (hloaded : Loaded s.db users) (h : scanAndStore env lib publisher s users count pow regtest = .ok (s', kept)) :
    ∃ start last scanned, Scans env lib s users start last scanned s'.db ∧ s'.tl = s.tl ∧
      kept = pushUpdates publisher last scanned := by
  obtain ⟨scanned, hscanned, h⟩ := bind_ok.mp h
  obtain ⟨⟨db', out⟩, hupdate, h⟩ := bind_ok.mp h
  cases h
  have hself := between_self s.tl (oldest (sortByHeight users)) (oldest (sortByHeight users) + count)
  have heach := scanBlocks_each _ _ _ _ (mapError_ok hscanned)
  refine ⟨oldest (sortByHeight users), _, scanned, ⟨?_, fun v hv => ?_, ?_, _, pow, regtest, out, ?_, ?_, mapError_ok hupdate⟩,
    rfl, rfl⟩
  · rw [hself]
  · rw [heach] at hv
    obtain ⟨u, hu, rfl⟩ := List.mem_map.mp hv
    obtain ⟨r, hr, hur⟩ := hloaded.current u ((sortByHeight_perm users).mem_iff.mp hu)
    refine ⟨r, hr, ?_, ?_⟩
    · have hle := oldest_le (sortByHeight_sorted users) hu
      rwa [hur] at hle
    · rw [hself, hur]
  · have hsame : scanned.map (·.id) = (sortByHeight users).map (·.id) := by
      rw [heach, List.map_map]
      exact List.map_congr_left fun u _ => congrArg Prod.fst (pass_identity _ _ u)
    rw [hsame]
    exact ((sortByHeight_perm users).map _).nodup_iff.mpr hloaded.once
  · unfold Timeline.batchHashes
    exact List.cons_ne_nil _ _
  · unfold Timeline.batchHashes
    rw [List.length_cons, List.length_map]
    omega

/-- An account is its identity, its vectors, and what was found since the last store. -/
theorem account_eq {u v : Account} {outs : List Output} (hidentity : identity u = identity v) (hu : Indexed u outs)
    (hv : Indexed v outs) (hspends : u.spends = v.spends) (houtputs : u.outputs = v.outputs) : u = v := by
  have hspendable := hu.spendable.trans hv.spendable.symm
  have hpubs := hu.pubs.trans hv.pubs.symm
  cases u
  cases v
  cases hidentity
  cases hspendable
  cases hpubs
  cases hspends
  cases houtputs
  rfl

section Scans

variable {users scanned : List Account} {start last : Nat} {db' : Storage}

theorem Scans.scanOf (h : Scans env lib s users start last scanned db') (hexact : Exact env lib s) :
    ScanOf (s.tl.found lib s.db.accounts) s.db last scanned := by
  have heach : ∀ v ∈ scanned, ∃ r ∈ s.db.accounts, v.id = r.2.id ∧ v.scanHeight = r.2.scanHeight ∧
      ∀ x, Has v x ↔ Has (s.tl.whole lib r.2) x ∧ r.2.scanHeight < (linkOf x).height ∧ (linkOf x).height ≤ last := by
    intro v hv
    obtain ⟨r, hr, hstart, hpass⟩ := h.each v hv
    obtain ⟨hidentity, hhas, -⟩ := hexact.scanned hr hstart h.length hpass
    exact ⟨r, hr, congrArg Prod.fst hidentity, scanHeight_of_identity (v := getFullAccount s.db r.2) hidentity, hhas⟩
  refine ⟨fun v hv o => ?_, fun v hv t => ?_, fun v hv r' hr' hid => ?_⟩
  · obtain ⟨r, hr, hid, hheight, hhas⟩ := heach v hv
    rw [hid, hheight, (found_row hexact.agree.ids hr).1]
    exact hhas (.output o)
  · obtain ⟨r, hr, hid, hheight, hhas⟩ := heach v hv
    rw [hid, hheight, (found_row hexact.agree.ids hr).2]
    exact hhas (.spend t)
  · obtain ⟨r, hr, hid', hheight, -⟩ := heach v hv
    rw [hexact.agree.ids r' hr' r hr (hid.trans hid'), hheight]
    exact hexact.agree.start r hr

theorem Scans.exact (h : Scans env lib s users start last scanned s'.db) (hexact : Exact env lib s) (htl : s'.tl = s.tl)
    (hcount : s'.db.accounts.rows.length < 2 ^ 32 - 2) : Exact env lib s' := by
  obtain ⟨chain, pow, regtest, out, hne, hlast, hupdate⟩ := h.update
  have hrun : (Op.update start chain scanned pow regtest).run env s.db = .ok s'.db := by
    show (fun x : Storage × Updated => x.1) <$> s.db.update env start chain scanned pow regtest = _
    rw [hupdate]
    rfl
  have hagree' := agree_run hrun hcount hexact.agree
  have hledger := ledger_update (found_keyed hexact.sound _) hexact.agree hcount hexact.ledger
    (hlast.symm ▸ h.scanOf hexact) hupdate
  have hlearns := learns_starts hexact.agree hagree' hexact.sound (starts_update hupdate)
  rw [← htl] at hlearns hledger
  exact ⟨htl ▸ hexact.sound, hagree', hledger.outputs.learn hlearns.outputs, hledger.spends.learn hlearns.spends⟩

theorem Scans.row (h : Scans env lib s users start last scanned db') (hexact : Exact env lib s) {v : Account}
    (hv : v ∈ scanned) (hr : r ∈ s.db.accounts) (hid : v.id = r.2.id) (haddress : v.address = r.2.address)
    (hheight : v.scanHeight = r.2.scanHeight) :
    (r.1, { r.2 with scanHeight := max r.2.scanHeight last }) ∈ db'.accounts := by
  obtain ⟨chain, pow, regtest, out, hne, hlast, hupdate⟩ := h.update
  have hone : OneRow scanned := by
    have hfrom : ∀ v ∈ scanned, ∃ a, ∀ x, Has v x → Has (s.tl.whole lib a) x := by
      intro v hv
      obtain ⟨r, hr, hstart, hpass⟩ := h.each v hv
      obtain ⟨-, hhas, -⟩ := hexact.scanned hr hstart h.length hpass
      exact ⟨r.2, fun x hx => ((hhas x).mp hx).1⟩
    refine ⟨h.ids, fun u hu o ho p hp hkey => ?_, fun u hu x hx y hy hkey => ?_, fun u hu x hx w hw y hy himage => ?_⟩
    · obtain ⟨a, ha⟩ := hfrom u hu
      cases onePass_keyed hexact.sound _ (.output o) (.output p) (ha _ ho) (ha _ hp) hkey
      rfl
    · obtain ⟨a, ha⟩ := hfrom u hu
      cases onePass_keyed hexact.sound _ (.spend x) (.spend y) (ha _ hx) (ha _ hy) hkey
      rfl
    · obtain ⟨a, ha⟩ := hfrom u hu
      obtain ⟨b, hb⟩ := hfrom w hw
      exact onePass_images hexact.sound (ha (.spend x) hx) (hb (.spend y) hy) himage.2
  have happly : (Batch.mk start chain scanned pow regtest).apply env s.db = .ok (db', out) := hupdate
  rcases apply_ok.mp happly with ⟨hnil, -⟩ | ⟨-, -, mid, hchain, hres⟩
  · exact absurd hnil hne
  · obtain ⟨blocks, pows, rfl⟩ := updateChain_ok hchain
    have hagree : Storage.Agree env { s.db with blocks, pows } := hexact.agree
    have hlands := updateUsersNow_lands scanned hagree hone hres
    refine (hlands.accounts r.1 _).mpr ⟨r.2, hr, ?_⟩
    show _ = raisedTo s.db.accountsBa (start + chain.length - 1) scanned r.1 r.2
    rw [hlast]
    unfold raisedTo
    by_cases hlt : r.2.scanHeight < last
    · have hraises : Raises s.db.accountsBa last v r := by
        refine ⟨hid.symm, Or.inr ?_, hheight.le, hlt⟩
        have hba := hexact.agree.byAddress r.1 r.2 hr
        have hget : s.db.accountsBa.get? () r.2.address.viewPublic = some ⟨r.2.address, ⟨r.2.id, r.1⟩⟩ :=
          Table.get?_eq_some.mpr ⟨hba, rfl⟩
        rw [haddress, hget]
        rfl
      rw [if_pos ⟨v, hv, hraises⟩, max_eq_right hlt.le]
    · rw [if_neg, max_eq_left (Nat.le_of_not_lt hlt)]
      rintro ⟨w, -, -, -, -, hup⟩
      exact hlt hup

/-- An account that is kept after a batch is the one that is read back. -/
theorem Scans.kept (h : Scans env lib s users start last scanned s'.db) (hexact : Exact env lib s)
    (hexact' : Exact env lib s') (htl : s'.tl = s.tl) {publisher : Bool} {u : Account}
    (hu : u ∈ pushUpdates publisher last scanned) : ∃ r ∈ s'.db.accounts, u = getFullAccount s'.db r.2 := by
  obtain ⟨v, hv, rfl⟩ := List.mem_map.mp hu
  obtain ⟨r, hr, hstart, hpass⟩ := h.each v hv
  obtain ⟨hidentity, hhas, hindexed⟩ := hexact.scanned hr hstart h.length hpass
  have hid : v.id = r.2.id := congrArg Prod.fst hidentity
  have haddress : v.address = r.2.address := congrArg (fun x => x.2.1) hidentity
  have hkey : v.viewKey = r.2.key := congrArg (fun x => x.2.2.1) hidentity
  have hheight : v.scanHeight = r.2.scanHeight := congrArg (fun x => x.2.2.2) hidentity
  have hr' := h.row hexact hv hr hid haddress hheight
  refine ⟨_, hr', ?_⟩
  have hpass' : s'.tl.onePass lib { r.2 with scanHeight := max r.2.scanHeight last } (max r.2.scanHeight last) =
      s.tl.onePass lib r.2 (max r.2.scanHeight last) := by
    rw [htl]
    exact onePass_congr rfl rfl rfl rfl _
  have hread : Indexed (getFullAccount s'.db { r.2 with scanHeight := max r.2.scanHeight last })
      (s.tl.onePass lib r.2 (max r.2.scanHeight last)).outputs := hpass' ▸ hexact'.indexed hr'
  split
  · rename_i hbelow
    have hlt : last < v.scanHeight := of_decide_eq_true (Bool.and_eq_true_iff.mp hbelow).2
    have hnone : ∀ x, ¬ Has v x := fun x hx => by
      have hrange := ((hhas x).mp hx).2
      omega
    refine account_eq ?_ hindexed hread (List.eq_nil_iff_forall_not_mem.mpr fun t => hnone (.spend t))
      (List.eq_nil_iff_forall_not_mem.mpr fun o => hnone (.output o))
    rw [hidentity, max_eq_left (by omega)]
    rfl
  · refine account_eq ?_ ⟨hindexed.spendable, hindexed.pubs⟩ hread rfl rfl
    show (v.id, v.address, v.viewKey, max v.scanHeight last) = _
    rw [hid, haddress, hkey, hheight]
    rfl

end Scans

end Batch

/-! ## Runs -/

section Runs

variable {env : Env} {lib : Monero} {tl : Timeline} {s : Synced}

theorem exact_reached (hsound : tl.Sound lib) (h : Synced.Reached env lib tl s)
    (hcount : s.db.accounts.rows.length < 2 ^ 32 - 2) : Exact env lib s := by
  refine h.invariant (fun s => s.db.accounts.rows.length < 2 ^ 32 - 2 → Exact env lib s)
      (fun _ => ⟨hsound, agree_fresh env, ?_⟩)
    ?_ hcount
  · refine ⟨⟨fun _ hr => ?_, fun _ hs => ?_⟩, ⟨fun _ hr => ?_, fun _ hs => ?_⟩⟩
    · exact absurd hr (Table.not_mem_empty _)
    · exact absurd hs (Table.not_mem_empty _)
    · exact absurd hr (Table.not_mem_empty _)
    · exact absurd hs (Table.not_mem_empty _)
  · intro s op s' hs hok hrun hlt
    cases op with
    | write op =>
      obtain ⟨db', hop, rfl⟩ := map_ok (mapError_ok hrun)
      have hexact := hs ((count_changes (run_changes hop)).trans_lt hlt)
      have hagree' := agree_run hop hlt hexact.agree
      have hledger := ledger_other (found_keyed hexact.sound _) hok.1 hexact.agree hlt hexact.ledger hok.2 hop
      have hlearns := learns_starts hexact.agree hagree' hexact.sound (starts_run hok.1 hexact.agree hlt hop)
      exact ⟨hexact.sound, hagree', hledger.outputs.learn hlearns.outputs, hledger.spends.learn hlearns.spends⟩
    | scan publisher users count pow regtest =>
      obtain ⟨⟨s₁, kept⟩, hscan, rfl⟩ := map_ok hrun
      obtain ⟨start, last, scanned, hscans, htl, -⟩ := scanAndStore_scans hok hscan
      obtain ⟨chain, pow, regtest, out, -, -, hupdate⟩ := hscans.update
      have hexact := hs ((count_changes (update_changes hupdate)).trans_lt hlt)
      exact hscans.exact hexact htl hlt
    | follow tl =>
      cases hrun
      have hexact := hs hlt
      have hlearns := learns_follow hexact.agree hok.1 hok.2
      exact ⟨hok.1, hexact.agree, hexact.ledger.outputs.learn hlearns.outputs, hexact.ledger.spends.learn hlearns.spends⟩

end Runs

def sampleBlock (hash : Hash) (outs : List TxOut) (outIds : List Nat) (spending : List (Hash × List TxIn)) :
    BlockData where
  hash
  timestamp := 60 * hash
  txHashes := spending.map (·.1)
  minerTx := ⟨1, 60, [.gen], outs, some 2, none, [], 0, [], [], hash⟩
  transactions := spending.map fun x => ⟨1, 0, x.2, [], some 3, none, [], 0, [], [], 0⟩
  indices := outIds :: spending.map fun _ => []

/-- Block 1 pays the account, block 2 spends that, and pays its public key again. -/
def sampleTimeline : Timeline where
  blocks := [sampleBlock 101 [⟨5, some 64, none⟩] [9] [], sampleBlock 102 [⟨6, some 64, none⟩] [4] [(1002, [.toKey 5 [9] 77])],
    sampleBlock 103 [⟨6, some 65, none⟩] [6] []]
  lookup _ _ _ _ := none

theorem sampleTimeline_sound : sampleTimeline.Sound sampleMonero := by
  have himages : ∀ (k : Nat) (b : BlockData), sampleTimeline.blocks[k]? = some b → ∀ t ∈ b.txes, ∀ image ∈ imagesOf t.tx,
      k = 1 ∧ hashOf sampleMonero t = 1002 := by
    intro k b hb
    have hlt : k < 3 := (List.getElem?_eq_some_iff.mp hb).1
    have hall : ∀ k < 3, ∀ b ∈ sampleTimeline.blocks[k]?, ∀ t ∈ b.txes, ∀ image ∈ imagesOf t.tx,
        k = 1 ∧ hashOf sampleMonero t = 1002 := by decide
    exact hall k hlt b hb
  refine ⟨fun b hb => ⟨?_, fun t ht => ⟨?_, ?_⟩⟩, fun k k' b b' hb hb' t ht t' ht' image hin hin' => ?_⟩
  · exact (show ∀ b ∈ sampleTimeline.blocks, (b.txes.map (hashOf sampleMonero)).Nodup by decide) b hb
  · exact (show ∀ b ∈ sampleTimeline.blocks, ∀ t ∈ b.txes, t.outIds.Nodup by decide) b hb t ht
  · exact (show ∀ b ∈ sampleTimeline.blocks, ∀ t ∈ b.txes, (imagesOf t.tx).Nodup by decide) b hb t ht
  · obtain ⟨rfl, hhash⟩ := himages k b hb t ht image hin
    obtain ⟨rfl, hhash'⟩ := himages k' b' hb' t' ht' image hin'
    exact ⟨rfl, hhash.trans hhash'.symm⟩

/-- The account at genesis, and as it is kept after block 1. -/
def keptAccounts : List Account :=
  [⟨1, ⟨1007, 50⟩, 7, 0, [], [], [], []⟩, ⟨1, ⟨1007, 50⟩, 7, 1, [(⟨5, 9⟩, ⟨0, 0⟩)], [64], [], []⟩]

/-- Two batches, the second with the account that the first left. -/
def scannedOps : List SyncOp :=
  [.write (.addAccount 5 ⟨1007, 50⟩ 7 0), .write (.syncChain 0 [100, 101, 102, 103] false),
    .scan false (keptAccounts.take 1) 1 [] false, .scan false (keptAccounts.drop 1) 2 [] false]

def scannedSample : Synced := runAll (SyncOp.run sampleEnv sampleMonero) scannedOps ⟨fresh sampleEnv, sampleTimeline⟩

instance (db : Storage) (users : List Account) : Decidable (Loaded db users) :=
  decidable_of_iff ((∀ u ∈ users, ∃ r ∈ db.accounts.rows, u = getFullAccount db r.2) ∧ (users.map (·.id)).Nodup)
    ⟨fun h => ⟨h.1, h.2⟩, fun h => ⟨h.current, h.once⟩⟩

theorem scannedSample_reached : Synced.Reached sampleEnv sampleMonero sampleTimeline scannedSample :=
  steps_runAll scannedOps _ ⟨⟨rfl, by decide⟩, ⟨rfl, by decide⟩, (by decide : Loaded _ _), (by decide : Loaded _ _), trivial⟩

end Lws.Scanner
