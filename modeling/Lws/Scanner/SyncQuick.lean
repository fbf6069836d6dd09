/-
  Lws.Scanner.SyncQuick — `sync_quick` (`src/scanner.cpp`) brings the stored chain to the
  daemon's.

  The loop sends the hashes of `get_chain_sync`, hands each reply to `sync_chain`, and
  goes on from the last hash of the reply. It ends at a reply of one hash, which an honest
  daemon gives at its tip only. That the stored blocks are then the daemon's rests on
  `Linked`: from the last checkpoint on, each stored block is the parent of the next. A
  `sync_pow` that overwrites blocks past a gap breaks it (`stale_fork_kept`).

  - `linked_run`: the operations of the storage keep `Linked`.
  - `syncQuickLoop_converges`: the loop, from the height where the two chains meet.
  - `syncQuick_converges`: the whole function, in every reached state.
-/

import Lws.BlockTree
import Lws.Db.Images
import Lws.Db.Locator
import Lws.Db.PowReorg

namespace Lws.Scanner

open Lws.Db Lws.Lmdb Lws.Transition Lws.BlockTree

/-! ## The function -/

/-- `get_hashes_fast`. -/
structure HashesReply where
  startHeight : Nat
  hashes : List Hash
  deriving DecidableEq, Repr

/-- The database, what is returned, and the height of the reorg warning, if one is sent. -/
structure QuickResult where
  db : Storage
  result : Except Error Unit
  warned : Option Nat

/-- The last hash of the reply, ten times, and the last of the known hashes. -/
def nextKnown (known hashes : List Hash) : List Hash :=
  (match hashes.getLast? with
    | none => []
    | some back => List.replicate 10 back) ++ known.getLast?.toList

/-- The loop of `sync_quick`, for `fuel` turns; `fetch n` answers the request of turn `n`. -/
def syncQuickLoop (env : Env) (regtest : Bool) (fetch : Nat → List Hash → Except Error HashesReply) :
    Nat → Nat → List Hash → Option Nat → Storage → Option QuickResult
  | 0, _, _, _, _ => none
  | fuel + 1, n, known, warned, db =>
    if known.isEmpty then some ⟨db, .error .badBlockchain, warned⟩
    else
      match fetch n known with
      | .error e => some ⟨db, .error e, warned⟩
      | .ok reply =>
        if reply.hashes.length ≤ 1 ∨ reply.hashes.getLast? = known.head? then some ⟨db, .ok (), warned⟩
        else
          match db.syncChain env reply.startHeight reply.hashes regtest with
          | .error e => some ⟨db, .error e, warned⟩
          | .ok db =>
            syncQuickLoop env regtest fetch fuel (n + 1) (nextKnown known reply.hashes)
              (some (warned.getD reply.startHeight)) db

def syncQuick (env : Env) (regtest : Bool) (fetch : Nat → List Hash → Except Error HashesReply) (fuel : Nat)
    (db : Storage) :
    Option QuickResult :=
  match db.getChainSync env with
  | .error e => some ⟨db, .error e, none⟩
  | .ok known => syncQuickLoop env regtest fetch fuel 0 known none db

/-! ## Stored blocks that follow each other -/

/-- The checkpoints are blocks of the tree, `c` is the last, and genesis is below it. -/
structure Roots (env : Env) (tree : BlockTree.Tree Hash) (c : Hash) : Prop where
  last : env.checkpoints.getLast? = some (env.maxHeight, c)
  level : tree.level c = env.maxHeight
  genesis : ∀ g, env.checkpoints.head? = some (0, g) → tree.level g = 0 ∧ tree.Through c g

/-- Stored blocks are at their heights on a chain with `c`, and linked from the last
    checkpoint on. -/
structure Linked (env : Env) (tree : BlockTree.Tree Hash) (c : Hash) (blocks : Blocks) : Prop where
  placed : ∀ b ∈ blocks, tree.level b.2.hash = b.2.id ∧ tree.Through c b.2.hash
  linked : ∀ b ∈ blocks, ∀ n ∈ blocks, env.maxHeight ≤ b.2.id → n.2.id = b.2.id + 1 → tree.parent n.2.hash = b.2.hash

/-- A batch holds consecutive blocks of a chain with `c`. The entry for genesis is not
    looked at: a scan from block 1 has another hash there. -/
def FollowsTree (tree : BlockTree.Tree Hash) (c : Hash) (height : Nat) (hashes : List Hash) : Prop :=
  tree.Segment (max 1 height) (hashes.drop (1 - height)) ∧ ∀ x ∈ hashes.drop (1 - height), tree.Through c x

instance (tree : BlockTree.Tree Hash) (c : Hash) (height : Nat) (hashes : List Hash) :
    Decidable (FollowsTree tree c height hashes) :=
  inferInstanceAs (Decidable (_ ∧ _))

/-- Where the comparison of a `sync_pow` stops at a missing block and a block is stored
    right past the end of the batch, it follows the batch. -/
def NoOverhang (env : Env) (db : Storage) (op : Op) : Prop :=
  ∀ b ∈ op.powBatch, ¬ HasBlock db.blocks (b.1 + agreed db.blocks b.1 b.2) → env.maxHeight < b.1 + b.2.length →
    HasBlock db.blocks (b.1 + b.2.length) → ∀ x ∈ b.2.getLast?, ((), ⟨b.1 + b.2.length - 1, x⟩) ∈ db.blocks

instance (env : Env) (db : Storage) (op : Op) : Decidable (NoOverhang env db op) :=
  inferInstanceAs (Decidable (∀ b ∈ op.powBatch, ¬ HasBlock db.blocks (b.1 + agreed db.blocks b.1 b.2) →
    env.maxHeight < b.1 + b.2.length →
    HasBlock db.blocks (b.1 + b.2.length) → ∀ x ∈ b.2.getLast?, ((), ⟨b.1 + b.2.length - 1, x⟩) ∈ db.blocks))

section Linked

variable {env : Env} {tree : BlockTree.Tree Hash} {c : Hash} {db db' : Storage} {height : Nat} {hashes : List Hash}

theorem FollowsTree.placed (h : FollowsTree tree c height hashes) {i : Nat} {x : Hash} (hx : hashes[i]? = some x)
    (hpos : 0 < height + i) : tree.level x = height + i ∧ tree.Through c x := by
  have hx' : (hashes.drop (1 - height))[i - (1 - height)]? = some x := by
    rw [List.getElem?_drop, show 1 - height + (i - (1 - height)) = i by omega]
    exact hx
  refine ⟨?_, h.2 x (List.mem_of_getElem? hx')⟩
  have hlevel := h.1.level hx'
  omega

theorem FollowsTree.linked (h : FollowsTree tree c height hashes) {i : Nat} {x y : Hash} (hx : hashes[i]? = some x)
    (hy : hashes[i + 1]? = some y) (hpos : 0 < height + i) : tree.parent y = x := by
  have hindex : ∀ {k : Nat} {z : Hash}, hashes[k]? = some z → 1 - height ≤ k →
      (hashes.drop (1 - height))[k - (1 - height)]? = some z := by
    intro k z hz hk
    rw [List.getElem?_drop, Nat.add_sub_cancel' hk]
    exact hz
  have hy' := hindex hy (by omega)
  rw [show i + 1 - (1 - height) = i - (1 - height) + 1 by omega] at hy'
  exact h.1.parent (hindex hx (by omega)) hy'

theorem Linked.mono {blocks blocks' : Blocks} (h : Linked env tree c blocks) (hsub : ∀ b ∈ blocks', b ∈ blocks) :
    Linked env tree c blocks' :=
  ⟨fun b hb => h.placed b (hsub b hb), fun b hb n hn => h.linked b (hsub b hb) n (hsub n hn)⟩

theorem linked_fresh (hcp : env.Checked) (hroots : Roots env tree c) : Linked env tree c (fresh env).blocks := by
  have hplaced : ∀ b ∈ (fresh env).blocks, (tree.level b.2.hash = b.2.id ∧ tree.Through c b.2.hash) ∧
      (b.2.id = 0 ∨ b.2.id = env.maxHeight) := by
    intro b hb
    rcases (mem_fresh hcp).mp hb with ⟨g, hg, he⟩ | ⟨p, hp, he⟩
    · rw [he]
      exact ⟨hroots.genesis g hg, Or.inl rfl⟩
    · cases hp.symm.trans hroots.last
      rw [he]
      refine ⟨⟨hroots.level, ?_⟩, Or.inr rfl⟩
      unfold BlockTree.Tree.Through
      rw [if_pos (Nat.le_refl _), Nat.sub_self]
      rfl
  refine ⟨fun b hb => (hplaced b hb).1, fun b hb n hn hle hid => ?_⟩
  have hb' := (hplaced b hb).2
  have hn' := (hplaced n hn).2
  omega

theorem Linked.last_id (h : Linked env tree c db.blocks) (hseg : FollowsTree tree c height hashes) {current : Nat}
    {b : Version × BlockInfo} (hb : b ∈ db.blocks) (habove : height < current)
    (hfirst : current = height + 1 → b.2.id = height) (hhash : hashes[current - 1 - height]? = some b.2.hash) :
    b.2.id = current - 1 := by
  by_cases e : current = height + 1
  · rw [hfirst e]
    omega
  · have hlevel := (hseg.placed hhash (by omega)).1
    rw [(h.placed b hb).1] at hlevel
    omega

theorem linked_extends {pow : List PowSync} {fork : Option Nat} {gap : Bool} {current : Nat} {kept : Blocks}
    (hroots : Roots env tree c) (h : Linked env tree c db.blocks) (hseg : FollowsTree tree c height hashes)
    (hext : Extends height hashes pow fork gap current kept db db')
    (hover : gap = true → ¬ HasBlock db.blocks current → env.maxHeight < height + hashes.length →
      HasBlock db.blocks (height + hashes.length) → ∀ x ∈ hashes.getLast?,
        ((), ⟨height + hashes.length - 1, x⟩) ∈ db.blocks) : Linked env tree c db'.blocks := by
  have habove := hext.above
  have hwithin := hext.within
  have hsub : ∀ b ∈ kept, b ∈ db.blocks := by
    rcases hext.cut with ⟨-, rfl⟩ | ⟨-, n, -, rfl⟩
    · exact fun b hb => hb
    · exact fun b hb => (Table.mem_filter.mp hb).1
  have hmem : ∀ r, r ∈ db'.blocks ↔ (r ∈ kept ∧ ¬ (current ≤ r.2.id ∧ r.2.id < height + hashes.length)) ∨
      (current ≤ r.2.id ∧ hashes[r.2.id - height]? = some r.2.hash) := by
    intro r
    have hmem := @mem_overwritten height hashes { db with blocks := kept } (current - height) r (by omega)
    rw [Nat.add_sub_cancel' habove.le] at hmem
    rw [hext.blocks]
    exact hmem
  obtain ⟨last, hlast, hreach, hfirst, hhash, hend⟩ := hext.last
  have hid := h.last_id hseg (hsub _ hlast) habove hfirst hhash
  refine ⟨fun b hb => ?_, fun b hb n hn hle hnext => ?_⟩
  · rcases (hmem b).mp hb with ⟨hb, -⟩ | ⟨hge, hb⟩
    · exact h.placed b (hsub b hb)
    · have hp := hseg.placed hb (by omega)
      rwa [show height + (b.2.id - height) = b.2.id by omega] at hp
  · rcases (hmem b).mp hb with ⟨hb, hout⟩ | ⟨hge, hb⟩ <;> rcases (hmem n).mp hn with ⟨hn, hnout⟩ | ⟨hnge, hn⟩
    · exact h.linked b (hsub b hb) n (hsub n hn) hle hnext
    · -- the first block appended, and the one before it
      have hlen := (List.getElem?_eq_some_iff.mp hn).1
      obtain rfl : b = last := Table.unique hb hlast (rowKey_eq.mpr ⟨rfl, by omega⟩)
      by_cases hzero : b.2.id = 0
      · -- then the last checkpoint is genesis
        obtain ⟨hblevel, hbthrough⟩ := h.placed b (hsub b hb)
        obtain ⟨hnlevel, hnthrough⟩ := hseg.placed hn (by omega)
        have hc := hroots.level
        unfold BlockTree.Tree.Through at hbthrough hnthrough
        rw [if_pos (by omega), show tree.level c - tree.level b.2.hash = 0 by omega] at hbthrough
        rw [if_neg (by omega), show tree.level n.2.hash - tree.level c = 1 by omega] at hnthrough
        exact hnthrough.trans hbthrough
      · refine hseg.linked hhash ?_ (by omega)
        rwa [show current - 1 - height + 1 = n.2.id - height by omega]
    · -- the last block appended, and one stored past it
      have hlen := (List.getElem?_eq_some_iff.mp hb).1
      have hpast : n.2.id = height + hashes.length := by omega
      rcases hend with hend | hend | ⟨hgap, hno⟩
      · have := List.drop_eq_nil_iff.mp hend
        omega
      · have := hend n hn
        omega
      · have hmiss : ¬ HasBlock db.blocks current := by
          rcases hext.cut with ⟨-, rfl⟩ | ⟨-, m, hm, rfl⟩
          · exact hno
          · intro ⟨x, hx, hxid⟩
            have hlt := of_decide_eq_true (Table.mem_filter.mp hn).2
            exact hno ⟨x, Table.mem_filter.mpr ⟨hx, decide_eq_true (by show x.id < m; omega)⟩, hxid⟩
        have hgetLast : hashes.getLast? = some b.2.hash := by
          rw [List.getLast?_eq_getElem?, show hashes.length - 1 = b.2.id - height by omega]
          exact hb
        have hstored := hover hgap hmiss (by omega) ⟨n.2, hsub n hn, hpast⟩ _ hgetLast
        have hlink := h.linked _ hstored n (hsub n hn) (by dsimp only; omega) (by dsimp only; omega)
        exact hlink
    · refine hseg.linked hb ?_ (by omega)
      rwa [show b.2.id - height + 1 = n.2.id - height by omega]

end Linked

/-! ## Runs that keep the blocks linked -/

/-- Batches of one tree; a `sync_pow` leaves no stale block past its end, and a rollback
    leaves genesis. -/
structure StaysLinked (env : Env) (tree : BlockTree.Tree Hash) (c : Hash) (db : Storage) (op : Op) : Prop where
  follows : ∀ s ∈ op.segment, FollowsTree tree c s.1 s.2
  overhang : NoOverhang env db op
  rolls : ∀ height ∈ op.rollsTo, 0 < height

instance (env : Env) (tree : BlockTree.Tree Hash) (c : Hash) (db : Storage) (op : Op) :
    Decidable (StaysLinked env tree c db op) :=
  decidable_of_iff ((∀ s ∈ op.segment, FollowsTree tree c s.1 s.2) ∧ NoOverhang env db op ∧ ∀ height ∈ op.rollsTo, 0 < height)
    ⟨fun h => ⟨h.1, h.2.1, h.2.2⟩, fun h => ⟨h.follows, h.overhang, h.rolls⟩⟩

/-- What is asked of the operations of a run. -/
def QuickOk (env : Env) (tree : BlockTree.Tree Hash) (c : Hash) (t : Trace) (op : Op) : Prop :=
  ImagesOk t op ∧ StaysLinked env tree c t.db op

instance (env : Env) (tree : BlockTree.Tree Hash) (c : Hash) (t : Trace) (op : Op) :
    Decidable (QuickOk env tree c t op) :=
  inferInstanceAs (Decidable (_ ∧ _))

section Runs

variable {env : Env} {tree : BlockTree.Tree Hash} {c : Hash} {db db' : Storage} {t : Trace}

theorem linked_run {op : Op} (hroots : Roots env tree c) (h : Linked env tree c db.blocks)
    (hok : StaysLinked env tree c db op) (hrun : op.run env db = .ok db') : Linked env tree c db'.blocks := by
  cases run_chainStep hrun with
  | kept hb hp => rwa [hb]
  | rolled hrolls hfork hb hp =>
    rw [hb]
    exact h.mono fun b hb => (Table.mem_filter.mp hb).1
  | extended hseg hbatch hext =>
    refine linked_extends hroots h (hok.follows _ hseg) hext fun hgap => ?_
    obtain ⟨hpow, rfl⟩ := hbatch hgap
    exact hok.overhang _ hpow

theorem stays_reached (h : Traced env (QuickOk env tree c) t) : Reached env (StaysLinked env tree c) t.db :=
  h.reached fun _ _ hok => hok.2

theorem linked_reached (hcp : env.Checked) (hroots : Roots env tree c) (h : Reached env (StaysLinked env tree c) db) :
    Linked env tree c db.blocks :=
  h.invariant (fun db => Linked env tree c db.blocks) (linked_fresh hcp hroots)
    fun _ _ _ hu hok hrun => linked_run hroots hu hok hrun

/-! ## `sync_chain` succeeds -/

theorem rewound_count {height : Nat} (h : Rewound height db db') :
    db'.accounts.rows.length ≤ db.accounts.rows.length := by
  have hk := Table.length_le_of_keys (t := db.accounts) db'.accounts.keys_nodup fun x hx => ?_
  · simpa using hk
  · obtain ⟨⟨st, a'⟩, ha', rfl⟩ := List.mem_map.mp hx
    obtain ⟨a, ha, rfl⟩ := (h.accounts st a').mp ha'
    refine ⟨(st, a), ha, rowKey_eq.mpr ⟨rfl, ?_⟩⟩
    show a.id = Db.Account.id (if _ then _ else _)
    split <;> rfl

theorem syncChain_count {height : Nat} {hashes : List Hash} {regtest : Bool}
    (h : db.syncChain env height hashes regtest = .ok db') : db'.accounts.rows.length ≤ db.accounts.rows.length := by
  rcases syncChain_cases h with ⟨-, blocks, rfl⟩ | ⟨current, mid, blocks, -, hrw, rfl⟩
  · exact Nat.le_refl _
  · show mid.accounts.rows.length ≤ db.accounts.rows.length
    exact rewound_count hrw

/-- The comparison starts at the last checkpoint or above, or at the last block. -/
def StartsHigh (env : Env) (height : Nat) (blocks : Blocks) : Prop :=
  env.maxHeight ≤ height ∨ ∀ b ∈ blocks, b.2.id ≤ height

theorem StartsHigh.contiguous {height : Nat} (h : StartsHigh env height db.blocks) (hrooted : Rooted env db) :
    Contiguous height db.blocks := by
  intro b hb hlt
  rcases h with h | h
  · exact hrooted.contiguous b hb (by omega)
  · have := h b hb
    omega

theorem syncChainLoop_succeeds {regtest : Bool} {height : Nat} (hagree : db.Agree env) (himg : Imaged db)
    (hc : Contiguous height db.blocks) (hhigh : StartsHigh env height db.blocks) : ∀ (chain : List Hash)
    {cur : Cursor Version BlockInfo.id} {current : Nat} {b : Version × BlockInfo}, cur.table = db.blocks →
      cur.gone = none → cur.row? = some b → height ≤ b.2.id → b.2.id + 1 = current →
      ∃ out, syncChainLoop env regtest db cur current chain = .ok out := by
  intro chain
  induction chain with
  | nil =>
    intro cur current b _ _ _ _ _
    exact ⟨_, rfl⟩
  | cons hash chain ih =>
    intro cur current b ht hg hr hb hcur
    unfold syncChainLoop
    rcases nextDup_block hc ht hg hr hb with ⟨hnone, -⟩ | ⟨cur', n, hsome, ht', hg', hr', hn, hid⟩
    · rw [hnone]
      exact ⟨_, rfl⟩
    · simp only [hsome, hr']
      by_cases hne : n.2.hash ≠ hash
      · -- a block below the last checkpoint has nothing above it
        have hmax : env.maxHeight < current := by
          rcases hhigh with h | h
          · omega
          · have := h n hn
            omega
        obtain ⟨db', hrb⟩ := rollbackChain_succeeds hagree himg hg' hr' current
        rw [if_pos hne, if_neg (by simp; omega), hrb]
        exact ⟨_, rfl⟩
      · rw [if_neg hne]
        exact ih ht' hg' hr' (by omega) (by omega)

theorem syncChain_succeeds {regtest : Bool} {height : Nat} {first : Hash} {chain : List Hash} (hagree : db.Agree env)
    (himg : Imaged db) (hc : Contiguous height db.blocks) (hhigh : StartsHigh env height db.blocks)
    (hfirst : ((), ⟨height, first⟩) ∈ db.blocks) : ∃ db', db.syncChain env height (first :: chain) regtest = .ok db' := by
  have hhash : getBlockHash db.blocks height = .ok first := by
    unfold getBlockHash
    rw [require_ok.mpr ⟨hfirst, rfl⟩]
    rfl
  rcases hboth : db.blocks.getBoth () height with _ | cur
  · have hnone := getBoth_none hboth
    rw [Table.get?_eq_some.mpr ⟨hfirst, rfl⟩] at hnone
    cases hnone
  · obtain ⟨ht, hg, v, hrow, -, hid⟩ := getBoth_some hboth
    obtain ⟨⟨mid, current, rest⟩, hloop⟩ := @syncChainLoop_succeeds env db regtest height hagree himg hc hhigh chain
      cur (height + 1) ((), v) ht hg hrow (by rw [← hid]) (by rw [← hid])
    unfold Storage.syncChain
    simp only [hhash, hboth, hloop, bind, Except.bind, ne_eq, not_true_eq_false, if_false]
    exact ⟨_, rfl⟩

/-- After `sync_chain` every hash given is stored; what else is stored was stored before,
    and if something was dropped then nothing is left past the hashes. -/
theorem syncChain_stores {height : Nat} {hashes : List Hash} {regtest : Bool} (hc : Contiguous height db.blocks)
    (h : db.syncChain env height hashes regtest = .ok db') :
    (∀ i x, hashes[i]? = some x → ((), ⟨height + i, x⟩) ∈ db'.blocks) ∧
      (∀ b ∈ db'.blocks, b ∈ db.blocks ∨ b.2.id < height + hashes.length) ∧
      ((∀ b ∈ db.blocks, b ∈ db'.blocks) ∨ ∀ b ∈ db'.blocks, b.2.id < height + hashes.length) := by
  obtain ⟨j, mid, hsame, rfl, hend⟩ := syncChain_ok hc h
  have hnew : ∀ {b : Version × BlockInfo}, (∃ i, j ≤ i ∧ b.2.id = height + i ∧ hashes[i]? = some b.2.hash) →
      b.2.id < height + hashes.length := by
    intro b ⟨i, _, hid, hx⟩
    have := (List.getElem?_eq_some_iff.mp hx).1
    omega
  rcases hend with ⟨rfl, hend⟩ | ⟨y, stored, hy, -, -, -, hrw, hblocks⟩
  · refine ⟨fun i x hx => (mem_synced hend).mpr ?_, fun b hb => ?_, Or.inl fun b hb => (mem_synced hend).mpr (Or.inl hb)⟩
    · by_cases e : i < j
      · obtain ⟨y, hy, hm⟩ := hsame i e
        rw [hx] at hy
        exact Or.inl (Option.some.inj hy ▸ hm)
      · exact Or.inr ⟨i, by omega, rfl, hx⟩
    · exact ((mem_synced hend).mp hb).imp id hnew
  · have hlen := (List.getElem?_eq_some_iff.mp hy).1
    have hlow : ∀ b ∈ mid.blocks, b ∈ db.blocks ∧ b.2.id < height + j := by
      intro b hb
      rw [hblocks] at hb
      obtain ⟨hb, hlt⟩ := Table.mem_filter.mp hb
      exact ⟨hb, of_decide_eq_true hlt⟩
    have hmem := fun r => @mem_synced height hashes mid j (Or.inr fun b hb => (hlow b hb).2) r
    refine ⟨fun i x hx => (hmem _).mpr ?_, fun b hb => ((hmem b).mp hb).imp (fun hb => (hlow b hb).1) hnew,
      Or.inr fun b hb => ?_⟩
    · by_cases e : i < j
      · obtain ⟨z, hz, hm⟩ := hsame i e
        rw [hx] at hz
        refine Or.inl ?_
        rw [hblocks]
        exact Table.mem_filter.mpr ⟨Option.some.inj hz ▸ hm, decide_eq_true (by show height + i < height + j; omega)⟩
      · exact Or.inr ⟨i, by omega, rfl, hx⟩
    · rcases (hmem b).mp hb with hb | hb
      · have := (hlow b hb).2
        omega
      · exact hnew hb

end Runs

/-! ## The daemon -/

/-- The hashes of a daemon's blocks from genesis on: a chain that holds the last checkpoint. -/
structure DaemonChain (env : Env) (tree : BlockTree.Tree Hash) (c : Hash) (chain : List Hash) : Prop where
  segment : tree.Segment 0 chain
  checkpoint : chain[env.maxHeight]? = some c

/-- A reply starts at the first of the known hashes that is on the chain and lists two or
    more hashes, or one at the tip. -/
def Fetches (chain : List Hash) (fetch : Nat → List Hash → Except Error HashesReply) : Prop :=
  ∀ n known x, known.find? (fun h => decide (h ∈ chain)) = some x → ∃ s k, chain[s]? = some x ∧
    fetch n known = .ok ⟨s, (chain.drop s).take (k + 1)⟩ ∧
    ((1 ≤ k ∧ s + k < chain.length) ∨ (k = 0 ∧ s + 1 = chain.length))

/-- Blocks are stored past the end of the chain, and the others are its blocks. -/
def ProperPrefix (chain : List Hash) (blocks : Blocks) : Prop :=
  (∃ b ∈ blocks, chain.length ≤ b.2.id) ∧ ∀ b ∈ blocks, b.2.id < chain.length → chain[b.2.id]? = some b.2.hash

/-- From the last checkpoint on, the stored blocks are those of the chain. -/
def HoldsChain (env : Env) (chain : List Hash) (blocks : Blocks) : Prop :=
  ∀ height, env.maxHeight ≤ height → ∀ x, ((), ⟨height, x⟩) ∈ blocks ↔ chain[height]? = some x

section Daemon

variable {env : Env} {tree : BlockTree.Tree Hash} {c : Hash} {chain : List Hash} {db : Storage} {blocks : Blocks}

theorem Linked.agrees (h : Linked env tree c blocks) (hc : Contiguous env.maxHeight blocks)
    (hseg : tree.Segment 0 chain) :
    ∀ (n : Nat) {height : Nat} {x y : Hash}, env.maxHeight ≤ height → ((), ⟨height, x⟩) ∈ blocks →
      chain[height + n]? = some y → ((), ⟨height + n, y⟩) ∈ blocks → chain[height]? = some x := by
  intro n
  induction n with
  | zero =>
    intro height x y _ hx hy hstored
    cases Table.unique_val hx hstored rfl
    exact hy
  | succ n ih =>
    intro height x y hmax hx hy hstored
    obtain ⟨b, hb, hid⟩ :=
      contiguous_stored hc ⟨_, hstored, rfl⟩ (show env.maxHeight ≤ height + 1 by omega) (by dsimp only; omega)
    rw [show height + (n + 1) = height + 1 + n by omega] at hy hstored
    have hnext := @ih (height + 1) b.hash y (by omega) (by rw [← hid]; exact hb) hy hstored
    have hlen := (List.getElem?_eq_some_iff.mp hnext).1
    have hget := List.getElem?_eq_getElem (show height < chain.length by omega)
    rw [hget, ← hseg.parent hget hnext]
    exact congrArg some (h.linked _ hx _ hb hmax hid)

/-- A stored block at or below the tip of the daemon, if that is stored. -/
theorem Linked.on_chain (h : Linked env tree c blocks) (hc : Contiguous env.maxHeight blocks)
    (hroots : Roots env tree c)
    (hchain : DaemonChain env tree c chain) {tip : Hash} (htip : chain[chain.length - 1]? = some tip)
    (hstored : ((), ⟨chain.length - 1, tip⟩) ∈ blocks) {b : Version × BlockInfo} (hb : b ∈ blocks)
    (hlt : b.2.id < chain.length) : chain[b.2.id]? = some b.2.hash := by
  by_cases hle : env.maxHeight ≤ b.2.id
  · have hup : b.2.id + (chain.length - 1 - b.2.id) = chain.length - 1 := by omega
    exact h.agrees hc hchain.segment (chain.length - 1 - b.2.id) hle hb (by rw [hup]; exact htip) (by rw [hup]; exact hstored)
  · obtain ⟨hlevel, hthrough⟩ := h.placed b hb
    have hholds := hchain.segment.holds (List.mem_of_getElem? hchain.checkpoint) hthrough
      (by rw [hlevel, hroots.level]; omega)
    rwa [hlevel] at hholds

/-- At the tip of a daemon that is not behind, the two chains are the same. -/
theorem holds_at_tip (h : Linked env tree c db.blocks) (hrooted : Rooted env db) (hroots : Roots env tree c)
    (hchain : DaemonChain env tree c chain) (hnot : ¬ ProperPrefix chain db.blocks) {tip : Hash}
    (htip : chain[chain.length - 1]? = some tip) (hstored : ((), ⟨chain.length - 1, tip⟩) ∈ db.blocks) :
    HoldsChain env chain db.blocks := by
  have hon := fun {b : Version × BlockInfo} =>
    @Linked.on_chain env tree c chain db.blocks h hrooted.contiguous hroots hchain tip htip hstored b
  intro height hmax x
  refine ⟨fun hx => ?_, fun hx => ?_⟩
  · by_cases e : height < chain.length
    · exact hon hx e
    · exact absurd ⟨⟨_, hx, Nat.le_of_not_lt e⟩, fun b hb hlt => hon hb hlt⟩ hnot
  · have hlen := (List.getElem?_eq_some_iff.mp hx).1
    obtain ⟨b, hb, rfl⟩ := contiguous_stored hrooted.contiguous ⟨_, hstored, rfl⟩ hmax (by dsimp only; omega)
    cases (hon hb hlen).symm.trans hx
    exact hb

/-! ## The loop -/

/-- The first known hash of the daemon's is that of the stored block `s`, from where
    `sync_chain` succeeds. -/
structure Meets (env : Env) (tree : BlockTree.Tree Hash) (c : Hash) (chain : List Hash) (s : Nat) (known : List Hash)
    (t : Trace) :
    Prop where
  traced : Traced env (QuickOk env tree c) t
  count : t.db.accounts.rows.length < 2 ^ 32 - 2
  inside : s < chain.length
  found : known.find? (fun h => decide (h ∈ chain)) = chain[s]?
  stored : ∀ x ∈ chain[s]?, ((), ⟨s, x⟩) ∈ t.db.blocks
  high : StartsHigh env s t.db.blocks
  longer : ¬ ProperPrefix chain t.db.blocks

theorem rooted_traced {t : Trace} (hcp : env.Checked) (h : Traced env (QuickOk env tree c) t) : Rooted env t.db :=
  rooted_reached hcp (fun _ _ hok => hok.rolls) (stays_reached h)

theorem reply_ok (hchain : DaemonChain env tree c chain) (t : Trace) (s k : Nat) (regtest : Bool) :
    QuickOk env tree c t (.syncChain s ((chain.drop s).take (k + 1)) regtest) := by
  refine ⟨⟨fun b hb => (by cases hb), fun b hb => (by cases hb), fun b hb => (by cases hb)⟩, fun b hb => ?_,
    fun b hb => (by cases hb), fun height hh => (by cases hh)⟩
  cases hb
  have hseg := ((hchain.segment.drop s).take (k + 1)).drop (1 - s)
  rw [show 0 + s + (1 - s) = max 1 s by omega] at hseg
  refine ⟨hseg, fun x hx => hchain.segment.through (List.mem_of_getElem? hchain.checkpoint) ?_⟩
  exact List.mem_of_mem_drop (List.mem_of_mem_take (List.mem_of_mem_drop hx))

theorem getElem?_reply {s k i : Nat} (hi : i ≤ k) : ((chain.drop s).take (k + 1))[i]? = chain[s + i]? := by
  rw [List.getElem?_take, if_pos (by omega), List.getElem?_drop]

theorem length_reply {s k : Nat} (hk : s + k < chain.length) : ((chain.drop s).take (k + 1)).length = k + 1 := by
  rw [List.length_take, List.length_drop]
  omega

theorem getLast?_reply {s k : Nat} (hk : s + k < chain.length) :
    ((chain.drop s).take (k + 1)).getLast? = chain[s + k]? := by
  rw [List.getLast?_eq_getElem?, length_reply hk, Nat.add_sub_cancel, getElem?_reply (Nat.le_refl _)]

theorem front_ne (hseg : tree.Segment 0 chain) {s k : Nat} {known : List Hash} (hk : 1 ≤ k) (hlt : s + k < chain.length)
    (hfound : known.find? (fun h => decide (h ∈ chain)) = chain[s]?) : chain[s + k]? ≠ known.head? := by
  intro he
  have hget := List.getElem?_eq_getElem hlt
  rw [hget] at he
  cases known with
  | nil => cases he
  | cons y rest =>
    obtain rfl : chain[s + k] = y := Option.some.inj he
    have hhead : (chain[s + k] :: rest).find? (fun h => decide (h ∈ chain)) = some chain[s + k] :=
      List.find?_cons_of_pos (decide_eq_true (List.getElem_mem hlt))
    have h1 := hseg.level hget
    have h2 := hseg.level (hfound.symm.trans hhead)
    omega

theorem find?_nextKnown {hashes known : List Hash} {x : Hash} (hlast : hashes.getLast? = some x) (hx : x ∈ chain) :
    (nextKnown known hashes).find? (fun h => decide (h ∈ chain)) = some x := by
  unfold nextKnown
  rw [hlast]
  exact List.find?_cons_of_pos (decide_eq_true hx)

theorem Meets.step {t : Trace} {s k : Nat} {known : List Hash} {db' : Storage} {regtest : Bool} (hcp : env.Checked)
    (hchain : DaemonChain env tree c chain) (h : Meets env tree c chain s known t) (hlt : s + k < chain.length)
    (hsync : t.db.syncChain env s ((chain.drop s).take (k + 1)) regtest = .ok db') :
    ∃ seen, Meets env tree c chain (s + k) (nextKnown known ((chain.drop s).take (k + 1))) ⟨db', seen⟩ := by
  have hget := List.getElem?_eq_getElem hlt
  have hlen := length_reply hlt
  obtain ⟨hstores, hold, hdrop⟩ := syncChain_stores (h.high.contiguous (rooted_traced hcp h.traced)) hsync
  refine ⟨_, h.traced.snoc (.syncChain s ((chain.drop s).take (k + 1)) regtest) (reply_ok hchain t s k regtest)
    (bind_ok.mpr ⟨db', hsync, rfl⟩), ?_, hlt, ?_, ?_, ?_, ?_⟩
  · exact (syncChain_count hsync).trans_lt h.count
  · rw [hget]
    exact find?_nextKnown ((getLast?_reply hlt).trans hget) (List.getElem_mem hlt)
  · intro x hx
    exact hstores k x ((getElem?_reply (Nat.le_refl _)).trans hx)
  · refine h.high.imp (fun hmax => by omega) fun htop b hb => ?_
    rcases hold b hb with hb | hb
    · have := htop b hb
      omega
    · omega
  · intro ⟨⟨b, hb, hpast⟩, hon⟩
    rcases hdrop with hkeep | hcut
    · refine h.longer ⟨⟨b, ?_, hpast⟩, fun x hx => hon x (hkeep x hx)⟩
      refine (hold b hb).resolve_right fun hlow => ?_
      omega
    · have := hcut b hb
      omega

theorem syncQuickLoop_converges {fetch : Nat → List Hash → Except Error HashesReply} {regtest : Bool}
    (hcp : env.Checked)
    (hroots : Roots env tree c) (hchain : DaemonChain env tree c chain) (hfetch : Fetches chain fetch) :
    ∀ (fuel : Nat) {s n : Nat} {known : List Hash} {warned : Option Nat} {t : Trace}, chain.length ≤ s + fuel →
      Meets env tree c chain s known t → ∃ r, syncQuickLoop env regtest fetch fuel n known warned t.db = some r ∧
        r.result = .ok () ∧ HoldsChain env chain r.db.blocks := by
  intro fuel
  induction fuel with
  | zero =>
    intro s n known warned t hfuel h
    have := h.inside
    omega
  | succ fuel ih =>
    intro s n known warned t hfuel h
    have hget := List.getElem?_eq_getElem h.inside
    have hfound := h.found.trans hget
    obtain ⟨s', k, hs', hreply, hsize⟩ := hfetch n known _ hfound
    obtain rfl : s' = s := by
      have h1 := hchain.segment.level hs'
      have h2 := hchain.segment.level hget
      omega
    have hrooted := rooted_traced hcp h.traced
    have hlinked := linked_reached hcp hroots (stays_reached h.traced)
    have hne : known.isEmpty = false := by
      cases known with
      | nil => cases hfound
      | cons => rfl
    unfold syncQuickLoop
    simp only [hne, Bool.false_eq_true, if_false, hreply]
    rcases hsize with ⟨hk, hlt⟩ | ⟨rfl, hend⟩
    · have hnot : ¬ (((chain.drop s').take (k + 1)).length ≤ 1 ∨
          ((chain.drop s').take (k + 1)).getLast? = known.head?) := by
        rw [length_reply hlt, getLast?_reply hlt, not_or]
        exact ⟨by omega, front_ne hchain.segment hk hlt h.found⟩
      have hagree := agree_reached (stays_reached h.traced) h.count
      have hp := projected_traced (h.traced.mono fun _ _ hok => hok.1) h.count
      have hsucc : ∃ db', t.db.syncChain env s' ((chain.drop s').take (k + 1)) regtest = .ok db' := by
        rw [List.drop_eq_getElem_cons h.inside, List.take_succ_cons]
        exact syncChain_succeeds hagree ⟨hp.rows, fun r hr q hq => hp.alone hr hq⟩ (h.high.contiguous hrooted) h.high
          (h.stored _ hget)
      obtain ⟨db', hsync⟩ := hsucc
      obtain ⟨seen, hnext⟩ := h.step hcp hchain hlt hsync
      simp only [if_neg hnot, hsync]
      exact ih (by omega) hnext
    · refine ⟨⟨t.db, .ok (), warned⟩, if_pos (Or.inl ?_), rfl, ?_⟩
      · rw [length_reply (by omega)]
      · have htip : s' = chain.length - 1 := by omega
        refine @holds_at_tip env tree c chain t.db hlinked hrooted hroots hchain h.longer chain[s'] ?_ ?_
        · rw [← htip]
          exact hget
        · rw [← htip]
          exact h.stored _ hget

/-- The hash of a locator that a daemon finds first is of a block at least as high as any
    other on its chain. -/
theorem first_found {out : List BlockInfo} (hdesc : out.Pairwise fun a b => b.id < a.id) {b : BlockInfo}
    (hb : b ∈ out) (hon : b.hash ∈ chain) : ∃ a ∈ out, a.hash ∈ chain ∧ (∀ x ∈ out, x.hash ∈ chain → x.id ≤ a.id) ∧
      (out.map (·.hash)).find? (fun h => decide (h ∈ chain)) = some a.hash := by
  have hsome : (out.find? fun b => decide (b.hash ∈ chain)).isSome = true :=
    List.find?_isSome.mpr ⟨b, hb, decide_eq_true hon⟩
  obtain ⟨a, ha⟩ := Option.isSome_iff_exists.mp hsome
  obtain ⟨hchain, front, back, rfl, hfront⟩ := List.find?_eq_some_iff_append.mp ha
  refine ⟨a, by simp, of_decide_eq_true hchain, fun x hx hxon => ?_, ?_⟩
  · rcases List.mem_append.mp hx with hx | hx
    · have := hfront x hx
      simp [hxon] at this
    · rcases List.mem_cons.mp hx with rfl | hx
      · exact Nat.le_refl _
      · exact ((List.pairwise_cons.mp (List.pairwise_append.mp hdesc).2.1).1 x hx).le
  · rw [List.find?_map]
    exact congrArg (Option.map BlockInfo.hash) ha

theorem getChainSync_meets {t : Trace} (hcp : env.Checked) (hroots : Roots env tree c)
    (h : Traced env (QuickOk env tree c) t) (hcount : t.db.accounts.rows.length < 2 ^ 32 - 2)
    (hlow : ∀ b ∈ t.db.blocks, b.2.id < 2 ^ 64 - 2 ^ 31) (hchain : DaemonChain env tree c chain)
    (hnot : ¬ ProperPrefix chain t.db.blocks) :
    ∃ s known, t.db.getChainSync env = .ok known ∧ Meets env tree c chain s known t := by
  have hrooted := rooted_traced hcp h
  have hlinked := linked_reached hcp hroots (stays_reached h)
  obtain ⟨tip, out, -, hmax, hblocks, hloc, hcheck⟩ := getBlocks_ok hcp hrooted hlow
  -- the tip or the last checkpoint is at or below the checkpoint, and so on the chain
  obtain ⟨p, hp, hple, hphigh⟩ : ∃ p ∈ out, p.id ≤ env.maxHeight ∧ (env.maxHeight ≤ p.id ∨ p.id = tip) := by
    by_cases e : env.maxHeight ≤ tip
    · obtain ⟨p, hp, hid⟩ := hcheck e
      exact ⟨p, hp, hid.le, Or.inl hid.ge⟩
    · obtain ⟨p, hp, hid⟩ := Option.map_eq_some_iff.mp hloc.first
      exact ⟨p, List.mem_of_mem_head? hp, by omega, Or.inr hid⟩
  have hpon : p.hash ∈ chain := by
    obtain ⟨hlevel, hthrough⟩ := hlinked.placed _ (hloc.stored p hp)
    dsimp only at hlevel hthrough
    refine List.mem_of_getElem? (hchain.segment.holds (List.mem_of_getElem? hchain.checkpoint) hthrough ?_)
    rw [hlevel, hroots.level]
    exact hple
  obtain ⟨a, ha, haon, htop, hfind⟩ := first_found hloc.descending hp hpon
  have hlevel : tree.level a.hash = a.id := (hlinked.placed _ (hloc.stored a ha)).1
  have hget : chain[a.id]? = some a.hash := by
    rw [← hlevel]
    exact hchain.segment.getElem?_level haon
  refine ⟨a.id, out.map (·.hash), ?_, h, hcount, (List.getElem?_eq_some_iff.mp hget).1, hfind.trans hget.symm, ?_, ?_, hnot⟩
  · unfold Storage.getChainSync
    rw [hblocks]
    rfl
  · intro x hx
    cases hget.symm.trans hx
    exact hloc.stored a ha
  · have hle := htop p hp hpon
    rcases hphigh with hphigh | hphigh
    · exact Or.inl (by omega)
    · refine Or.inr fun b hb => ?_
      have := hmax b hb
      omega

/-- `sync_quick` ends without an error, and then the stored blocks from the last checkpoint
    on are the daemon's chain. -/
theorem syncQuick_converges {fetch : Nat → List Hash → Except Error HashesReply} {regtest : Bool} {t : Trace}
    (hcp : env.Checked) (hroots : Roots env tree c) (h : Traced env (QuickOk env tree c) t)
    (hcount : t.db.accounts.rows.length < 2 ^ 32 - 2) (hlow : ∀ b ∈ t.db.blocks, b.2.id < 2 ^ 64 - 2 ^ 31)
    (hchain : DaemonChain env tree c chain) (hnot : ¬ ProperPrefix chain t.db.blocks) (hfetch : Fetches chain fetch) :
    ∀ fuel, chain.length ≤ fuel → ∃ r, syncQuick env regtest fetch fuel t.db = some r ∧ r.result = .ok () ∧
      HoldsChain env chain r.db.blocks := by
  intro fuel hfuel
  obtain ⟨s, known, hknown, hmeets⟩ := getChainSync_meets hcp hroots h hcount hlow hchain hnot
  unfold syncQuick
  rw [hknown]
  exact syncQuickLoop_converges hcp hroots hchain hfetch fuel (by omega) hmeets

end Daemon

/-! ## A daemon, and two runs -/

/-- Answers with `size + 2` hashes, or as many as there are. -/
def honestFetch (chain : List Hash) (size : Nat) (_ : Nat) (known : List Hash) : Except Error HashesReply :=
  match known.find? fun h => decide (h ∈ chain) with
  | none => .error .badBlockchain
  | some x => .ok ⟨chain.idxOf x, (chain.drop (chain.idxOf x)).take (min (size + 1) (chain.length - 1 - chain.idxOf x) + 1)⟩

theorem honestFetch_fetches (chain : List Hash) (size : Nat) : Fetches chain (honestFetch chain size) := by
  intro n known x hx
  have hmem : x ∈ chain := by simpa using List.find?_some hx
  have hlt := List.idxOf_lt_length_of_mem hmem
  refine ⟨chain.idxOf x, min (size + 1) (chain.length - 1 - chain.idxOf x), ?_, ?_, by omega⟩
  · rw [List.getElem?_eq_getElem hlt, List.getElem_idxOf hlt]
  · unfold honestFetch
    rw [hx]

/-- Blocks 100, 101, … and, after 102, a fork 203, 204, …. -/
def forkTree : BlockTree.Tree Hash where
  level x := if x < 200 then x - 100 else x - 200
  parent x := if x = 203 then 102 else x - 1

theorem forkTree_roots : Roots checkpointEnv forkTree 102 := by
  refine ⟨rfl, rfl, fun g hg => ?_⟩
  cases hg
  decide

theorem checkpointEnv_checked : checkpointEnv.Checked := ⟨⟨100, rfl⟩, by decide⟩

/-- The daemon went from the fork back to the blocks 103 to 105. -/
theorem syncQuick_converges_fork : ∃ r,
    syncQuick checkpointEnv false (honestFetch [100, 101, 102, 103, 104, 105] 0) 6 (Op.traces checkpointEnv rootedOps).db =
      some r ∧ r.result = .ok () ∧ HoldsChain checkpointEnv [100, 101, 102, 103, 104, 105] r.db.blocks := by
  refine syncQuick_converges checkpointEnv_checked forkTree_roots (traced_traces (by decide)) (by decide) (by decide)
    ⟨by decide, rfl⟩ ?_ (honestFetch_fetches _ 0) 6 (by decide)
  intro ⟨⟨b, hb, hlen⟩, _⟩
  revert b
  decide

/-- Blocks 103 to 105 are stored before the proofs of work of another block 3 come in. -/
def staleOps : List Op :=
  [.syncChain 2 [102, 103, 104, 105] false, .syncPow 0 [100, 101, 102, 203] (samplePow 4)]

/-- Block 203 replaces block 103 below 104 and 105, `sync_quick` ends at once at the common
    tip, and it stays. -/
theorem stale_fork_kept :
    Traced checkpointEnv (fun t op => ImagesOk t op ∧ (∀ s ∈ op.segment, FollowsTree forkTree 102 s.1 s.2) ∧
        ∀ height ∈ op.rollsTo, 0 < height) (Op.traces checkpointEnv staleOps) ∧
      DaemonChain checkpointEnv forkTree 102 [100, 101, 102, 103, 104, 105] ∧
      ¬ ProperPrefix [100, 101, 102, 103, 104, 105] (Op.traces checkpointEnv staleOps).db.blocks ∧
      Fetches [100, 101, 102, 103, 104, 105] (honestFetch [100, 101, 102, 103, 104, 105] 0) ∧
      ¬ ∃ r, syncQuick checkpointEnv false (honestFetch [100, 101, 102, 103, 104, 105] 0) 6
          (Op.traces checkpointEnv staleOps).db = some r ∧ r.result = .ok () ∧
        HoldsChain checkpointEnv [100, 101, 102, 103, 104, 105] r.db.blocks := by
  refine ⟨traced_traces (by decide), ⟨by decide, rfl⟩, ?_, honestFetch_fetches _ 0, ?_⟩
  · intro ⟨⟨b, hb, hlen⟩, _⟩
    revert b
    decide
  · intro ⟨r, hr, _, hholds⟩
    have hstale : (syncQuick checkpointEnv false (honestFetch [100, 101, 102, 103, 104, 105] 0) 6
        (Op.traces checkpointEnv staleOps).db).map (fun r => r.db.blocks.get? () 3) = some (some ⟨3, 203⟩) := by decide
    rw [hr] at hstale
    have hthree := (hholds 3 (by decide) 103).mpr rfl
    rw [Option.map_some, Table.get?_eq_some.mpr ⟨hthree, rfl⟩] at hstale
    revert hstale
    decide

end Lws.Scanner
