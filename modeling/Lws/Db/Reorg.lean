/-
  Lws.Db.Reorg — `sync_chain` handles a reorg exactly, up to the proofs of work.

  `ExactSync` says what a successful `sync_chain` should leave. The stored blocks, the
  accounts and what they own are as it says; the rows of `pows` are deleted only when
  there is a row at the fork point itself (`rolledBackPows`), so `syncChain_exact` has a
  condition, and `reorg_keeps_pow` is a database where it fails.
-/

import Lws.Db.Records

namespace Lws.Db

open Lws.Lmdb Lws.Transition

/-- `hashes`, placed from `height` on, first differs from the stored blocks at `fork`. -/
structure Disagrees (blocks : Blocks) (height : Nat) (hashes : List Hash) (fork : Nat) : Prop where
  above : height ≤ fork
  below : ∀ b ∈ blocks, height ≤ b.2.id → b.2.id < fork → hashes[b.2.id - height]? = some b.2.hash
  differs : ∃ b ∈ blocks, b.2.id = fork ∧ ∃ h, hashes[fork - height]? = some h ∧ b.2.hash ≠ h

theorem Disagrees.unique {blocks : Blocks} {height : Nat} {hashes : List Hash} {m n : Nat}
    (hm : Disagrees blocks height hashes m) (hn : Disagrees blocks height hashes n) : m = n := by
  have key : ∀ {m n : Nat}, Disagrees blocks height hashes m → Disagrees blocks height hashes n → ¬ m < n := by
    intro m n hm hn hlt
    obtain ⟨b, hb, rfl, h, hh, hne⟩ := hm.differs
    have := hn.below b hb hm.above hlt
    rw [hh] at this
    exact hne (Option.some.inj this).symm
  have h1 := key hm hn
  have h2 := key hn hm
  omega

/-- Nothing of the old fork is left at or above `fork`, and everything below is. -/
structure ForkedAt (env : Env) (height : Nat) (hashes : List Hash) (fork : Nat) (db db' : Storage) : Prop where
  checkpoint : env.maxHeight < fork
  blocks : ∀ r ∈ db'.blocks, fork ≤ r.2.id → hashes[r.2.id - height]? = some r.2.hash
  pows : ∀ r ∈ db'.pows, r.2.id < fork
  events : ∀ r ∈ db'.events, r.2.link.tx.height < fork
  outputs : ∀ r ∈ db'.outputs, r.2.link.height < fork
  spends : ∀ r ∈ db'.spends, r.2.link.height < fork
  images : ∀ r ∈ db'.images, r.2.link.height < fork
  /-- The accounts, at their new heights. -/
  accounts : ∀ st a', (st, a') ∈ db'.accounts ↔ ∃ a, (st, a) ∈ db.accounts ∧
    a' = if fork ≤ a.scanHeight then
        { a with scanHeight := fork - 1, startHeight := min a.startHeight (fork - 1) }
      else a
  blocksBelow : ∀ r, r.2.id < fork → (r ∈ db'.blocks ↔ r ∈ db.blocks)
  powsBelow : ∀ r, r.2.id < fork → (r ∈ db'.pows ↔ r ∈ db.pows)
  eventsBelow : ∀ r, r.2.link.tx.height < fork → (r ∈ db'.events ↔ r ∈ db.events)
  outputsBelow : ∀ r, r.2.link.height < fork → (r ∈ db'.outputs ↔ r ∈ db.outputs)
  spendsBelow : ∀ r, r.2.link.height < fork → (r ∈ db'.spends ↔ r ∈ db.spends)
  imagesBelow : ∀ r, r.2.link.height < fork → (r ∈ db'.images ↔ r ∈ db.images)
  rest : db'.accountsBa = db.accountsBa ∧ db'.requests = db.requests ∧ db'.webhooks = db.webhooks ∧
    db'.subaddressRanges = db.subaddressRanges ∧ db'.subaddressIndexes = db.subaddressIndexes

/-- What a successful `sync_chain` should leave. -/
structure ExactSync (env : Env) (height : Nat) (hashes : List Hash) (db db' : Storage) : Prop where
  stored : ∀ i h, hashes[i]? = some h → ((), ⟨height + i, h⟩) ∈ db'.blocks
  forked : ∀ fork, Disagrees db.blocks height hashes fork → ForkedAt env height hashes fork db db'
  agreed : (∀ fork, ¬ Disagrees db.blocks height hashes fork) →
    db' = { db with blocks := db'.blocks } ∧
      ∀ r, r ∈ db'.blocks ↔ r ∈ db.blocks ∨ ∃ i, r.2.id = height + i ∧ hashes[i]? = some r.2.hash

/-! ## What `sync_chain` does -/

/-- The first `j` hashes are stored, and from there on the hashes are appended: past the
    end of the stored blocks, or to the database rolled back to `height + j`. -/
theorem syncChain_ok {env : Env} {height : Nat} {hashes : List Hash} {regtest : Bool} {db db' : Storage}
    (hc : Contiguous height db.blocks) (h : db.syncChain env height hashes regtest = .ok db') :
    ∃ j mid, (∀ i < j, ∃ x, hashes[i]? = some x ∧ ((), ⟨height + i, x⟩) ∈ db.blocks) ∧
      db' = { mid with blocks := appendBlockHashes (height + j) (hashes.drop j) mid.blocks } ∧
      ((mid = db ∧ (hashes.drop j = [] ∨ ∀ x ∈ db.blocks, x.2.id < height + j)) ∨
        ∃ x stored, hashes[j]? = some x ∧ ((), ⟨height + j, stored⟩) ∈ db.blocks ∧ stored ≠ x ∧
          (regtest = false → env.maxHeight < height + j) ∧ Rewound (height + j) db mid ∧
          mid.blocks = db.blocks.filter fun b => decide (b.2.id < height + j)) := by
  unfold Storage.syncChain at h
  split at h
  · cases h
  · rename_i first chain
    obtain ⟨hash, hhash, h⟩ := bind_ok.mp h
    split at h
    · cases h
    · rename_i heq
      have hfirst := getBlockHash_ok hhash
      rw [not_not.mp heq] at hfirst
      split at h
      · cases h
      · rename_i cur hcur
        obtain ⟨ht, hg, v, hrow, hv, hid⟩ := getBoth_some hcur
        obtain ⟨⟨mid, current, rest⟩, hloop, h⟩ := bind_ok.mp h
        cases h
        obtain ⟨j, rfl, rfl, -, hsame, hend⟩ := syncChainLoop_ok hc chain ht hg hrow (by rw [← hid]) (by rw [← hid]) hloop
        refine ⟨j + 1, mid, fun i hi => ?_, ?_, ?_⟩
        · cases i with
          | zero => exact ⟨first, rfl, hfirst⟩
          | succ i =>
            obtain ⟨x, hx, hm⟩ := hsame i (by omega)
            exact ⟨x, by simpa using hx, by rwa [show height + (i + 1) = height + 1 + i by omega]⟩
        · rw [show height + (j + 1) = height + 1 + j by omega]; rfl
        · rw [show height + (j + 1) = height + 1 + j by omega]
          rcases hend with hend | ⟨x, stored, hx, hst, hne, hmax, hrest⟩
          · exact Or.inl hend
          · exact Or.inr ⟨x, stored, by simpa using hx, hst, hne, hmax, hrest⟩

section Exact

variable {env : Env} {height : Nat} {hashes : List Hash} {db mid : Storage} {j : Nat}

/-- The hashes from `j` on, appended past every block that is left. -/
theorem mem_synced (hlow : hashes.drop j = [] ∨ ∀ x ∈ mid.blocks, x.2.id < height + j) {r : Version × BlockInfo} :
    r ∈ appendBlockHashes (height + j) (hashes.drop j) mid.blocks ↔
      r ∈ mid.blocks ∨ ∃ i, j ≤ i ∧ r.2.id = height + i ∧ hashes[i]? = some r.2.hash := by
  rw [mem_appendBlockHashes hlow]
  refine or_congr_right ⟨fun ⟨i, hi, hx⟩ => ?_, fun ⟨i, hj, hi, hx⟩ => ?_⟩
  · exact ⟨j + i, by omega, by omega, by rwa [List.getElem?_drop] at hx⟩
  · exact ⟨i - j, by omega, by rw [List.getElem?_drop, show j + (i - j) = i by omega]; exact hx⟩

/-- Where the stored hashes agree as far as they go, there is no fork point. -/
theorem not_disagrees (hsame : ∀ i < j, ∃ x, hashes[i]? = some x ∧ ((), ⟨height + i, x⟩) ∈ db.blocks)
    (hend : hashes.drop j = [] ∨ ∀ x ∈ db.blocks, x.2.id < height + j) (fork : Nat) :
    ¬ Disagrees db.blocks height hashes fork := by
  intro hd
  obtain ⟨b, hb, rfl, x, hx, hne⟩ := hd.differs
  have habove := hd.above
  by_cases e : b.2.id - height < j
  · obtain ⟨y, hy, hm⟩ := hsame _ e
    rw [show height + (b.2.id - height) = b.2.id by omega] at hm
    have he := Table.unique hb hm (rowKey_eq.mpr ⟨rfl, rfl⟩)
    rw [hx] at hy
    exact hne (by rw [he, Option.some.inj hy])
  · rcases hend with hend | hend
    · have hlen : hashes.length ≤ j := List.drop_eq_nil_iff.mp hend
      rw [List.getElem?_eq_none (by omega)] at hx
      cases hx
    · have := hend b hb
      omega

theorem disagrees_at (hsame : ∀ i < j, ∃ x, hashes[i]? = some x ∧ ((), ⟨height + i, x⟩) ∈ db.blocks) {x stored : Hash}
    (hx : hashes[j]? = some x) (hst : ((), ⟨height + j, stored⟩) ∈ db.blocks) (hne : stored ≠ x) :
    Disagrees db.blocks height hashes (height + j) := by
  refine ⟨by omega, fun b hb hle hlt => ?_, ⟨_, hst, rfl, x, ?_, hne⟩⟩
  · obtain ⟨y, hy, hm⟩ := hsame (b.2.id - height) (by omega)
    rw [show height + (b.2.id - height) = b.2.id by omega] at hm
    have he := Table.unique hb hm (rowKey_eq.mpr ⟨rfl, rfl⟩)
    rw [hy, he]
  · rw [show height + j - height = j by omega]; exact hx

/-- No account is scanned to `height`, and nothing is recorded there or above. -/
structure Below (height : Nat) (db : Storage) : Prop where
  accounts : ∀ r ∈ db.accounts, r.2.scanHeight < height
  outputs : ∀ r ∈ db.outputs, r.2.link.height < height
  spends : ∀ r ∈ db.spends, r.2.link.height < height
  events : ∀ r ∈ db.events, r.2.link.tx.height < height

instance (height : Nat) (db : Storage) : Decidable (Below height db) :=
  decidable_of_iff ((∀ r ∈ db.accounts, r.2.scanHeight < height) ∧ (∀ r ∈ db.outputs, r.2.link.height < height) ∧
      (∀ r ∈ db.spends, r.2.link.height < height) ∧ ∀ r ∈ db.events, r.2.link.tx.height < height)
    ⟨fun h => ⟨h.1, h.2.1, h.2.2.1, h.2.2.2⟩, fun h => ⟨h.accounts, h.outputs, h.spends, h.events⟩⟩

theorem Below.mono {m n : Nat} (h : Below m db) (hle : m ≤ n) : Below n db :=
  ⟨fun r hr => (h.accounts r hr).trans_le hle, fun r hr => (h.outputs r hr).trans_le hle,
    fun r hr => (h.spends r hr).trans_le hle, fun r hr => (h.events r hr).trans_le hle⟩

theorem Rewound.below (hagree : db.Agree env) (hrec : Records db) {fork : Nat} (hpos : 0 < fork)
    (hrw : Rewound fork db mid) : Below fork mid := by
  have howner : ∀ {id k : Nat}, Scanned db.accounts id k → fork ≤ k → ∃ l ∈ lookupsAbove db.accountsBh fork, l.id = id := by
    intro id k hs hk
    obtain ⟨st, a, ha, rfl, hle⟩ := hs
    exact (hagree.above_id ha).mpr (hk.trans hle)
  refine ⟨fun ⟨st, a'⟩ ha' => ?_, fun r hr => ?_, fun r hr => ?_, fun r hr => ?_⟩
  · obtain ⟨a, ha, rfl⟩ := (hrw.accounts st a').mp ha'
    split
    · show max fork 1 - 1 < fork
      omega
    · rename_i hin
      have : ¬ fork ≤ a.scanHeight := fun hle => hin ((hagree.above ha).mpr hle)
      show a.scanHeight < fork
      omega
  · obtain ⟨hr, hn⟩ := (hrw.outputs r).mp hr
    by_contra hle
    exact hn ⟨by omega, howner (hrec.outputs r hr) (by omega)⟩
  · obtain ⟨hr, hn⟩ := (hrw.spends r).mp hr
    by_contra hle
    exact hn ⟨by omega, howner (hrec.spends r hr) (by omega)⟩
  · rw [show mid.events = _ by rw [hrw.frame]] at hr
    exact of_decide_eq_true (Table.mem_filter.mp hr).2

/-- The rolled back database, with the new hashes appended, but for `pows`. -/
theorem forked_at (hagree : db.Agree env) (hrec : Records db) {fork : Nat} (hmax : env.maxHeight < fork)
    (hrw : Rewound fork db mid) (hblocks : mid.blocks = db.blocks.filter fun b => decide (b.2.id < fork)) {blocks : Blocks}
    (hmem : ∀ r, r ∈ blocks ↔ r ∈ mid.blocks ∨ (fork ≤ r.2.id ∧ hashes[r.2.id - height]? = some r.2.hash))
    (hpows : ∀ r ∈ mid.pows, r.2.id < fork) : ForkedAt env height hashes fork db { mid with blocks } := by
  have howner : ∀ {id k : Nat}, Scanned db.accounts id k → fork ≤ k → ∃ l ∈ lookupsAbove db.accountsBh fork, l.id = id := by
    intro id k hs hk
    obtain ⟨st, a, ha, rfl, hle⟩ := hs
    exact (hagree.above_id ha).mpr (hk.trans hle)
  have himage : ∀ x ∈ db.images, ∀ r ∈ db.spends, isImageOf r.2 x → x.2.link.height = r.2.link.height := by
    intro x hx r hr hi
    rw [hrec.image_link hx hr hi]
  have hevents : mid.events = db.events.filter fun r => decide (r.2.link.tx.height < fork) := by rw [hrw.frame]
  have hpowsEq : mid.pows = rolledBackPows fork db.pows := by rw [hrw.frame]
  have hbelow := hrw.below hagree hrec (by omega)
  refine ⟨hmax, fun r hr hle => ?_, hpows, hbelow.events, hbelow.outputs, hbelow.spends, fun x hx => ?_, fun st a' => ?_,
    fun r hlt => ?_, fun r hlt => ?_, fun r hlt => ?_, fun r hlt => ?_, fun r hlt => ?_, fun x hlt => ?_, ?_⟩
  · rcases (hmem r).mp hr with hr | hr
    · rw [hblocks] at hr
      have := of_decide_eq_true (Table.mem_filter.mp hr).2
      omega
    · exact hr.2
  · obtain ⟨hx, hn⟩ := (hrw.images x).mp hx
    by_contra hle
    obtain ⟨r, hr, hi, hlink⟩ := hrec.images x hx
    have hh : fork ≤ r.2.link.height := by rw [← hlink]; omega
    exact hn r hr hh (howner (hrec.spends r hr) hh) hi
  · rw [show (st, a') ∈ ({ mid with blocks } : Storage).accounts ↔ (st, a') ∈ mid.accounts from Iff.rfl, hrw.accounts]
    refine exists_congr fun a => and_congr_right fun ha => ?_
    have hnew : max fork 1 - 1 = fork - 1 := by omega
    by_cases e : fork ≤ a.scanHeight
    · rw [if_pos e, if_pos ((hagree.above ha).mpr e), hnew]
      unfold Account.rolledBack
      rw [Nat.min_comm]
    · rw [if_neg e, if_neg fun hc => e ((hagree.above ha).mp hc)]
  · rw [show r ∈ ({ mid with blocks } : Storage).blocks ↔ r ∈ blocks from Iff.rfl, hmem, hblocks, Table.mem_filter]
    refine ⟨fun h => ?_, fun h => Or.inl ⟨h, decide_eq_true hlt⟩⟩
    rcases h with h | h
    · exact h.1
    · omega
  · rw [show r ∈ ({ mid with blocks } : Storage).pows ↔ r ∈ mid.pows from Iff.rfl, hpowsEq]
    unfold rolledBackPows
    split
    · rw [Table.mem_filter]
      exact ⟨And.left, fun h => ⟨h, decide_eq_true hlt⟩⟩
    · rfl
  · rw [show r ∈ ({ mid with blocks } : Storage).events ↔ r ∈ mid.events from Iff.rfl, hevents, Table.mem_filter]
    exact ⟨And.left, fun h => ⟨h, decide_eq_true hlt⟩⟩
  · exact (hrw.outputs r).trans ⟨And.left, fun h => ⟨h, fun e => by omega⟩⟩
  · exact (hrw.spends r).trans ⟨And.left, fun h => ⟨h, fun e => by omega⟩⟩
  · refine (hrw.images x).trans ⟨And.left, fun h => ⟨h, fun r hr hle _ hi => ?_⟩⟩
    have := himage x h r hr hi
    omega
  · rw [hrw.frame]; exact ⟨rfl, rfl, rfl, rfl, rfl⟩

end Exact

/-- There is a proof of work at the fork point, or none from there on. -/
def PowsReach (pows : Pows) (fork : Nat) : Prop := (∃ r ∈ pows, r.2.id = fork) ∨ ∀ r ∈ pows, r.2.id < fork

theorem rolledBackPows_below {pows : Pows} {fork : Nat} :
    (∀ r ∈ rolledBackPows fork pows, r.2.id < fork) ↔ PowsReach pows fork := by
  unfold rolledBackPows PowsReach
  by_cases e : ∃ r ∈ pows, r.2.id = fork
  · obtain ⟨⟨u, p⟩, hp, he⟩ := e
    have hget : pows.get? () fork = some p := Table.get?_eq_some.mpr ⟨hp, he⟩
    rw [hget]
    refine ⟨fun _ => Or.inl ⟨_, hp, he⟩, fun _ r hr => ?_⟩
    exact of_decide_eq_true (Table.mem_filter.mp hr).2
  · have hget : pows.get? () fork = none := Table.get?_eq_none.mpr fun p hp he => e ⟨_, hp, he⟩
    rw [hget]
    exact ⟨Or.inr, fun h => h.resolve_left e⟩

variable {env : Env} {height : Nat} {hashes : List Hash} {db : Storage}

/-- A failed `sync_chain` changes nothing, and a successful one is exact if and only if
    the proofs of work reach the fork point. Every reached state satisfies `Agree` and
    `Records` (`agree_reached`, `records_reached`). -/
theorem syncChain_exact (hagree : db.Agree env) (hrec : Records db) (hc : Contiguous height db.blocks) :
    (∀ e, db.syncChain env height hashes false = .error e →
      commit (Op.run env) (.syncChain height hashes false) db = db) ∧
    ∀ db', db.syncChain env height hashes false = .ok db' →
      (ExactSync env height hashes db db' ↔
        ∀ fork, Disagrees db.blocks height hashes fork → PowsReach db.pows fork) := by
  refine ⟨fun e he => commit_of_error he, fun db' hsync => ?_⟩
  obtain ⟨j, mid, hsame, rfl, hend⟩ := syncChain_ok hc hsync
  rcases hend with ⟨rfl, hend⟩ | ⟨x, stored, hx, hst, hne, hmax, hrw, hblocks⟩
  · -- no fork: the missing hashes are appended
    have hnot := fun fork => not_disagrees hsame hend fork
    refine ⟨fun _ fork hd => absurd hd (hnot fork), fun _ => ⟨fun i h hi => ?_, fun fork hd => absurd hd (hnot fork),
      fun _ => ⟨rfl, fun r => ?_⟩⟩⟩
    · refine (mem_synced hend).mpr ?_
      by_cases e : i < j
      · obtain ⟨y, hy, hm⟩ := hsame i e
        rw [hi] at hy
        exact Or.inl (Option.some.inj hy ▸ hm)
      · exact Or.inr ⟨i, by omega, rfl, hi⟩
    · refine (mem_synced hend).trans ⟨fun h => h.imp id fun ⟨i, _, hi⟩ => ⟨i, hi⟩, fun h => ?_⟩
      rcases h with h | ⟨i, hi, hh⟩
      · exact Or.inl h
      · by_cases e : i < j
        · obtain ⟨y, hy, hm⟩ := hsame i e
          rw [hh] at hy
          obtain ⟨u, b⟩ := r
          obtain ⟨id, hash⟩ := b
          cases hi
          cases hy
          exact Or.inl hm
        · exact Or.inr ⟨i, by omega, hi, hh⟩
  · have hd := disagrees_at hsame hx hst hne
    have hlow : hashes.drop j = [] ∨ ∀ b ∈ mid.blocks, b.2.id < height + j := by
      refine Or.inr fun b hb => ?_
      rw [hblocks] at hb
      exact of_decide_eq_true (Table.mem_filter.mp hb).2
    have hpows : mid.pows = rolledBackPows (height + j) db.pows := by rw [hrw.frame]
    refine ⟨fun hex fork hf => ?_, fun hreach => ⟨fun i h hi => ?_, fun fork hf => ?_, fun hnone => absurd hd (hnone _)⟩⟩
    · rw [hf.unique hd]
      refine rolledBackPows_below.mp ?_
      rw [← hpows]
      exact (hex.forked _ hd).pows
    · refine (mem_synced hlow).mpr ?_
      by_cases e : i < j
      · obtain ⟨y, hy, hm⟩ := hsame i e
        rw [hi] at hy
        refine Or.inl ?_
        rw [hblocks]
        exact Table.mem_filter.mpr ⟨Option.some.inj hy ▸ hm, decide_eq_true (by show height + i < height + j; omega)⟩
      · exact Or.inr ⟨i, by omega, rfl, hi⟩
    · rw [hf.unique hd]
      refine forked_at hagree hrec (hmax rfl) hrw hblocks (fun r => ?_) (hpows ▸ rolledBackPows_below.mpr (hreach _ hd))
      rw [mem_synced hlow]
      refine or_congr_right ⟨fun ⟨i, hj, hi, hh⟩ => ?_, fun ⟨hle, hh⟩ => ?_⟩
      · exact ⟨by omega, by rw [show r.2.id - height = i by omega]; exact hh⟩
      · exact ⟨r.2.id - height, by omega, by omega, hh⟩

/-- An account with an output in block 1 and a spend of it in block 2. -/
def forkOps : List Op :=
  [.addAccount 5 ⟨1007, 50⟩ 7 0, .syncChain 0 [100, 101, 102] false,
    .update 0 [100, 101, 102] [sampleUser 0 [sampleOutput 1 9] [sampleSpend 2 9 5]] [] false]

theorem forkOps_reached : Reached sampleEnv Honest (Op.runs sampleEnv forkOps) := reached_runs (by decide)

/-- Block 2 is replaced: the spend goes, the output stays. -/
theorem syncChain_exact_fork : ∃ db', (Op.runs sampleEnv forkOps).syncChain sampleEnv 1 [101, 202] false = .ok db' ∧
    ExactSync sampleEnv 1 [101, 202] (Op.runs sampleEnv forkOps) db' := by
  have hex := (@syncChain_exact sampleEnv 1 [101, 202] (Op.runs sampleEnv forkOps)
    (agree_reached forkOps_reached (by decide)) (records_reached forkOps_reached) (by decide)).2
  have hok : ((Op.runs sampleEnv forkOps).syncChain sampleEnv 1 [101, 202] false).isOk = true := by decide
  rcases h : (Op.runs sampleEnv forkOps).syncChain sampleEnv 1 [101, 202] false with e | db'
  · rw [h] at hok
    cases hok
  · refine ⟨db', rfl, (hex db' h).mpr fun fork hd => Or.inr fun r hr => ?_⟩
    have hzero : r.2.id = 0 := (show ∀ r ∈ (Op.runs sampleEnv forkOps).pows, r.2.id = 0 by decide) r hr
    have := hd.above
    omega

/-- Blocks 1 to 3 come without proofs of work, block 4 with one. -/
def powGapOps : List Op :=
  [.syncChain 0 [100, 101, 102, 103] false,
    .update 1 [101, 102, 103, 104] [] [⟨0, ⟨0, 2⟩⟩, ⟨0, ⟨0, 3⟩⟩, ⟨0, ⟨0, 4⟩⟩, ⟨0, ⟨0, 5⟩⟩] false]

theorem powGap_reached : Reached sampleEnv Honest (Op.runs sampleEnv powGapOps) := reached_runs (by decide)

/-- A fork at block 2 leaves the proof of work of block 4. -/
theorem reorg_keeps_pow :
    Reached sampleEnv Honest (Op.runs sampleEnv powGapOps) ∧ Contiguous 1 (Op.runs sampleEnv powGapOps).blocks ∧
      ∃ db', (Op.runs sampleEnv powGapOps).syncChain sampleEnv 1 [101, 202] false = .ok db' ∧
        ¬ ExactSync sampleEnv 1 [101, 202] (Op.runs sampleEnv powGapOps) db' := by
  refine ⟨powGap_reached, by decide, ?_⟩
  have hpow : (match (Op.runs sampleEnv powGapOps).syncChain sampleEnv 1 [101, 202] false with
    | .ok db' => db'.pows.rows.any fun r => decide (2 ≤ r.2.id)
    | .error _ => false) = true := by decide
  rcases h : (Op.runs sampleEnv powGapOps).syncChain sampleEnv 1 [101, 202] false with e | db'
  · rw [h] at hpow
    cases hpow
  · refine ⟨db', rfl, fun hex => ?_⟩
    have hd : Disagrees (Op.runs sampleEnv powGapOps).blocks 1 [101, 202] 2 := by
      have hst : ((), (⟨1 + 1, 102⟩ : BlockInfo)) ∈ (Op.runs sampleEnv powGapOps).blocks := by decide
      refine disagrees_at (fun i hi => ?_) rfl hst (show (102 : Nat) ≠ 202 by decide)
      obtain rfl : i = 0 := by omega
      exact ⟨101, rfl, by decide⟩
    rw [h] at hpow
    obtain ⟨r, hr, hle⟩ := List.any_eq_true.mp hpow
    have hlt := (hex.forked 2 hd).pows r hr
    have := of_decide_eq_true hle
    omega

end Lws.Db
