/-
  Lws.Scanner.Loop — the loop of a scan thread (`src/scanner.cpp`: `scanner::loop`,
  `user_data::store`; `src/util/ownership_test.cpp`: the height filter).

  A turn of the loop reads a reply of the daemon, then the queue, and then asks for
  other blocks, waits, or scans the reply and stores it. The height of an entry of
  `blockchain` is nowhere written down: `store` takes the first account's scan height
  for that of entry 0. `Ready` says when that is the block the next reply starts with;
  it fails where the queue replaces the accounts by ones that are all ahead of the reply
  (`replaced_ahead`), and where a reply starts at block 1 for an account that has
  scanned it, which the loop takes for one that has scanned nothing.

  - `turn_ready`: a turn keeps `Ready`, under the conditions of `Steady`.
  - `store_aligned`: in every run of such turns, what is stored is aligned, and an
    account is raised over scanned blocks only.
-/

import Lws.Db.Change
import Lws.Scanner.Queue

namespace Lws.Scanner

open Lws.Db Lws.Lmdb

/-- `std::sort` by `by_height`. The order of equal heights is unspecified; it is kept. -/
def sortByHeight (users : List Account) : List Account := users.insertionSort fun a b => a.scanHeight ≤ b.scanHeight

def oldest (users : List Account) : Nat := (users.head?.map (·.scanHeight)).getD 0

structure Loop where
  users : List Account
  /-- `req.start_height`. -/
  request : Nat
  deriving DecidableEq, Repr

def Loop.enter (users : List Account) : Option Loop :=
  match sortByHeight users with
  | [] => none
  | user :: rest => some ⟨user :: rest, max 1 user.scanHeight⟩

/-- `get_blocks_fast`: the hashes of the blocks. -/
structure Reply where
  startHeight : Nat
  blocks : List Hash
  deriving DecidableEq, Repr

/-- What is stored, and the blocks that were passed to `scan_transaction` before. -/
structure StoreCall where
  chain : List Hash
  users : List Account
  scanned : List (Nat × Hash)
  deriving DecidableEq, Repr

def StoreCall.base (call : StoreCall) : Nat := oldest call.users

def StoreCall.last (call : StoreCall) : Nat := call.base + call.chain.length - 1

/-- The scan of a reply. Only a reply from block 1 has no overlap block; the heights then
    start after 0. -/
def Reply.scan (reply : Reply) (users : List Account) : StoreCall :=
  let blocks := if reply.startHeight ≠ 1 then reply.blocks.drop 1 else reply.blocks
  let start := if reply.startHeight ≠ 1 then reply.startHeight else 0
  { chain := reply.blocks.take 1 ++ blocks
    users
    scanned := blocks.zipIdx.map fun x => (start + 1 + x.2, x.1) }

/-- What a turn meets: the reply, the queue's status, whether `store` returns true, and
    whether no send or wait is interrupted. -/
structure Turn where
  reply : Reply
  status : Status
  stored : Bool
  live : Bool
  deriving DecidableEq, Repr

inductive Outcome where
  | next (s : Loop)
  | returned (value : Bool)
  | thrown
  deriving DecidableEq, Repr

def Loop.fetched (s : Loop) (status : Status) : List Account :=
  if status.given then sortByHeight (status.merge s.users) else s.users

/-- A turn of the loop: the call of `store`, if it gets there, and how it goes on. -/
def Loop.turn (publisher : Bool) (s : Loop) (t : Turn) : Option StoreCall × Outcome :=
  if t.reply.blocks.isEmpty then (none, .thrown)
  else if t.reply.startHeight ≠ s.request then (none, .returned false)
  else if t.status.replace = some [] ∧ t.status.push = [] then (none, .returned true)
  else
    let users := s.fetched t.status
    if t.status.given && decide (oldest users < t.reply.startHeight) then
      (none, if t.live then .next ⟨users, oldest users⟩ else .returned false)
    else
      let request := t.reply.startHeight + t.reply.blocks.length - 1
      if t.reply.blocks.length ≤ 1 then (none, if t.live then .next ⟨users, request⟩ else .returned false)
      else if !t.live then (none, .returned false)
      else
        let call := t.reply.scan users
        (some call, if t.stored then .next ⟨pushUpdates publisher call.last users, request⟩ else .returned false)

/-! ## Alignment -/

/-- The reply holds consecutive blocks of `chain`. -/
def Reply.Honest (chain : Nat → Hash) (reply : Reply) : Prop :=
  ∀ i h, reply.blocks[i]? = some h → h = chain (reply.startHeight + i)

/-- Entry `i` is the block at `base + i`; entry 0 is a placeholder where that is genesis. -/
def StoreCall.Aligned (chain : Nat → Hash) (call : StoreCall) : Prop :=
  ∀ i h, call.chain[i]? = some h → (1 ≤ i ∨ call.base ≠ 0) → h = chain (call.base + i)

structure Loop.Ready (s : Loop) : Prop where
  sorted : s.users.Pairwise fun a b => a.scanHeight ≤ b.scanHeight
  some : s.users ≠ []
  start : (oldest s.users = s.request ∧ s.request ≠ 1) ∨ (oldest s.users = 0 ∧ s.request = 1)

/-- Accounts from the queue that are not all ahead of the reply and the oldest of which is
    not at block 1; and no reply of the blocks 0 and 1 alone. -/
structure Steady (s : Loop) (t : Turn) : Prop where
  oldest : t.status.given = true → oldest (s.fetched t.status) ≤ t.reply.startHeight ∧ oldest (s.fetched t.status) ≠ 1
  blocks : ¬ (t.reply.startHeight = 0 ∧ t.reply.blocks.length = 2)

instance (s : Loop) (t : Turn) : Decidable (Steady s t) :=
  decidable_of_iff ((t.status.given = true → Scanner.oldest (s.fetched t.status) ≤ t.reply.startHeight ∧
      Scanner.oldest (s.fetched t.status) ≠ 1) ∧ ¬ (t.reply.startHeight = 0 ∧ t.reply.blocks.length = 2))
    ⟨fun h => ⟨h.1, h.2⟩, fun h => ⟨h.oldest, h.blocks⟩⟩

section Sorting

variable {users : List Account}

theorem sortByHeight_sorted (users : List Account) :
    (sortByHeight users).Pairwise fun a b => a.scanHeight ≤ b.scanHeight :=
  haveI : Std.Total fun a b : Account => a.scanHeight ≤ b.scanHeight := ⟨fun a b => Nat.le_total a.scanHeight b.scanHeight⟩
  haveI : IsTrans Account fun a b => a.scanHeight ≤ b.scanHeight := ⟨fun _ _ _ => Nat.le_trans⟩
  List.pairwise_insertionSort _ users

theorem sortByHeight_perm (users : List Account) : (sortByHeight users).Perm users := List.perm_insertionSort _ users

/-- Of a sorted list the first account is the oldest. -/
theorem oldest_le (hs : users.Pairwise fun a b => a.scanHeight ≤ b.scanHeight) {u : Account} (hu : u ∈ users) :
    oldest users ≤ u.scanHeight := by
  cases users with
  | nil => cases hu
  | cons v users =>
    rcases List.mem_cons.mp hu with rfl | hu
    · exact Nat.le_refl _
    · exact (List.pairwise_cons.mp hs).1 u hu

/-- `push_updates` raises every account to the height, with a publisher or not. -/
theorem pushUpdates_height (publisher : Bool) (height : Nat) (users : List Account) :
    (pushUpdates publisher height users).map (·.scanHeight) = users.map fun u => max u.scanHeight height := by
  unfold pushUpdates
  rw [List.map_map]
  refine List.map_congr_left fun u _ => ?_
  dsimp only [Function.comp]
  split
  · rename_i h
    rw [Bool.and_eq_true, decide_eq_true_eq] at h
    exact (Nat.max_eq_left h.2.le).symm
  · rfl

theorem pushUpdates_sorted (publisher : Bool) (height : Nat)
    (hs : users.Pairwise fun a b => a.scanHeight ≤ b.scanHeight) :
    (pushUpdates publisher height users).Pairwise fun a b => a.scanHeight ≤ b.scanHeight := by
  have hmap : ((pushUpdates publisher height users).map (·.scanHeight)).Pairwise (· ≤ ·) := by
    rw [pushUpdates_height, List.pairwise_map]
    exact hs.imp fun h => by omega
  exact List.pairwise_map.mp hmap

theorem pushUpdates_oldest (publisher : Bool) (height : Nat) (hne : users ≠ []) :
    oldest (pushUpdates publisher height users) = max (oldest users) height := by
  have h := pushUpdates_height publisher height users
  cases users with
  | nil => exact absurd rfl hne
  | cons u users =>
    have hhead := congrArg List.head? h
    exact Option.some.inj hhead

end Sorting

/-! ## One turn -/

section Turn

variable {publisher : Bool} {s s' : Loop} {t : Turn} {call : StoreCall} {chain : Nat → Hash}

theorem turn_call (h : (s.turn publisher t).1 = some call) :
    t.reply.startHeight = s.request ∧ 2 ≤ t.reply.blocks.length ∧ call = t.reply.scan (s.fetched t.status) ∧
      ¬ (t.status.replace = some [] ∧ t.status.push = []) ∧
      (t.status.given = true → t.reply.startHeight ≤ oldest (s.fetched t.status)) := by
  unfold Loop.turn at h
  dsimp only at h
  split at h
  · cases h
  · split at h
    · cases h
    · rename_i hstart
      split at h
      · cases h
      · rename_i hidle
        split at h
        · cases h
        · rename_i hold
          split at h
          · cases h
          · rename_i hlen
            split at h
            · cases h
            · cases h
              refine ⟨not_not.mp hstart, by omega, rfl, hidle, fun hg => ?_⟩
              rw [hg, Bool.true_and, decide_eq_true_eq] at hold
              exact not_lt.mp hold

/-- A turn the loop goes on after: it asked for older blocks, waited at the tip, or
    stored the reply. -/
theorem turn_next (h : (s.turn publisher t).2 = .next s') :
    t.reply.startHeight = s.request ∧ ¬ (t.status.replace = some [] ∧ t.status.push = []) ∧
      ((t.status.given = true ∧ oldest (s.fetched t.status) < t.reply.startHeight ∧
          s' = ⟨s.fetched t.status, oldest (s.fetched t.status)⟩) ∨
        ((t.status.given = true → t.reply.startHeight ≤ oldest (s.fetched t.status)) ∧
          ((t.reply.blocks.length = 1 ∧ s' = ⟨s.fetched t.status, t.reply.startHeight⟩) ∨
            (2 ≤ t.reply.blocks.length ∧
              s' = ⟨pushUpdates publisher (t.reply.scan (s.fetched t.status)).last (s.fetched t.status),
                t.reply.startHeight + t.reply.blocks.length - 1⟩)))) := by
  unfold Loop.turn at h
  dsimp only at h
  split at h
  · cases h
  · rename_i hempty
    have hpos : 1 ≤ t.reply.blocks.length := by
      rw [Bool.not_eq_true, List.isEmpty_eq_false_iff] at hempty
      exact List.length_pos_iff.mpr hempty
    split at h
    · cases h
    · rename_i hstart
      split at h
      · cases h
      · rename_i hidle
        refine ⟨not_not.mp hstart, hidle, ?_⟩
        split at h
        · rename_i hold
          rw [Bool.and_eq_true, decide_eq_true_eq] at hold
          split at h
          · cases h
            exact Or.inl ⟨hold.1, hold.2, rfl⟩
          · cases h
        · rename_i hold
          have hle : t.status.given = true → t.reply.startHeight ≤ oldest (s.fetched t.status) := by
            intro hg
            rw [hg, Bool.true_and, decide_eq_true_eq] at hold
            exact not_lt.mp hold
          refine Or.inr ⟨hle, ?_⟩
          split at h
          · rename_i hlen
            split at h
            · cases h
              refine Or.inl ⟨by omega, ?_⟩
              rw [show t.reply.startHeight + t.reply.blocks.length - 1 = t.reply.startHeight by omega]
            · cases h
          · rename_i hlen
            split at h
            · cases h
            · split at h
              · cases h
                exact Or.inr ⟨by omega, rfl⟩
              · cases h

/-- The accounts after the queue was read, of a loop that is ready. -/
theorem fetched_ready (hr : s.Ready) (hidle : ¬ (t.status.replace = some [] ∧ t.status.push = [])) :
    (s.fetched t.status).Pairwise (fun a b => a.scanHeight ≤ b.scanHeight) ∧ s.fetched t.status ≠ [] := by
  unfold Loop.fetched
  by_cases hg : t.status.given = true
  · rw [if_pos hg]
    refine ⟨sortByHeight_sorted _, fun hnil => ?_⟩
    have hlen := (sortByHeight_perm (t.status.merge s.users)).length_eq
    rw [hnil, Status.merge, List.length_append, List.length_nil] at hlen
    have hpush : t.status.push = [] := List.eq_nil_of_length_eq_zero (by omega)
    have hrep : t.status.replace.getD s.users = [] := List.eq_nil_of_length_eq_zero (by omega)
    rcases hre : t.status.replace with _ | users
    · rw [hre] at hrep
      exact hr.some hrep
    · rw [hre] at hrep
      exact hidle ⟨by rw [hre]; exact congrArg some hrep, hpush⟩
  · rw [if_neg hg]
    exact ⟨hr.sorted, hr.some⟩

/-- A batch starts where its oldest account stands. -/
theorem batch_start (hr : s.Ready) (hs : Steady s t) (hstart : t.reply.startHeight = s.request)
    (hle : t.status.given = true → t.reply.startHeight ≤ oldest (s.fetched t.status)) :
    (oldest (s.fetched t.status) = t.reply.startHeight ∧ t.reply.startHeight ≠ 1) ∨
      (oldest (s.fetched t.status) = 0 ∧ t.reply.startHeight = 1) := by
  by_cases hg : t.status.given = true
  · obtain ⟨h1, h2⟩ := hs.oldest hg
    have := hle hg
    omega
  · unfold Loop.fetched
    rw [if_neg hg, hstart]
    exact hr.start

theorem turn_ready (hr : s.Ready) (hs : Steady s t) (h : (s.turn publisher t).2 = .next s') : s'.Ready := by
  obtain ⟨hstart, hidle, hcases⟩ := turn_next h
  obtain ⟨hsorted, hne⟩ := fetched_ready hr hidle
  rcases hcases with ⟨hg, hlt, rfl⟩ | ⟨hle, ⟨hlen, rfl⟩ | ⟨hlen, rfl⟩⟩
  · exact ⟨hsorted, hne, Or.inl ⟨rfl, (hs.oldest hg).2⟩⟩
  · exact ⟨hsorted, hne, batch_start hr hs hstart hle⟩
  · have hb := batch_start hr hs hstart hle
    refine ⟨pushUpdates_sorted _ _ hsorted, fun hnil => ?_, Or.inl ?_⟩
    · exact hne (List.map_eq_nil_iff.mp hnil)
    · dsimp only
      rw [pushUpdates_oldest _ _ hne]
      have hblocks := hs.blocks
      have hlast : (t.reply.scan (s.fetched t.status)).last = t.reply.startHeight + t.reply.blocks.length - 1 := by
        unfold StoreCall.last StoreCall.base Reply.scan
        dsimp only
        rw [List.length_append, List.length_take]
        rcases hb with ⟨hb, h1⟩ | ⟨hb, h1⟩
        · rw [if_pos h1, List.length_drop, hb]
          omega
        · rw [if_neg (not_not.mpr h1), hb]
          omega
      rw [hlast]
      omega

/-- The chain a batch stores and the blocks it scanned, where it starts at its oldest account. -/
theorem scan_aligned {users : List Account} {reply : Reply} (hh : reply.Honest chain) (hlen : 2 ≤ reply.blocks.length)
    (hb : (oldest users = reply.startHeight ∧ reply.startHeight ≠ 1) ∨ (oldest users = 0 ∧ reply.startHeight = 1)) :
    (reply.scan users).Aligned chain ∧
      ∀ k, (reply.scan users).base < k → k ≤ (reply.scan users).last → (k, chain k) ∈ (reply.scan users).scanned := by
  obtain ⟨first, rest, hblocks⟩ : ∃ first rest, reply.blocks = first :: rest := by
    cases he : reply.blocks with
    | nil =>
      rw [he] at hlen
      exact absurd hlen (by simp)
    | cons first rest => exact ⟨first, rest, rfl⟩
  unfold StoreCall.Aligned StoreCall.last StoreCall.base Reply.scan
  dsimp only
  rcases hb with ⟨hb, h1⟩ | ⟨hb, h1⟩
  · -- the overlap block is stored and not scanned
    rw [if_pos h1, if_pos h1, hb]
    have hchain : reply.blocks.take 1 ++ reply.blocks.drop 1 = reply.blocks := List.take_append_drop 1 _
    rw [hchain]
    refine ⟨fun i h hi _ => hh i h hi, fun k hlo hhi => ?_⟩
    obtain ⟨i, rfl⟩ : ∃ i, k = reply.startHeight + 1 + i := ⟨k - reply.startHeight - 1, by omega⟩
    have hi : i + 1 < reply.blocks.length := by omega
    have hget : reply.blocks[i + 1]? = some reply.blocks[i + 1] := List.getElem?_eq_getElem hi
    have hval := hh (i + 1) _ hget
    refine List.mem_map.mpr ⟨(chain (reply.startHeight + 1 + i), i), List.mem_zipIdx_iff_getElem?.mpr ?_, rfl⟩
    rw [List.getElem?_drop, Nat.add_comm 1 i, hget, hval]
    exact congrArg (fun n => some (chain n)) (by omega)
  · -- every block is scanned, and the first is stored twice
    rw [if_neg (not_not.mpr h1), if_neg (not_not.mpr h1), hb]
    refine ⟨fun i h hi hor => ?_, fun k hlo hhi => ?_⟩
    · obtain ⟨j, rfl⟩ : ∃ j, i = j + 1 := ⟨i - 1, by omega⟩
      rw [hblocks, List.take_succ_cons, List.take_zero, List.singleton_append, List.getElem?_cons_succ, ← hblocks] at hi
      rw [hh j h hi, h1]
      exact congrArg chain (by omega)
    · obtain ⟨i, rfl⟩ : ∃ i, k = 0 + 1 + i := ⟨k - 1, by omega⟩
      rw [List.length_append, List.length_take] at hhi
      have hi : i < reply.blocks.length := by omega
      have hget : reply.blocks[i]? = some reply.blocks[i] := List.getElem?_eq_getElem hi
      have hval := hh i _ hget
      refine List.mem_map.mpr ⟨(chain (0 + 1 + i), i), List.mem_zipIdx_iff_getElem?.mpr ?_, rfl⟩
      rw [hget, hval, h1]

end Turn

/-! ## Whole runs -/

def Loop.Run (publisher : Bool) (ok : Loop → Turn → Prop) : Loop → Loop → Prop :=
  Relation.ReflTransGen fun s s' => ∃ t, ok s t ∧ (s.turn publisher t).2 = .next s'

/-- An account goes up over blocks that were scanned with it in the list. -/
def RaisesScanned (chain : Nat → Hash) (call : StoreCall) (db db' : Storage) : Prop :=
  ∀ st a a', (st, a) ∈ db.accounts → (st, a') ∈ db'.accounts → a'.id = a.id →
    ∀ k, a.scanHeight < k → k ≤ a'.scanHeight → (k, chain k) ∈ call.scanned ∧ ∃ u ∈ call.users, u.id = a.id

section Runs

variable {publisher : Bool} {s₀ s : Loop} {t : Turn} {call : StoreCall} {chain : Nat → Hash} {users : List Account}

theorem enter_ready (h : Loop.enter users = some s₀) (hold : oldest (sortByHeight users) ≠ 1) : s₀.Ready := by
  have hsorted := sortByHeight_sorted users
  unfold Loop.enter at h
  split at h
  · cases h
  · rename_i user rest hu
    cases h
    rw [hu] at hsorted hold
    refine ⟨hsorted, List.cons_ne_nil _ _, ?_⟩
    have hval : oldest (user :: rest) = user.scanHeight := rfl
    rw [hval] at hold ⊢
    dsimp only
    omega

theorem run_ready (h : Loop.Run publisher Steady s₀ s) (h0 : s₀.Ready) : s.Ready := by
  induction h with
  | refl => exact h0
  | tail _ hstep ih =>
    obtain ⟨t, hs, hnext⟩ := hstep
    exact turn_ready ih hs hnext

theorem store_aligned (h0 : Loop.enter users = some s₀) (hold : oldest (sortByHeight users) ≠ 1)
    (hrun : Loop.Run publisher Steady s₀ s) (hs : Steady s t) (hcall : (s.turn publisher t).1 = some call)
    (hh : t.reply.Honest chain) :
    call.Aligned chain ∧ ∀ env db db' pow regtest out,
      db.update env call.base call.chain call.users pow regtest = .ok (db', out) → RaisesScanned chain call db db' := by
  have hr := run_ready hrun (enter_ready h0 hold)
  obtain ⟨hstart, hlen, rfl, hidle, hle⟩ := turn_call hcall
  obtain ⟨hsorted, -⟩ := fetched_ready hr hidle
  obtain ⟨haligned, hscanned⟩ := @scan_aligned chain _ t.reply hh hlen (batch_start hr hs hstart hle)
  refine ⟨haligned, fun env db db' pow regtest out hup st a a' ha ha' hid k hlo hhi => ?_⟩
  obtain ⟨b, hb, hidb, hcase⟩ := update_heights hup ha'
  obtain rfl : a = b := Table.unique_val ha hb (hid.symm.trans hidb.symm)
  rcases hcase with he | ⟨-, he, u, hu, hidu, hscan⟩
  · omega
  · have hbase : (t.reply.scan (s.fetched t.status)).base ≤ u.scanHeight := oldest_le hsorted hu
    exact ⟨hscanned k (by omega) (hhi.trans he.le), u, hu, hidu⟩

def sampleChain (k : Nat) : Hash := 100 + k

theorem sample_honest {start : Nat} {blocks : List Hash}
    (h : blocks = (List.range' start blocks.length).map sampleChain) :
    (⟨start, blocks⟩ : Reply).Honest sampleChain := by
  intro i x hi
  dsimp only at hi ⊢
  rw [h, List.getElem?_map] at hi
  obtain ⟨k, hk, rfl⟩ := Option.map_eq_some_iff.mp hi
  rw [List.getElem?_eq_some_iff] at hk
  obtain ⟨hlt, hk⟩ := hk
  rw [← hk, List.getElem_range', Nat.one_mul]

def sampleTurns : Turn × Turn :=
  (⟨⟨5, [105, 106, 107]⟩, ⟨none, [], 1⟩, true, true⟩,
    ⟨⟨7, [107, 108]⟩, ⟨none, [⟨2, ⟨1008, 51⟩, 8, 8, [], [], [], []⟩], 2⟩, true, true⟩)

theorem store_aligned_sample : ∃ call, ((⟨[sampleUser 7 [] []], 7⟩ : Loop).turn false sampleTurns.2).1 = some call ∧
    call.base = 7 ∧ call.chain = [107, 108] ∧ call.Aligned sampleChain := by
  refine ⟨_, rfl, by decide, by decide, (@store_aligned false ⟨[sampleUser 5 [] []], 5⟩ ⟨[sampleUser 7 [] []], 7⟩
    sampleTurns.2 _ sampleChain [sampleUser 5 [] []] rfl (by decide) ?_ (by decide) rfl (sample_honest (by decide))).1⟩
  exact Relation.ReflTransGen.single ⟨sampleTurns.1, by decide, by decide⟩

/-- The last checkpoint is at block 50, and the account was taken back to block 9. -/
def farEnv : Env := { sampleEnv with checkpoints := [(0, 100), (50, 150)] }

def farOps : List Op := [.addAccount 5 ⟨1007, 50⟩ 7 0, .rescan 9 [⟨1007, 50⟩]]

/-- The reply starts at block 5 and the queue gives an account that is at block 9. -/
def aheadTurn : Turn := ⟨⟨5, [105, 106, 107]⟩, ⟨some [sampleUser 9 [] []], [], 1⟩, true, true⟩

theorem replaced_ahead :
    Loop.enter [sampleUser 5 [] []] = some ⟨[sampleUser 5 [] []], 5⟩ ∧ aheadTurn.reply.Honest sampleChain ∧
    ∃ call, ((⟨[sampleUser 5 [] []], 5⟩ : Loop).turn false aheadTurn).1 = some call ∧
      ¬ call.Aligned sampleChain ∧
      ∃ db' out, (Op.runs farEnv farOps).update farEnv call.base call.chain call.users [] false = .ok (db', out) ∧
        ¬ RaisesScanned sampleChain call (Op.runs farEnv farOps) db' := by
  refine ⟨by decide, sample_honest (by decide), _, rfl, fun h => ?_, _, _, rfl, fun h => ?_⟩
  · exact absurd (h 0 105 (by decide) (by decide)) (by decide)
  · obtain ⟨hin, -⟩ := h .active ⟨1, 5, ⟨1007, 50⟩, 7, 9, 9, 5, 0, ⟨0, 0⟩, 0⟩ ⟨1, 5, ⟨1007, 50⟩, 7, 11, 9, 5, 0, ⟨0, 0⟩, 0⟩
      (by decide) (by decide) rfl 11 (by decide) (by decide)
    exact absurd hin (by decide)

end Runs

end Lws.Scanner
