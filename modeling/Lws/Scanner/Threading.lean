/-
  Lws.Scanner.Threading — which thread gets which account (`src/scanner.cpp`, the start
  of `check_loop`; `src/server_main.cpp`, the checks of its options).

  Accounts are divided evenly, or by how far behind the chain they are. With
  `split_sync_threads` the accounts near the top of the chain get threads of their own,
  and the others get the rest of the threads. Where rounding up leaves no rest, the
  others get none and are never scanned (`split_drops_unsynced`). `checkLoop_partition`
  says that every account has one thread in all other cases.
-/

import Lws.Scanner.Loop

namespace Lws.Scanner

/-! ## Options -/

/-- A double between zero and one. -/
structure Ratio where
  significand : Nat
  exponent : Nat
  bits : significand < 2 ^ 53
  unit : significand ≤ 2 ^ exponent

/-- The nearest number of 53 significant bits, ties to even. -/
def roundBits (p : Nat) : Nat :=
  let k := p.log2 - 52
  let q := p / 2 ^ k
  let r := p % 2 ^ k
  if 2 ^ k < 2 * r ∨ (2 * r = 2 ^ k ∧ q % 2 = 1) then (q + 1) * 2 ^ k else q * 2 ^ k

/-- `std::ceil` of the product of the ratio and a count, in doubles. -/
def Ratio.ceilMul (x : Ratio) (n : Nat) : Nat :=
  (roundBits (x.significand * roundBits n) + (2 ^ x.exponent - 1)) / 2 ^ x.exponent

/-- What `check_loop` reads of `scanner_options`. -/
structure ScannerOptions where
  splitSyncThreads : Ratio
  splitSyncDepth : Nat
  minBlockDepth : Nat
  blockDepthThreading : Bool

/-! ## The model -/

structure AccountDepth where
  index : Nat
  /-- With `min_block_depth` applied. -/
  blockdepth : Nat
  rawBlockdepth : Nat

/-- `std::uint64_t` arithmetic: an account above the current height is very deep. -/
def rawDepth (currentHeight : Nat) (user : Lws.Account) : Nat := (2 ^ 64 + currentHeight - user.scanHeight) % 2 ^ 64

def accountDepths (currentHeight minBlockDepth : Nat) (users : List Lws.Account) : List AccountDepth :=
  users.zipIdx.map fun (user, i) =>
    ⟨i, max (rawDepth currentHeight user) minBlockDepth, rawDepth currentHeight user⟩

/-- `thread_assignments[thread].push_back(user)`, `none` outside of the vector. -/
def pushBack (threads : List (List Lws.Account)) (thread : Nat) (user : Lws.Account) :
    Option (List (List Lws.Account)) :=
  if thread < threads.length then some (threads.modify thread (· ++ [user])) else none

/-- Synced accounts, round-robin over the first `synced` threads. -/
def assignSynced (users : List Lws.Account) (synced : Nat) :
    Nat → List AccountDepth → List (List Lws.Account) → Option (List (List Lws.Account))
  | _, [], threads => some threads
  | i, ad :: rest, threads => do
    let user ← users[ad.index]?
    let threads ← pushBack threads (i % synced) user
    assignSynced users synced (i + 1) rest threads

/-- Whether the account goes to the next thread: even threads are filled past their share,
    odd ones up to it. -/
def movesOn (startThread lastThread share currentThread currentDepth : Nat) (ad : AccountDepth) : Bool :=
  decide (currentThread < lastThread) &&
    if (currentThread - startThread) % 2 = 0 then decide (share ≤ currentDepth)
    else decide (share < (currentDepth + ad.blockdepth) % 2 ^ 64)

/-- Accounts by cumulative block depth, from `currentThread` on. -/
def assignDepths (users : List Lws.Account) (startThread lastThread share : Nat) :
    Nat → Nat → List AccountDepth → List (List Lws.Account) → Option (List (List Lws.Account))
  | _, _, [], threads => some threads
  | currentThread, currentDepth, ad :: rest, threads => do
    let moved := movesOn startThread lastThread share currentThread currentDepth ad
    let currentThread := if moved then currentThread + 1 else currentThread
    let currentDepth := if moved then 0 else currentDepth
    let user ← users[ad.index]?
    let threads ← pushBack threads currentThread user
    assignDepths users startThread lastThread share currentThread ((currentDepth + ad.blockdepth) % 2 ^ 64) rest threads

/-- "Distribute remaining accounts using block-depth-threading"; thread counts are
    `std::size_t`. -/
def assignRemaining (users : List Lws.Account) (accounts : List AccountDepth) (startThread numThreads : Nat)
    (threads : List (List Lws.Account)) : Option (List (List Lws.Account)) :=
  if accounts.isEmpty ∨ numThreads = 0 then some threads
  else
    let total := (accounts.map (·.blockdepth)).sum % 2 ^ 64
    let lastThread := (startThread + numThreads - 1) % 2 ^ 64
    assignDepths users startThread lastThread (total / numThreads) startThread 0 accounts threads

def numSyncedThreads (opts : ScannerOptions) (threadCount : Nat) : Nat :=
  max 1 (opts.splitSyncThreads.ceilMul threadCount)

def isSynced (opts : ScannerOptions) (ad : AccountDepth) : Bool := decide (ad.rawBlockdepth ≤ opts.splitSyncDepth)

/-- The threads by block depth; `sorted` is what `std::sort` makes of the depths. -/
def assignByDepth (opts : ScannerOptions) (users : List Lws.Account) (threadCount : Nat) (sorted : List AccountDepth) :
    Option (List (List Lws.Account)) :=
  let threads := List.replicate threadCount []
  if opts.splitSyncThreads.significand = 0 then assignRemaining users sorted 0 threadCount threads
  else
    let synced := sorted.filter (isSynced opts)
    let unsynced := sorted.filter fun ad => !isSynced opts ad
    if synced.isEmpty then assignRemaining users unsynced 0 threadCount threads
    else do
      let numSynced := numSyncedThreads opts threadCount
      let threads ← assignSynced users (min numSynced synced.length) 0 synced threads
      assignRemaining users unsynced numSynced ((2 ^ 64 + threadCount - numSynced) % 2 ^ 64) threads

/-- "Original algorithm": every queue takes its share of the users left from the end. -/
def assignEvenly : Nat → List Lws.Account → List (List Lws.Account)
  | 0, _ => []
  | queues + 1, users =>
    let count := users.length / (queues + 1)
    users.drop (users.length - count) :: assignEvenly queues (users.take (users.length - count))

/-- The accounts each thread of `check_loop` starts with. `std::sort` leaves the order of
    equal elements open: `sortDepths` and `sortUsers` stand for the order it takes. -/
def checkLoop (sortDepths : List AccountDepth → List AccountDepth) (sortUsers : List Lws.Account → List Lws.Account)
    (opts : ScannerOptions) (currentHeight threadCount : Nat) (users : List Lws.Account) : Option (List (List Lws.Account)) :=
  if opts.blockDepthThreading then
    assignByDepth opts users threadCount (sortDepths (accountDepths currentHeight opts.minBlockDepth users))
  else some (assignEvenly threadCount (sortUsers users))

/-! ## Rounding -/

theorem roundBits_le {p n e : Nat} (hn : n < 2 ^ 53) (hp : p ≤ n * 2 ^ e) : roundBits p ≤ n * 2 ^ e := by
  have hdiv : p / 2 ^ (p.log2 - 52) * 2 ^ (p.log2 - 52) ≤ p := Nat.div_mul_le_self _ _
  unfold roundBits
  dsimp only
  split
  · rename_i hup
    by_cases hk : p.log2 - 52 ≤ e
    · -- `n * 2 ^ e` is a multiple of the last place, and above `p`
      obtain ⟨d, rfl⟩ := Nat.exists_eq_add_of_le hk
      have hr : 0 < p % 2 ^ (p.log2 - 52) := by
        have := Nat.two_pow_pos (p.log2 - 52)
        omega
      have hlt : p / 2 ^ (p.log2 - 52) < n * 2 ^ d := by
        rw [Nat.div_lt_iff_lt_mul (Nat.two_pow_pos _), Nat.mul_assoc, ← Nat.pow_add, Nat.add_comm d]
        refine lt_of_le_of_ne hp fun he => ?_
        rw [Nat.pow_add, Nat.mul_comm (2 ^ _) (2 ^ d), ← Nat.mul_assoc] at he
        have hzero : p % 2 ^ (p.log2 - 52) = 0 := Nat.mod_eq_zero_of_dvd ⟨n * 2 ^ d, he.trans (Nat.mul_comm _ _)⟩
        omega
      calc (p / 2 ^ (p.log2 - 52) + 1) * 2 ^ (p.log2 - 52) ≤ n * 2 ^ d * 2 ^ (p.log2 - 52) := Nat.mul_le_mul_right _ hlt
        _ = n * 2 ^ (p.log2 - 52 + d) := by rw [Nat.mul_assoc, ← Nat.pow_add, Nat.add_comm d]
    · -- then `p` has more bits than `n * 2 ^ e`
      exfalso
      have hne : p ≠ 0 := by
        rintro rfl
        simp at hk
      have hlow : 2 ^ p.log2 ≤ p := Nat.log2_self_le hne
      have hhigh : n * 2 ^ e < 2 ^ (53 + e) := by
        rw [Nat.pow_add]
        exact Nat.mul_lt_mul_of_pos_right hn (Nat.two_pow_pos e)
      have hbits : 2 ^ (53 + e) ≤ 2 ^ p.log2 := Nat.pow_le_pow_right (by decide) (by omega)
      omega
  · exact hdiv.trans hp

theorem roundBits_eq {p : Nat} (h : p < 2 ^ 53) : roundBits p = p := by
  have hk : p.log2 - 52 = 0 := by
    rcases Nat.eq_zero_or_pos p with rfl | hpos
    · rfl
    · have := (Nat.log2_lt (by omega)).mpr h
      omega
  unfold roundBits
  simp [hk, Nat.mod_one]

theorem numSyncedThreads_le {opts : ScannerOptions} {threadCount : Nat} (hpos : 0 < threadCount)
    (h : threadCount < 2 ^ 53) :
    numSyncedThreads opts threadCount ≤ threadCount := by
  refine Nat.max_le.mpr ⟨hpos, ?_⟩
  unfold Ratio.ceilMul
  rw [roundBits_eq h]
  have hle : opts.splitSyncThreads.significand * threadCount ≤ threadCount * 2 ^ opts.splitSyncThreads.exponent := by
    rw [Nat.mul_comm]
    exact Nat.mul_le_mul_left _ opts.splitSyncThreads.unit
  have hround := roundBits_le h hle
  have hone := Nat.two_pow_pos opts.splitSyncThreads.exponent
  refine Nat.le_of_lt_succ ((Nat.div_lt_iff_lt_mul hone).mpr ?_)
  rw [Nat.succ_mul]
  omega

/-! ## Pushing -/

section Push

variable {users : List Lws.Account} {threads threads' : List (List Lws.Account)}

theorem flatten_modify (user : Lws.Account) :
    ∀ (threads : List (List Lws.Account)) {thread : Nat}, thread < threads.length →
    (threads.modify thread (· ++ [user])).flatten.Perm (user :: threads.flatten) := by
  intro threads
  induction threads with
  | nil => intro thread h; exact absurd h (Nat.not_lt_zero _)
  | cons first rest ih =>
    intro thread h
    cases thread with
    | zero => simp
    | succ thread =>
      have hrest := ih (Nat.lt_of_succ_lt_succ h)
      simp only [List.modify_succ_cons, List.flatten_cons]
      exact (hrest.append_left first).trans List.perm_middle

def taken (users : List Lws.Account) (accounts : List AccountDepth) : List Lws.Account :=
  accounts.filterMap fun ad => users[ad.index]?

/-- The threads hold what they held and the accounts given to them. -/
structure Gives (users : List Lws.Account) (accounts : List AccountDepth) (threads threads' : List (List Lws.Account)) :
    Prop where
  length : threads'.length = threads.length
  accounts : threads'.flatten.Perm (taken users accounts ++ threads.flatten)

theorem gives_nil (users : List Lws.Account) (threads : List (List Lws.Account)) : Gives users [] threads threads :=
  ⟨rfl, List.Perm.refl _⟩

theorem Gives.cons {ad : AccountDepth} {rest : List AccountDepth} {user : Lws.Account} {thread : Nat}
    (hthread : thread < threads.length) (huser : users[ad.index]? = some user)
    (h : Gives users rest (threads.modify thread (· ++ [user])) threads') : Gives users (ad :: rest) threads threads' := by
  refine ⟨by rw [h.length, List.length_modify], h.accounts.trans ?_⟩
  have hhead : taken users (ad :: rest) = user :: taken users rest := by simp [taken, huser]
  rw [hhead, List.cons_append]
  exact ((flatten_modify user threads hthread).append_left _).trans List.perm_middle

theorem assignSynced_gives {synced : Nat} (hpos : 0 < synced) : ∀ (accounts : List AccountDepth) {i : Nat}
    {threads : List (List Lws.Account)}, (∀ ad ∈ accounts, ad.index < users.length) → synced ≤ threads.length →
      ∃ threads', assignSynced users synced i accounts threads = some threads' ∧ Gives users accounts threads threads' := by
  intro accounts
  induction accounts with
  | nil => intro i threads _ _; exact ⟨threads, rfl, gives_nil users threads⟩
  | cons ad rest ih =>
    intro i threads hindex hle
    rw [List.forall_mem_cons] at hindex
    have huser := List.getElem?_eq_getElem hindex.1
    have hthread : i % synced < threads.length := (Nat.mod_lt i hpos).trans_le hle
    obtain ⟨threads', hrun, hgives⟩ := @ih (i + 1) (threads.modify (i % synced) (· ++ [users[ad.index]])) hindex.2
      (by rw [List.length_modify]; exact hle)
    exact ⟨threads', by simp [assignSynced, pushBack, huser, hthread, hrun], hgives.cons hthread huser⟩

/-- An account whose turn comes at a thread that is not there. -/
theorem assignSynced_none {synced : Nat} :
    ∀ (accounts : List AccountDepth) {i j : Nat} {threads : List (List Lws.Account)},
    j < accounts.length → threads.length ≤ (i + j) % synced → assignSynced users synced i accounts threads = none := by
  intro accounts
  induction accounts with
  | nil => intro i j threads hj; exact absurd hj (Nat.not_lt_zero _)
  | cons ad rest ih =>
    intro i j threads hj hle
    unfold assignSynced
    rcases users[ad.index]? with _ | user
    · rfl
    · by_cases hthread : i % synced < threads.length
      · cases j with
        | zero =>
          rw [Nat.add_zero] at hle
          omega
        | succ j =>
          have hrest := @ih (i + 1) j (threads.modify (i % synced) (· ++ [user])) (Nat.lt_of_succ_lt_succ hj)
            (by rw [List.length_modify, Nat.add_right_comm]; exact hle)
          simp [pushBack, hthread, hrest]
      · simp [pushBack, hthread]

theorem assignDepths_gives {startThread lastThread share : Nat} : ∀ (accounts : List AccountDepth)
    {currentThread currentDepth : Nat} {threads : List (List Lws.Account)}, (∀ ad ∈ accounts, ad.index < users.length) →
    currentThread < threads.length → lastThread < threads.length →
      ∃ threads', assignDepths users startThread lastThread share currentThread currentDepth accounts threads = some threads' ∧
        Gives users accounts threads threads' := by
  intro accounts
  induction accounts with
  | nil => intro currentThread currentDepth threads _ _ _; exact ⟨threads, rfl, gives_nil users threads⟩
  | cons ad rest ih =>
    intro currentThread currentDepth threads hindex hcurrent hlast
    rw [List.forall_mem_cons] at hindex
    have huser := List.getElem?_eq_getElem hindex.1
    -- the account's thread is the current one, or the next where that is not the last
    let moved := movesOn startThread lastThread share currentThread currentDepth ad
    have hthread : (if moved then currentThread + 1 else currentThread) < threads.length := by
      split
      · rename_i hmoved
        have hlt : currentThread < lastThread := of_decide_eq_true (Bool.and_eq_true_iff.mp hmoved).1
        omega
      · exact hcurrent
    obtain ⟨threads', hrun, hgives⟩ := @ih (if moved then currentThread + 1 else currentThread)
      (((if moved then 0 else currentDepth) + ad.blockdepth) % 2 ^ 64)
      (threads.modify (if moved then currentThread + 1 else currentThread) (· ++ [users[ad.index]])) hindex.2
      (by rw [List.length_modify]; exact hthread) (by rw [List.length_modify]; exact hlast)
    refine ⟨threads', ?_, hgives.cons hthread huser⟩
    unfold assignDepths
    simp only [huser, pushBack, Option.bind_eq_bind, Option.bind_some]
    rw [if_pos hthread]
    exact hrun

theorem assignDepths_none {startThread lastThread share currentThread currentDepth : Nat} {accounts : List AccountDepth}
    (hne : accounts ≠ []) (hle : threads.length ≤ currentThread) :
    assignDepths users startThread lastThread share currentThread currentDepth accounts threads = none := by
  cases accounts with
  | nil => exact absurd rfl hne
  | cons ad rest =>
    unfold assignDepths
    have hout : ∀ moved : Bool, ¬ (if moved then currentThread + 1 else currentThread) < threads.length := by
      intro moved
      split <;> omega
    rcases users[ad.index]? with _ | user
    · rfl
    · simp [pushBack, hout]

theorem assignRemaining_gives {accounts : List AccountDepth} {startThread numThreads : Nat}
    (hindex : ∀ ad ∈ accounts, ad.index < users.length) (hle : startThread + numThreads ≤ threads.length)
    (hpos : accounts = [] ∨ 0 < numThreads) :
    ∃ threads', assignRemaining users accounts startThread numThreads threads = some threads' ∧
      Gives users accounts threads threads' := by
  unfold assignRemaining
  split
  · rename_i hnone
    obtain rfl : accounts = [] := by
      rcases hnone with h | h
      · exact List.isEmpty_iff.mp h
      · exact hpos.resolve_right (by omega)
    exact ⟨threads, rfl, gives_nil users threads⟩
  · rename_i hsome
    have hlast : (startThread + numThreads - 1) % 2 ^ 64 < threads.length := by
      have := Nat.mod_le (startThread + numThreads - 1) (2 ^ 64)
      omega
    exact assignDepths_gives accounts hindex (by omega) hlast

/-- The accounts left over have no thread, or one that is not there. -/
theorem assignRemaining_drops {accounts : List AccountDepth} {startThread numThreads : Nat} (hne : accounts ≠ [])
    (hle : threads.length ≤ startThread)
    (h : assignRemaining users accounts startThread numThreads threads = some threads') : threads' = threads := by
  unfold assignRemaining at h
  split at h
  · cases h
    rfl
  · rw [assignDepths_none hne hle] at h
    cases h

end Push

/-! ## Who is synced -/

section Depths

variable {users : List Lws.Account} {currentHeight minBlockDepth : Nat}

theorem mem_accountDepths {ad : AccountDepth} (h : ad ∈ accountDepths currentHeight minBlockDepth users) :
    ∃ user, users[ad.index]? = some user ∧ ad.rawBlockdepth = rawDepth currentHeight user := by
  obtain ⟨⟨user, i⟩, hm, rfl⟩ := List.mem_map.mp h
  exact ⟨user, List.mem_zipIdx_iff_getElem?.mp hm, rfl⟩

theorem taken_accountDepths : taken users (accountDepths currentHeight minBlockDepth users) = users := by
  have hlookup : ∀ x ∈ users.zipIdx, users[x.2]? = (some ∘ Prod.fst) x := fun x hx => List.mem_zipIdx_iff_getElem?.mp hx
  unfold taken accountDepths
  rw [List.filterMap_map]
  refine (List.filterMap_congr hlookup).trans ?_
  rw [List.filterMap_eq_map, List.zipIdx_map_fst]

theorem exists_depth {user : Lws.Account} (h : user ∈ users) :
    ∃ ad ∈ accountDepths currentHeight minBlockDepth users, ad.rawBlockdepth = rawDepth currentHeight user := by
  obtain ⟨i, hi⟩ := List.getElem?_of_mem h
  exact ⟨_, List.mem_map.mpr ⟨(user, i), List.mem_zipIdx_iff_getElem?.mpr hi, rfl⟩, rfl⟩

end Depths

/-! ## Every account has one thread -/

/-- The ids `scanner::run` records, which are those of the users. -/
def active (users : List Lws.Account) : List Nat := (users.map (·.id)).insertionSort (· ≤ ·)

/-- The threads share out the users, and no recorded account is without a thread. -/
structure Partition (threadCount : Nat) (users : List Lws.Account) (threads : List (List Lws.Account)) : Prop where
  count : threads.length = threadCount
  accounts : threads.flatten.Perm users
  active : ∀ id ∈ active users, ∃ thread ∈ threads, ∃ user ∈ thread, user.id = id

/-- There are threads left for the accounts that are not synced: the synced ones have no
    threads of their own, or there are only such or no such accounts, or their threads are
    fewer than all. -/
def ThreadsLeft (opts : ScannerOptions) (currentHeight threadCount : Nat) (users : List Lws.Account) : Prop :=
  opts.blockDepthThreading = false ∨ opts.splitSyncThreads.significand = 0 ∨
    (∀ user ∈ users, opts.splitSyncDepth < rawDepth currentHeight user) ∨
    ((∀ user ∈ users, rawDepth currentHeight user ≤ opts.splitSyncDepth) ∧
      min (numSyncedThreads opts threadCount) users.length ≤ threadCount) ∨
    numSyncedThreads opts threadCount < threadCount

/-- Unless there are 2^53 threads, none are left only if the synced accounts have them all. -/
theorem threadsLeft_iff {opts : ScannerOptions} {currentHeight threadCount : Nat} {users : List Lws.Account}
    (hpos : 0 < threadCount) (h : threadCount < 2 ^ 53) :
    ThreadsLeft opts currentHeight threadCount users ↔
      opts.blockDepthThreading = false ∨ opts.splitSyncThreads.significand = 0 ∨
        (∀ user ∈ users, opts.splitSyncDepth < rawDepth currentHeight user) ∨
        (∀ user ∈ users, rawDepth currentHeight user ≤ opts.splitSyncDepth) ∨
        numSyncedThreads opts threadCount ≠ threadCount := by
  have hle : numSyncedThreads opts threadCount ≤ threadCount := numSyncedThreads_le hpos h
  unfold ThreadsLeft
  refine or_congr_right (or_congr_right (or_congr_right (or_congr ?_ ?_)))
  · exact and_iff_left ((Nat.min_le_left _ _).trans hle)
  · exact ⟨Nat.ne_of_lt, fun hne => Nat.lt_of_le_of_ne hle hne⟩

section Partition

variable {opts : ScannerOptions} {currentHeight threadCount : Nat} {users : List Lws.Account}
  {threads : List (List Lws.Account)}

theorem partition_of (hlen : threads.length = threadCount) (hperm : threads.flatten.Perm users) :
    Partition threadCount users threads := by
  refine ⟨hlen, hperm, fun id hid => ?_⟩
  obtain ⟨user, hu, rfl⟩ := List.mem_map.mp ((List.perm_insertionSort _ _).mem_iff.mp hid)
  obtain ⟨thread, ht, hu⟩ := List.mem_flatten.mp (hperm.mem_iff.mpr hu)
  exact ⟨thread, ht, user, hu, rfl⟩

theorem assignEvenly_partition : ∀ (queues : Nat) (users : List Lws.Account), 0 < queues →
    (assignEvenly queues users).length = queues ∧ (assignEvenly queues users).flatten.Perm users := by
  intro queues
  induction queues with
  | zero => intro users h; exact absurd h (Nat.lt_irrefl 0)
  | succ queues ih =>
    intro users _
    unfold assignEvenly
    dsimp only
    rcases Nat.eq_zero_or_pos queues with rfl | hpos
    · simp [assignEvenly]
    · obtain ⟨hlen, hperm⟩ := ih (users.take (users.length - users.length / (queues + 1))) hpos
      refine ⟨by rw [List.length_cons, hlen], ?_⟩
      rw [List.flatten_cons]
      refine (hperm.append_left _).trans (List.perm_append_comm.trans ?_)
      rw [List.take_append_drop]

theorem gives_partition {accounts : List AccountDepth} (hperm : (taken users accounts).Perm users)
    (h : Gives users accounts (List.replicate threadCount []) threads) : Partition threadCount users threads := by
  refine partition_of (by rw [h.length, List.length_replicate]) (h.accounts.trans ?_)
  rw [List.flatten_replicate_nil, List.append_nil]
  exact hperm

theorem length_taken {accounts : List AccountDepth} (h : ∀ ad ∈ accounts, ad.index < users.length) :
    (taken users accounts).length = accounts.length := by
  induction accounts with
  | nil => rfl
  | cons ad rest ih =>
    rw [List.forall_mem_cons] at h
    have hrest := ih h.2
    simp [taken, List.getElem?_eq_getElem h.1] at hrest ⊢
    exact hrest

section Sorted

variable {sorted : List AccountDepth} (hsorted : sorted.Perm (accountDepths currentHeight opts.minBlockDepth users))

include hsorted

theorem sorted_index : ∀ ad ∈ sorted, ad.index < users.length := by
  intro ad hm
  obtain ⟨user, hu, -⟩ := mem_accountDepths (hsorted.mem_iff.mp hm)
  exact (List.getElem?_eq_some_iff.mp hu).1

theorem taken_sorted : (taken users sorted).Perm users := by
  have h := hsorted.filterMap fun ad : AccountDepth => users[ad.index]?
  exact h.trans (List.Perm.of_eq taken_accountDepths)

theorem taken_split : (taken users (sorted.filter fun ad => !isSynced opts ad) ++
    taken users (sorted.filter (isSynced opts))).Perm users := by
  have h := (List.filter_append_perm (isSynced opts) sorted).filterMap fun ad => users[ad.index]?
  rw [List.filterMap_append] at h
  exact (List.perm_append_comm.trans h).trans (taken_sorted hsorted)

theorem synced_eq_nil : sorted.filter (isSynced opts) = [] ↔
    ∀ user ∈ users, opts.splitSyncDepth < rawDepth currentHeight user := by
  rw [List.filter_eq_nil_iff]
  constructor
  · intro h user hu
    obtain ⟨ad, hm, hraw⟩ := @exists_depth users currentHeight opts.minBlockDepth user hu
    have := h ad (hsorted.mem_iff.mpr hm)
    simpa [isSynced, hraw] using this
  · intro h ad hm
    obtain ⟨user, hu, hraw⟩ := mem_accountDepths (hsorted.mem_iff.mp hm)
    have := h user (List.mem_of_getElem? hu)
    simpa [isSynced, hraw] using this

theorem unsynced_eq_nil : (sorted.filter fun ad => !isSynced opts ad) = [] ↔
    ∀ user ∈ users, rawDepth currentHeight user ≤ opts.splitSyncDepth := by
  rw [List.filter_eq_nil_iff]
  constructor
  · intro h user hu
    obtain ⟨ad, hm, hraw⟩ := @exists_depth users currentHeight opts.minBlockDepth user hu
    have := h ad (hsorted.mem_iff.mpr hm)
    simpa [isSynced, hraw] using this
  · intro h ad hm
    obtain ⟨user, hu, hraw⟩ := mem_accountDepths (hsorted.mem_iff.mp hm)
    have := h user (List.mem_of_getElem? hu)
    simpa [isSynced, hraw] using this

theorem assignSplit_partition (hsize : threadCount < 2 ^ 64) (hne : sorted.filter (isSynced opts) ≠ []) :
    (∃ threads, (assignSynced users (min (numSyncedThreads opts threadCount) (sorted.filter (isSynced opts)).length) 0
        (sorted.filter (isSynced opts)) (List.replicate threadCount []) >>= fun threads =>
          assignRemaining users (sorted.filter fun ad => !isSynced opts ad) (numSyncedThreads opts threadCount)
            ((2 ^ 64 + threadCount - numSyncedThreads opts threadCount) % 2 ^ 64) threads) = some threads ∧
        Partition threadCount users threads) ↔
      ((∀ user ∈ users, rawDepth currentHeight user ≤ opts.splitSyncDepth) ∧
        min (numSyncedThreads opts threadCount) users.length ≤ threadCount) ∨
      numSyncedThreads opts threadCount < threadCount := by
  let synced := sorted.filter (isSynced opts)
  let unsynced := sorted.filter fun ad => !isSynced opts ad
  have hpos : 0 < min (numSyncedThreads opts threadCount) synced.length :=
    lt_min (lt_of_lt_of_le Nat.zero_lt_one (Nat.le_max_left 1 _)) (List.length_pos_iff.mpr hne)
  have hsynced : ∀ ad ∈ synced, ad.index < users.length := fun ad hm => sorted_index hsorted ad (List.mem_filter.mp hm).1
  have hunsynced : ∀ ad ∈ unsynced, ad.index < users.length := fun ad hm => sorted_index hsorted ad (List.mem_filter.mp hm).1
  have hlen : (List.replicate threadCount ([] : List Lws.Account)).length = threadCount := List.length_replicate
  have htotal : (taken users unsynced).length + (taken users synced).length = users.length := by
    rw [← List.length_append]
    exact (taken_split hsorted).length_eq
  rw [length_taken hsynced, length_taken hunsynced] at htotal
  constructor
  · intro ⟨threads, hrun, hpart⟩
    obtain ⟨threads₁, hfirst, hrest⟩ := Option.bind_eq_some_iff.mp hrun
    by_contra hno
    rw [not_or, not_and, not_lt] at hno
    have hfew : min (numSyncedThreads opts threadCount) synced.length ≤ threadCount := by
      by_contra hmany
      have hnone := @assignSynced_none users (min (numSyncedThreads opts threadCount) synced.length) synced 0 threadCount
        (List.replicate threadCount []) (by omega) (by rw [hlen, Nat.zero_add, Nat.mod_eq_of_lt (by omega)])
      rw [hnone] at hfirst
      cases hfirst
    obtain ⟨threads₂, hfirst', hgives⟩ := @assignSynced_gives users _ hpos synced 0 (List.replicate threadCount []) hsynced
      (by rw [hlen]; exact hfew)
    cases hfirst'.symm.trans hfirst
    have hothers : unsynced ≠ [] := by
      intro hnil
      have hall := (unsynced_eq_nil hsorted).mp hnil
      rw [hnil, List.length_nil, Nat.zero_add] at htotal
      exact hno.1 hall (htotal ▸ hfew)
    have hsame := assignRemaining_drops hothers (by rw [hgives.length, hlen]; exact hno.2) hrest
    have hshort := hpart.accounts.length_eq
    rw [hsame, hgives.accounts.length_eq, List.flatten_replicate_nil, List.append_nil, length_taken hsynced] at hshort
    have := List.length_pos_iff.mpr hothers
    omega
  · intro hleft
    have hfew : min (numSyncedThreads opts threadCount) synced.length ≤ threadCount := by omega
    obtain ⟨threads₁, hfirst, hgives₁⟩ := @assignSynced_gives users _ hpos synced 0 (List.replicate threadCount []) hsynced
      (by rw [hlen]; exact hfew)
    have hrest : ∃ threads, assignRemaining users unsynced (numSyncedThreads opts threadCount)
        ((2 ^ 64 + threadCount - numSyncedThreads opts threadCount) % 2 ^ 64) threads₁ = some threads ∧
          Gives users unsynced threads₁ threads := by
      rcases hleft with ⟨hall, -⟩ | hlt
      · rw [show unsynced = [] from (unsynced_eq_nil hsorted).mpr hall]
        exact ⟨threads₁, by simp [assignRemaining], gives_nil users threads₁⟩
      · have hnum : (2 ^ 64 + threadCount - numSyncedThreads opts threadCount) % 2 ^ 64 =
            threadCount - numSyncedThreads opts threadCount := by omega
        rw [hnum]
        exact assignRemaining_gives hunsynced (by rw [hgives₁.length, hlen]; omega) (Or.inr (by omega))
    obtain ⟨threads, hsecond, hgives⟩ := hrest
    refine ⟨threads, by rw [hfirst]; exact hsecond, partition_of ?_ ?_⟩
    · rw [hgives.length, hgives₁.length, hlen]
    · have hboth := hgives.accounts.trans (hgives₁.accounts.append_left _)
      rw [List.flatten_replicate_nil, List.append_nil] at hboth
      exact hboth.trans (taken_split hsorted)

end Sorted

/-- The distribution of `check_loop` shares out the users exactly if threads are left for
    those who are not synced. -/
theorem checkLoop_partition {sortDepths : List AccountDepth → List AccountDepth}
    {sortUsers : List Lws.Account → List Lws.Account} (hdepths : ∀ l, (sortDepths l).Perm l)
    (husers : ∀ l, (sortUsers l).Perm l) (opts : ScannerOptions) (currentHeight : Nat) {threadCount : Nat}
    (hpos : 0 < threadCount) (hsize : threadCount < 2 ^ 64) (users : List Lws.Account) :
    (∃ threads, checkLoop sortDepths sortUsers opts currentHeight threadCount users = some threads ∧
      Partition threadCount users threads) ↔ ThreadsLeft opts currentHeight threadCount users := by
  unfold checkLoop
  rcases hdepth : opts.blockDepthThreading with _ | _
  · obtain ⟨hlen, hperm⟩ := assignEvenly_partition threadCount (sortUsers users) hpos
    refine iff_of_true ⟨_, by rw [if_neg (by simp)], partition_of hlen (hperm.trans (husers users))⟩ (Or.inl hdepth)
  · have hsorted := hdepths (accountDepths currentHeight opts.minBlockDepth users)
    rw [if_pos rfl]
    unfold assignByDepth ThreadsLeft
    dsimp only
    have hall : ∃ threads, assignRemaining users (sortDepths (accountDepths currentHeight opts.minBlockDepth users)) 0
        threadCount (List.replicate threadCount []) = some threads ∧ Partition threadCount users threads := by
      obtain ⟨threads, hrun, hgives⟩ := @assignRemaining_gives users (List.replicate threadCount []) _ 0 threadCount
        (sorted_index hsorted) (Nat.le_of_eq (by rw [Nat.zero_add, List.length_replicate])) (Or.inr hpos)
      exact ⟨threads, hrun, gives_partition (taken_sorted hsorted) hgives⟩
    by_cases hsplit : opts.splitSyncThreads.significand = 0
    · rw [if_pos hsplit]
      exact iff_of_true hall (Or.inr (Or.inl hsplit))
    · rw [if_neg hsplit]
      by_cases hne : (sortDepths (accountDepths currentHeight opts.minBlockDepth users)).filter (isSynced opts) = []
      · rw [if_pos (by rw [hne]; rfl)]
        refine iff_of_true ?_ (Or.inr (Or.inr (Or.inl ((synced_eq_nil hsorted).mp hne))))
        rw [List.filter_eq_self.mpr fun ad hm => by simpa using List.filter_eq_nil_iff.mp hne ad hm]
        exact hall
      · rw [if_neg fun h => hne (List.isEmpty_iff.mp h)]
        refine (assignSplit_partition hsorted hsize hne).trans ⟨fun h => Or.inr (Or.inr (Or.inr h)), fun h => ?_⟩
        rcases h with h | h | h | h
        · cases hdepth.symm.trans h
        · exact absurd h hsplit
        · exact absurd ((synced_eq_nil hsorted).mpr h) hne
        · exact h

end Partition

/-! ## Two runs -/

def sortByDepth (accounts : List AccountDepth) : List AccountDepth :=
  accounts.insertionSort fun a b => a.rawBlockdepth ≤ b.rawBlockdepth

def userAt (id scanHeight : Nat) : Lws.Account := ⟨id, ⟨1000 + id, 50⟩, id, scanHeight, [], [], [], []⟩

/-- A quarter of the threads is for accounts at most ten blocks behind. -/
def quarterSynced : ScannerOptions := ⟨⟨1, 2, by decide, by decide⟩, 10, 16, true⟩

theorem checkLoop_partition_three :
    ∃ threads, checkLoop sortByDepth sortByHeight quarterSynced 100 3
        [userAt 1 100, userAt 2 5, userAt 3 95, userAt 4 200, userAt 5 40] = some threads ∧
      Partition 3 [userAt 1 100, userAt 2 5, userAt 3 95, userAt 4 200, userAt 5 40] threads :=
  (checkLoop_partition (fun l => List.perm_insertionSort _ l) (fun l => List.perm_insertionSort _ l) quarterSynced 100
    (by decide) (by decide) _).mpr (Or.inr (Or.inr (Or.inr (Or.inr (by decide)))))

/-- One thread: it is a synced one, and the account that is behind has none. -/
theorem split_drops_unsynced :
    checkLoop sortByDepth sortByHeight quarterSynced 100 1 [userAt 1 100, userAt 2 5] = some [[userAt 1 100]] ∧
      ¬ ∃ threads, checkLoop sortByDepth sortByHeight quarterSynced 100 1 [userAt 1 100, userAt 2 5] = some threads ∧
        Partition 1 [userAt 1 100, userAt 2 5] threads := by
  have hrun : checkLoop sortByDepth sortByHeight quarterSynced 100 1 [userAt 1 100, userAt 2 5] = some [[userAt 1 100]] := by
    decide +kernel
  refine ⟨hrun, fun ⟨threads, hsome, hpart⟩ => ?_⟩
  cases hrun.symm.trans hsome
  have hlen := hpart.accounts.length_eq
  exact absurd hlen (by decide)

end Lws.Scanner
