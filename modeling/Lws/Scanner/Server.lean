/-
  Lws.Scanner.Server — how the daemon shares out the accounts among its own scan threads
  and the remote scanners (`src/rpc/scanner/server.cpp`: `do_replace_users`).

  Every queue and every remote takes its part of the users that are left, from the end of
  the list. A queue's part is one share of the threads that are left; a remote's part is
  its threads times the share rounded down, so what the last remote's division leaves
  over goes to nobody, and is recorded as active all the same (`third_account_unshared`).
  `doReplaceUsers_handsOut` says for which counts nothing is left over.
-/

import Lws.Scanner.Threading

namespace Lws.Scanner

/-! ## The model -/

/-- What the server reads of a `server_connection`. -/
structure Remote where
  conn : Nat
  /-- Zero until the connection is initialized. -/
  threads : Nat
  /-- The `weak_ptr` can be locked. -/
  live : Bool
  deriving DecidableEq, Repr

/-- A queue of a local thread, or a connection. -/
inductive Worker where
  | queue (index : Nat)
  | remote (conn : Nat)
  deriving DecidableEq, Repr

structure Server where
  /-- `local_.size()`. -/
  locals : Nat
  /-- `remote_`, in the order of the set: that of the addresses. -/
  remotes : List Remote
  active : List Nat
  nextThread : Nat
  /-- `balance_new_addresses_`. -/
  balance : Bool
  /-- Calls of `replace_users` that are not run yet. -/
  queued : Nat
  /-- The active accounts of the database, in the order of their ids. -/
  users : List Lws.Account
  /-- What was sent to the workers from the last replacement on. -/
  sent : List (Worker × List Lws.Account)
  deriving DecidableEq, Repr

inductive ServerError where
  /-- "Exceeded max threads (size_t) across all systems". -/
  | configuration
  /-- A vector is read past its end. -/
  | outOfRange
  deriving DecidableEq, Repr

/-- "Use remote scanning only if users-per-local-thread exceeds this". -/
def remoteThreshold : Nat := 100

def sumThreads : Nat → List Nat → Except ServerError Nat
  | total, [] => .ok total
  | total, threads :: rest =>
    if 2 ^ 64 - 1 - total < threads then .error .configuration else sumThreads (total + threads) rest

section Shares

variable {α : Type}

/-- Up to `count` users from the end of the list, the last first, and the others. -/
def takeBack (count : Nat) (users : List α) : List α × List α :=
  ((users.drop (users.length - count)).reverse, users.take (users.length - count))

/-- The lists of the queues, the threads that remain, and the users that are left. -/
def replaceLocals : Nat → Nat → List α → List (List α) × Nat × List α
  | 0, remaining, users => ([], remaining, users)
  | locals + 1, remaining, users =>
    let (next, users) := takeBack (users.length / remaining) users
    let (lists, out) := replaceLocals locals (remaining - 1) users
    (next :: lists, out)

def replaceRemotes : List Nat → Nat → List α → List (List α) × List α
  | [], _, users => ([], users)
  | threads :: rest, remaining, users =>
    let usersPerThread := users.length / max 1 remaining
    let (next, users) := takeBack (max 1 usersPerThread * threads) users
    let (lists, out) := replaceRemotes rest (remaining - min remaining threads) users
    (next :: lists, out)

end Shares

/-- Each user is inserted at `std::lower_bound` by `by_height`. -/
def insertByHeight (users : List Lws.Account) : List Lws.Account :=
  users.foldl (fun sorted user => sorted.orderedInsert (fun a b => a.scanHeight ≤ b.scanHeight) user) []

/-- Each id is inserted at `std::lower_bound`. -/
def insertIds (users : List Lws.Account) : List Nat :=
  users.foldl (fun ids user => ids.orderedInsert (· ≤ ·) user.id) []

def workers (locals : Nat) (remotes : List Remote) : List Worker :=
  (List.range locals).map Worker.queue ++ remotes.map fun remote => Worker.remote remote.conn

def Server.liveThreads (s : Server) : List Nat := (s.remotes.filter (·.live)).map (·.threads)

def Server.doReplaceUsers (s : Server) : Except ServerError Server := do
  let remotes := s.remotes.filter (·.live)
  let total ← sumThreads s.locals s.liveThreads
  if total = 0 then return { s with remotes }
  let users := insertByHeight s.users
  -- "if under `remote_threshold` users per thread, use local scanning only"
  let remaining := if s.locals ≠ 0 ∧ users.length / s.locals < remoteThreshold then s.locals else total
  let (locals, remaining, users) := replaceLocals s.locals remaining users
  let (lists, _) := replaceRemotes s.liveThreads remaining users
  return { s with
    remotes
    sent := (workers s.locals remotes).zip (locals ++ lists)
    nextThread := 0
    active := insertIds s.users }

/-! ## What is left over -/

/-- The remainder of the users after the division by the threads from each worker on. -/
def unshared : List Nat → Nat → Nat
  | [], count => count
  | threads :: rest, count => unshared rest (count % (threads + rest.sum))

/-- Every account gets a worker: the local threads take them all, there are less than one
    for each remote thread, or no division leaves a remainder that the next ones keep. -/
def SharesOut (locals : Nat) (threads : List Nat) (count : Nat) : Prop :=
  (threads.sum = 0 ∨ locals + threads.sum < 2 ^ 64) ∧
    ((locals ≠ 0 ∧ count / locals < remoteThreshold) ∨ count < threads.sum ∨
      unshared (List.replicate locals 1 ++ threads) count = 0)

instance (locals : Nat) (threads : List Nat) (count : Nat) : Decidable (SharesOut locals threads count) :=
  inferInstanceAs (Decidable (_ ∧ _))

/-- A server that hands out the users it records as active, each to one worker. -/
structure Server.HandsOut (s : Server) : Prop where
  workers : s.sent.map (·.1) = workers s.locals s.remotes
  users : (s.sent.flatMap (·.2)).Perm s.users
  active : s.active.Perm ((s.sent.flatMap (·.2)).map (·.id))
  sorted : s.active.Pairwise (· ≤ ·)

section Counts

def localsLeave : Nat → Nat → Nat → Nat
  | 0, _, count => count
  | locals + 1, remaining, count => localsLeave locals (remaining - 1) (count - count / remaining)

def remotesLeave : List Nat → Nat → Nat → Nat
  | [], _, count => count
  | threads :: rest, remaining, count =>
    remotesLeave rest (remaining - min remaining threads) (count - max 1 (count / max 1 remaining) * threads)

theorem unshared_congr {threads : List Nat} {m n : Nat} (h : m % threads.sum = n % threads.sum) :
    unshared threads m = unshared threads n := by
  cases threads with
  | nil => simpa [unshared] using h
  | cons t rest =>
    simp only [List.sum_cons] at h
    simp only [unshared, h]

/-- A worker with `t` of `t + w` threads takes its share; the others' remainder is that of the rest. -/
theorem share_mod (count t w : Nat) : (count - count / (t + w) * t) % w = count % (t + w) % w := by
  have hdiv : (t + w) * (count / (t + w)) + count % (t + w) = count := Nat.div_add_mod _ _
  have hsplit : count - count / (t + w) * t = count % (t + w) + w * (count / (t + w)) := by
    rw [Nat.add_mul, Nat.mul_comm t] at hdiv
    omega
  rw [hsplit, Nat.add_mul_mod_self_left]

/-- The others' share of each thread is as large. -/
theorem share_le {count t w : Nat} (h : t + w ≤ count) : w ≤ count - count / (t + w) * t := by
  rcases Nat.eq_zero_or_pos (t + w) with h0 | hpos
  · omega
  · have hdiv : (t + w) * (count / (t + w)) + count % (t + w) = count := Nat.div_add_mod _ _
    have hone : 1 ≤ count / (t + w) := Nat.div_pos h hpos
    have hw : w * 1 ≤ w * (count / (t + w)) := Nat.mul_le_mul_left w hone
    rw [Nat.add_mul, Nat.mul_comm t] at hdiv
    omega

theorem localsLeave_all (locals count : Nat) : localsLeave (locals + 1) (locals + 1) count = 0 := by
  induction locals generalizing count with
  | zero => simp [localsLeave]
  | succ locals ih => exact ih _

/-- The queues leave the remotes' remainder, and one user for each remote thread where there were as many. -/
theorem localsLeave_mod {threads : List Nat} (locals count : Nat) :
    unshared threads (localsLeave locals (locals + threads.sum) count) =
        unshared (List.replicate locals 1 ++ threads) count ∧
      (threads.sum ≤ localsLeave locals (locals + threads.sum) count ↔ threads.sum ≤ count) := by
  induction locals generalizing count with
  | zero => simp [localsLeave]
  | succ locals ih =>
    have hsum : (List.replicate locals 1 ++ threads).sum = locals + threads.sum := by simp
    have hthreads : locals + 1 + threads.sum = 1 + (locals + threads.sum) := by omega
    have hmod := share_mod count 1 (locals + threads.sum)
    rw [Nat.mul_one] at hmod
    obtain ⟨hrest, hle⟩ := ih (count - count / (1 + (locals + threads.sum)))
    simp only [localsLeave, List.replicate_succ, List.cons_append, unshared, hsum, hthreads,
      Nat.add_sub_cancel_left]
    refine ⟨hrest.trans (unshared_congr (by rw [hsum, hmod])), hle.trans ?_⟩
    rcases Nat.lt_or_ge count (1 + (locals + threads.sum)) with hlt | hge
    · rw [Nat.div_eq_of_lt hlt, Nat.sub_zero]
    · have hshare := share_le hge
      omega

/-- Where no remote thread has two users, the remotes take them all. -/
theorem remotesLeave_few {threads : List Nat} {count : Nat} (h : count ≤ threads.sum) :
    remotesLeave threads threads.sum count = 0 := by
  induction threads generalizing count with
  | nil => simpa [remotesLeave] using h
  | cons t rest ih =>
    rw [List.sum_cons] at h
    have hone : count / max 1 (t + rest.sum) ≤ 1 := Nat.div_le_of_le_mul (by omega)
    have hmax : max 1 (count / max 1 (t + rest.sum)) = 1 := by omega
    have hmin : t + rest.sum - min (t + rest.sum) t = rest.sum := by omega
    simp only [remotesLeave, List.sum_cons, hmax, hmin]
    exact ih (by omega)

/-- Where each remote thread has a user, the remainder is left. -/
theorem remotesLeave_many {threads : List Nat} {count : Nat} (h : threads.sum ≤ count) :
    remotesLeave threads threads.sum count = unshared threads count := by
  induction threads generalizing count with
  | nil => rfl
  | cons t rest ih =>
    rw [List.sum_cons] at h
    have hmin : t + rest.sum - min (t + rest.sum) t = rest.sum := by omega
    rcases Nat.eq_zero_or_pos (t + rest.sum) with h0 | hpos
    · obtain rfl : t = 0 := by omega
      have hrest : rest.sum = 0 := by omega
      simpa [remotesLeave, unshared, hrest] using @ih count (by omega)
    · have hq : 1 ≤ count / (t + rest.sum) := Nat.div_pos h hpos
      have hmax : max 1 (count / max 1 (t + rest.sum)) = count / (t + rest.sum) := by
        rw [Nat.max_eq_right hpos, Nat.max_eq_right hq]
      simp only [remotesLeave, List.sum_cons, hmax, hmin, unshared]
      exact (ih (share_le h)).trans (unshared_congr (share_mod count t rest.sum))

def leave (locals : Nat) (threads : List Nat) (count : Nat) : Nat :=
  if locals ≠ 0 ∧ count / locals < remoteThreshold then
    remotesLeave threads (locals - locals) (localsLeave locals locals count)
  else remotesLeave threads threads.sum (localsLeave locals (locals + threads.sum) count)

theorem remotesLeave_none (threads : List Nat) (remaining : Nat) : remotesLeave threads remaining 0 = 0 := by
  induction threads generalizing remaining with
  | nil => rfl
  | cons t rest ih => simpa [remotesLeave] using ih _

theorem leave_eq_zero {locals : Nat} {threads : List Nat} {count : Nat} :
    leave locals threads count = 0 ↔ (locals ≠ 0 ∧ count / locals < remoteThreshold) ∨ count < threads.sum ∨
      unshared (List.replicate locals 1 ++ threads) count = 0 := by
  unfold leave
  split
  · rename_i hlocal
    obtain ⟨n, rfl⟩ := Nat.exists_eq_succ_of_ne_zero hlocal.1
    simp only [Nat.succ_eq_add_one, localsLeave_all, remotesLeave_none, true_iff]
    exact Or.inl hlocal
  · rename_i hlocal
    obtain ⟨hmod, hle⟩ := @localsLeave_mod threads locals count
    rw [← hmod, or_iff_right hlocal]
    rcases Nat.lt_or_ge count threads.sum with hlt | hge
    · have hfew : localsLeave locals (locals + threads.sum) count < threads.sum := by omega
      simp [hlt, remotesLeave_few (Nat.le_of_lt hfew)]
    · simp [Nat.not_lt.mpr hge, remotesLeave_many (hle.mpr hge)]

end Counts

/-! ## Every list -/

section Lists

variable {α : Type}

theorem takeBack_perm (count : Nat) (users : List α) :
    ((takeBack count users).1 ++ (takeBack count users).2).Perm users := by
  simp only [takeBack]
  refine ((List.reverse_perm _).append_right _).trans (List.perm_append_comm.trans ?_)
  rw [List.take_append_drop]

@[simp] theorem length_takeBack (count : Nat) (users : List α) :
    (takeBack count users).2.length = users.length - count := by
  simp [takeBack]

/-- What the queues get and leave, and how much of each. -/
theorem replaceLocals_spec (locals remaining : Nat) (users : List α) :
    (replaceLocals locals remaining users).1.length = locals ∧
      (replaceLocals locals remaining users).2.1 = remaining - locals ∧
      ((replaceLocals locals remaining users).1.flatten ++ (replaceLocals locals remaining users).2.2).Perm users ∧
      (replaceLocals locals remaining users).2.2.length = localsLeave locals remaining users.length := by
  induction locals generalizing remaining users with
  | zero => simp [replaceLocals, localsLeave]
  | succ locals ih =>
    obtain ⟨hlen, hrem, hperm, hleft⟩ := ih (remaining - 1) (takeBack (users.length / remaining) users).2
    simp only [replaceLocals, localsLeave, List.length_cons, List.flatten_cons, List.append_assoc]
    refine ⟨by rw [hlen], by rw [hrem]; omega, ?_, by rw [hleft, length_takeBack]⟩
    exact (hperm.append_left _).trans (takeBack_perm _ users)

theorem replaceRemotes_spec (threads : List Nat) (remaining : Nat) (users : List α) :
    (replaceRemotes threads remaining users).1.length = threads.length ∧
      ((replaceRemotes threads remaining users).1.flatten ++ (replaceRemotes threads remaining users).2).Perm users ∧
      (replaceRemotes threads remaining users).2.length = remotesLeave threads remaining users.length := by
  induction threads generalizing remaining users with
  | nil => simp [replaceRemotes, remotesLeave]
  | cons t rest ih =>
    obtain ⟨hlen, hperm, hleft⟩ := ih (remaining - min remaining t)
      (takeBack (max 1 (users.length / max 1 remaining) * t) users).2
    simp only [replaceRemotes, remotesLeave, List.length_cons, List.flatten_cons, List.append_assoc]
    refine ⟨by rw [hlen], ?_, by rw [hleft, length_takeBack]⟩
    exact (hperm.append_left _).trans (takeBack_perm _ users)

end Lists

theorem insertByHeight_perm (users : List Lws.Account) : (insertByHeight users).Perm users := by
  unfold insertByHeight
  rw [← List.foldr_reverse]
  exact (List.perm_insertionSort (fun a b : Lws.Account => a.scanHeight ≤ b.scanHeight) users.reverse).trans
    (List.reverse_perm users)

theorem insertIds_eq (users : List Lws.Account) :
    insertIds users = (users.map (·.id)).reverse.insertionSort (· ≤ ·) := by
  unfold insertIds List.insertionSort
  rw [List.foldr_reverse, List.foldl_map]

theorem insertIds_perm (users : List Lws.Account) : (insertIds users).Perm (users.map (·.id)) := by
  rw [insertIds_eq]
  exact (List.perm_insertionSort _ _).trans (List.reverse_perm _)

theorem insertIds_sorted (users : List Lws.Account) : (insertIds users).Pairwise (· ≤ ·) := by
  rw [insertIds_eq]
  exact List.pairwise_insertionSort _ _

theorem sumThreads_ok {total : Nat} {threads : List Nat} (h : threads.sum = 0 ∨ total + threads.sum < 2 ^ 64) :
    sumThreads total threads = .ok (total + threads.sum) := by
  induction threads generalizing total with
  | nil => simp [sumThreads]
  | cons t rest ih =>
    rw [List.sum_cons] at h
    rw [sumThreads, if_neg (by omega), ih (by omega), List.sum_cons, Nat.add_assoc]

theorem sumThreads_error {total : Nat} {threads : List Nat} (h : ¬ (threads.sum = 0 ∨ total + threads.sum < 2 ^ 64)) :
    sumThreads total threads = .error .configuration := by
  induction threads generalizing total with
  | nil => simp at h
  | cons t rest ih =>
    rw [List.sum_cons] at h
    rw [sumThreads]
    split
    · rfl
    · exact ih (by omega)

@[simp] theorem length_workers (locals : Nat) (remotes : List Remote) :
    (workers locals remotes).length = locals + remotes.length := by
  simp [workers]

/-- A list for each worker, sent in their order. -/
theorem sent_zip {ws : List Worker} {lists : List (List Lws.Account)} (h : ws.length = lists.length) :
    (ws.zip lists).map (·.1) = ws ∧ (ws.zip lists).flatMap (·.2) = lists.flatten := by
  refine ⟨List.map_fst_zip (Nat.le_of_eq h), ?_⟩
  rw [List.flatMap_def, List.map_snd_zip (Nat.le_of_eq h.symm)]

/-- A replacement gives every worker a list, and leaves over what the counts say. -/
theorem doReplaceUsers_ok {s : Server} (hpos : s.locals + s.liveThreads.sum ≠ 0)
    (hfits : s.liveThreads.sum = 0 ∨ s.locals + s.liveThreads.sum < 2 ^ 64) :
    ∃ lists left, s.doReplaceUsers = .ok { s with
        remotes := s.remotes.filter (·.live)
        sent := (workers s.locals (s.remotes.filter (·.live))).zip lists
        nextThread := 0
        active := insertIds s.users } ∧
      (workers s.locals (s.remotes.filter (·.live))).length = lists.length ∧
      (lists.flatten ++ left).Perm s.users ∧ left.length = leave s.locals s.liveThreads s.users.length := by
  have hlen : (insertByHeight s.users).length = s.users.length := (insertByHeight_perm s.users).length_eq
  generalize hremaining : (if s.locals ≠ 0 ∧ (insertByHeight s.users).length / s.locals < remoteThreshold then s.locals
    else s.locals + s.liveThreads.sum) = remaining
  have hspec := replaceLocals_spec s.locals remaining (insertByHeight s.users)
  rcases hlocals : replaceLocals s.locals remaining (insertByHeight s.users) with ⟨locals, threads, rest⟩
  rw [hlocals] at hspec
  obtain ⟨hl1, rfl, hl3, hl4⟩ := hspec
  have hspec := replaceRemotes_spec s.liveThreads (remaining - s.locals) rest
  rcases hremotes : replaceRemotes s.liveThreads (remaining - s.locals) rest with ⟨lists, left⟩
  rw [hremotes] at hspec
  obtain ⟨hr1, hr2, hr3⟩ := hspec
  dsimp only at *
  refine ⟨locals ++ lists, left, ?_, ?_, ?_, hr3.trans ?_⟩
  · simp only [Server.doReplaceUsers, sumThreads_ok hfits, bind, Except.bind, pure, Except.pure, if_neg hpos, hremaining,
      hlocals, hremotes]
  · simp [hl1, hr1, Server.liveThreads]
  · rw [List.flatten_append, List.append_assoc]
    exact ((hr2.append_left _).trans hl3).trans (insertByHeight_perm s.users)
  · rw [hl4, hlen, ← hremaining, hlen, leave]
    split
    · rfl
    · rw [Nat.add_sub_cancel_left]

/-- With at least one thread, the workers share out all users just where the counts leave nothing over. -/
theorem doReplaceUsers_handsOut (s : Server) (hpos : s.locals + s.liveThreads.sum ≠ 0) :
    (∃ s', s.doReplaceUsers = .ok s' ∧ s'.HandsOut ∧ s'.users = s.users ∧ s'.locals = s.locals ∧
        s'.remotes = s.remotes.filter (·.live)) ↔
      SharesOut s.locals s.liveThreads s.users.length := by
  unfold SharesOut
  rw [← leave_eq_zero]
  by_cases hfits : s.liveThreads.sum = 0 ∨ s.locals + s.liveThreads.sum < 2 ^ 64
  · obtain ⟨lists, left, hrun, hlen, hperm, hleft⟩ := doReplaceUsers_ok hpos hfits
    obtain ⟨hworkers, husers⟩ := sent_zip hlen
    constructor
    · intro ⟨s', hs', hout, _, _, _⟩
      refine ⟨hfits, ?_⟩
      cases hrun.symm.trans hs'
      have hall := hout.users.length_eq.trans hperm.length_eq.symm
      dsimp only at hall
      rw [husers, List.length_append] at hall
      omega
    · intro ⟨_, hzero⟩
      rw [hzero] at hleft
      rw [List.eq_nil_of_length_eq_zero hleft, List.append_nil] at hperm
      refine ⟨_, hrun, ⟨hworkers, ?_, ?_, insertIds_sorted s.users⟩, rfl, rfl, rfl⟩
      · dsimp only; rw [husers]; exact hperm
      · dsimp only; rw [husers]; exact (insertIds_perm s.users).trans (hperm.map _).symm
  · have herror : s.doReplaceUsers = .error .configuration := by
      simp [Server.doReplaceUsers, sumThreads_error hfits, bind, Except.bind]
    refine iff_of_false (fun ⟨s', hs', _⟩ => ?_) fun h => hfits h.1
    rw [herror] at hs'
    cases hs'

def sharedServer : Server :=
  ⟨0, [⟨7, 2, true⟩, ⟨8, 4, false⟩, ⟨9, 3, true⟩], [], 4, false, 0, (List.range 8).map fun id => userAt id 10, []⟩

theorem doReplaceUsers_handsOut_sample :
    ∃ s', sharedServer.doReplaceUsers = .ok s' ∧ s'.HandsOut ∧ s'.users = sharedServer.users ∧ s'.locals = 0 ∧
      s'.remotes = [⟨7, 2, true⟩, ⟨9, 3, true⟩] :=
  (doReplaceUsers_handsOut sharedServer (by decide)).mpr (by decide)

/-- A remote with two threads and three accounts: one is left over, and recorded as active. -/
theorem third_account_unshared :
    (⟨0, [⟨7, 2, true⟩], [], 0, false, 1, [userAt 1 10, userAt 2 20, userAt 3 30], []⟩ : Server).doReplaceUsers =
        .ok ⟨0, [⟨7, 2, true⟩], [1, 2, 3], 0, false, 1, [userAt 1 10, userAt 2 20, userAt 3 30],
          [(.remote 7, [userAt 3 30, userAt 2 20])]⟩ ∧
      ¬ Server.HandsOut ⟨0, [⟨7, 2, true⟩], [1, 2, 3], 0, false, 1, [userAt 1 10, userAt 2 20, userAt 3 30],
          [(.remote 7, [userAt 3 30, userAt 2 20])]⟩ := by
  refine ⟨by decide +kernel, fun hout => ?_⟩
  exact absurd hout.users.length_eq (by decide)

end Lws.Scanner
