/-
  Lws.Scanner.ServerRuns — the server's accounts over any run (`src/rpc/scanner/server.cpp`:
  `check_users`, `initialize_handler`, the acceptor).

  New accounts go round-robin to the threads, local ones first and then those of the
  remotes. `next_thread_` is an offset into that list of threads, and the search for its
  remote has no bound: an offset inside the last remote's threads is past all of them. A
  replacement sets the offset to zero, and a round ends where a worker's threads start
  (`roundRobin_spec`). But `initialize` changes the list before its replacement runs, and
  the offset is then inside some remote (`offset_passes_remotes`).

  - `findNew_spec`: which accounts a check finds to be new, or gone.
  - `server_accounts`: where every replacement shares out the accounts, and no account is
    pushed at an offset that such an `initialize` left, the workers have exactly the
    active accounts.
-/

import Lws.Transition
import Lws.Scanner.Server

namespace Lws.Scanner

open Lws.Transition

/-! ## `check_users` -/

/-- "Threshold for resetting/replacing state instead of pushing". -/
def replaceThreshold : Nat := 10000

/-- The threads of all workers, or `none` where a connection is lost. -/
def lockRemotes : Nat → List Remote → Except ServerError (Option Nat)
  | total, [] => .ok (some total)
  | total, remote :: rest =>
    if remote.live = false then .ok none
    else if 2 ^ 64 - 1 - total < remote.threads then .error .configuration
    else lockRemotes (total + remote.threads) rest

/-- The variables of the loop over the accounts. -/
structure Found where
  /-- `active_copy`, less the ids that were seen. -/
  copy : List Nat
  active : List Nat
  newAccounts : List Lws.Account

/-- The accounts that are not active yet; `true` where there are too many. -/
def findNew : List Lws.Account → Found → Found × Bool
  | [], found => (found, false)
  | user :: rest, found =>
    -- `std::lower_bound` is at the id
    if found.copy.find? (user.id ≤ ·) = some user.id then
      findNew rest { found with copy := found.copy.erase user.id }
    else
      let newAccounts := found.newAccounts ++ [user]
      if replaceThreshold < newAccounts.length then ({ found with newAccounts }, true)
      else findNew rest { found with newAccounts, active := found.active.orderedInsert (· ≤ ·) user.id }

structure Best where
  thread : Nat
  height : Nat
  count : Nat
  /-- `found_below_or_equal`. -/
  found : Bool

def Best.consider (accountHeight i height count : Nat) (best : Best) : Best :=
  if height ≤ accountHeight then
    if best.found = false ∨ best.height < height ∨ (height = best.height ∧ count < best.count) then
      ⟨i, height, count, true⟩
    else best
  else if best.found = false ∧ (best.height = 0 ∨ height < best.height ∨ (height = best.height ∧ count < best.count)) then
    ⟨i, height, count, false⟩
  else best

/-- `best_thread`; `view` is what the queues show. -/
def bestThread (locals : Nat) (view : Nat → Nat × Nat) (accountHeight : Nat) : Nat :=
  ((List.range locals).foldl (fun (best : Best) i => best.consider accountHeight i (view i).1 (view i).2)
    (⟨0, 0, 2 ^ 64 - 1, false⟩ : Best)).thread

/-- "Assign new accounts to thread with highest blockheight not above account height". -/
def balanceNew (locals : Nat) (view : Nat → Nat → Nat × Nat) (newAccounts : List Lws.Account) :
    List (Worker × List Lws.Account) :=
  newAccounts.reverse.map fun user => (.queue (bestThread locals (view user.id) user.scanHeight), [user])

/-- `remotes[j]`, with `j` from the search; `none` past the end. -/
def findRemote (next : Nat) : Nat → List Remote → Option Remote
  | _, [] => none
  | offset, remote :: rest => if next ≤ offset then some remote else findRemote next (offset + remote.threads) rest

/-- "Original round-robin algorithm", a turn for each unit of fuel. -/
def roundRobin (locals : Nat) (remotes : List Remote) (total : Nat) :
    Nat → Nat → List Lws.Account → Except ServerError (Nat × List (Worker × List Lws.Account))
  | 0, next, _ => .ok (next, [])
  | fuel + 1, next, newAccounts =>
    if newAccounts = [] then .ok (next, [])
    else if next < locals then do
      let (last, sent) ← roundRobin locals remotes total fuel ((next + 1) % total)
        (newAccounts.take (newAccounts.length - 1))
      return (last, (.queue next, newAccounts.drop (newAccounts.length - 1)) :: sent)
    else match findRemote next locals remotes with
      | none => .error .outOfRange
      | some remote => do
        let count := min newAccounts.length remote.threads
        let (last, sent) ← roundRobin locals remotes total fuel ((next + remote.threads) % 2 ^ 64 % total)
          (newAccounts.take (newAccounts.length - count))
        return (last, (.remote remote.conn, newAccounts.drop (newAccounts.length - count)) :: sent)

def initialized (remotes : List Remote) : List Remote := remotes.filter (·.threads ≠ 0)

def Server.checkUsers (view : Nat → Nat → Nat × Nat) (s : Server) : Except ServerError Server := do
  match ← lockRemotes s.locals s.remotes with
  | none => s.doReplaceUsers
  | some total =>
    if total = 0 then return s
    else if s.users.length < s.active.length then s.doReplaceUsers
    else
      let (found, many) := findNew s.users ⟨s.active, s.active, []⟩
      let s := { s with active := found.active }
      if many = true ∨ found.copy ≠ [] then s.doReplaceUsers
      else if s.balance = true ∧ s.locals ≠ 0 then
        return { s with sent := s.sent ++ balanceNew s.locals view found.newAccounts }
      else do
        let (nextThread, sent) ← roundRobin s.locals (initialized s.remotes) total found.newAccounts.length
          (s.nextThread % total) found.newAccounts
        return { s with nextThread, sent := s.sent ++ sent }

/-! ## Events -/

inductive ServerEvent where
  /-- The acceptor puts a connection into `remote_`, wherever its address is. -/
  | connect (conn position : Nat)
  /-- `initialize_handler`, with the right password. -/
  | initializeHandler (conn : Nat) (threads : UInt32)
  | disconnect (conn : Nat)
  | activate (user : Lws.Account)
  | deactivate (id : Nat)
  | checkUsers (view : Nat → Nat → Nat × Nat)
  /-- `do_replace_users`, as `replace_users` queued it. -/
  | replaceUsers

/-- An account with a new id, or a new record of one, in the order of the ids. -/
def insertUser (user : Lws.Account) (users : List Lws.Account) : List Lws.Account :=
  (users.filter (·.id ≠ user.id)).orderedInsert (fun a b => a.id ≤ b.id) user

def Server.step : ServerEvent → Server → Except ServerError Server
  | .connect conn position, s =>
    if conn ∈ s.remotes.map (·.conn) then .ok s
    else .ok { s with remotes := s.remotes.take position ++ ⟨conn, 0, true⟩ :: s.remotes.drop position }
  | .initializeHandler conn threads, s =>
    -- a connection that is initialized twice, or with no threads, is closed
    if threads.toNat ≠ 0 ∧ ∃ remote ∈ s.remotes, remote.conn = conn ∧ remote.threads = 0 ∧ remote.live = true then
      .ok { s with
        remotes := s.remotes.map fun remote =>
          if remote.conn = conn ∧ remote.threads = 0 then { remote with threads := threads.toNat } else remote
        queued := s.queued + 1 }
    else .ok s
  | .disconnect conn, s =>
    .ok { s with
      remotes := s.remotes.map fun remote => if remote.conn = conn then { remote with live := false } else remote }
  | .activate user, s => .ok { s with users := insertUser user s.users }
  | .deactivate id, s => .ok { s with users := s.users.filter (·.id ≠ id) }
  | .checkUsers view, s => s.checkUsers view
  | .replaceUsers, s => Server.doReplaceUsers { s with queued := s.queued - 1 }

/-! ## The new accounts -/

/-- In a sorted list `std::lower_bound` is at an id just where the list has it. -/
theorem find_lowerBound {ids : List Nat} (h : ids.Pairwise (· < ·)) (id : Nat) :
    ids.find? (id ≤ ·) = some id ↔ id ∈ ids := by
  induction ids with
  | nil => simp
  | cons first ids ih =>
    obtain ⟨hfirst, hrest⟩ := List.pairwise_cons.mp h
    simp only [List.find?_cons, List.mem_cons]
    by_cases hle : id ≤ first
    · simp only [hle, decide_true, Option.some.injEq]
      refine ⟨fun heq => Or.inl heq.symm, fun hmem => ?_⟩
      rcases hmem with rfl | hmem
      · rfl
      · have := hfirst id hmem
        omega
    · simp only [hle, decide_false, ih hrest]
      refine ⟨Or.inr, fun hmem => ?_⟩
      rcases hmem with rfl | hmem
      · omega
      · exact hmem

def unlisted (ids : List Nat) (users : List Lws.Account) : List Lws.Account := users.filter (·.id ∉ ids)

/-- The loop finds the users that are not active and the active ids without a user, unless there are too many. -/
theorem findNew_spec : ∀ (users : List Lws.Account) {copy active : List Nat} {newAccounts : List Lws.Account},
    (users.map (·.id)).Pairwise (· < ·) → copy.Pairwise (· < ·) → newAccounts.length ≤ replaceThreshold →
    (replaceThreshold < newAccounts.length + (unlisted copy users).length →
      (findNew users ⟨copy, active, newAccounts⟩).2 = true) ∧
    (newAccounts.length + (unlisted copy users).length ≤ replaceThreshold →
      findNew users ⟨copy, active, newAccounts⟩ =
        (⟨copy.filter (· ∉ users.map (·.id)),
          (unlisted copy users).foldl (fun ids user => ids.orderedInsert (· ≤ ·) user.id) active,
          newAccounts ++ unlisted copy users⟩, false)) := by
  intro users
  induction users with
  | nil =>
    intro copy active newAccounts _ _ hlen
    simp only [unlisted, List.filter_nil, List.length_nil, findNew]
    refine ⟨fun h => by omega, fun _ => by simp⟩
  | cons user rest ih =>
    intro copy active newAccounts hu hc hlen
    rw [List.map_cons, List.pairwise_cons] at hu
    obtain ⟨hfirst, hrest⟩ := hu
    have hne : ∀ other ∈ rest, other.id ≠ user.id := by
      intro other ho
      have := hfirst other.id (List.mem_map_of_mem ho)
      omega
    rw [findNew]
    simp only [find_lowerBound hc]
    by_cases hmem : user.id ∈ copy
    · have hnodup : copy.Nodup := hc.imp fun h => Nat.ne_of_lt h
      have herase : copy.erase user.id = copy.filter (· != user.id) := hnodup.erase_eq_filter user.id
      have hcons : unlisted copy (user :: rest) = unlisted copy rest := by simp [unlisted, hmem]
      have hsame : unlisted (copy.erase user.id) rest = unlisted copy rest := by
        rw [herase]
        refine List.filter_congr fun other ho => ?_
        simp [hne other ho]
      have hleft : (copy.erase user.id).filter (· ∉ rest.map (·.id)) = copy.filter (· ∉ (user :: rest).map (·.id)) := by
        rw [herase, List.filter_filter]
        refine List.filter_congr fun id _ => ?_
        rw [Bool.eq_iff_iff]
        simp [and_comm]
      have hrec := @ih (copy.erase user.id) active newAccounts hrest (hc.sublist List.erase_sublist) hlen
      rw [hsame, hleft] at hrec
      rw [if_pos hmem, hcons]
      exact hrec
    · have hcons : unlisted copy (user :: rest) = user :: unlisted copy rest := by simp [unlisted, hmem]
      have hleft : copy.filter (· ∉ rest.map (·.id)) = copy.filter (· ∉ (user :: rest).map (·.id)) := by
        refine List.filter_congr fun id hid => ?_
        have : id ≠ user.id := fun h => hmem (h ▸ hid)
        simp [this]
      rw [if_neg hmem, hcons]
      rw [List.length_append, List.length_singleton, List.length_cons]
      by_cases hmany : replaceThreshold < newAccounts.length + 1
      · rw [if_pos hmany]
        refine ⟨fun _ => rfl, fun h => by omega⟩
      · have hlen' : (newAccounts ++ [user]).length ≤ replaceThreshold := by simpa using Nat.le_of_not_lt hmany
        obtain ⟨hyes, hno⟩ := @ih copy (active.orderedInsert (· ≤ ·) user.id) (newAccounts ++ [user]) hrest hc hlen'
        rw [List.length_append, List.length_singleton] at hyes hno
        rw [if_neg hmany]
        refine ⟨fun h => hyes (by omega), fun h => ?_⟩
        rw [hno (by omega), hleft]
        simp

/-! ## The worker of a new account -/

theorem bestThread_lt {locals : Nat} (view : Nat → Nat × Nat) (accountHeight : Nat) (hpos : locals ≠ 0) :
    bestThread locals view accountHeight < locals := by
  have hone : ∀ (best : Best) (i : Nat), best.thread < locals → i < locals →
      (best.consider accountHeight i (view i).1 (view i).2).thread < locals := by
    intro best i hb hi
    unfold Best.consider
    repeat' split
    all_goals assumption
  have hall : ∀ (is : List Nat) (best : Best), (∀ i ∈ is, i < locals) → best.thread < locals →
      (is.foldl (fun (best : Best) i => best.consider accountHeight i (view i).1 (view i).2) best).thread < locals := by
    intro is
    induction is with
    | nil => intro best _ hb; exact hb
    | cons i is ih =>
      intro best his hb
      exact ih _ (fun j hj => his j (List.mem_cons_of_mem i hj)) (hone best i hb (his i List.mem_cons_self))
  exact hall _ _ (fun i hi => List.mem_range.mp hi) (Nat.pos_of_ne_zero hpos)

/-- Where the threads of each remote start, after the threads before them. -/
def offsets : Nat → List Remote → List Nat
  | _, [] => []
  | offset, remote :: rest => offset :: offsets (offset + remote.threads) rest

/-- Where the threads of each worker start. -/
def starts (locals : Nat) (remotes : List Remote) : List Nat := List.range locals ++ offsets locals remotes

section RoundRobin

variable {locals : Nat} {remotes : List Remote} (hthreads : ∀ remote ∈ remotes, remote.threads ≠ 0)

theorem offsets_bound : ∀ {remotes : List Remote}, (∀ remote ∈ remotes, remote.threads ≠ 0) → ∀ {offset next : Nat},
    next ∈ offsets offset remotes → offset ≤ next ∧ next < offset + (remotes.map (·.threads)).sum := by
  intro remotes
  induction remotes with
  | nil => intro _ offset next h; simp [offsets] at h
  | cons remote rest ih =>
    intro hthreads offset next h
    obtain ⟨hne, hrest⟩ := List.forall_mem_cons.mp hthreads
    simp only [List.map_cons, List.sum_cons]
    rcases List.mem_cons.mp h with rfl | h
    · omega
    · have := ih hrest h
      omega

/-- At a start the search finds the remote, and the next offset is a start or the end. -/
theorem findRemote_start : ∀ {remotes : List Remote}, (∀ remote ∈ remotes, remote.threads ≠ 0) → ∀ {offset next : Nat},
    next ∈ offsets offset remotes → ∃ remote ∈ remotes, findRemote next offset remotes = some remote ∧
      (next + remote.threads ∈ offsets offset remotes ∨
        next + remote.threads = offset + (remotes.map (·.threads)).sum) := by
  intro remotes
  induction remotes with
  | nil => intro _ offset next h; simp [offsets] at h
  | cons remote rest ih =>
    intro hthreads offset next h
    obtain ⟨hne, hrest⟩ := List.forall_mem_cons.mp hthreads
    rcases List.mem_cons.mp h with rfl | h
    · refine ⟨remote, List.mem_cons_self, by simp [findRemote], ?_⟩
      cases rest with
      | nil => simp
      | cons other rest => simp [offsets]
    · have hbound := offsets_bound hrest h
      obtain ⟨found, hmem, hfind, hnext⟩ := ih hrest h
      refine ⟨found, List.mem_cons_of_mem remote hmem, ?_, ?_⟩
      · rw [findRemote, if_neg (by omega), hfind]
      · rcases hnext with hnext | hnext
        · exact Or.inl (List.mem_cons_of_mem offset hnext)
        · right
          simp only [List.map_cons, List.sum_cons]
          omega

theorem zero_start (hpos : locals + (remotes.map (·.threads)).sum ≠ 0) : 0 ∈ starts locals remotes := by
  simp only [starts, List.mem_append, List.mem_range]
  rcases Nat.eq_zero_or_pos locals with rfl | hl
  · cases remotes with
    | nil => simp at hpos
    | cons remote rest => simp [offsets]
  · exact Or.inl hl

include hthreads in
theorem start_lt {next : Nat} (h : next ∈ starts locals remotes) : next < locals + (remotes.map (·.threads)).sum := by
  rcases List.mem_append.mp h with h | h
  · have := List.mem_range.mp h
    omega
  · exact (offsets_bound hthreads h).2

include hthreads in
theorem start_mod {next : Nat} (hpos : locals + (remotes.map (·.threads)).sum ≠ 0)
    (h : next ∈ starts locals remotes ∨ next = locals + (remotes.map (·.threads)).sum) :
    next % (locals + (remotes.map (·.threads)).sum) ∈ starts locals remotes := by
  rcases h with h | rfl
  · rw [Nat.mod_eq_of_lt (start_lt hthreads h)]
    exact h
  · rw [Nat.mod_self]
    exact zero_start hpos

theorem succ_start {next : Nat} (h : next < locals) :
    next + 1 ∈ starts locals remotes ∨ next + 1 = locals + (remotes.map (·.threads)).sum := by
  rcases Nat.lt_or_ge (next + 1) locals with hlt | hge
  · exact Or.inl (List.mem_append_left _ (List.mem_range.mpr hlt))
  · obtain rfl : locals = next + 1 := by omega
    cases remotes with
    | nil => simp
    | cons remote rest => simp [starts, offsets]

include hthreads in
/-- From a start, every new account is sent to a worker, and the offset is again a start. -/
theorem roundRobin_spec (hfits : (remotes.map (·.threads)).sum = 0 ∨ locals + (remotes.map (·.threads)).sum < 2 ^ 64) :
    ∀ (fuel : Nat) {next : Nat} {newAccounts : List Lws.Account}, newAccounts.length ≤ fuel → next ∈ starts locals remotes →
    ∃ last sent,
      roundRobin locals remotes (locals + (remotes.map (·.threads)).sum) fuel next newAccounts = .ok (last, sent) ∧
      last ∈ starts locals remotes ∧ (sent.flatMap (·.2)).Perm newAccounts ∧ ∀ m ∈ sent, m.1 ∈ workers locals remotes := by
  intro fuel
  induction fuel with
  | zero =>
    intro next newAccounts hlen hnext
    refine ⟨next, [], rfl, hnext, ?_, by simp⟩
    rw [List.eq_nil_of_length_eq_zero (Nat.le_zero.mp hlen)]
    exact .refl _
  | succ fuel ih =>
    intro next newAccounts hlen hnext
    have hpos : locals + (remotes.map (·.threads)).sum ≠ 0 := by
      have := start_lt hthreads hnext
      omega
    rw [roundRobin]
    split
    · rename_i hnil
      exact ⟨next, [], rfl, hnext, by simp [hnil], by simp⟩
    · rename_i hne
      have hcount := List.length_pos_iff.mpr hne
      -- one turn: the last `count` accounts are sent, and the others in later turns
      have hturn : ∀ {count : Nat} {worker : Worker} {next' : Nat}, count ≠ 0 → worker ∈ workers locals remotes →
          next' ∈ starts locals remotes → ∃ last sent,
            roundRobin locals remotes (locals + (remotes.map (·.threads)).sum) fuel next'
              (newAccounts.take (newAccounts.length - count)) = .ok (last, sent) ∧ last ∈ starts locals remotes ∧
            (((worker, newAccounts.drop (newAccounts.length - count)) :: sent).flatMap (·.2)).Perm newAccounts ∧
            ∀ m ∈ (worker, newAccounts.drop (newAccounts.length - count)) :: sent, m.1 ∈ workers locals remotes := by
        intro count worker next' hc hw hnext'
        obtain ⟨last, sent, hrun, hlast, hperm, hworkers⟩ :=
          @ih next' (newAccounts.take (newAccounts.length - count)) (by rw [List.length_take]; omega) hnext'
        refine ⟨last, sent, hrun, hlast, ?_, List.forall_mem_cons.mpr ⟨hw, hworkers⟩⟩
        rw [List.flatMap_cons]
        refine (hperm.append_left _).trans (List.perm_append_comm.trans ?_)
        rw [List.take_append_drop]
      split
      · rename_i hlocal
        obtain ⟨last, sent, hrun, hlast, hperm, hworkers⟩ := @hturn 1 (.queue next) _ (by omega)
          (by simp [workers, hlocal]) (start_mod hthreads hpos (succ_start hlocal))
        refine ⟨last, _, ?_, hlast, hperm, hworkers⟩
        rw [hrun]
        rfl
      · rename_i hlocal
        have hoff : next ∈ offsets locals remotes := by
          rcases List.mem_append.mp hnext with h | h
          · exact absurd (List.mem_range.mp h) hlocal
          · exact h
        obtain ⟨remote, hmem, hfind, hsum⟩ := findRemote_start hthreads hoff
        have hsum' : next + remote.threads ∈ starts locals remotes ∨
            next + remote.threads = locals + (remotes.map (·.threads)).sum := hsum.imp_left (List.mem_append_right _)
        have hle : next + remote.threads < 2 ^ 64 := by
          have hbound : next + remote.threads ≤ locals + (remotes.map (·.threads)).sum := by
            rcases hsum' with h | h
            · exact Nat.le_of_lt (start_lt hthreads h)
            · exact Nat.le_of_eq h
          have := (offsets_bound hthreads hoff)
          omega
        have hne := hthreads remote hmem
        obtain ⟨last, sent, hrun, hlast, hperm, hworkers⟩ := @hturn (min newAccounts.length remote.threads)
          (.remote remote.conn) _ (by omega) (by simp [workers]; exact ⟨remote, hmem, rfl⟩) (start_mod hthreads hpos hsum')
        rw [hfind]
        dsimp only
        rw [Nat.mod_eq_of_lt hle]
        refine ⟨last, _, ?_, hlast, hperm, hworkers⟩
        rw [hrun]
        rfl

end RoundRobin

theorem lockRemotes_live : ∀ {remotes : List Remote} {total : Nat}, (∀ remote ∈ remotes, remote.live = true) →
    ((remotes.map (·.threads)).sum = 0 ∨ total + (remotes.map (·.threads)).sum < 2 ^ 64) →
    lockRemotes total remotes = .ok (some (total + (remotes.map (·.threads)).sum)) := by
  intro remotes
  induction remotes with
  | nil => intro total _ _; simp [lockRemotes]
  | cons remote rest ih =>
    intro total hlive hfits
    obtain ⟨hone, hrest⟩ := List.forall_mem_cons.mp hlive
    simp only [List.map_cons, List.sum_cons] at hfits ⊢
    rw [lockRemotes, if_neg (by simp [hone]), if_neg (by omega), ih hrest (by omega), Nat.add_assoc]

theorem lockRemotes_lost : ∀ {remotes : List Remote} {total : Nat}, (∃ remote ∈ remotes, remote.live = false) →
    (((remotes.filter (·.live)).map (·.threads)).sum = 0 ∨
      total + ((remotes.filter (·.live)).map (·.threads)).sum < 2 ^ 64) →
    lockRemotes total remotes = .ok none := by
  intro remotes
  induction remotes with
  | nil => intro total ⟨_, h, _⟩ _; simp at h
  | cons remote rest ih =>
    intro total ⟨lost, hmem, hlost⟩ hfits
    rw [lockRemotes]
    cases hone : remote.live with
    | false => simp
    | true =>
      have hrest : lost ∈ rest := by
        rcases List.mem_cons.mp hmem with rfl | h
        · simp [hone] at hlost
        · exact h
      simp only [List.filter_cons, hone, if_true, List.map_cons, List.sum_cons] at hfits
      rw [if_neg (by simp), if_neg (by omega)]
      exact ih ⟨lost, hrest, hlost⟩ (by omega)

/-! ## Every run -/

/-- The offset is where the threads of a worker start. -/
def Server.OnStart (s : Server) : Prop :=
  s.nextThread % (s.locals + ((initialized s.remotes).map (·.threads)).sum) ∈ starts s.locals (initialized s.remotes)

/-- A check finds a connection lost, active accounts gone, or too many new ones. -/
def Server.Reshuffles (s : Server) : Prop :=
  (∃ remote ∈ s.remotes, remote.live = false) ∨ (∃ id ∈ s.active, id ∉ s.users.map (·.id)) ∨
    replaceThreshold < (unlisted s.active s.users).length

/-- A replacement has no workers, or shares out all accounts. -/
def Server.Whole (s : Server) : Prop :=
  s.locals + s.liveThreads.sum = 0 ∨ SharesOut s.locals s.liveThreads s.users.length

/-- A replacement shares out the accounts. A check that pushes accounts round-robin while a replacement is queued finds the
    offset where a worker's threads start. -/
def Server.Met (s : Server) : ServerEvent → Prop
  | .replaceUsers => s.Whole
  | .checkUsers _ =>
    (s.liveThreads.sum = 0 ∨ s.locals + s.liveThreads.sum < 2 ^ 64) ∧ (s.Reshuffles → s.Whole) ∧
      (s.queued ≠ 0 → unlisted s.active s.users ≠ [] → ¬ (s.balance = true ∧ s.locals ≠ 0) → s.OnStart)
  | _ => True

instance (s : Server) : Decidable s.OnStart := inferInstanceAs (Decidable (_ ∈ _))

instance (s : Server) : Decidable s.Reshuffles := inferInstanceAs (Decidable (_ ∨ _ ∨ _))

instance (s : Server) : Decidable s.Whole := inferInstanceAs (Decidable (_ ∨ _))

instance (s : Server) : (event : ServerEvent) → Decidable (s.Met event)
  | .replaceUsers => inferInstanceAs (Decidable s.Whole)
  | .checkUsers _ => inferInstanceAs (Decidable (_ ∧ _ ∧ _))
  | .connect .. | .initializeHandler .. | .disconnect .. | .activate .. | .deactivate .. => inferInstanceAs (Decidable True)

/-- The server as it is built: its queues have the accounts that `active` lists. -/
structure Server.Started (s : Server) : Prop where
  remotes : s.remotes = []
  nextThread : s.nextThread = 0
  users : (s.users.map (·.id)).Pairwise (· < ·)
  active : s.active.Pairwise (· < ·)
  sent : ((s.sent.flatMap (·.2)).map (·.id)).Perm s.active

structure Server.Sound (s : Server) : Prop where
  users : (s.users.map (·.id)).Pairwise (· < ·)
  active : s.active.Pairwise (· < ·)
  sent : ((s.sent.flatMap (·.2)).map (·.id)).Perm s.active
  offset : s.queued = 0 → (∀ remote ∈ s.remotes, remote.live = true) →
    s.locals + ((initialized s.remotes).map (·.threads)).sum ≠ 0 → s.OnStart

/-- After a check or a replacement the active accounts are those of the database, and what was sent, was sent to a
    worker that is there. -/
def Served (s : Server) : ServerEvent → Server → Prop
  | .checkUsers _, s' | .replaceUsers, s' =>
    s.locals + s.liveThreads.sum ≠ 0 → s'.active = s.users.map (·.id) ∧
      ∀ m ∈ s'.sent, m ∈ s.sent ∨ m.1 ∈ workers s'.locals (s'.remotes.filter (·.live))
  | _, s' => s'.active = s.active ∧ s'.sent = s.sent

theorem Server.Started.sound {s : Server} (h : s.Started) : s.Sound := by
  refine ⟨h.users, h.active, h.sent, fun _ _ hpos => ?_⟩
  rw [Server.OnStart, h.nextThread, Nat.zero_mod]
  exact zero_start hpos

theorem initialized_threads (remotes : List Remote) :
    ((initialized remotes).map (·.threads)).sum = (remotes.map (·.threads)).sum := by
  unfold initialized
  induction remotes with
  | nil => rfl
  | cons remote rest ih =>
    by_cases h : remote.threads = 0
    · simpa [h] using ih
    · simpa [h] using ih

theorem mem_initialized {remotes : List Remote} : ∀ remote ∈ initialized remotes, remote.threads ≠ 0 := by
  simp [initialized]

theorem sorted_ids {ids ids' : List Nat} (h : ids.Pairwise (· < ·)) (h' : ids'.Pairwise (· < ·))
    (hperm : ids.Perm ids') :
    ids = ids' :=
  hperm.eq_of_pairwise (fun _ _ _ _ hab hba => absurd hab (Nat.lt_asymm hba)) h h'

theorem insertIds_users {s : Server} (h : (s.users.map (·.id)).Pairwise (· < ·)) :
    insertIds s.users = s.users.map (·.id) := by
  have hnodup : (insertIds s.users).Nodup :=
    (insertIds_perm s.users).nodup_iff.mpr (h.imp fun hlt => Nat.ne_of_lt hlt)
  refine sorted_ids ?_ h (insertIds_perm s.users)
  exact (insertIds_sorted s.users).imp₂ (fun _ _ hle hne => Nat.lt_of_le_of_ne hle hne) hnodup

/-- A replacement that shares out the accounts leaves a sound server, whatever it was before. -/
theorem doReplaceUsers_workers {s : Server} (husers : (s.users.map (·.id)).Pairwise (· < ·))
    (hpos : s.locals + s.liveThreads.sum ≠ 0) (hshares : SharesOut s.locals s.liveThreads s.users.length) :
    ∃ s', s.doReplaceUsers = .ok s' ∧ s'.Sound ∧ s'.active = s.users.map (·.id) ∧
      ∀ m ∈ s'.sent, m.1 ∈ workers s'.locals (s'.remotes.filter (·.live)) := by
  obtain ⟨lists, left, hrun, hlen, hperm, hleft⟩ := doReplaceUsers_ok hpos hshares.1
  obtain ⟨hworkers, hsent⟩ := sent_zip hlen
  rw [leave_eq_zero.mpr hshares.2] at hleft
  rw [List.eq_nil_of_length_eq_zero hleft, List.append_nil] at hperm
  have hactive := insertIds_users husers
  refine ⟨_, hrun, ⟨husers, ?_, ?_, ?_⟩, hactive, ?_⟩
  · dsimp only
    rw [hactive]
    exact husers
  · dsimp only
    rw [hsent, hactive]
    exact hperm.map _
  · intro _ _ hne
    rw [Server.OnStart, Nat.zero_mod]
    exact zero_start hne
  · intro m hm
    rw [List.filter_filter]
    simp only [Bool.and_self]
    rw [← hworkers]
    exact List.mem_map_of_mem hm

theorem doReplaceUsers_sound {s : Server} (husers : (s.users.map (·.id)).Pairwise (· < ·))
    (hactive : s.active.Pairwise (· < ·)) (hsent : ((s.sent.flatMap (·.2)).map (·.id)).Perm s.active) (hwhole : s.Whole) :
    ∃ s', s.doReplaceUsers = .ok s' ∧ s'.Sound ∧ Served s .replaceUsers s' := by
  by_cases hpos : s.locals + s.liveThreads.sum = 0
  · have hzero : sumThreads s.locals s.liveThreads = .ok 0 := by
      rw [sumThreads_ok (Or.inl (by omega)), hpos]
    refine ⟨{ s with remotes := s.remotes.filter (·.live) }, ?_, ⟨husers, hactive, hsent, ?_⟩, ?_⟩
    · simp [Server.doReplaceUsers, hzero, bind, Except.bind, pure, Except.pure]
    · intro _ _ hne
      rw [initialized_threads] at hne
      exact absurd hpos hne
    · intro hne
      exact absurd hpos hne
  · obtain ⟨s', hrun, hsound, hactive, hsent⟩ := doReplaceUsers_workers husers hpos (hwhole.resolve_left hpos)
    exact ⟨s', hrun, hsound, fun _ => ⟨hactive, fun m hm => Or.inr (hsent m hm)⟩⟩

theorem foldl_orderedInsert {users : List Lws.Account} : ∀ {ids : List Nat}, ids.Pairwise (· ≤ ·) →
    (users.foldl (fun ids user => ids.orderedInsert (· ≤ ·) user.id) ids).Pairwise (· ≤ ·) ∧
      (users.foldl (fun ids user => ids.orderedInsert (· ≤ ·) user.id) ids).Perm (ids ++ users.map (·.id)) := by
  induction users with
  | nil => intro ids h; simp [h]
  | cons user rest ih =>
    intro ids h
    obtain ⟨hsorted, hperm⟩ := @ih (ids.orderedInsert (· ≤ ·) user.id) (h.orderedInsert user.id)
    refine ⟨hsorted, hperm.trans ?_⟩
    rw [List.map_cons]
    exact ((List.perm_orderedInsert _ user.id ids).append_right _).trans List.perm_middle.symm

/-- Where no active account is gone, the active and the new ones are all. -/
theorem active_unlisted {ids : List Nat} {users : List Lws.Account} (hids : ids.Nodup)
    (husers : (users.map (·.id)).Nodup)
    (h : ∀ id ∈ ids, id ∈ users.map (·.id)) : (ids ++ (unlisted ids users).map (·.id)).Perm (users.map (·.id)) := by
  refine (List.perm_ext_iff_of_nodup ?_ husers).mpr fun id => ?_
  · refine List.nodup_append.mpr ⟨hids, husers.sublist (List.filter_sublist.map _), ?_⟩
    intro a ha b hb hab
    obtain ⟨user, hu, rfl⟩ := List.mem_map.mp hb
    simp [unlisted, ← hab, ha] at hu
  · simp only [List.mem_append, List.mem_map, unlisted, List.mem_filter, decide_eq_true_eq]
    constructor
    · intro hmem
      rcases hmem with hmem | ⟨user, hu, rfl⟩
      · exact List.mem_map.mp (h id hmem)
      · exact ⟨user, hu.1, rfl⟩
    · intro ⟨user, hu, hid⟩
      by_cases hmem : id ∈ ids
      · exact Or.inl hmem
      · exact Or.inr ⟨user, ⟨hu, hid ▸ hmem⟩, hid⟩

/-- The active ids after a check that pushes. -/
def Server.pushed (s : Server) : List Nat :=
  (unlisted s.active s.users).foldl (fun ids user => ids.orderedInsert (· ≤ ·) user.id) s.active

/-- New accounts that are all sent to workers leave a sound server. -/
theorem pushed_sound {s : Server} (hs : s.Sound) (hlive : ∀ remote ∈ s.remotes, remote.live = true)
    (hgone : ∀ id ∈ s.active, id ∈ s.users.map (·.id)) {nextThread : Nat} {sent : List (Worker × List Lws.Account)}
    (hsent : (sent.flatMap (·.2)).Perm (unlisted s.active s.users))
    (hworkers : ∀ m ∈ sent, m.1 ∈ workers s.locals s.remotes)
    (hnext : s.queued = 0 → Server.OnStart { s with nextThread }) (view : Nat → Nat → Nat × Nat) :
    Server.Sound { s with active := s.pushed, nextThread, sent := s.sent ++ sent } ∧
      Served s (.checkUsers view) { s with active := s.pushed, nextThread, sent := s.sent ++ sent } := by
  have hactive : s.active.Nodup := hs.active.imp fun h => Nat.ne_of_lt h
  have husers : (s.users.map (·.id)).Nodup := hs.users.imp fun h => Nat.ne_of_lt h
  obtain ⟨hsorted, hperm⟩ := @foldl_orderedInsert (unlisted s.active s.users) s.active (hs.active.imp Nat.le_of_lt)
  have hall : s.pushed.Perm (s.users.map (·.id)) := hperm.trans (active_unlisted hactive husers hgone)
  have hlt : s.pushed.Pairwise (· < ·) :=
    hsorted.imp₂ (fun _ _ hle hne => Nat.lt_of_le_of_ne hle hne) (hall.nodup_iff.mpr husers)
  refine ⟨⟨hs.users, hlt, ?_, fun hq _ _ => hnext hq⟩, fun _ => ⟨sorted_ids hlt hs.users hall, fun m hm => ?_⟩⟩
  · dsimp only
    rw [List.flatMap_append, List.map_append]
    exact (hs.sent.append (hsent.map _)).trans hperm.symm
  · rcases List.mem_append.mp hm with hm | hm
    · exact Or.inl hm
    · refine Or.inr ?_
      dsimp only
      rw [List.filter_eq_self.mpr hlive]
      exact hworkers m hm

theorem balanceNew_sent {locals : Nat} (hpos : locals ≠ 0) (view : Nat → Nat → Nat × Nat) (remotes : List Remote)
    (newAccounts : List Lws.Account) : ((balanceNew locals view newAccounts).flatMap (·.2)).Perm newAccounts ∧
      ∀ m ∈ balanceNew locals view newAccounts, m.1 ∈ workers locals remotes := by
  constructor
  · have hflat : (balanceNew locals view newAccounts).flatMap (·.2) = newAccounts.reverse := by
      rw [balanceNew, List.flatMap_map, List.flatMap_singleton']
    rw [hflat]
    exact List.reverse_perm newAccounts
  · intro m hm
    obtain ⟨user, _, rfl⟩ := List.mem_map.mp hm
    simp [workers, bestThread_lt (view user.id) user.scanHeight hpos]

theorem workers_initialized {s : Server} {worker : Worker} (h : worker ∈ workers s.locals (initialized s.remotes)) :
    worker ∈ workers s.locals s.remotes := by
  simp only [workers, initialized, List.mem_append, List.mem_map, List.mem_filter] at h ⊢
  rcases h with h | ⟨remote, hmem, heq⟩
  · exact Or.inl h
  · exact Or.inr ⟨remote, hmem.1, heq⟩

theorem checkUsers_sound {s : Server} {view : Nat → Nat → Nat × Nat} (hs : s.Sound) (hmet : s.Met (.checkUsers view)) :
    ∃ s', s.checkUsers view = .ok s' ∧ s'.Sound ∧ Served s (.checkUsers view) s' := by
  obtain ⟨hfits, hre, hpush⟩ := hmet
  by_cases hlost : ∃ remote ∈ s.remotes, remote.live = false
  · obtain ⟨s', hrun, hsound, hserved⟩ := doReplaceUsers_sound hs.users hs.active hs.sent (hre (Or.inl hlost))
    refine ⟨s', ?_, hsound, hserved⟩
    rw [Server.checkUsers, lockRemotes_lost hlost hfits]
    exact hrun
  have hlive : ∀ remote ∈ s.remotes, remote.live = true := by simpa using hlost
  have hthreads : s.liveThreads = s.remotes.map (·.threads) := by
    rw [Server.liveThreads, List.filter_eq_self.mpr hlive]
  rw [hthreads] at hfits
  rw [Server.checkUsers, lockRemotes_live hlive hfits]
  simp only [bind, Except.bind, pure, Except.pure]
  by_cases hpos : s.locals + (s.remotes.map (·.threads)).sum = 0
  · rw [if_pos hpos]
    exact ⟨s, rfl, hs, fun hne => absurd (hthreads ▸ hpos) hne⟩
  rw [if_neg hpos]
  -- a replacement, from whatever ids were recorded as active before it
  have hreplace : s.Reshuffles → ∀ active, ∃ s', Server.doReplaceUsers { s with active } = .ok s' ∧ s'.Sound ∧
      Served s (.checkUsers view) s' := by
    intro h active
    have hne : s.locals + s.liveThreads.sum ≠ 0 := by rw [hthreads]; exact hpos
    obtain ⟨s', hrun, hsound, hactive, hsent⟩ :=
      @doReplaceUsers_workers { s with active } hs.users hne ((hre h).resolve_left hne)
    exact ⟨s', hrun, hsound, fun _ => ⟨hactive, fun m hm => Or.inr (hsent m hm)⟩⟩
  have hactive : s.active.Nodup := hs.active.imp fun h => Nat.ne_of_lt h
  by_cases hcount : s.users.length < s.active.length
  · have hgone : ∃ id ∈ s.active, id ∉ s.users.map (·.id) := by
      by_contra hall
      have hsub : s.active ⊆ s.users.map (·.id) := fun id hid => by_contra fun h => hall ⟨id, hid, h⟩
      have hle := (List.subperm_of_subset hactive hsub).length_le
      rw [List.length_map] at hle
      omega
    rw [if_pos hcount]
    exact hreplace (Or.inr (Or.inl hgone)) s.active
  rw [if_neg hcount]
  obtain ⟨hmany, hfew⟩ := @findNew_spec s.users s.active s.active [] hs.users hs.active (Nat.zero_le _)
  rw [List.length_nil, Nat.zero_add] at hmany hfew
  by_cases hnew : replaceThreshold < (unlisted s.active s.users).length
  · rw [if_pos (Or.inl (hmany hnew))]
    exact hreplace (Or.inr (Or.inr hnew)) _
  rw [hfew (Nat.le_of_not_lt hnew)]
  dsimp only
  by_cases hgone : ∃ id ∈ s.active, id ∉ s.users.map (·.id)
  · obtain ⟨id, hid, hnot⟩ := hgone
    have hcopy : s.active.filter (· ∉ s.users.map (·.id)) ≠ [] :=
      List.ne_nil_of_mem (List.mem_filter.mpr ⟨hid, decide_eq_true hnot⟩)
    rw [if_pos (Or.inr hcopy)]
    exact hreplace (Or.inr (Or.inl ⟨id, hid, hnot⟩)) _
  have hall : ∀ id ∈ s.active, id ∈ s.users.map (·.id) := fun id hid => by_contra fun h => hgone ⟨id, hid, h⟩
  have hcopy : s.active.filter (· ∉ s.users.map (·.id)) = [] :=
    List.filter_eq_nil_iff.mpr fun id hid h => of_decide_eq_true h (hall id hid)
  have hstart : s.queued = 0 → s.OnStart := fun hq => hs.offset hq hlive (by rw [initialized_threads]; exact hpos)
  rw [if_neg (by simp only [hcopy]; simp), List.nil_append]
  split
  · rename_i hbalance
    obtain ⟨hsent, hworkers⟩ := balanceNew_sent hbalance.2 view s.remotes (unlisted s.active s.users)
    exact ⟨_, rfl, pushed_sound hs hlive hall hsent hworkers hstart view⟩
  · rename_i hbalance
    by_cases hpushes : s.queued = 0 ∨ unlisted s.active s.users ≠ []
    · have honstart : s.OnStart := by
        by_cases hq : s.queued = 0
        · exact hstart hq
        · exact hpush hq (hpushes.resolve_left hq) hbalance
      rw [Server.OnStart] at honstart
      rw [← initialized_threads] at hfits ⊢
      obtain ⟨last, sent, hrun, hlast, hperm, hworkers⟩ := roundRobin_spec mem_initialized hfits
        (unlisted s.active s.users).length (Nat.le_refl _) honstart
      rw [hrun]
      refine ⟨_, rfl, pushed_sound hs hlive hall hperm (fun m hm => workers_initialized (hworkers m hm)) (fun _ => ?_) view⟩
      rw [Server.OnStart]
      exact start_mod mem_initialized (by rw [initialized_threads]; exact hpos) (Or.inl hlast)
    · have hnone : unlisted s.active s.users = [] := by_contra fun h => hpushes (Or.inr h)
      rw [hnone]
      have hkept := @pushed_sound s hs hlive hall (s.nextThread % (s.locals + (s.remotes.map (·.threads)).sum)) []
        (by simp [hnone]) (by simp) (fun hq => absurd (Or.inl hq) hpushes) view
      simp only [Server.pushed, hnone] at hkept
      exact ⟨_, rfl, hkept⟩

theorem insertUser_sorted {user : Lws.Account} {users : List Lws.Account} (h : (users.map (·.id)).Pairwise (· < ·)) :
    ((insertUser user users).map (·.id)).Pairwise (· < ·) := by
  have hrest : ((users.filter (·.id ≠ user.id)).map (·.id)).Pairwise (· < ·) := h.sublist (List.filter_sublist.map _)
  have hmap : (insertUser user users).map (·.id) =
      ((users.filter (·.id ≠ user.id)).map (·.id)).orderedInsert (· ≤ ·) user.id :=
    List.map_orderedInsert _ _ _ _ _ (fun _ _ => Iff.rfl) (fun _ _ => Iff.rfl)
  have hsorted := (hrest.imp Nat.le_of_lt).orderedInsert user.id
  have hnodup : (((users.filter (·.id ≠ user.id)).map (·.id)).orderedInsert (· ≤ ·) user.id).Nodup := by
    refine (List.perm_orderedInsert _ _ _).nodup_iff.mpr (List.nodup_cons.mpr ⟨?_, hrest.imp fun h => Nat.ne_of_lt h⟩)
    simp
  rw [hmap]
  exact hsorted.imp₂ (fun _ _ hle hne => Nat.lt_of_le_of_ne hle hne) hnodup

theorem connect_initialized (remotes : List Remote) (conn position : Nat) :
    initialized (remotes.take position ++ ⟨conn, 0, true⟩ :: remotes.drop position) = initialized remotes := by
  have hfilter : ∀ a b : List Remote, initialized (a ++ ⟨conn, 0, true⟩ :: b) = initialized (a ++ b) := by
    simp [initialized]
  rw [hfilter, List.take_append_drop]

theorem disconnect_live {remotes : List Remote} {conn : Nat}
    (h : ∀ remote ∈ remotes.map (fun remote => if remote.conn = conn then { remote with live := false } else remote),
      remote.live = true) :
    remotes.map (fun remote => if remote.conn = conn then { remote with live := false } else remote) = remotes := by
  refine (List.map_congr_left fun remote hmem => ?_).trans (List.map_id remotes)
  have hlive := h _ (List.mem_map_of_mem hmem)
  split
  · rename_i hconn
    simp [hconn] at hlive
  · rfl

theorem step_sound {s : Server} (hs : s.Sound) (event : ServerEvent) (hmet : s.Met event) :
    ∃ s', s.step event = .ok s' ∧ s'.Sound ∧ Served s event s' := by
  cases event with
  | connect conn position =>
    simp only [Server.step]
    split
    · exact ⟨s, rfl, hs, rfl, rfl⟩
    · refine ⟨_, rfl, ⟨hs.users, hs.active, hs.sent, fun hq hlive hpos => ?_⟩, rfl, rfl⟩
      have hold : ∀ remote ∈ s.remotes, remote.live = true := by
        intro remote hmem
        rw [← List.take_append_drop position s.remotes] at hmem
        refine hlive remote ?_
        rcases List.mem_append.mp hmem with h | h
        · exact List.mem_append_left _ h
        · exact List.mem_append_right _ (List.mem_cons_of_mem _ h)
      simp only [Server.OnStart, connect_initialized] at hpos ⊢
      exact hs.offset hq hold hpos
  | initializeHandler conn threads =>
    simp only [Server.step]
    split
    · exact ⟨_, rfl, ⟨hs.users, hs.active, hs.sent, fun hq => absurd hq (Nat.succ_ne_zero _)⟩, rfl, rfl⟩
    · exact ⟨s, rfl, hs, rfl, rfl⟩
  | disconnect conn =>
    refine ⟨_, rfl, ⟨hs.users, hs.active, hs.sent, fun hq hlive hpos => ?_⟩, rfl, rfl⟩
    have hsame := disconnect_live hlive
    simp only [Server.OnStart, hsame] at hlive hpos ⊢
    exact hs.offset hq hlive hpos
  | activate user => exact ⟨_, rfl, ⟨insertUser_sorted hs.users, hs.active, hs.sent, hs.offset⟩, rfl, rfl⟩
  | deactivate id =>
    exact ⟨_, rfl, ⟨hs.users.sublist (List.filter_sublist.map _), hs.active, hs.sent, hs.offset⟩, rfl, rfl⟩
  | checkUsers view => exact checkUsers_sound hs hmet
  | replaceUsers => exact @doReplaceUsers_sound { s with queued := s.queued - 1 } hs.users hs.active hs.sent hmet

/-- In every run that meets the conditions, every event is served: no vector is read past its end, the active ids are
    sorted, and they are those of the accounts that were handed out. -/
theorem server_accounts {s₀ s : Server} (h0 : s₀.Started) (h : Steps Server.step Server.Met s₀ s) :
    s.active.Pairwise (· < ·) ∧ ((s.sent.flatMap (·.2)).map (·.id)).Perm s.active ∧
      ∀ event, s.Met event → ∃ s', s.step event = .ok s' ∧ Served s event s' := by
  have hs : s.Sound := by
    refine h.invariant Server.Sound h0.sound fun u event u' hu hmet hrun => ?_
    obtain ⟨s', hs', hsound, _⟩ := step_sound hu event hmet
    cases hrun.symm.trans hs'
    exact hsound
  refine ⟨hs.active, hs.sent, fun event hmet => ?_⟩
  obtain ⟨s', hs', _, hserved⟩ := step_sound hs event hmet
  exact ⟨s', hs', hserved⟩

/-! ## Two runs -/

/-- A server without local threads. -/
def remoteServer : Server := ⟨0, [], [], 0, false, 0, [], []⟩

theorem remoteServer_started : remoteServer.Started := ⟨rfl, rfl, .nil, .nil, .refl _⟩

/-- Remotes of two and three threads, and then an account for the first. -/
def twoRemotes : List ServerEvent :=
  [.connect 7 0, .initializeHandler 7 2, .replaceUsers, .connect 8 1, .initializeHandler 8 3, .replaceUsers,
    .activate (userAt 1 10), .checkUsers fun _ _ => (0, 0)]

theorem server_accounts_remotes :
    (runAll Server.step twoRemotes remoteServer).sent = [(.remote 7, []), (.remote 8, []), (.remote 7, [userAt 1 10])] ∧
      ∀ event, (runAll Server.step twoRemotes remoteServer).Met event →
        ∃ s', (runAll Server.step twoRemotes remoteServer).step event = .ok s' ∧
          Served (runAll Server.step twoRemotes remoteServer) event s' := by
  have hsteps : Steps Server.step Server.Met remoteServer (runAll Server.step twoRemotes remoteServer) :=
    steps_runAll _ _ (by decide +kernel)
  exact ⟨by decide +kernel, (server_accounts remoteServer_started hsteps).2.2⟩

/-- A remote of one thread is initialized before those two, and four accounts are found before its replacement runs: the
    offset 2, where the second remote started, is now inside the first, and the round goes past the last. -/
theorem offset_passes_remotes :
    ∃ s, Steps Server.step (fun _ _ => True) remoteServer s ∧ s.locals + s.liveThreads.sum = 6 ∧
      s.step (.checkUsers fun _ _ => (0, 0)) = .error .outOfRange := by
  refine ⟨runAll Server.step (twoRemotes ++ ([.connect 9 0, .initializeHandler 9 1, .activate (userAt 2 10),
    .activate (userAt 3 10), .activate (userAt 4 10), .activate (userAt 5 10)] : List ServerEvent)) remoteServer,
    ?_, ?_, ?_⟩
  · exact steps_runAll _ _ (by decide)
  · decide +kernel
  · decide +kernel

end Lws.Scanner
