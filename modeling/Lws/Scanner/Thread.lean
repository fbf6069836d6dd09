/-
  Lws.Scanner.Thread — a scan thread and those who give it accounts
  (`src/scanner.cpp`: `do_scan_loop`, the queue handling of `scanner::loop`).

  The thread reads its queue in two places: between the batches of `scanner::loop`, and
  in `wait_for_accounts` once an empty replacement made it go idle. Producers replace and
  push at any time in between. `given` says what they asked for; a thread that has not
  ended scans that, less what is still in its queue (`pending_given`), and right after a
  read all of it (`thread_accounts`).
-/

import Lws.Scanner.Loop

namespace Lws.Scanner

open Lws.Db

inductive Phase where
  | scanning (s : Loop)
  | idle
  | ended
  deriving DecidableEq, Repr

structure Thread where
  queue : Queue
  phase : Phase
  deriving DecidableEq, Repr

def Thread.users (t : Thread) : List Account :=
  match t.phase with
  | .scanning s => s.users
  | _ => []

inductive Event where
  | replace (users : List Account)
  | push (users : List Account)
  | stop
  /-- A turn of `scanner::loop`, up to its next fetch. -/
  | turn (reply : Reply) (stored live : Bool)
  /-- `update_min_height` at the end of a turn. -/
  | report
  /-- `wait_for_accounts` returns. -/
  | wake
  /-- `is_running` turned false. -/
  | shutdown
  deriving DecidableEq, Repr

/-- The top of the loop of `do_scan_loop`. -/
def Phase.enter (users : List Account) : Phase :=
  match Loop.enter users with
  | some s => .scanning s
  | none => .idle

/-- The queue is read in a turn that the daemon answered with the blocks asked for. -/
def Loop.reads (s : Loop) (reply : Reply) : Bool := !reply.blocks.isEmpty && decide (reply.startHeight = s.request)

def Thread.step (publisher : Bool) (t : Thread) : Event → Thread
  | .replace users => { t with queue := t.queue.replaceAccounts users }
  | .push users => { t with queue := t.queue.pushAccounts users }
  | .stop => { t with queue := { t.queue with stop := true } }
  | .turn reply stored live =>
    match t.phase with
    | .scanning s =>
      let (status, queue) := t.queue.getAccounts
      match (s.turn publisher ⟨reply, status, stored, live⟩).2 with
      | .next s => ⟨queue, .scanning s⟩
      | .returned true => ⟨queue, .idle⟩
      | .returned false => ⟨if s.reads reply then queue else t.queue, .ended⟩
      | .thrown => { t with phase := .ended }
    | _ => t
  | .report =>
    match t.phase with
    | .scanning s => { t with queue := t.queue.updateMinHeight (oldest s.users) }
    | _ => t
  | .wake =>
    match t.phase with
    | .idle =>
      if t.queue.ready then
        let (status, queue) := t.queue.getAccounts
        ⟨queue, .enter (status.merge [])⟩
      else t
    | _ => t
  | .shutdown => { t with phase := .ended }

/-- The thread after a history of events. -/
def Thread.run (publisher : Bool) (initial : List Account) (events : List Event) : Thread :=
  events.foldl (Thread.step publisher) ⟨.empty, .enter initial⟩

/-- What an event asks the thread to scan, where `users` was asked for before. -/
def Event.given (users : List Account) : Event → List Account
  | .replace more => more
  | .push more => users ++ more
  | _ => users

/-- The last replacement, or what the thread started with, followed by the later pushes. -/
def given (initial : List Account) (events : List Event) : List Account := events.foldl Event.given initial

def Thread.fetches (t : Thread) : Event → Bool
  | .turn reply _ _ =>
    match t.phase with
    | .scanning s => s.reads reply
    | _ => false
  | .wake => decide (t.phase = .idle) && t.queue.ready
  | _ => false

/-- What makes an account the same one, whatever was scanned since. -/
def who (user : Account) : Nat × AccountAddress × SecretKey := (user.id, user.address, user.viewKey)

section Accounts

variable {publisher : Bool} {t : Thread} {users : List Account}

theorem pushUpdates_who (height : Nat) : (pushUpdates publisher height users).map who = users.map who := by
  unfold pushUpdates
  rw [List.map_map]
  refine List.map_congr_left fun u _ => ?_
  dsimp only [Function.comp]
  split <;> rfl

theorem Phase.enter_users (queue : Queue) : ((⟨queue, .enter users⟩ : Thread).users).Perm users := by
  unfold Thread.users Phase.enter Loop.enter
  have h := sortByHeight_perm users
  rcases hs : sortByHeight users with _ | ⟨u, rest⟩
  · rw [hs] at h
    exact h
  · rw [hs] at h
    exact h

theorem fetched_perm (s : Loop) (status : Status) : (s.fetched status).Perm (status.merge s.users) := by
  unfold Loop.fetched
  by_cases hg : status.given = true
  · rw [if_pos hg]
    exact sortByHeight_perm _
  · rw [if_neg hg]
    unfold Status.given at hg
    rw [Bool.not_eq_true, Bool.or_eq_false_iff, Bool.not_eq_false', List.isEmpty_iff, Option.isSome_eq_false_iff,
      Option.isNone_iff_eq_none] at hg
    rw [Status.merge, hg.1, hg.2, Option.getD_none, List.append_nil]

/-- After a turn that goes on, the thread scans what the queue said, up to the order and
    what was scanned since. -/
theorem turn_users {s s' : Loop} {turn : Turn} (h : (s.turn publisher turn).2 = .next s') :
    (s'.users.map who).Perm ((turn.status.merge s.users).map who) := by
  have hfetched := (fetched_perm s turn.status).map who
  obtain ⟨-, -, hcases⟩ := turn_next h
  rcases hcases with ⟨-, -, rfl⟩ | ⟨-, ⟨-, rfl⟩ | ⟨-, rfl⟩⟩
  · exact hfetched
  · exact hfetched
  · dsimp only
    rw [pushUpdates_who]
    exact hfetched

/-- `scanner::loop` returns true on an empty replacement only. -/
theorem turn_returned {s : Loop} {turn : Turn} (h : (s.turn publisher turn).2 = .returned true) :
    turn.status.merge s.users = [] := by
  unfold Loop.turn at h
  dsimp only at h
  split at h
  · cases h
  · split at h
    · cases h
    · split at h
      · rename_i hidle
        rw [Status.merge, hidle.1, hidle.2]
        rfl
      · split at h
        · split at h <;> cases h
        · split at h
          · split at h <;> cases h
          · split at h
            · cases h
            · split at h <;> cases h

/-- The accounts scanned and those in the queue are the ones given. -/
def Thread.Pending (t : Thread) (users : List Account) : Prop :=
  t.phase ≠ .ended → ((t.queue.merge t.users).map who).Perm (users.map who)

theorem step_ended (he : t.phase = .ended) (e : Event) : (t.step publisher e).phase = .ended := by
  obtain ⟨queue, phase⟩ := t
  cases he
  cases e <;> rfl

theorem step_fetches {e : Event} (hf : t.fetches e = true) (hlive : (t.step publisher e).phase ≠ .ended) :
    (((t.step publisher e).users).map who).Perm ((t.queue.merge t.users).map who) ∧
      (t.step publisher e).queue.merge (t.step publisher e).users = (t.step publisher e).users := by
  obtain ⟨queue, phase⟩ := t
  cases e with
  | turn reply stored live =>
    cases phase with
    | scanning s =>
      dsimp only [Thread.step] at hlive ⊢
      rcases hout : (s.turn publisher ⟨reply, queue.getAccounts.1, stored, live⟩).2 with s' | value | _
      · exact ⟨turn_users hout, getAccounts_rest⟩
      · cases value with
        | true =>
          have hnil := turn_returned hout
          refine ⟨?_, getAccounts_rest⟩
          rw [getAccounts_merge] at hnil
          show List.Perm _ ((queue.merge s.users).map who)
          rw [hnil]
          exact List.Perm.refl _
        | false =>
          rw [hout] at hlive
          exact absurd rfl hlive
      · rw [hout] at hlive
        exact absurd rfl hlive
    | idle => cases hf
    | ended => cases hf
  | wake =>
    cases phase with
    | idle =>
      have hready : queue.ready = true := hf
      dsimp only [Thread.step]
      rw [hready]
      exact ⟨(Phase.enter_users _).map who, getAccounts_rest⟩
    | scanning s => cases hf
    | ended => cases hf
  | _ => cases hf

theorem step_pending {e : Event} (h : t.Pending users) : (t.step publisher e).Pending (e.given users) := by
  intro hlive
  have hp : t.phase ≠ .ended := fun he => hlive (step_ended he e)
  by_cases hf : t.fetches e = true
  · obtain ⟨hperm, hrest⟩ := step_fetches hf hlive
    rw [hrest]
    refine (hperm.trans (h hp)).trans ?_
    cases e with
    | replace _ => cases hf
    | push _ => cases hf
    | _ => exact List.Perm.refl _
  · obtain ⟨queue, phase⟩ := t
    cases e with
    | replace more =>
      show List.Perm (((queue.replaceAccounts more).merge _).map who) _
      rw [replaceAccounts_merge]
      exact List.Perm.refl _
    | push more =>
      show List.Perm (((queue.pushAccounts more).merge _).map who) _
      rw [pushAccounts_merge, List.map_append, Event.given, List.map_append]
      exact (h hp).append_right _
    | stop => exact h hp
    | shutdown => exact absurd rfl hlive
    | report => cases phase <;> exact h hp
    | wake =>
      cases phase with
      | idle =>
        have hready : queue.ready = false := Bool.not_eq_true _ ▸ hf
        dsimp only [Thread.step]
        rw [hready]
        exact h hp
      | _ => exact h hp
    | turn reply stored live =>
      cases phase with
      | scanning s =>
        -- without the blocks asked for the loop ends
        refine absurd ?_ hlive
        have hreads : s.reads reply = false := Bool.not_eq_true _ ▸ hf
        dsimp only [Thread.step]
        unfold Loop.turn
        unfold Loop.reads at hreads
        by_cases hempty : reply.blocks.isEmpty = true
        · rw [if_pos hempty]
        · rw [Bool.not_eq_true] at hempty
          rw [hempty, Bool.not_false, Bool.true_and, decide_eq_false_iff_not] at hreads
          rw [if_neg (by rw [hempty]; exact Bool.false_ne_true), if_pos hreads]
      | _ => exact h hp

theorem run_pending (publisher : Bool) (initial : List Account) (events : List Event) :
    (Thread.run publisher initial events).Pending (given initial events) := by
  have key : ∀ (events : List Event) (t : Thread) (users : List Account), t.Pending users →
      (events.foldl (Thread.step publisher) t).Pending (events.foldl Event.given users) := by
    intro events
    induction events with
    | nil => intro t users h; exact h
    | cons e events ih => intro t users h; exact ih _ _ (step_pending h)
  refine key events _ initial fun _ => ?_
  show List.Perm ((Queue.empty.merge _).map who) _
  rw [merge_of_not_hasAccounts rfl]
  exact (Phase.enter_users _).map who

/-- After a read the thread scans the last replacement and the pushes since, each account
    once for each time it was given. -/
theorem thread_accounts (initial : List Account) (events : List Event) (e : Event)
    (hf : (Thread.run publisher initial events).fetches e = true)
    (hlive : (Thread.run publisher initial (events ++ [e])).phase ≠ .ended) :
    ((Thread.run publisher initial (events ++ [e])).users.map who).Perm ((given initial (events ++ [e])).map who) := by
  have hpending := run_pending publisher initial (events ++ [e]) hlive
  have hrun : Thread.run publisher initial (events ++ [e]) = (Thread.run publisher initial events).step publisher e := by
    unfold Thread.run
    rw [List.foldl_append]
    rfl
  rw [hrun] at hlive hpending ⊢
  rw [(step_fetches hf hlive).2] at hpending
  exact hpending

/-- A push, a replacement and two more pushes between the turns, an idle thread and its wake. -/
def sampleEvents : List Event :=
  [.push [sampleUser 5 [] []], .turn ⟨5, [105, 106]⟩ true true, .replace [], .turn ⟨6, [106]⟩ true true,
    .push [sampleUser 3 [] []], .push [sampleUser 4 [] []]]

theorem thread_accounts_sample :
    ((Thread.run false [sampleUser 5 [] []] (sampleEvents ++ [.wake])).users.map who).Perm
      ([sampleUser 3 [] [], sampleUser 4 [] []].map who) :=
  thread_accounts [sampleUser 5 [] []] sampleEvents .wake (by decide) (by decide)

end Accounts

end Lws.Scanner
