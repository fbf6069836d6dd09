/-
  Lws.Scanner.Queue — how a scan thread is given its accounts
  (`src/rpc/scanner/queue.cpp`, `src/rpc/scanner/queue.h`).

  Every operation takes the queue's mutex, so each is one step. `replace_accounts` drops
  what was pushed before it; a read takes everything.
-/

import Lws.Account

namespace Lws.Scanner

structure Queue where
  replace : Option (List Account)
  push : List Account
  userCount : Nat
  /-- `current_min_height_`. -/
  minHeight : Nat
  stop : Bool
  deriving DecidableEq, Repr, Inhabited

structure Status where
  replace : Option (List Account)
  push : List Account
  userCount : Nat
  deriving DecidableEq, Repr, Inhabited

def Queue.empty : Queue := ⟨none, [], 0, 0, false⟩

def Queue.getAccounts (q : Queue) : Status × Queue :=
  (⟨q.replace, q.push, q.userCount⟩, { q with replace := none, push := [] })

def Queue.hasAccounts (q : Queue) : Bool := q.replace.isSome || !q.push.isEmpty

def Queue.ready (q : Queue) : Bool := q.hasAccounts || q.stop

def Queue.updateMinHeight (height : Nat) (q : Queue) : Queue := { q with minHeight := max height q.minHeight }

def leastHeight (users : List Account) : Nat := (users.map (·.scanHeight)).min?.getD 0

def Queue.replaceAccounts (users : List Account) (q : Queue) : Queue :=
  { q with replace := some users, userCount := users.length, push := [], minHeight := leastHeight users }

/-- The minimum after one pushed account: zero stands for none yet. -/
def lowerMin (minHeight : Nat) (user : Account) : Nat :=
  if minHeight = 0 ∨ user.scanHeight < minHeight then user.scanHeight else minHeight

def Queue.pushAccounts (users : List Account) (q : Queue) : Queue :=
  { q with
    userCount := q.userCount + users.length
    minHeight := users.foldl lowerMin q.minHeight
    push := q.push ++ users }

/-- The accounts of a thread after a read: both consumers replace first and then append. -/
def Status.merge (status : Status) (users : List Account) : List Account := status.replace.getD users ++ status.push

def Status.given (status : Status) : Bool := status.replace.isSome || !status.push.isEmpty

/-- What the queue still has to say about `users`. -/
def Queue.merge (q : Queue) (users : List Account) : List Account := q.replace.getD users ++ q.push

section Merge

variable {q : Queue} {users more : List Account}

@[simp] theorem getAccounts_merge : q.getAccounts.1.merge users = q.merge users := rfl

/-- A read leaves nothing behind. -/
@[simp] theorem getAccounts_rest : q.getAccounts.2.merge users = users := List.append_nil users

@[simp] theorem replaceAccounts_merge : (q.replaceAccounts more).merge users = more := List.append_nil more

@[simp] theorem pushAccounts_merge : (q.pushAccounts more).merge users = q.merge users ++ more := by
  simp only [Queue.merge, Queue.pushAccounts, List.append_assoc]

/-- A queue with nothing to say leaves the accounts. -/
theorem merge_of_not_hasAccounts (h : q.hasAccounts = false) : q.merge users = users := by
  unfold Queue.hasAccounts at h
  rw [Bool.or_eq_false_iff] at h
  simp only [Option.isSome_eq_false_iff, Option.isNone_iff_eq_none, Bool.not_eq_false', List.isEmpty_iff] at h
  simp [Queue.merge, h.1, h.2]

end Merge

end Lws.Scanner
