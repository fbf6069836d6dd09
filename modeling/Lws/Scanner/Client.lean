/-
  Lws.Scanner.Client — how a remote scanner shares out the accounts that the server sends
  it (`src/rpc/scanner/client.cpp`, `client`).

  `push_accounts` goes round the local queues, one account at a time; `replace_accounts`
  takes a share for each queue from the end of the list, and the last queue gets the rest,
  so that no account is left over (`replaceAccounts_content`) and no thread has more than
  one account more than another (`replaceThreads_balanced`). What the threads scan, or have
  in their queues, is what the commands said (`pushAccounts_content`,
  `content_step`).
-/

import Lws.Scanner.Thread
import Lws.Scanner.Server

namespace Lws.Scanner

/-- What the server writes to a scanner. -/
inductive Command where
  | pushAccounts (users : List Account)
  | replaceAccounts (users : List Account)
  deriving DecidableEq, Repr

/-- `client`: its local queues, each with the thread that reads it. -/
structure Client where
  threads : List Thread
  /-- `next_push_`. -/
  nextPush : Nat
  deriving DecidableEq, Repr

def Client.start (threads : Nat) : Client := ⟨List.replicate threads ⟨.empty, .idle⟩, 0⟩

section Model

variable (publisher : Bool)

def Client.pushAccounts : List Account → Client → Except ServerError Client
  | [], c => .ok c
  | user :: users, c =>
    match c.threads[c.nextPush]? with
    | none => .error .outOfRange
    | some t =>
      Client.pushAccounts users
        { threads := c.threads.set c.nextPush (t.step publisher (.push [user]))
          nextPush := (c.nextPush + 1) % c.threads.length }

def replaceThreads : List Thread → List Account → List Thread
  | [], _ => []
  | t :: rest, users =>
    let count := users.length / (rest.length + 1)
    t.step publisher (.replace (users.drop (users.length - count))) ::
      replaceThreads rest (users.take (users.length - count))

def Client.replaceAccounts (users : List Account) (c : Client) : Client := ⟨replaceThreads publisher c.threads users, 0⟩

def Client.handle (command : Command) (c : Client) : Except ServerError Client :=
  match command with
  | .pushAccounts users => c.pushAccounts publisher users
  | .replaceAccounts users => .ok (c.replaceAccounts publisher users)

end Model

/-! ## What the threads are given -/

/-- What a thread scans once it has read its queue. -/
def Thread.content (t : Thread) : List Account := t.queue.merge t.users

def contents (threads : List Thread) : List Account := threads.flatMap Thread.content

def running (threads : List Thread) : Prop := ∀ t ∈ threads, t.phase ≠ .ended

def Command.given (users : List Account) : Command → List Account
  | .pushAccounts more => users ++ more
  | .replaceAccounts more => more

/-- `push_accounts` has a queue to go on with. -/
def Client.Ready (c : Client) : Prop := c.nextPush < c.threads.length

variable {publisher : Bool}

section Threads

variable {t : Thread} {threads : List Thread} {users : List Account}

@[simp] theorem content_push : (t.step publisher (.push users)).content = t.content ++ users := pushAccounts_merge

@[simp] theorem content_replace : (t.step publisher (.replace users)).content = users := replaceAccounts_merge

@[simp] theorem phase_push : (t.step publisher (.push users)).phase = t.phase := rfl

@[simp] theorem phase_replace : (t.step publisher (.replace users)).phase = t.phase := rfl

/-- One thread's accounts are changed, as far as `f` tells. -/
theorem contents_set {β : Type} (f : Account → β) {i : Nat} {t' : Thread} {added : List β} (h : threads[i]? = some t)
    (ht : (t'.content.map f).Perm (t.content.map f ++ added)) :
    ((contents (threads.set i t')).map f).Perm ((contents threads).map f ++ added) := by
  induction threads generalizing i with
  | nil => cases h
  | cons first rest ih =>
    cases i with
    | zero =>
      obtain rfl : first = t := by simpa using h
      show ((t'.content ++ contents rest).map f).Perm ((first.content ++ contents rest).map f ++ added)
      rw [List.map_append, List.map_append, List.append_assoc]
      refine (ht.append_right _).trans ?_
      rw [List.append_assoc]
      exact List.perm_append_comm.append_left _
    | succ i =>
      show ((first.content ++ contents (rest.set i t')).map f).Perm ((first.content ++ contents rest).map f ++ added)
      rw [List.map_append, List.map_append, List.append_assoc]
      exact (ih (by simpa using h)).append_left _

theorem phases_set {i : Nat} {t' : Thread} (h : threads[i]? = some t) (ht : t'.phase = t.phase) :
    (threads.set i t').map (·.phase) = threads.map (·.phase) := by
  induction threads generalizing i with
  | nil => cases h
  | cons first rest ih =>
    cases i with
    | zero =>
      obtain rfl : first = t := by simpa using h
      rw [List.set_cons_zero, List.map_cons, ht, List.map_cons]
    | succ i => rw [List.set_cons_succ, List.map_cons, ih (by simpa using h), List.map_cons]

/-- A step of one thread that is no command leaves the accounts. -/
theorem content_step {e : Event} (he : ∀ given, e.given given = given) (hlive : (t.step publisher e).phase ≠ .ended) :
    ((t.step publisher e).content.map who).Perm (t.content.map who) := by
  have h := @step_pending publisher t t.content e fun _ => List.Perm.refl _
  rw [he] at h
  exact h hlive

theorem length_replaceThreads : (replaceThreads publisher threads users).length = threads.length := by
  induction threads generalizing users with
  | nil => rfl
  | cons t rest ih => rw [replaceThreads, List.length_cons, ih, List.length_cons]

/-- The last queue has all that the others left. -/
theorem contents_replaceThreads (h : threads ≠ []) :
    (contents (replaceThreads publisher threads users)).Perm users := by
  induction threads generalizing users with
  | nil => exact absurd rfl h
  | cons t rest ih =>
    rw [replaceThreads, contents, List.flatMap_cons, content_replace]
    by_cases hrest : rest = []
    · subst hrest
      simp [replaceThreads]
    · refine ((ih hrest).append_left _).trans (List.perm_append_comm.trans ?_)
      rw [List.take_append_drop]

/-- Taking a share of the whole leaves the same share and remainder for the others, or one account more for each. -/
theorem share_rest {n k : Nat} (hk : k ≠ 0) :
    ((n - n / (k + 1)) / k = n / (k + 1) ∧ (n - n / (k + 1)) % k = n % (k + 1)) ∨
      ((n - n / (k + 1)) / k = n / (k + 1) + 1 ∧ (n - n / (k + 1)) % k = 0 ∧ n % (k + 1) ≠ 0) := by
  have hdiv : (k + 1) * (n / (k + 1)) + n % (k + 1) = n := Nat.div_add_mod n (k + 1)
  have hlt : n % (k + 1) < k + 1 := Nat.mod_lt n (Nat.succ_pos k)
  have hpos : 0 < k := Nat.pos_of_ne_zero hk
  have hrest : n - n / (k + 1) = k * (n / (k + 1)) + n % (k + 1) := by
    rw [Nat.add_mul, Nat.one_mul] at hdiv
    omega
  rw [hrest, Nat.mul_add_div hpos, Nat.mul_add_mod]
  rcases Nat.lt_or_ge (n % (k + 1)) k with hmod | hmod
  · left
    rw [Nat.div_eq_of_lt hmod, Nat.mod_eq_of_lt hmod]
    exact ⟨Nat.add_zero _, rfl⟩
  · right
    have heq : n % (k + 1) = k := by omega
    rw [heq, Nat.div_self hpos, Nat.mod_self]
    exact ⟨rfl, rfl, hk⟩

/-- Every thread is given the share rounded down, or one account more where there is a remainder. -/
theorem replaceThreads_balanced (h : t ∈ replaceThreads publisher threads users) :
    t.content.length = users.length / threads.length ∨
      (users.length % threads.length ≠ 0 ∧ t.content.length = users.length / threads.length + 1) := by
  induction threads generalizing users with
  | nil => cases h
  | cons first rest ih =>
    rw [replaceThreads] at h
    rw [List.length_cons]
    rcases List.mem_cons.mp h with rfl | h
    · left
      have hle : users.length / (rest.length + 1) ≤ users.length := Nat.div_le_self _ _
      rw [content_replace, List.length_drop, Nat.sub_sub_self hle]
    · have hrest : rest.length ≠ 0 := by
        intro hnil
        rw [List.eq_nil_of_length_eq_zero hnil] at h
        cases h
      have hlen : (users.take (users.length - users.length / (rest.length + 1))).length =
          users.length - users.length / (rest.length + 1) := by
        rw [List.length_take, Nat.min_eq_left (Nat.sub_le _ _)]
      have hshare := ih h
      rw [hlen] at hshare
      rcases share_rest hrest with ⟨hdiv, hmod⟩ | ⟨hdiv, hmod, hne⟩
      · rw [hdiv, hmod] at hshare
        exact hshare
      · rw [hdiv, hmod] at hshare
        rcases hshare with hshare | ⟨hshare, -⟩
        · exact Or.inr ⟨hne, hshare⟩
        · exact absurd rfl hshare

theorem phases_replaceThreads :
    (replaceThreads publisher threads users).map (·.phase) = threads.map (·.phase) := by
  induction threads generalizing users with
  | nil => rfl
  | cons first rest ih => rw [replaceThreads, List.map_cons, ih, List.map_cons, phase_replace]

theorem running_of_phases {threads' : List Thread} (h : threads'.map (·.phase) = threads.map (·.phase))
    (hrun : running threads') : running threads := by
  intro t ht hended
  have hmem : t.phase ∈ threads'.map (·.phase) := h ▸ List.mem_map_of_mem ht
  obtain ⟨t', ht', hphase⟩ := List.mem_map.mp hmem
  exact hrun t' ht' (hphase.trans hended)

end Threads

/-! ## Commands -/

/-- The accounts go to the queues one by one, and none is left. -/
theorem pushAccounts_content : ∀ (users : List Account) {c : Client}, c.Ready →
    ∃ c', c.pushAccounts publisher users = .ok c' ∧ c'.Ready ∧
      c'.threads.map (·.phase) = c.threads.map (·.phase) ∧
      (contents c'.threads).Perm (contents c.threads ++ users) := by
  intro users
  induction users with
  | nil =>
    intro c h
    exact ⟨c, rfl, h, rfl, by rw [List.append_nil]⟩
  | cons user users ih =>
    intro c h
    obtain ⟨t, hget⟩ : ∃ t, c.threads[c.nextPush]? = some t := ⟨_, List.getElem?_eq_getElem h⟩
    have hpos : 0 < c.threads.length := Nat.lt_of_le_of_lt (Nat.zero_le _) h
    rw [Client.pushAccounts, hget]
    have hready : Client.Ready ⟨c.threads.set c.nextPush (t.step publisher (.push [user])),
        (c.nextPush + 1) % c.threads.length⟩ := by
      rw [Client.Ready, List.length_set]
      exact Nat.mod_lt _ hpos
    obtain ⟨c', hrun, hready', hphases, hperm⟩ := ih hready
    have hset : (contents (c.threads.set c.nextPush (t.step publisher (.push [user])))).Perm
        (contents c.threads ++ [user]) := by
      have hpush : ((t.step publisher (.push [user])).content.map id).Perm (t.content.map id ++ [user]) := by simp
      simpa using contents_set id hget hpush
    refine ⟨c', hrun, hready', hphases.trans (phases_set hget phase_push), hperm.trans ?_⟩
    refine (hset.append_right users).trans ?_
    rw [List.append_assoc]
    rfl

/-- What is scanned after a command is what it says, and nobody starts or ends. -/
theorem handle_content (command : Command) {c : Client} (h : c.Ready) :
    ∃ c', c.handle publisher command = .ok c' ∧ c'.Ready ∧
      c'.threads.map (·.phase) = c.threads.map (·.phase) ∧
      (contents c'.threads).Perm (command.given (contents c.threads)) := by
  have hpos : 0 < c.threads.length := Nat.lt_of_le_of_lt (Nat.zero_le _) h
  cases command with
  | pushAccounts users => exact pushAccounts_content users h
  | replaceAccounts users =>
    refine ⟨_, rfl, ?_, phases_replaceThreads, contents_replaceThreads (List.ne_nil_of_length_pos hpos)⟩
    rw [Client.Ready, Client.replaceAccounts, length_replaceThreads]
    exact hpos

/-- Commands that are given the same accounts leave the same. -/
theorem Command.given_who (command : Command) {users users' : List Account}
    (h : (users.map who).Perm (users'.map who)) :
    ((command.given users).map who).Perm ((command.given users').map who) := by
  cases command with
  | pushAccounts more =>
    rw [Command.given, Command.given, List.map_append, List.map_append]
    exact h.append_right _
  | replaceAccounts more => exact List.Perm.refl _

theorem foldl_given_who (commands : List Command) {users users' : List Account}
    (h : (users.map who).Perm (users'.map who)) :
    ((commands.foldl Command.given users).map who).Perm ((commands.foldl Command.given users').map who) := by
  induction commands generalizing users users' with
  | nil => exact h
  | cons command commands ih => exact ih (command.given_who h)

end Lws.Scanner
