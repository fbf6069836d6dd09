/-
  Lws.Scanner.Balance — which thread a new account is given to with `balance_new_addresses`
  (`src/rpc/scanner/server.cpp`: `check_users`; `src/rpc/scanner/queue.h`: `push_accounts`).

  One pass over the threads keeps the best so far: the highest that is not above the
  account, or, while all are above it, the lowest; with fewer users where the heights are
  the same. A height of zero stands for no best yet, which does no harm, as a thread that is
  above an account is above zero. So the pass finds a thread that is `Preferred`
  (`bestThread_preferred`).

  The next account sees what the last was given. A queue counts its users, and keeps the
  least height it was given (`lowest`), but takes a height of zero for none yet: an account
  at height zero is forgotten when another is given to the same thread after it
  (`balance_exact_iff`, `zero_forgotten`).
-/

import Lws.Scanner.ServerRuns

namespace Lws.Scanner

/-! ## The pass over the threads -/

/-- The thread that an account at a height is to be given to, with what the threads show: each its
    height and its users. -/
def Preferred (threads : Nat) (view : Nat → Nat × Nat) (accountHeight i : Nat) : Prop :=
  i < threads ∧
    if ∃ j < threads, (view j).1 ≤ accountHeight then
      (view i).1 ≤ accountHeight ∧ ∀ j < threads, (view j).1 ≤ accountHeight →
        (view j).1 ≤ (view i).1 ∧ ((view j).1 = (view i).1 → (view i).2 ≤ (view j).2)
    else ∀ j < threads, (view i).1 ≤ (view j).1 ∧ ((view j).1 = (view i).1 → (view i).2 ≤ (view j).2)

structure Best.Of (view : Nat → Nat × Nat) (accountHeight n : Nat) (best : Best) : Prop where
  thread : best.thread < n
  shown : view best.thread = (best.height, best.count)
  /-- Of those that are not above the account it is the highest. -/
  below : best.found = true → best.height ≤ accountHeight ∧ ∀ j < n, (view j).1 ≤ accountHeight →
    (view j).1 ≤ best.height ∧ ((view j).1 = best.height → best.count ≤ (view j).2)
  /-- All are above the account, and it is the lowest. -/
  above : best.found = false → ∀ j < n, accountHeight < (view j).1 ∧ best.height ≤ (view j).1 ∧
    ((view j).1 = best.height → best.count ≤ (view j).2)

variable {view : Nat → Nat × Nat} {accountHeight n : Nat} {best : Best}

theorem Best.consider_first (count : Nat) :
    Best.Of view accountHeight 1 (Best.consider accountHeight 0 (view 0).1 (view 0).2 ⟨0, 0, count, false⟩) := by
  unfold Best.consider
  by_cases hle : (view 0).1 ≤ accountHeight
  · rw [if_pos hle, if_pos (.inl rfl)]
    refine ⟨Nat.one_pos, rfl, fun _ => ⟨hle, fun j hj _ => ?_⟩, fun h => by cases h⟩
    obtain rfl : j = 0 := by omega
    simp
  · rw [if_neg hle, if_pos ⟨rfl, .inl rfl⟩]
    refine ⟨Nat.one_pos, rfl, (fun h => by cases h), fun _ j hj => ?_⟩
    obtain rfl : j = 0 := by omega
    simpa using hle

/-- One more thread: it is better than the best so far, or it is not. -/
theorem Best.Of.consider (h : best.Of view accountHeight n) :
    Best.Of view accountHeight (n + 1) (best.consider accountHeight n (view n).1 (view n).2) := by
  have hthread := Nat.lt_succ_of_lt h.thread
  unfold Best.consider
  cases hfound : best.found with
  | true =>
    obtain ⟨hbest, hbelow⟩ := h.below hfound
    by_cases hle : (view n).1 ≤ accountHeight
    · rw [if_pos hle]
      split
      · rename_i hbetter
        refine ⟨Nat.lt_succ_self n, rfl, fun _ => ⟨hle, fun j hj hjle => ?_⟩, fun h => by cases h⟩
        rcases Nat.lt_succ_iff_lt_or_eq.mp hj with hlt | rfl
        · have hone := hbelow j hlt hjle
          simp only [Bool.true_eq_false, false_or] at hbetter
          dsimp only
          omega
        · simp
      · rename_i hnot
        refine ⟨hthread, h.shown, fun _ => ⟨hbest, fun j hj hjle => ?_⟩, fun hno => by rw [hfound] at hno; cases hno⟩
        rcases Nat.lt_succ_iff_lt_or_eq.mp hj with hlt | rfl
        · exact hbelow j hlt hjle
        · simp only [Bool.true_eq_false, false_or, not_or, not_and] at hnot
          omega
    · rw [if_neg hle, if_neg (by simp)]
      refine ⟨hthread, h.shown, fun _ => ⟨hbest, fun j hj hjle => ?_⟩, fun hno => by rw [hfound] at hno; cases hno⟩
      rcases Nat.lt_succ_iff_lt_or_eq.mp hj with hlt | rfl
      · exact hbelow j hlt hjle
      · exact absurd hjle hle
  | false =>
    have habove := h.above hfound
    have hown := (habove best.thread h.thread).1
    rw [h.shown] at hown
    by_cases hle : (view n).1 ≤ accountHeight
    · -- the first that is not above the account
      rw [if_pos hle, if_pos (.inl rfl)]
      refine ⟨Nat.lt_succ_self n, rfl, fun _ => ⟨hle, fun j hj hjle => ?_⟩, fun h => by cases h⟩
      rcases Nat.lt_succ_iff_lt_or_eq.mp hj with hlt | rfl
      · exact absurd hjle (not_le.mpr (habove j hlt).1)
      · simp
    · rw [if_neg hle]
      split
      · rename_i hbetter
        refine ⟨Nat.lt_succ_self n, rfl, (fun h => by cases h), fun _ j hj => ?_⟩
        rcases Nat.lt_succ_iff_lt_or_eq.mp hj with hlt | rfl
        · have hone := habove j hlt
          dsimp only at hown ⊢
          omega
        · simpa using hle
      · rename_i hnot
        refine ⟨hthread, h.shown, (fun hyes => by rw [hfound] at hyes; cases hyes), fun _ j hj => ?_⟩
        rcases Nat.lt_succ_iff_lt_or_eq.mp hj with hlt | rfl
        · exact habove j hlt
        · simp only [true_and, not_or, not_and] at hnot
          omega

theorem bestThread_preferred (threads : Nat) (view : Nat → Nat × Nat) (accountHeight : Nat) (hpos : threads ≠ 0) :
    Preferred threads view accountHeight (bestThread threads view accountHeight) := by
  have hall : ∀ n, Best.Of view accountHeight (n + 1)
      ((List.range (n + 1)).foldl (fun (best : Best) i => best.consider accountHeight i (view i).1 (view i).2)
        ⟨0, 0, 2 ^ 64 - 1, false⟩) := by
    intro n
    induction n with
    | zero => exact Best.consider_first _
    | succ n ih =>
      rw [List.range_succ, List.foldl_append]
      exact ih.consider
  obtain ⟨n, rfl⟩ := Nat.exists_eq_succ_of_ne_zero hpos
  have hbest := hall n
  unfold bestThread
  generalize List.foldl _ _ _ = best at hbest
  refine ⟨hbest.thread, ?_⟩
  rw [hbest.shown]
  cases hfound : best.found with
  | true =>
    obtain ⟨hle, hbelow⟩ := hbest.below hfound
    rw [if_pos ⟨best.thread, hbest.thread, by rw [hbest.shown]; exact hle⟩]
    exact ⟨hle, hbelow⟩
  | false =>
    have habove := hbest.above hfound
    rw [if_neg fun ⟨j, hj, hle⟩ => absurd hle (not_le.mpr (habove j hj).1)]
    exact fun j hj => (habove j hj).2

/-! ## The loop over the new accounts -/

/-- What the queues show. -/
def queueView (queues : List Queue) (i : Nat) : Nat × Nat :=
  ((queues.getD i .empty).minHeight, (queues.getD i .empty).userCount)

structure Balance where
  queues : List Queue
  given : List (Nat × Lws.Account)
  deriving DecidableEq, Repr

def Balance.pick (b : Balance) (user : Lws.Account) : Nat :=
  bestThread b.queues.length (queueView b.queues) user.scanHeight

def Balance.give (b : Balance) (user : Lws.Account) : Balance :=
  ⟨b.queues.modify (b.pick user) (Queue.pushAccounts [user]), b.given ++ [(b.pick user, user)]⟩

def giveAll (queues : List Queue) (users : List Lws.Account) : Balance := users.foldl Balance.give ⟨queues, []⟩

/-- The branch of `check_users`: the last of the new accounts is taken first. -/
def balanceAccounts (queues : List Queue) (newAccounts : List Lws.Account) : Balance :=
  giveAll queues newAccounts.reverse

def Balance.to (b : Balance) (i : Nat) : List Lws.Account := (b.given.filter fun entry => entry.1 == i).map (·.2)

/-- The least height of a thread and the accounts it was given; a thread at zero had none. -/
def lowest (height : Nat) (users : List Lws.Account) : Nat :=
  match users.map (·.scanHeight) with
  | [] => height
  | first :: rest => rest.foldl min (if height = 0 then first else min height first)

/-- The queues show what they did at the start, and what was given to them since. -/
def Balance.Includes (b : Balance) (queues : List Queue) : Prop :=
  b.queues.length = queues.length ∧ ∀ i < queues.length,
    queueView b.queues i =
      (lowest (queueView queues i).1 (b.to i), (queueView queues i).2 + (b.to i).length)

/-- No thread at height zero that was given an account is given one above it. -/
def Balance.Keeps (b : Balance) (user : Lws.Account) : Prop :=
  0 < user.scanHeight → (queueView b.queues (b.pick user)).1 = 0 → b.to (b.pick user) = []

theorem min_eq_lowered (low height : Nat) :
    min low height = (if low = 0 ∨ height < low then height else low) ↔ (0 < height → low ≠ 0) := by
  split <;> omega

/-- A push lowers the height to the least, but for a thread that was given an account at zero. -/
theorem lowest_concat (height : Nat) (users : List Lws.Account) (user : Lws.Account) :
    lowest height (users ++ [user]) = lowerMin (lowest height users) user ↔
      (0 < user.scanHeight → lowest height users = 0 → users = []) := by
  unfold lowest lowerMin
  cases users with
  | nil =>
    refine iff_of_true ?_ (fun _ _ => rfl)
    by_cases hzero : height = 0
    · simp [hzero]
    · have hmin := (min_eq_lowered height user.scanHeight).mpr fun _ => hzero
      simpa [hzero] using hmin
  | cons first rest =>
    simp only [List.map_cons, List.cons_append, List.map_append, List.map_nil, List.foldl_append, List.foldl_cons,
      List.foldl_nil, reduceCtorEq, imp_false]
    exact min_eq_lowered _ _

theorem Balance.to_give (b : Balance) (user : Lws.Account) (i : Nat) :
    (b.give user).to i = b.to i ++ if b.pick user = i then [user] else [] := by
  unfold Balance.to Balance.give
  by_cases hi : b.pick user = i
  · simp [hi]
  · simp [hi]

theorem queueView_give (b : Balance) (user : Lws.Account) {i : Nat} (hi : i < b.queues.length) :
    queueView (b.give user).queues i =
      if b.pick user = i then (lowerMin (queueView b.queues i).1 user, (queueView b.queues i).2 + 1)
      else queueView b.queues i := by
  unfold queueView Balance.give
  rw [List.getD_eq_getElem _ _ (by simpa using hi), List.getElem_modify, List.getD_eq_getElem _ _ hi]
  split
  · simp [Queue.pushAccounts]
  · rfl

/-- One round: the queues show all again exactly when the round keeps the height. -/
theorem Balance.Includes.give {b : Balance} {queues : List Queue} (h : b.Includes queues) (hne : queues ≠ [])
    (user : Lws.Account) : (b.give user).Includes queues ↔ b.Keeps user := by
  have hpos : b.queues.length ≠ 0 := by
    rw [h.1]
    exact fun hzero => hne (List.length_eq_zero_iff.mp hzero)
  have hpick : b.pick user < queues.length := h.1 ▸ bestThread_lt _ _ hpos
  have hlen : (b.give user).queues.length = queues.length := by
    rw [← h.1]
    exact List.length_modify _ _ _
  have hown := h.2 _ hpick
  unfold Balance.Keeps
  rw [hown, ← lowest_concat]
  constructor
  · intro hall
    have hone := hall.2 _ hpick
    rw [queueView_give b user (h.1 ▸ hpick), if_pos rfl, Balance.to_give, if_pos rfl, hown] at hone
    exact (congrArg Prod.fst hone).symm
  · intro hkeeps
    refine ⟨hlen, fun i hi => ?_⟩
    rw [queueView_give b user (h.1 ▸ hi), Balance.to_give, h.2 i hi]
    by_cases heq : b.pick user = i
    · subst heq
      simp only [if_true, ← hkeeps, List.length_append, List.length_singleton, Nat.add_assoc]
    · simp [heq]

/-! ## A whole run -/

variable {queues : List Queue} {users : List Lws.Account}

theorem giveAll_concat (queues : List Queue) (users : List Lws.Account) (user : Lws.Account) :
    giveAll queues (users ++ [user]) = (giveAll queues users).give user := by
  unfold giveAll
  rw [List.foldl_append]
  rfl

theorem giveAll_length : (giveAll queues users).queues.length = queues.length := by
  induction users using List.reverseRecOn with
  | nil => rfl
  | append_singleton users user ih =>
    rw [giveAll_concat, ← ih]
    exact List.length_modify _ _ _

theorem giveAll_accounts : (giveAll queues users).given.map (·.2) = users := by
  induction users using List.reverseRecOn with
  | nil => rfl
  | append_singleton users user ih =>
    rw [giveAll_concat]
    simp [Balance.give, ih]

/-- The threads that the accounts of a run are given to are those that its rounds pick. -/
theorem pick_of_given {front : List (Nat × Lws.Account)} {i : Nat} {user : Lws.Account}
    (h : front ++ [(i, user)] <+: (giveAll queues users).given) : i = (giveAll queues (front.map (·.2))).pick user := by
  induction users using List.reverseRecOn with
  | nil =>
    have hlen := h.length_le
    simp [giveAll] at hlen
  | append_singleton users last ih =>
    rw [giveAll_concat] at h
    rcases List.prefix_concat_iff.mp h with heq | hprefix
    · obtain ⟨rfl, hpair⟩ := List.append_inj' heq rfl
      obtain ⟨rfl, rfl⟩ := Prod.mk.inj (List.singleton_inj.mp hpair)
      rw [giveAll_accounts]
    · exact ih hprefix

theorem giveAll_start : (giveAll queues []).Includes queues :=
  ⟨rfl, fun i _ => by simp [giveAll, Balance.to, lowest]⟩

theorem includes_iff_keeps (hne : queues ≠ []) :
    (∀ front, front <+: users → (giveAll queues front).Includes queues) ↔
      ∀ front user, front ++ [user] <+: users → (giveAll queues front).Keeps user := by
  constructor
  · intro hall front user hprefix
    have hafter := hall _ hprefix
    rw [giveAll_concat] at hafter
    exact ((hall front ((List.prefix_append _ _).trans hprefix)).give hne user).mp hafter
  · intro hkeeps front hprefix
    induction front using List.reverseRecOn with
    | nil => exact giveAll_start
    | append_singleton front user ih =>
      rw [giveAll_concat]
      exact ((ih ((List.prefix_append _ _).trans hprefix)).give hne user).mpr (hkeeps front user hprefix)

/-- The new accounts are given one each, the last first, to a thread that is preferred by what
    the queues then show; and what they show includes all that was given before exactly when no
    thread at height zero that was given an account is given one above it. -/
theorem balance_exact_iff (queues : List Queue) (newAccounts : List Lws.Account) (hne : queues ≠ []) :
    ((balanceAccounts queues newAccounts).given.map (·.2) = newAccounts.reverse ∧
      (∀ front i user, front ++ [(i, user)] <+: (balanceAccounts queues newAccounts).given →
        Preferred queues.length (queueView (giveAll queues (front.map (·.2))).queues) user.scanHeight i) ∧
      ∀ front, front <+: newAccounts.reverse → (giveAll queues front).Includes queues) ↔
    ∀ front user, front ++ [user] <+: newAccounts.reverse → (giveAll queues front).Keeps user := by
  rw [← includes_iff_keeps hne]
  refine ⟨fun h => h.2.2, fun h => ⟨giveAll_accounts, fun front i user hprefix => ?_, h⟩⟩
  rw [pick_of_given hprefix, Balance.pick, giveAll_length]
  exact bestThread_preferred _ _ _ fun hzero => hne (List.length_eq_zero_iff.mp hzero)

/-- The server's step sends what the branch gives, with what the queues show to each account. -/
theorem balanceNew_eq (queues : List Queue) (newAccounts : List Lws.Account) (hids : (newAccounts.map (·.id)).Nodup) :
    ∃ view, balanceNew queues.length view newAccounts =
      (balanceAccounts queues newAccounts).given.map fun entry => (.queue entry.1, [entry.2]) := by
  have hall : ∀ users : List Lws.Account, (users.map (·.id)).Nodup → ∃ view : Nat → Nat → Nat × Nat,
      users.map (fun user => (Worker.queue (bestThread queues.length (view user.id) user.scanHeight), [user])) =
        (giveAll queues users).given.map fun entry => (Worker.queue entry.1, [entry.2]) := by
    intro users hnodup
    induction users using List.reverseRecOn with
    | nil => exact ⟨fun _ _ => (0, 0), rfl⟩
    | append_singleton users user ih =>
      rw [List.map_append, List.nodup_append] at hnodup
      obtain ⟨hrest, -, hapart⟩ := hnodup
      obtain ⟨view, hview⟩ := ih hrest
      refine ⟨fun id => if id = user.id then queueView (giveAll queues users).queues else view id, ?_⟩
      have hother : ∀ u ∈ users, u.id ≠ user.id := fun u hu => hapart _ (List.mem_map_of_mem hu) _ (by simp)
      have hmap := List.map_congr_left (l := users) fun u hu => show
        (Worker.queue (bestThread queues.length
          (if u.id = user.id then queueView (giveAll queues users).queues else view u.id)
          u.scanHeight), [u]) = (Worker.queue (bestThread queues.length (view u.id) u.scanHeight), [u]) by
        rw [if_neg (hother u hu)]
      rw [List.map_append, hmap, hview, giveAll_concat]
      simp [Balance.give, Balance.pick, giveAll_length]
  obtain ⟨view, hview⟩ := hall newAccounts.reverse (by rw [List.map_reverse]; exact List.nodup_reverse.mpr hids)
  exact ⟨view, hview⟩

def newAccount (id scanHeight : Nat) : Lws.Account := ⟨id, ⟨0, 0⟩, 0, scanHeight, [], [], [], []⟩

def threeThreads : List Queue :=
  [⟨none, [], 5, 3000000, false⟩, ⟨none, [], 3, 3100000, false⟩, ⟨none, [], 7, 2900000, false⟩]

/-- The accounts of the document go to the threads that it says. -/
theorem balance_exact_three :
    (balanceAccounts threeThreads
        [newAccount 3 3200000, newAccount 2 2800000, newAccount 1 3050000]).given.map (fun e => (e.1, e.2.id)) =
        [(0, 1), (2, 2), (1, 3)] ∧
      ∀ front, front <+: [newAccount 3 3200000, newAccount 2 2800000, newAccount 1 3050000].reverse →
        (giveAll threeThreads front).Includes threeThreads := by
  refine ⟨by decide, ((balance_exact_iff threeThreads
      [newAccount 3 3200000, newAccount 2 2800000, newAccount 1 3050000] (by decide)).mpr
    fun front user hprefix _ hzero => ?_).2.2⟩
  obtain ⟨rest, hrest⟩ := hprefix
  rcases front with _ | ⟨x, _ | ⟨y, _ | ⟨z, front⟩⟩⟩
  · obtain ⟨rfl, -⟩ := List.cons.inj hrest
    exact absurd hzero (by decide)
  · obtain ⟨hx, hrest⟩ := List.cons.inj hrest
    obtain ⟨rfl, -⟩ := List.cons.inj hrest
    exact absurd (hx ▸ hzero) (by decide)
  · obtain ⟨hx, hrest⟩ := List.cons.inj hrest
    obtain ⟨hy, hrest⟩ := List.cons.inj hrest
    obtain ⟨rfl, -⟩ := List.cons.inj hrest
    exact absurd (hx ▸ hy ▸ hzero) (by decide)
  · have hlen := congrArg List.length hrest
    simp at hlen

/-- An account at height zero is forgotten when one at 50 is given to its thread. -/
theorem zero_forgotten :
    ¬∀ (queues : List Queue) (newAccounts : List Lws.Account), queues ≠ [] →
      (balanceAccounts queues newAccounts).Includes queues := by
  intro h
  have hone := (h [⟨none, [], 1, 100, false⟩] [newAccount 2 50, newAccount 1 0] (by decide)).2 0 (by decide)
  exact absurd hone (by decide)

end Lws.Scanner
