/-
  Lws.Scanner.MinHeight — the height a thread's queue reports
  (`src/rpc/scanner/queue.cpp`: `current_min_height`; the end of a turn of
  `scanner::loop` in `src/scanner.cpp`).

  The server sets the height at a replacement and lowers it at a push, the thread raises
  it after a stored batch, each from what it knows. They disagree in these ways:
  - a queue starts at zero whatever accounts its thread starts with;
  - zero also stands for "no account yet" in a push, so an account that has scanned
    nothing is forgotten at the next one (`lowerMin`);
  - the thread reports a maximum, over an older account that was pushed, or a
    replacement that was made, since it read its queue (`late_report`).

  Between a stored batch and its report the queue answers for the accounts as they were
  before the batch (`known`). `min_height_tracked` says that without these three the
  height is the least one of the accounts assigned, in every run.
-/

import Lws.Scanner.Thread

namespace Lws.Scanner

open Lws.Db

/-! ## The least height -/

section Least

variable {users more : List Account} {u : Account}

@[simp] theorem leastHeight_nil : leastHeight [] = 0 := rfl

theorem leastHeight_eq {h : Nat} (hmem : ∃ u ∈ users, u.scanHeight = h) (hle : ∀ u ∈ users, h ≤ u.scanHeight) :
    leastHeight users = h := by
  have hmin : (users.map (·.scanHeight)).min? = some h := by
    rw [List.min?_eq_some_iff]
    refine ⟨List.mem_map.mpr hmem, fun b hb => ?_⟩
    obtain ⟨u, hu, rfl⟩ := List.mem_map.mp hb
    exact hle u hu
  unfold leastHeight
  rw [hmin]
  rfl

theorem leastHeight_spec (hne : users ≠ []) :
    (∃ u ∈ users, u.scanHeight = leastHeight users) ∧ ∀ u ∈ users, leastHeight users ≤ u.scanHeight := by
  rcases hmin : (users.map (·.scanHeight)).min? with _ | h
  · rw [List.min?_eq_none_iff, List.map_eq_nil_iff] at hmin
    exact absurd hmin hne
  · have hh : leastHeight users = h := by
      unfold leastHeight
      rw [hmin]
      rfl
    rw [List.min?_eq_some_iff] at hmin
    obtain ⟨u, hu, he⟩ := List.mem_map.mp hmin.1
    rw [hh]
    exact ⟨⟨u, hu, he⟩, fun v hv => hmin.2 _ (List.mem_map.mpr ⟨v, hv, rfl⟩)⟩

theorem leastHeight_le (hu : u ∈ users) : leastHeight users ≤ u.scanHeight :=
  (leastHeight_spec (List.ne_nil_of_mem hu)).2 u hu

theorem leastHeight_perm (h : users.Perm more) : leastHeight users = leastHeight more := by
  by_cases hne : more = []
  · rw [hne] at h ⊢
    rw [h.eq_nil]
  · obtain ⟨⟨u, hu, he⟩, hle⟩ := leastHeight_spec hne
    exact leastHeight_eq ⟨u, h.mem_iff.mpr hu, he⟩ fun v hv => hle v (h.mem_iff.mp hv)

/-- Of a sorted list the first account is the oldest. -/
theorem leastHeight_sorted (hs : users.Pairwise fun a b => a.scanHeight ≤ b.scanHeight) :
    leastHeight users = oldest users := by
  cases users with
  | nil => rfl
  | cons u users => exact leastHeight_eq ⟨u, List.mem_cons_self, rfl⟩ fun v hv => oldest_le hs hv

theorem leastHeight_append (hne : users ≠ []) (hne' : more ≠ []) :
    leastHeight (users ++ more) = min (leastHeight users) (leastHeight more) := by
  obtain ⟨⟨u, hu, heu⟩, hlu⟩ := leastHeight_spec hne
  obtain ⟨⟨v, hv, hev⟩, hlv⟩ := leastHeight_spec hne'
  refine leastHeight_eq ?_ fun w hw => ?_
  · rcases Nat.le_total (leastHeight users) (leastHeight more) with hle | hle
    · exact ⟨u, List.mem_append_left _ hu, by omega⟩
    · exact ⟨v, List.mem_append_right _ hv, by omega⟩
  · rcases List.mem_append.mp hw with hw | hw
    · have := hlu w hw
      omega
    · have := hlv w hw
      omega

theorem leastHeight_zero (hu : u ∈ users) (hz : u.scanHeight = 0) : leastHeight users = 0 :=
  Nat.le_zero.mp (hz ▸ leastHeight_le hu)

/-! ## A push -/

/-- The heights a push has right: none of those known and pushed is zero, or the last
    one pushed is. -/
def PushHeights (known pushed : List Account) : Prop :=
  pushed = [] ∨ (∀ u ∈ known ++ pushed, u.scanHeight ≠ 0) ∨ ∃ u ∈ pushed.getLast?, u.scanHeight = 0

instance (known pushed : List Account) : Decidable (PushHeights known pushed) := inferInstanceAs (Decidable (_ ∨ _ ∨ _))

theorem lowerMin_least (hnz : ∀ v ∈ users ++ [u], v.scanHeight ≠ 0) :
    lowerMin (leastHeight users) u = leastHeight (users ++ [u]) := by
  unfold lowerMin
  by_cases hne : users = []
  · rw [hne, leastHeight_nil, if_pos (Or.inl rfl)]
    rfl
  · obtain ⟨⟨v, hv, he⟩, -⟩ := leastHeight_spec hne
    have hpos := hnz v (List.mem_append_left _ hv)
    have hone : leastHeight [u] = u.scanHeight := rfl
    rw [leastHeight_append hne (List.cons_ne_nil _ _), hone]
    split <;> omega

theorem foldl_lowerMin (h : PushHeights users more) :
    more.foldl lowerMin (leastHeight users) = leastHeight (users ++ more) := by
  rcases h with rfl | hnz | ⟨u, hlast, hz⟩
  · rw [List.append_nil]
    rfl
  · induction more generalizing users with
    | nil =>
      rw [List.append_nil]
      rfl
    | cons u more ih =>
      have hcons : users ++ u :: more = users ++ [u] ++ more := by rw [List.append_assoc]; rfl
      rw [hcons] at hnz ⊢
      rw [List.foldl_cons, lowerMin_least fun v hv => hnz v (List.mem_append_left _ hv)]
      exact ih hnz
  · obtain ⟨init, rfl⟩ := List.getLast?_eq_some_iff.mp hlast
    have hu : u ∈ users ++ (init ++ [u]) := List.mem_append_right _ (List.mem_append_right _ List.mem_cons_self)
    rw [leastHeight_zero hu hz, List.foldl_append]
    show lowerMin _ u = 0
    unfold lowerMin
    split <;> omega

end Least

/-! ## Reports -/

/-- A thread, and the accounts it stored a batch for that it has not reported yet, as they
    were before. -/
structure Tracked where
  thread : Thread
  due : Option (List Account)
  deriving DecidableEq, Repr

/-- The accounts as far as the queue was told: a batch that is not reported is not yet seen. -/
def Tracked.known (t : Tracked) : List Account := t.due.getD t.thread.users

def Thread.assigned (t : Thread) : List Account := t.queue.merge t.users

def Tracked.step (publisher : Bool) (t : Tracked) (e : Event) : Tracked where
  thread := t.thread.step publisher e
  due :=
    match e with
    | .turn reply stored live =>
      match t.thread.phase with
      | .scanning s =>
        match s.turn publisher ⟨reply, t.thread.queue.getAccounts.1, stored, live⟩ with
        | (some call, .next _) => some call.users
        | _ => t.due
      | _ => t.due
    | .report => none
    | _ => t.due

def Tracked.start (initial : List Account) : Tracked := ⟨⟨.empty, .enter initial⟩, none⟩

def Tracked.run (publisher : Bool) (initial : List Account) (events : List Event) : Tracked :=
  events.foldl (Tracked.step publisher) (.start initial)

/-- The order of `scanner::loop`: a report ends a turn that stored a batch, before the next turn. -/
def Tracked.Ordered (t : Tracked) : Event → Prop
  | .turn _ _ _ => t.due = none
  | .report => t.due ≠ none
  | _ => True

/-- The steps that keep the height right: a push without a zero before its end, and a
    report that is not over an older account in the queue. -/
def Tracked.Keeps (t : Tracked) : Event → Prop
  | .push users => PushHeights (t.thread.queue.merge t.known) users
  | .report => t.thread.queue.hasAccounts = true →
      oldest t.thread.users ≤ leastHeight (t.thread.queue.replace.getD [] ++ t.thread.queue.push)
  | _ => True

/-- Every step of a history is in order and keeps the height right. -/
def Tracked.AllKeep (publisher : Bool) : Tracked → List Event → Prop
  | _, [] => True
  | t, e :: events => t.Ordered e ∧ t.Keeps e ∧ Tracked.AllKeep publisher (t.step publisher e) events

instance (t : Tracked) : ∀ e : Event, Decidable (t.Ordered e)
  | .turn _ _ _ => inferInstanceAs (Decidable (t.due = none))
  | .report => inferInstanceAs (Decidable (t.due ≠ none))
  | .replace _ | .push _ | .stop | .wake | .shutdown => inferInstanceAs (Decidable True)

instance (t : Tracked) : ∀ e : Event, Decidable (t.Keeps e)
  | .push users => inferInstanceAs (Decidable (PushHeights (t.thread.queue.merge t.known) users))
  | .report => inferInstanceAs (Decidable (_ → _))
  | .replace _ | .turn _ _ _ | .stop | .wake | .shutdown => inferInstanceAs (Decidable True)

instance decidableAllKeep (publisher : Bool) : ∀ (t : Tracked) (events : List Event),
    Decidable (Tracked.AllKeep publisher t events)
  | _, [] => inferInstanceAs (Decidable True)
  | t, e :: events =>
    have := decidableAllKeep publisher (t.step publisher e) events
    inferInstanceAs (Decidable (_ ∧ _ ∧ _))

structure Tracked.Inv (t : Tracked) : Prop where
  height : t.thread.queue.minHeight = leastHeight (t.thread.queue.merge t.known)
  users : ∀ s, t.thread.phase = .scanning s → s.users.Pairwise (fun a b => a.scanHeight ≤ b.scanHeight) ∧ s.users ≠ []
  behind : ∀ before, t.due = some before →
    before ≠ [] ∧ ∃ s, t.thread.phase = .scanning s ∧ leastHeight before ≤ oldest s.users

section Steps

variable {publisher : Bool} {t : Tracked} {s s' : Loop} {turn : Turn}

theorem Thread.run_tracked (initial : List Account) (events : List Event) :
    (Tracked.run publisher initial events).thread = Thread.run publisher initial events := by
  unfold Tracked.run Thread.run
  have key : ∀ (events : List Event) (t : Tracked),
      (events.foldl (Tracked.step publisher) t).thread = events.foldl (Thread.step publisher) t.thread := by
    intro events
    induction events with
    | nil => intro t; rfl
    | cons e events ih => intro t; exact ih _
  exact key events _

theorem fetched_sorted {status : Status} (hs : s.users.Pairwise fun a b => a.scanHeight ≤ b.scanHeight) :
    (s.fetched status).Pairwise fun a b => a.scanHeight ≤ b.scanHeight := by
  unfold Loop.fetched
  split
  · exact sortByHeight_sorted _
  · exact hs

/-- A turn that goes on has accounts, and stored a batch for them or did not touch them. -/
theorem turn_stores {call : Option StoreCall} (h : s.turn publisher turn = (call, .next s')) :
    ¬ (turn.status.replace = some [] ∧ turn.status.push = []) ∧
      ((call = none ∧ s'.users = s.fetched turn.status) ∨
        ∃ c height, call = some c ∧ c.users = s.fetched turn.status ∧
          s'.users = pushUpdates publisher height (s.fetched turn.status)) := by
  obtain ⟨-, hidle, -⟩ := turn_next (congrArg Prod.snd h)
  refine ⟨hidle, ?_⟩
  unfold Loop.turn at h
  dsimp only at h
  split at h
  · cases h
  · split at h
    · cases h
    · split at h
      · split at h
        · cases h
          exact Or.inl ⟨rfl, rfl⟩
        · cases h
      · split at h
        · split at h
          · cases h
            exact Or.inl ⟨rfl, rfl⟩
          · cases h
        · split at h
          · cases h
          · split at h
            · cases h
              exact Or.inr ⟨_, _, rfl, rfl, rfl⟩
            · cases h

theorem fetched_ne_nil {status : Status} (hne : s.users ≠ [])
    (hidle : ¬ (status.replace = some [] ∧ status.push = [])) :
    s.fetched status ≠ [] := by
  intro hnil
  have hmerge : status.replace.getD s.users ++ status.push = [] := by
    have hp := fetched_perm s status
    rw [hnil] at hp
    exact hp.nil_eq.symm
  obtain ⟨hreplace, hpush⟩ := List.append_eq_nil_iff.mp hmerge
  rcases hr : status.replace with _ | users
  · rw [hr] at hreplace
    exact hne hreplace
  · rw [hr] at hreplace
    exact hidle ⟨by rw [hr]; exact congrArg some hreplace, hpush⟩

/-- A thread that starts to scan has accounts, in order. -/
theorem enter_scanning {users : List Account} (h : Phase.enter users = .scanning s) :
    s.users.Pairwise (fun a b => a.scanHeight ≤ b.scanHeight) ∧ s.users ≠ [] := by
  unfold Phase.enter Loop.enter at h
  have hsorted := sortByHeight_sorted users
  rcases hsort : sortByHeight users with _ | ⟨u, rest⟩
  · rw [hsort] at h
    cases h
  · rw [hsort] at h hsorted
    cases h
    exact ⟨hsorted, List.cons_ne_nil _ _⟩

/-- What a turn leaves of the invariant, with no report due before it. -/
theorem inv_turn (h : t.Inv) (hdue : t.due = none) {reply : Reply} {stored live : Bool}
    (hlive : (t.step publisher (.turn reply stored live)).thread.phase ≠ .ended) :
    (t.step publisher (.turn reply stored live)).Inv := by
  obtain ⟨⟨queue, phase⟩, due⟩ := t
  cases hdue
  cases phase with
  | idle => exact h
  | ended => exact h
  | scanning s =>
    obtain ⟨hsorted, hne⟩ := h.users s rfl
    have hheight : queue.minHeight = leastHeight (queue.merge s.users) := h.height
    have hleast : queue.minHeight = leastHeight (s.fetched queue.getAccounts.1) := by
      rw [hheight, leastHeight_perm (fetched_perm s queue.getAccounts.1), getAccounts_merge]
    dsimp only [Tracked.step, Thread.step] at hlive ⊢
    rcases hturn : s.turn publisher ⟨reply, queue.getAccounts.1, stored, live⟩ with ⟨call, s' | value | _⟩
    · rw [hturn] at hlive
      obtain ⟨hidle, hcases⟩ := turn_stores hturn
      have hsome := fetched_ne_nil hne hidle
      have hfetched := @fetched_sorted s queue.getAccounts.1 hsorted
      rcases hcases with ⟨rfl, husers⟩ | ⟨c, height, rfl, hc, husers⟩
      · -- the accounts are read and no height changed
        refine ⟨?_, fun x hx => ?_, fun before hb => nomatch hb⟩
        · show queue.minHeight = leastHeight (queue.getAccounts.2.merge s'.users)
          rw [getAccounts_rest, husers, hleast]
        · cases hx
          rw [husers]
          exact ⟨hfetched, hsome⟩
      · -- the batch raised them, which the queue is not told yet
        refine ⟨?_, fun x hx => ?_, fun before hb => ?_⟩
        · show queue.minHeight = leastHeight (queue.getAccounts.2.merge c.users)
          rw [getAccounts_rest, hc, hleast]
        · cases hx
          rw [husers]
          refine ⟨pushUpdates_sorted publisher height hfetched, fun hnil => hsome ?_⟩
          have hlen := congrArg List.length (pushUpdates_height publisher height (s.fetched queue.getAccounts.1))
          rw [hnil, List.length_map, List.length_map] at hlen
          exact List.length_eq_zero_iff.mp hlen.symm
        · cases hb
          rw [hc]
          refine ⟨hsome, s', rfl, ?_⟩
          rw [husers, pushUpdates_oldest publisher height hsome, leastHeight_sorted hfetched]
          exact Nat.le_max_left _ _
    · cases value with
      | false =>
        rw [hturn] at hlive
        exact absurd rfl hlive
      | true =>
        have hnil := turn_returned (congrArg Prod.snd hturn)
        rw [getAccounts_merge] at hnil
        have hdue : (match (call, Outcome.returned true) with
            | (some call, .next _) => some call.users
            | _ => none) = (none : Option (List Account)) := by cases call <;> rfl
        refine ⟨?_, fun x hx => ?_, fun before hb => ?_⟩
        · show queue.minHeight = leastHeight (queue.getAccounts.2.merge _)
          rw [getAccounts_rest, hheight, hnil]
          unfold Tracked.known
          rw [hdue]
          rfl
        · cases hx
        · rw [hdue] at hb
          cases hb
    · rw [hturn] at hlive
      exact absurd rfl hlive

/-- A report of the raised accounts, with none older in the queue. -/
theorem inv_report (h : t.Inv) (hdue : t.due ≠ none) (hkeeps : t.Keeps .report) : (t.step publisher .report).Inv := by
  obtain ⟨⟨queue, phase⟩, due⟩ := t
  obtain ⟨before, rfl⟩ := Option.ne_none_iff_exists'.mp hdue
  obtain ⟨hbefore, s, hphase, hle⟩ := h.behind before rfl
  change phase = .scanning s at hphase
  subst hphase
  obtain ⟨hsorted, hne⟩ := h.users s rfl
  have hheight : queue.minHeight = leastHeight (queue.merge before) := h.height
  have hkeeps : queue.hasAccounts = true → oldest s.users ≤ leastHeight (queue.replace.getD [] ++ queue.push) := hkeeps
  refine ⟨?_, h.users, fun b hb => nomatch hb⟩
  show max (oldest s.users) queue.minHeight = leastHeight (queue.merge s.users)
  by_cases hhas : queue.hasAccounts = true
  · have hold := hkeeps hhas
    unfold Queue.merge at hheight ⊢
    rcases hr : queue.replace with _ | users
    · -- pushed accounts only, all at or past the thread's
      rw [hr] at hheight hold
      have hpush : queue.push ≠ [] := by
        intro hn
        unfold Queue.hasAccounts at hhas
        rw [hr, hn] at hhas
        cases hhas
      simp only [Option.getD_none, List.nil_append] at hheight hold ⊢
      rw [leastHeight_append hbefore hpush] at hheight
      rw [leastHeight_append hne hpush, leastHeight_sorted hsorted]
      omega
    · rw [hr] at hheight hold
      simp only [Option.getD_some] at hheight hold ⊢
      omega
  · rw [Bool.not_eq_true] at hhas
    rw [merge_of_not_hasAccounts hhas] at hheight ⊢
    rw [leastHeight_sorted hsorted]
    omega

theorem inv_wake (h : t.Inv) (hlive : (t.step publisher .wake).thread.phase ≠ .ended) :
    (t.step publisher .wake).Inv := by
  obtain ⟨⟨queue, phase⟩, due⟩ := t
  cases phase with
  | scanning s => exact h
  | ended => exact h
  | idle =>
    have hdue : due = none := by
      rcases due with _ | before
      · rfl
      · obtain ⟨-, s, hs, -⟩ := h.behind before rfl
        cases hs
    subst hdue
    by_cases hready : queue.ready = true
    · have hheight : queue.minHeight = leastHeight (queue.merge []) := h.height
      dsimp only [Tracked.step, Thread.step]
      rw [if_pos hready]
      refine ⟨?_, fun s hs => ?_, fun before hb => nomatch hb⟩
      · show queue.minHeight = leastHeight (queue.getAccounts.2.merge (Thread.users _))
        rw [getAccounts_rest, hheight]
        exact (leastHeight_perm (Phase.enter_users _)).symm
      · exact enter_scanning hs
    · have hsame : (⟨⟨queue, .idle⟩, none⟩ : Tracked).step publisher .wake = ⟨⟨queue, .idle⟩, none⟩ := by
        dsimp only [Tracked.step, Thread.step]
        rw [if_neg hready]
      rw [hsame]
      exact h

/-- Every step in order that keeps the height right keeps the invariant, up to the end of
    the thread. -/
theorem inv_step {e : Event} (hord : t.Ordered e) (hkeeps : t.Keeps e) (h : t.thread.phase ≠ .ended → t.Inv)
    (hlive : (t.step publisher e).thread.phase ≠ .ended) : (t.step publisher e).Inv := by
  have h := h fun he => hlive (step_ended he e)
  cases e with
  | turn reply stored live => exact inv_turn h hord hlive
  | report => exact inv_report h hord hkeeps
  | wake => exact inv_wake h hlive
  | shutdown => exact absurd rfl hlive
  | stop => exact ⟨h.height, h.users, h.behind⟩
  | replace users =>
    refine ⟨?_, h.users, h.behind⟩
    show leastHeight users = leastHeight ((t.thread.queue.replaceAccounts users).merge _)
    rw [replaceAccounts_merge]
  | push users =>
    refine ⟨?_, h.users, h.behind⟩
    show users.foldl lowerMin t.thread.queue.minHeight = leastHeight ((t.thread.queue.pushAccounts users).merge t.known)
    rw [pushAccounts_merge, h.height]
    exact foldl_lowerMin hkeeps

theorem inv_start {initial : List Account} (hzero : leastHeight initial = 0) : (Tracked.start initial).Inv := by
  refine ⟨?_, fun s hs => ?_, fun before hb => nomatch hb⟩
  · show 0 = leastHeight (Queue.empty.merge (Thread.users _))
    rw [merge_of_not_hasAccounts rfl, ← hzero]
    exact (leastHeight_perm (Phase.enter_users _)).symm
  · exact enter_scanning hs

theorem inv_run : ∀ (events : List Event) {t : Tracked}, Tracked.AllKeep publisher t events →
    (t.thread.phase ≠ .ended → t.Inv) →
      (events.foldl (Tracked.step publisher) t).thread.phase ≠ .ended → (events.foldl (Tracked.step publisher) t).Inv := by
  intro events
  induction events with
  | nil => intro t _ h; exact h
  | cons e events ih =>
    intro t hall h
    exact ih hall.2.2 (inv_step hall.1 hall.2.1 h)

/-- In a run that starts at height zero and whose pushes and reports keep the height right,
    the queue of a live thread has the least height of the accounts assigned to it; between
    a batch and its report, of the accounts as they were before the batch. -/
theorem min_height_tracked (initial : List Account) (events : List Event) (hzero : leastHeight initial = 0)
    (hall : Tracked.AllKeep publisher (.start initial) events)
    (hlive : (Thread.run publisher initial events).phase ≠ .ended) :
    let t := Thread.run publisher initial events
    let due := (Tracked.run publisher initial events).due
    (due = none → t.queue.minHeight = leastHeight t.assigned) ∧
      ∀ before, due = some before → t.queue.minHeight = leastHeight (t.queue.merge before) := by
  intro t due
  have ht : (Tracked.run publisher initial events).thread = t := Thread.run_tracked initial events
  have hinv : (Tracked.run publisher initial events).Inv := by
    refine inv_run events hall (fun _ => inv_start hzero) ?_
    have hphase : (Tracked.run publisher initial events).thread.phase = t.phase := by rw [ht]
    exact fun he => hlive (hphase.symm.trans he)
  have hheight := hinv.height
  unfold Tracked.known at hheight
  rw [ht] at hheight
  refine ⟨fun hd => ?_, fun before hd => ?_⟩
  · rw [show (Tracked.run publisher initial events).due = none from hd] at hheight
    exact hheight
  · rw [show (Tracked.run publisher initial events).due = some before from hd] at hheight
    exact hheight

def batchEvents : List Event := [.push [sampleUser 5 [] []], .wake, .turn ⟨5, [105, 106]⟩ true true]

theorem min_height_tracked_batch :
    (Thread.run false [] (batchEvents ++ [.report])).queue.minHeight = 6 ∧
      (Thread.run false [] (batchEvents ++ [.report])).queue.minHeight =
        leastHeight (Thread.run false [] (batchEvents ++ [.report])).assigned :=
  ⟨by decide, (min_height_tracked [] _ rfl (by decide) (by decide)).1 (by decide)⟩

/-- An older account is pushed after the batch was stored and before the thread reports it. -/
theorem late_report :
    let t := Thread.run false [] (batchEvents ++ [.push [sampleUser 3 [] []], .report])
    t.phase ≠ .ended ∧ (Tracked.run false [] (batchEvents ++ [.push [sampleUser 3 [] []], .report])).due = none ∧
      t.assigned.map (·.scanHeight) = [6, 3] ∧ t.queue.minHeight = 6 ∧ t.queue.minHeight ≠ leastHeight t.assigned := by
  decide

end Steps

end Lws.Scanner
