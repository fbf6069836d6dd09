/-
  Lws.SharedCall — requests that share one call to a slow service, and its cached answer.

  The first request starts a call. Those that come while it runs wait for it, up to a limit,
  and all are called back with its one outcome. A value that it brought is kept, and for a
  while every request is answered with it at once. The cache is read and changed under one
  lock, so a request and the parts of a call between two locks are the steps that interleave.
  A call that is over may still be calling back while the next one runs.

  - `shared_exact`: in every state of a run, no call began before the last one was over, nor
    while its value was kept; what was accepted is called back once, in order, and with the
    one outcome of its call; what was answered at once got a value that is not too old.
  - `Call.Progress`: each step of a call brings it closer to its end (`Call.work`).
-/

import Lws.Transition

namespace Lws.SharedCall

open Lws.Transition

variable {R M V E : Type}

/-- What is called, for requests `R`, replies `M`, values `V` and errors `E`. -/
structure Rules (M V E : Type) where
  /-- How long a value is kept. -/
  keep : Nat
  /-- How many may wait before a request is refused. -/
  limit : Nat
  /-- The cache where it has no value. -/
  empty : V
  usable : V → Bool
  /-- What a reply brings; without one the service has failed, or was too slow. -/
  outcome : Option M → Except E V
  /-- Either the empty cache can be told from a value, or it is taken for one. -/
  empty_usable : usable empty = true → ∀ v, usable v = true

/-! ## A call -/

/-- Where the call is: not begun, waiting for the service, or over, at a time and with a reply
    or without. -/
inductive Stage (M : Type) where
  | starting
  | writing
  | reading
  | ended (time : Nat) (reply : Option M)

/-- A call. The last three are not read by it: when it began, whom it accepted, and whom it
    has called back. -/
structure Call (R M V E : Type) where
  waiting : List R
  stage : Stage M
  /-- The timer has run out, and its handler is on its way. -/
  expired : Bool
  /-- Whom it has yet to call back, and with what. -/
  calls : List (R × Except E V)
  began : Nat
  accepted : List R
  answered : List (R × Except E V)

inductive Event (M : Type) where
  | run
  | written
  | replied (m : M)
  | expire
  /-- The service fails, or the handler of the timer has cancelled it. -/
  | failed
  /-- The next request is called back. -/
  | call

def Call.start (r : R) (now : Nat) : Call R M V E := ⟨[r], .starting, false, [], now, [r], []⟩

def Call.push (c : Call R M V E) (r : R) : Call R M V E :=
  { c with waiting := c.waiting ++ [r], accepted := c.accepted ++ [r] }

/-- Nobody waits from now on, and those that did are called back. -/
def Call.finish (rules : Rules M V E) (now : Nat) (reply : Option M) (c : Call R M V E) : Call R M V E :=
  { c with
    waiting := []
    stage := .ended now reply
    calls := c.waiting.map fun r => (r, rules.outcome reply) }

/-- The call after a step, and its outcome where the step ended it. -/
structure Effect (R M V E : Type) where
  call : Call R M V E
  outcome : Option (Except E V)

def Call.ending (rules : Rules M V E) (now : Nat) (reply : Option M) (c : Call R M V E) : Effect R M V E :=
  ⟨c.finish rules now reply, some (rules.outcome reply)⟩

def Call.step (rules : Rules M V E) (now : Nat) (c : Call R M V E) (event : Event M) : Option (Effect R M V E) :=
  match event, c.stage with
  | .run, .starting => some ⟨{ c with stage := .writing, expired := false }, none⟩
  | .written, .writing =>
    if c.expired then some (c.ending rules now none) else some ⟨{ c with stage := .reading }, none⟩
  | .replied m, .reading => some (c.ending rules now (if c.expired then none else some m))
  | .expire, .writing | .expire, .reading => if c.expired then none else some ⟨{ c with expired := true }, none⟩
  | .failed, .writing | .failed, .reading => some (c.ending rules now none)
  | .call, .ended _ _ =>
    match c.calls with
    | [] => none
    | next :: calls => some ⟨{ c with calls, answered := c.answered ++ [next] }, none⟩
  | _, _ => none

/-! ## The server -/

/-- What becomes of a request. -/
inductive Taken (V E : Type) where
  | ready (v : V)
  | queued
  | load
  | error (e : E)
  deriving DecidableEq, Repr

structure Entry (R V E : Type) where
  request : R
  time : Nat
  taken : Taken V E

/-- The cache, the clock, all calls that were begun, and what became of each request. -/
structure Server (R M V E : Type) where
  calls : List (Call R M V E)
  status : Option Nat
  result : V
  last : Nat
  clock : Nat
  log : List (Entry R V E)

/-- The call that the cache points at. -/
def Server.active (s : Server R M V E) : Option (Nat × Call R M V E) :=
  s.status.bind fun i => s.calls[i]?.map fun c => (i, c)

/-- The cache has a value that is not too old. -/
def Server.Fresh (rules : Rules M V E) (s : Server R M V E) : Prop :=
  rules.usable s.result = true ∧ s.clock - s.last < rules.keep

instance (rules : Rules M V E) (s : Server R M V E) : Decidable (s.Fresh rules) := inferInstanceAs (Decidable (_ ∧ _))

/-- What the lock covers of a request; `client` is what getting a connection to the service
    fails with. -/
def Server.take (rules : Rules M V E) (client : Option E) (r : R) (s : Server R M V E) :
    Taken V E × Server R M V E :=
  if s.Fresh rules then (.ready s.result, s)
  else
    match s.active with
    | some (i, c) =>
      if rules.limit < c.waiting.length then (.load, s) else (.queued, { s with calls := s.calls.set i (c.push r) })
    | none =>
      match client with
      | some e => (.error e, s)
      | none =>
        (.queued, { s with
          calls := s.calls ++ [Call.start r s.clock]
          status := some s.calls.length
          result := rules.empty })

def Server.request (rules : Rules M V E) (client : Option E) (r : R) (s : Server R M V E) : Server R M V E :=
  { (s.take rules client r).2 with log := s.log ++ [⟨r, s.clock, (s.take rules client r).1⟩] }

/-- The end of a call, in the cache. -/
def Server.close (rules : Rules M V E) (outcome : Except E V) (s : Server R M V E) : Server R M V E :=
  match outcome with
  | .ok v => { s with status := none, result := v, last := s.clock }
  | .error _ => { s with status := none, result := rules.empty }

def Server.settle (rules : Rules M V E) (outcome : Option (Except E V)) (s : Server R M V E) : Server R M V E :=
  match outcome with
  | none => s
  | some outcome => s.close rules outcome

inductive Op (R M E : Type) where
  | request (client : Option E) (r : R)
  | call (i : Nat) (event : Event M)
  | tick (d : Nat)

/-- One step of the server; a step that is not to happen fails. -/
def Server.step (rules : Rules M V E) (op : Op R M E) (s : Server R M V E) : Except Unit (Server R M V E) :=
  match op with
  | .request client r => .ok (s.request rules client r)
  | .call i event =>
    match s.calls[i]?.bind fun c => c.step rules s.clock event with
    | none => .error ()
    | some effect => .ok ({ s with calls := s.calls.set i effect.call }.settle rules effect.outcome)
  | .tick d => .ok { s with clock := s.clock + d }

def Server.init (rules : Rules M V E) : Server R M V E := ⟨[], none, rules.empty, 0, 0, []⟩

/-- `s` is reached from the start. -/
def Server.Runs (rules : Rules M V E) (s : Server R M V E) : Prop :=
  Steps (Server.step rules) (fun _ _ => True) (Server.init rules) s

/-! ## What a step of a call does -/

def Call.Asking (c : Call R M V E) : Prop := c.stage = .writing ∨ c.stage = .reading

def Call.Live (c : Call R M V E) : Prop := ∀ time reply, c.stage ≠ .ended time reply

/-- Each thing that a call can do. -/
inductive Call.Moves (rules : Rules M V E) (now : Nat) (c : Call R M V E) : Effect R M V E → Prop where
  | write : c.stage = .starting → Call.Moves rules now c ⟨{ c with stage := .writing, expired := false }, none⟩
  | read : c.stage = .writing → Call.Moves rules now c ⟨{ c with stage := .reading }, none⟩
  | expire : c.Asking → c.expired = false → Call.Moves rules now c ⟨{ c with expired := true }, none⟩
  | finish (reply : Option M) : c.Asking → Call.Moves rules now c (c.ending rules now reply)
  | call {time : Nat} {reply : Option M} {next : R × Except E V} {calls : List (R × Except E V)} :
      c.stage = .ended time reply → c.calls = next :: calls →
      Call.Moves rules now c ⟨{ c with calls, answered := c.answered ++ [next] }, none⟩

variable {rules : Rules M V E} {now : Nat} {c d : Call R M V E} {effect : Effect R M V E}

theorem Call.step_moves {event : Event M} (h : c.step rules now event = some effect) : c.Moves rules now effect := by
  unfold Call.step at h
  split at h
  case h_1 hstage =>
    cases h
    exact .write hstage
  case h_2 hstage =>
    split at h
    · cases h
      exact .finish none (.inl hstage)
    · cases h
      exact .read hstage
  case h_3 m hstage =>
    cases h
    exact .finish _ (.inr hstage)
  case h_4 hstage =>
    split at h
    · cases h
    · rename_i hexpired
      cases h
      exact .expire (.inl hstage) (by simpa using hexpired)
  case h_5 hstage =>
    split at h
    · cases h
    · rename_i hexpired
      cases h
      exact .expire (.inr hstage) (by simpa using hexpired)
  case h_6 hstage =>
    cases h
    exact .finish none (.inl hstage)
  case h_7 hstage =>
    cases h
    exact .finish none (.inr hstage)
  case h_8 time reply hstage =>
    split at h
    · cases h
    · rename_i hcons
      cases h
      exact .call hstage hcons
  case h_9 => cases h

theorem Call.Asking.live (h : c.Asking) : c.Live := by
  intro time reply hended
  rcases h with h | h
  · rw [h] at hended
    cases hended
  · rw [h] at hended
    cases hended

/-- A step keeps who was accepted and when the call began; it ends the call where it has an
    outcome, and a call that is over stays so. -/
structure Call.Moved (rules : Rules M V E) (now : Nat) (c : Call R M V E) (effect : Effect R M V E) : Prop where
  accepted : effect.call.accepted = c.accepted
  began : effect.call.began = c.began
  ended : ∀ time reply, c.stage = .ended time reply → effect.call.stage = .ended time reply ∧ effect.outcome = none
  live : c.Live → effect.outcome = none → effect.call.Live
  ends : ∀ outcome, effect.outcome = some outcome → c.Live ∧
    ∃ reply, effect.call.stage = .ended now reply ∧ rules.outcome reply = outcome

theorem Call.Moves.moved (h : c.Moves rules now effect) : c.Moved rules now effect := by
  cases h with
  | write hstage =>
    refine ⟨rfl, rfl, fun time reply hended => ?_, fun _ _ _ _ hended => ?_, fun _ hout => ?_⟩
    · rw [hstage] at hended
      cases hended
    · cases hended
    · cases hout
  | read hstage =>
    refine ⟨rfl, rfl, fun time reply hended => ?_, fun _ _ _ _ hended => ?_, fun _ hout => ?_⟩
    · rw [hstage] at hended
      cases hended
    · cases hended
    · cases hout
  | expire hasking hexpired =>
    refine ⟨rfl, rfl, fun time reply hended => absurd hended (hasking.live time reply), fun hlive _ => hlive,
      fun _ hout => ?_⟩
    cases hout
  | finish reply hasking =>
    refine ⟨rfl, rfl, fun time reply hended => absurd hended (hasking.live time reply), fun _ hout => ?_,
      fun outcome hout => ⟨hasking.live, reply, rfl, ?_⟩⟩
    · cases hout
    · cases hout
      rfl
  | call hended hcalls =>
    refine ⟨rfl, rfl, fun time reply h => ⟨h, rfl⟩, fun hlive _ => absurd hended (hlive _ _), fun _ hout => ?_⟩
    cases hout

/-! ## The answers of a call -/

structure Call.Kept (rules : Rules M V E) (c : Call R M V E) : Prop where
  /-- While it is not over, all that it accepted wait. -/
  live : c.Live → c.waiting = c.accepted ∧ c.calls = [] ∧ c.answered = []
  /-- Then each is called back once, in order, with the one outcome. -/
  ended : ∀ time reply, c.stage = .ended time reply →
    c.waiting = [] ∧ c.answered ++ c.calls = c.accepted.map fun r => (r, rules.outcome reply)
  bounded : c.accepted.length ≤ rules.limit + 1

theorem Call.Live.start (r : R) : (Call.start r now : Call R M V E).Live := by
  intro time reply hended
  cases hended

theorem Call.Kept.start (rules : Rules M V E) (r : R) (now : Nat) : (Call.start r now).Kept rules := by
  refine ⟨fun _ => ⟨rfl, rfl, rfl⟩, fun time reply hended => absurd hended (Call.Live.start r time reply), ?_⟩
  exact Nat.le_add_left 1 _

theorem Call.Kept.push (h : c.Kept rules) (hlive : c.Live) (hroom : c.waiting.length ≤ rules.limit) (r : R) :
    (c.push r).Kept rules := by
  obtain ⟨hwaiting, hcalls, hanswered⟩ := h.live hlive
  refine ⟨fun _ => ⟨by simp [Call.push, hwaiting], hcalls, hanswered⟩,
    fun time reply hended => absurd hended (hlive time reply), ?_⟩
  rw [hwaiting] at hroom
  simpa [Call.push] using hroom

theorem Call.Kept.step (h : c.Kept rules) (hmoves : c.Moves rules now effect) : effect.call.Kept rules := by
  have hmoved := hmoves.moved
  refine ⟨fun hlive => ?_, fun time reply hended => ?_, hmoved.accepted ▸ h.bounded⟩
  · cases hmoves with
    | write hstage => exact h.live fun _ _ hended => by simp [hstage] at hended
    | read hstage => exact h.live fun _ _ hended => by simp [hstage] at hended
    | expire hasking _ => exact h.live hasking.live
    | finish reply _ => exact absurd rfl (hlive now reply)
    | call hended _ => exact absurd hended (hlive _ _)
  · cases hmoves with
    | write => cases hended
    | read => cases hended
    | expire hasking _ => exact absurd hended (hasking.live time reply)
    | finish reply hasking =>
      obtain ⟨hwaiting, -, hanswered⟩ := h.live hasking.live
      cases hended
      exact ⟨rfl, by simp [Call.ending, Call.finish, hwaiting, hanswered]⟩
    | call _ hcalls =>
      obtain ⟨hwaiting, hserved⟩ := h.ended time reply hended
      rw [hcalls] at hserved
      exact ⟨hwaiting, by simpa using hserved⟩

/-! ## A call comes to its end -/

/-- A bound on the steps that a call takes before all that it accepted are called back. -/
def Call.work (c : Call R M V E) : Nat :=
  c.calls.length + c.waiting.length +
    match c.stage with
    | .starting => 6
    | .writing => 4 + if c.expired then 0 else 1
    | .reading => 2 + if c.expired then 0 else 1
    | .ended _ _ => 0

/-- A call comes to its end, and there nobody is left. -/
structure Call.Progress (rules : Rules M V E) (c : Call R M V E) : Prop where
  done : c.work = 0 → c.answered.map (·.1) = c.accepted
  next : ∀ now, c.work ≠ 0 → ∃ event effect, c.step rules now event = some effect
  down : ∀ now event effect, c.step rules now event = some effect → effect.call.work < c.work

theorem Call.Kept.work_lt (h : c.Kept rules) (hmoves : c.Moves rules now effect) : effect.call.work < c.work := by
  cases hmoves with
  | write hstage => simp [Call.work, hstage]
  | read hstage =>
    simp only [Call.work, hstage]
    split <;> omega
  | expire hasking hexpired => rcases hasking with hstage | hstage <;> simp [Call.work, hstage, hexpired]
  | finish reply hasking =>
    obtain ⟨-, hcalls, -⟩ := h.live hasking.live
    rcases hasking with hstage | hstage
    · simp only [Call.work, hstage, Call.ending, Call.finish, hcalls, List.length_map, List.length_nil]
      omega
    · simp only [Call.work, hstage, Call.ending, Call.finish, hcalls, List.length_map, List.length_nil]
      omega
  | call _ hcalls =>
    simp only [Call.work, hcalls, List.length_cons]
    omega

theorem Call.Kept.progress (h : c.Kept rules) : c.Progress rules := by
  refine ⟨fun hwork => ?_, fun now hwork => ?_, fun now event effect hstep => h.work_lt (Call.step_moves hstep)⟩
  · have hcalls : c.calls = [] := List.length_eq_zero_iff.mp (by unfold Call.work at hwork; omega)
    cases hstage : c.stage with
    | starting => simp [Call.work, hstage] at hwork
    | writing => simp [Call.work, hstage] at hwork
    | reading => simp [Call.work, hstage] at hwork
    | ended time reply =>
      obtain ⟨-, hserved⟩ := h.ended time reply hstage
      rw [hcalls, List.append_nil] at hserved
      rw [hserved, List.map_map]
      exact List.map_id _
  · cases hstage : c.stage with
    | starting => exact ⟨.run, _, by simp [Call.step, hstage]; rfl⟩
    | writing => exact ⟨.failed, _, by simp [Call.step, hstage]; rfl⟩
    | reading => exact ⟨.failed, _, by simp [Call.step, hstage]; rfl⟩
    | ended time reply =>
      cases hcalls : c.calls with
      | nil =>
        obtain ⟨hwaiting, -⟩ := h.ended time reply hstage
        exact absurd (by simp [Call.work, hstage, hcalls, hwaiting]) hwork
      | cons next calls => exact ⟨.call, _, by simp [Call.step, hstage, hcalls]; rfl⟩

/-! ## The cache -/

def Call.Brought (rules : Rules M V E) (c : Call R M V E) (time : Nat) (v : V) : Prop :=
  ∃ reply, c.stage = .ended time reply ∧ rules.outcome reply = .ok v

/-- `d` began when `c` was over, and its value no longer kept. -/
def Call.Before (rules : Rules M V E) (c d : Call R M V E) : Prop :=
  ∃ time reply, c.stage = .ended time reply ∧ time ≤ d.began ∧
    ∀ v, rules.outcome reply = .ok v → rules.usable v = true → time + rules.keep ≤ d.began

/-- The request, where it was told to wait. -/
def Entry.waiter (entry : Entry R V E) : Option R :=
  match entry.taken with
  | .queued => some entry.request
  | _ => none

def Server.queued (s : Server R M V E) : List R := s.log.filterMap Entry.waiter

/-- The value was brought by a call and is not too old, or no call has brought one yet. -/
def Server.Current (rules : Rules M V E) (s : Server R M V E) (time : Nat) (v : V) : Prop :=
  (∃ c ∈ s.calls, ∃ t, c.Brought rules t v ∧ t ≤ time ∧ time < t + rules.keep) ∨ v = rules.empty ∧ time < rules.keep

/-- What holds of the calls and the cache. -/
structure Server.Inv (rules : Rules M V E) (s : Server R M V E) : Prop where
  kept : ∀ c ∈ s.calls, c.Kept rules
  /-- The cache points at the one call that is not over, which is the last. -/
  current : ∀ i c, s.calls[i]? = some c → (c.Live ↔ s.status = some i)
  newest : ∀ i, s.status = some i → i + 1 = s.calls.length
  before : s.calls.Pairwise (Call.Before rules)
  past : ∀ c ∈ s.calls, c.began ≤ s.clock ∧ ∀ time reply, c.stage = .ended time reply → time ≤ s.clock
  lastPast : s.last ≤ s.clock
  /-- While a call runs, the cache has nothing to answer with. -/
  busy : ∀ i, s.status = some i →
    s.result = rules.empty ∧ (rules.usable rules.empty = true → s.last + rules.keep ≤ s.clock)
  /-- What the cache has was brought by a call, or it is empty. -/
  cached : (∃ c ∈ s.calls, c.Brought rules s.last s.result) ∨
    s.result = rules.empty ∧ (rules.usable rules.empty = true → s.last = 0 ∨ s.last + rules.keep ≤ s.clock)
  /-- What a call brought is in the cache, or it is too old. -/
  recent : ∀ c ∈ s.calls, ∀ time v, c.Brought rules time v → rules.usable v = true →
    time + rules.keep ≤ s.clock ∨ time = s.last ∧ v = s.result

/-- What holds of the log. -/
structure Server.Logged (rules : Rules M V E) (s : Server R M V E) : Prop where
  queued : s.queued = s.calls.flatMap (·.accepted)
  ready : ∀ entry ∈ s.log, ∀ v, entry.taken = .ready v → rules.usable v = true ∧ s.Current rules entry.time v

theorem pairwise_set {α : Type} {rel : α → α → Prop} {l : List α} {i : Nat} {a b : α} (h : l.Pairwise rel)
    (ha : l[i]? = some a) (hleft : ∀ d, rel a d → rel b d) (hright : ∀ d, rel d a → rel d b) :
    (l.set i b).Pairwise rel := by
  obtain ⟨hi, rfl⟩ := List.getElem?_eq_some_iff.mp ha
  rw [List.pairwise_iff_getElem] at h ⊢
  intro j k hj hk hlt
  rw [List.length_set] at hj hk
  have hrel := h j k hj hk hlt
  rw [List.getElem_set, List.getElem_set]
  split
  · rename_i hij
    subst hij
    rw [if_neg (by omega)]
    exact hleft _ hrel
  · split
    · rename_i hik
      subst hik
      exact hright _ hrel
    · exact hrel

theorem flatMap_set_last {α β : Type} {l : List α} {i : Nat} {a b : α} {f : α → List β} {new : List β}
    (ha : l[i]? = some a) (hlast : i + 1 = l.length) (hnew : f b = f a ++ new) :
    (l.set i b).flatMap f = l.flatMap f ++ new := by
  rcases List.eq_nil_or_concat l with rfl | ⟨front, last, rfl⟩
  · cases hlast
  · have hi : i = front.length := by simpa using hlast
    subst hi
    have hlasta : last = a := by simpa using ha
    simp [hlasta, hnew]

theorem flatMap_set_same {α β : Type} {l : List α} {i : Nat} {a b : α} {f : α → List β} (ha : l[i]? = some a)
    (hsame : f b = f a) : (l.set i b).flatMap f = l.flatMap f := by
  obtain ⟨hi, rfl⟩ := List.getElem?_eq_some_iff.mp ha
  have hset : (l.set i b).map f = l.map f := by
    refine List.ext_getElem (by simp) fun j hj hj' => ?_
    simp only [List.getElem_map, List.getElem_set]
    split
    · rename_i hij
      subst hij
      exact hsame
    · rfl
  rw [List.flatMap_def, List.flatMap_def, hset]

theorem Call.not_live : ¬ c.Live ↔ ∃ time reply, c.stage = .ended time reply := by
  unfold Call.Live
  push Not
  rfl

/-- `c'` is the same call, further on. -/
structure Call.Onward (c c' : Call R M V E) : Prop where
  began : c'.began = c.began
  ended : ∀ time reply, c.stage = .ended time reply → c'.stage = .ended time reply

theorem Call.Moves.onward (h : c.Moves rules now effect) : c.Onward effect.call :=
  ⟨h.moved.began, fun time reply hended => (h.moved.ended time reply hended).1⟩

theorem Call.Onward.push (c : Call R M V E) (r : R) : c.Onward (c.push r) := ⟨rfl, fun _ _ hended => hended⟩

section Server

variable {s : Server R M V E} {i : Nat} {c' : Call R M V E}

theorem Server.active_eq_some : s.active = some (i, c) ↔ s.status = some i ∧ s.calls[i]? = some c := by
  unfold Server.active
  rw [Option.bind_eq_some_iff]
  constructor
  · rintro ⟨j, hstatus, hmap⟩
    obtain ⟨d, hget, he⟩ := Option.map_eq_some_iff.mp hmap
    cases he
    exact ⟨hstatus, hget⟩
  · rintro ⟨hstatus, hget⟩
    exact ⟨i, hstatus, by rw [hget]; rfl⟩

theorem before_set (hbefore : s.calls.Pairwise (Call.Before rules)) (hget : s.calls[i]? = some c)
    (hon : c.Onward c') : (s.calls.set i c').Pairwise (Call.Before rules) := by
  refine pairwise_set hbefore hget ?_ ?_
  · rintro d ⟨time, reply, hended, hrest⟩
    exact ⟨time, reply, hon.ended time reply hended, hrest⟩
  · rintro d ⟨time, reply, hended, hrest⟩
    exact ⟨time, reply, hended, hon.began ▸ hrest⟩

theorem brought_set {time : Nat} {v : V} (h : ∃ d ∈ s.calls, d.Brought rules time v) (hget : s.calls[i]? = some c)
    (hon : c.Onward c') : ∃ d ∈ s.calls.set i c', d.Brought rules time v := by
  obtain ⟨d, hd, reply, hended, hvalue⟩ := h
  obtain ⟨j, hj⟩ := List.mem_iff_getElem?.mp hd
  by_cases e : i = j
  · subst e
    cases hget.symm.trans hj
    refine ⟨c', List.mem_iff_getElem?.mpr ⟨i, ?_⟩, reply, hon.ended time reply hended, hvalue⟩
    rw [List.getElem?_set_self (List.getElem?_eq_some_iff.mp hget).1]
  · exact ⟨d, List.mem_iff_getElem?.mpr ⟨j, by rw [List.getElem?_set_ne e]; exact hj⟩, reply, hended, hvalue⟩

/-- A call goes on, and is not over by that. -/
theorem Server.Inv.goes (h : s.Inv rules) (hget : s.calls[i]? = some c) (hon : c.Onward c') (hkept : c'.Kept rules)
    (hlive : c.Live → c'.Live) : { s with calls := s.calls.set i c' }.Inv rules := by
  have hmem : c ∈ s.calls := List.mem_of_getElem? hget
  have hended : ∀ time reply, c'.stage = .ended time reply → c.stage = .ended time reply := by
    intro time reply hstage
    by_cases hl : c.Live
    · exact absurd hstage (hlive hl time reply)
    · obtain ⟨t, r, hstage'⟩ := Call.not_live.mp hl
      rw [hon.ended t r hstage'] at hstage
      cases hstage
      exact hstage'
  refine ⟨fun d hd => ?_, fun j d hd => ?_, fun j hj => ?_, before_set h.before hget hon, fun d hd => ?_, h.lastPast, h.busy,
    ?_, fun d hd time v hbrought hu => ?_⟩
  · rcases List.mem_or_eq_of_mem_set hd with hd | rfl
    · exact h.kept d hd
    · exact hkept
  · by_cases e : i = j
    · subst e
      rw [List.getElem?_set_self (List.getElem?_eq_some_iff.mp hget).1] at hd
      cases hd
      rw [← h.current i c hget]
      refine ⟨fun hl => ?_, hlive⟩
      intro time reply hstage
      exact hl time reply (hon.ended time reply hstage)
    · rw [List.getElem?_set_ne e] at hd
      exact h.current j d hd
  · rw [List.length_set]
    exact h.newest j hj
  · rcases List.mem_or_eq_of_mem_set hd with hd | rfl
    · exact h.past d hd
    · refine ⟨hon.began ▸ (h.past c hmem).1, fun time reply hstage => (h.past c hmem).2 time reply (hended time reply hstage)⟩
  · rcases h.cached with hbrought | hempty
    · exact .inl (brought_set hbrought hget hon)
    · exact .inr hempty
  · rcases List.mem_or_eq_of_mem_set hd with hd | rfl
    · exact h.recent d hd time v hbrought hu
    · obtain ⟨reply, hstage, hvalue⟩ := hbrought
      exact h.recent c hmem time v ⟨reply, hended time reply hstage, hvalue⟩ hu

/-- While a call runs, no value that was brought before is still kept. -/
theorem Server.Inv.stale (h : s.Inv rules) (hstatus : s.status = some i) {d : Call R M V E} (hd : d ∈ s.calls)
    {time : Nat}
    {v : V} (hbrought : d.Brought rules time v) (hu : rules.usable v = true) : time + rules.keep ≤ s.clock := by
  rcases h.recent d hd time v hbrought hu with hle | ⟨rfl, rfl⟩
  · exact hle
  · obtain ⟨hempty, hle⟩ := h.busy i hstatus
    rw [hempty] at hu
    exact hle hu

theorem Server.Inv.ends (h : s.Inv rules) (hget : s.calls[i]? = some c) (hon : c.Onward c') (hkept : c'.Kept rules)
    (hlive : c.Live) {reply : Option M} (hended : c'.stage = .ended s.clock reply) :
    ({ s with calls := s.calls.set i c' }.close rules (rules.outcome reply)).Inv rules := by
  have hstatus : s.status = some i := (h.current i c hget).mp hlive
  have hset : (s.calls.set i c')[i]? = some c' := List.getElem?_set_self (List.getElem?_eq_some_iff.mp hget).1
  have hover : ∀ (j : Nat) (d : Call R M V E), (s.calls.set i c')[j]? = some d → ¬ d.Live := by
    intro j d hd hl
    by_cases e : i = j
    · subst e
      cases hset.symm.trans hd
      exact hl _ _ hended
    · rw [List.getElem?_set_ne e] at hd
      have hj := (h.current j d hd).mp hl
      exact e (Option.some.inj (hstatus.symm.trans hj))
  have hkepts : ∀ d ∈ s.calls.set i c', d.Kept rules := by
    intro d hd
    rcases List.mem_or_eq_of_mem_set hd with hd | rfl
    · exact h.kept d hd
    · exact hkept
  have hpast : ∀ d ∈ s.calls.set i c', d.began ≤ s.clock ∧ ∀ time reply, d.stage = .ended time reply → time ≤ s.clock := by
    intro d hd
    rcases List.mem_or_eq_of_mem_set hd with hd | rfl
    · exact h.past d hd
    · refine ⟨hon.began ▸ (h.past c (List.mem_of_getElem? hget)).1, fun time reply hstage => ?_⟩
      cases hended.symm.trans hstage
      exact le_refl _
  have hbefore := before_set h.before hget hon
  have hnone : ∀ j, ¬(none : Option Nat) = some j := fun j hj => Option.some_ne_none j hj.symm
  have hnone' : ∀ (goal : Nat → Prop) (j : Nat), (none : Option Nat) = some j → goal j := fun _ j hj => (hnone j hj).elim
  unfold Server.close
  cases houtcome : rules.outcome reply with
  | ok v =>
    refine ⟨hkepts, fun j d hd => ⟨fun hl => absurd hl (hover j d hd), fun hj => (hnone j hj).elim⟩, hnone' _,
      hbefore, hpast, le_refl _, hnone' _, .inl ⟨c', List.mem_of_getElem? hset, reply, hended, houtcome⟩,
      fun d hd time w hbrought hu => ?_⟩
    rcases List.mem_or_eq_of_mem_set hd with hd | rfl
    · exact .inl (h.stale hstatus hd hbrought hu)
    · obtain ⟨reply', hstage, hvalue⟩ := hbrought
      cases hended.symm.trans hstage
      cases houtcome.symm.trans hvalue
      exact .inr ⟨rfl, rfl⟩
  | error e =>
    refine ⟨hkepts, fun j d hd => ⟨fun hl => absurd hl (hover j d hd), fun hj => (hnone j hj).elim⟩, hnone' _,
      hbefore, hpast, h.lastPast, hnone' _, .inr ⟨rfl, fun hu => .inr ((h.busy i hstatus).2 hu)⟩,
      fun d hd time w hbrought hu => ?_⟩
    rcases List.mem_or_eq_of_mem_set hd with hd | rfl
    · exact .inl (h.stale hstatus hd hbrought hu)
    · obtain ⟨reply', hstage, hvalue⟩ := hbrought
      cases hended.symm.trans hstage
      cases houtcome.symm.trans hvalue

/-- A call begins, as no value is kept and no call runs. -/
theorem Server.Inv.begins (h : s.Inv rules) (hfresh : ¬ s.Fresh rules) (hstatus : s.status = none) (r : R) :
    { s with calls := s.calls ++ [Call.start r s.clock], status := some s.calls.length, result := rules.empty }.Inv rules := by
  have hover : ∀ d ∈ s.calls, ¬ d.Live := by
    intro d hd hl
    obtain ⟨j, hj⟩ := List.mem_iff_getElem?.mp hd
    have hj' := (h.current j d hj).mp hl
    rw [hstatus] at hj'
    cases hj'
  have hold : rules.usable s.result = true → s.last + rules.keep ≤ s.clock := by
    intro hu
    have hle := h.lastPast
    have hnot : ¬ s.clock - s.last < rules.keep := fun hlt => hfresh ⟨hu, hlt⟩
    omega
  have hstale : ∀ d ∈ s.calls, ∀ time v, d.Brought rules time v → rules.usable v = true →
      time + rules.keep ≤ s.clock := by
    intro d hd time v hbrought hu
    rcases h.recent d hd time v hbrought hu with hle | ⟨rfl, rfl⟩
    · exact hle
    · exact hold hu
  have hmem : ∀ d ∈ s.calls ++ [Call.start r s.clock], d ∈ s.calls ∨ d = Call.start r s.clock := by
    intro d hd
    simpa using hd
  refine ⟨fun d hd => ?_, fun j d hd => ?_, fun j hj => ?_, ?_, fun d hd => ?_, h.lastPast, fun _ _ => ⟨rfl, fun hu => ?_⟩,
    .inr ⟨rfl, fun hu => .inr (hold (rules.empty_usable hu _))⟩, fun d hd time v hbrought hu => ?_⟩
  · rcases hmem d hd with hd | rfl
    · exact h.kept d hd
    · exact .start rules r s.clock
  · rcases Nat.lt_trichotomy j s.calls.length with hlt | rfl | hgt
    · rw [List.getElem?_append_left hlt] at hd
      refine ⟨fun hl => absurd hl (hover d (List.mem_of_getElem? hd)), fun hj => ?_⟩
      cases hj
      omega
    · rw [List.getElem?_append_right (le_refl _), Nat.sub_self] at hd
      cases hd
      exact ⟨fun _ => rfl, fun _ => .start r⟩
    · rw [List.getElem?_eq_none (by simp; omega)] at hd
      cases hd
  · cases hj
    simp
  · refine List.pairwise_append.mpr ⟨h.before, List.pairwise_singleton _ _, fun d hd d' hd' => ?_⟩
    rw [List.mem_singleton.mp hd']
    obtain ⟨time, reply, hended⟩ := Call.not_live.mp (hover d hd)
    refine ⟨time, reply, hended, (h.past d hd).2 time reply hended, fun v hvalue hu => ?_⟩
    exact hstale d hd time v ⟨reply, hended, hvalue⟩ hu
  · rcases hmem d hd with hd | rfl
    · exact h.past d hd
    · refine ⟨le_refl _, fun time reply hended => ?_⟩
      cases hended
  · exact hold (rules.empty_usable hu _)
  · rcases hmem d hd with hd | rfl
    · exact .inl (hstale d hd time v hbrought hu)
    · obtain ⟨reply, hended, -⟩ := hbrought
      cases hended

/-! ## What becomes of the requests -/

/-- A value that is kept is told to a request. -/
theorem Server.Inv.current_fresh (h : s.Inv rules) (hfresh : s.Fresh rules) : s.Current rules s.clock s.result := by
  obtain ⟨hu, hlt⟩ := hfresh
  have hle := h.lastPast
  rcases h.cached with ⟨c, hc, hbrought⟩ | ⟨hempty, hstale⟩
  · exact .inl ⟨c, hc, s.last, hbrought, hle, by omega⟩
  · rw [hempty] at hu
    rcases hstale hu with hzero | hle'
    · exact .inr ⟨hempty, by omega⟩
    · omega

theorem Server.Current.mono {s' : Server R M V E} {time : Nat} {v : V} (h : s.Current rules time v)
    (hbrought : ∀ t, (∃ c ∈ s.calls, c.Brought rules t v) → ∃ c ∈ s'.calls, c.Brought rules t v) :
    s'.Current rules time v := by
  rcases h with ⟨c, hc, t, hb, hwhen⟩ | hempty
  · obtain ⟨c', hc', hb'⟩ := hbrought t ⟨c, hc, hb⟩
    exact .inl ⟨c', hc', t, hb', hwhen⟩
  · exact .inr hempty

theorem Server.Logged.snoc {s' : Server R M V E} {entry : Entry R V E} (h : s.Logged rules)
    (hlog : s'.log = s.log ++ [entry])
    (hqueued : s'.calls.flatMap (·.accepted) = s.calls.flatMap (·.accepted) ++ entry.waiter.toList)
    (hbrought : ∀ t v, (∃ c ∈ s.calls, c.Brought rules t v) → ∃ c ∈ s'.calls, c.Brought rules t v)
    (hready : ∀ v, entry.taken = .ready v → rules.usable v = true ∧ s'.Current rules entry.time v) :
    s'.Logged rules := by
  refine ⟨?_, fun entry' hentry v hv => ?_⟩
  · rw [hqueued, ← h.queued, Server.queued, Server.queued, hlog, List.filterMap_append]
    cases hwaiter : entry.waiter <;> simp [hwaiter]
  · rw [hlog] at hentry
    rcases List.mem_append.mp hentry with hentry | hentry
    · obtain ⟨hu, hcurrent⟩ := h.ready entry' hentry v hv
      exact ⟨hu, hcurrent.mono fun t => hbrought t v⟩
    · rw [List.mem_singleton.mp hentry] at hv ⊢
      exact hready v hv

/-- What a request does under the lock. -/
inductive Server.Takes (rules : Rules M V E) (r : R) (s : Server R M V E) : Taken V E × Server R M V E → Prop where
  | ready : s.Fresh rules → Server.Takes rules r s (.ready s.result, s)
  | load : Server.Takes rules r s (.load, s)
  | error (e : E) : Server.Takes rules r s (.error e, s)
  | wait {i : Nat} {c : Call R M V E} : s.status = some i → s.calls[i]? = some c →
      c.waiting.length ≤ rules.limit → Server.Takes rules r s (.queued, { s with calls := s.calls.set i (c.push r) })
  | begin : ¬ s.Fresh rules → s.active = none → Server.Takes rules r s (.queued, { s with
      calls := s.calls ++ [Call.start r s.clock]
      status := some s.calls.length
      result := rules.empty })

theorem Server.take_takes (client : Option E) (r : R) (s : Server R M V E) :
    s.Takes rules r (s.take rules client r) := by
  unfold Server.take
  split
  · rename_i hfresh
    exact .ready hfresh
  · rename_i hfresh
    split
    · rename_i i c hactive
      obtain ⟨hstatus, hget⟩ := Server.active_eq_some.mp hactive
      split
      · exact .load
      · rename_i hroom
        exact .wait hstatus hget (not_lt.mp hroom)
    · rename_i hactive
      cases client with
      | some e => exact .error e
      | none => exact .begin hfresh hactive

/-- The cache points at a call. -/
theorem Server.Inv.status_none (h : s.Inv rules) (hactive : s.active = none) : s.status = none := by
  cases hstatus : s.status with
  | none => rfl
  | some i =>
    have hi : i < s.calls.length := by
      have hlast := h.newest i hstatus
      omega
    rw [Server.active, hstatus, Option.bind_some, List.getElem?_eq_getElem hi] at hactive
    cases hactive

theorem Server.Inv.request (h : s.Inv rules) (hlog : s.Logged rules) (client : Option E) (r : R) :
    (s.request rules client r).Inv rules ∧ (s.request rules client r).Logged rules := by
  have htakes := @Server.take_takes R M V E rules client r s
  unfold Server.request
  generalize s.take rules client r = result at htakes
  have hsame : ∀ entry : Entry R V E, ({ s with log := s.log ++ [entry] } : Server R M V E).Inv rules := fun _ =>
    ⟨h.kept, h.current, h.newest, h.before, h.past, h.lastPast, h.busy, h.cached, h.recent⟩
  cases htakes with
  | ready hfresh =>
    refine ⟨hsame _, hlog.snoc rfl (List.append_nil _).symm (fun _ _ => id) fun v hv => ?_⟩
    cases hv
    exact ⟨hfresh.1, h.current_fresh hfresh⟩
  | load => exact ⟨hsame _, hlog.snoc rfl (List.append_nil _).symm (fun _ _ => id) fun v hv => by cases hv⟩
  | error e => exact ⟨hsame _, hlog.snoc rfl (List.append_nil _).symm (fun _ _ => id) fun v hv => by cases hv⟩
  | @wait i c hstatus hget hroom =>
    have hlive : c.Live := (h.current i c hget).mpr hstatus
    have hon := Call.Onward.push c r
    have hkept := (h.kept c (List.mem_of_getElem? hget)).push hlive hroom r
    have hinv := h.goes hget hon hkept fun hl => hl
    refine ⟨⟨hinv.kept, hinv.current, hinv.newest, hinv.before, hinv.past, hinv.lastPast, hinv.busy, hinv.cached,
      hinv.recent⟩, hlog.snoc rfl ?_ (fun t v hb => brought_set hb hget hon) fun v hv => ?_⟩
    · exact flatMap_set_last hget (h.newest i hstatus) rfl
    · cases hv
  | begin hfresh hactive =>
    have hinv := h.begins hfresh (h.status_none hactive) r
    refine ⟨⟨hinv.kept, hinv.current, hinv.newest, hinv.before, hinv.past, hinv.lastPast, hinv.busy, hinv.cached,
      hinv.recent⟩, hlog.snoc rfl ?_ (fun t v hb => ?_) fun v hv => ?_⟩
    · rw [List.flatMap_append]
      rfl
    · obtain ⟨c, hc, hb⟩ := hb
      exact ⟨c, List.mem_append_left _ hc, hb⟩
    · cases hv

theorem Server.Inv.tick (h : s.Inv rules) (d : Nat) : { s with clock := s.clock + d }.Inv rules := by
  have hle : s.clock ≤ s.clock + d := Nat.le_add_right _ _
  refine ⟨h.kept, h.current, h.newest, h.before, fun c hc => ?_, h.lastPast.trans hle, fun i hi => ?_, ?_,
    fun c hc time v hb hu => ?_⟩
  · obtain ⟨hbegan, hended⟩ := h.past c hc
    exact ⟨hbegan.trans hle, fun time reply hstage => (hended time reply hstage).trans hle⟩
  · obtain ⟨hempty, hold⟩ := h.busy i hi
    exact ⟨hempty, fun hu => (hold hu).trans hle⟩
  · rcases h.cached with hb | ⟨hempty, hold⟩
    · exact .inl hb
    · exact .inr ⟨hempty, fun hu => (hold hu).imp_right fun hlast => hlast.trans hle⟩
  · exact (h.recent c hc time v hb hu).imp_left fun hlast => hlast.trans hle

theorem Server.Logged.set (h : s.Logged rules) (hget : s.calls[i]? = some c) (hon : c.Onward c')
    (haccepted : c'.accepted = c.accepted) {s' : Server R M V E} (hcalls : s'.calls = s.calls.set i c')
    (hlog : s'.log = s.log) : s'.Logged rules := by
  refine ⟨?_, fun entry hentry v hv => ?_⟩
  · rw [Server.queued, hlog, hcalls, flatMap_set_same hget haccepted]
    exact h.queued
  · rw [hlog] at hentry
    obtain ⟨hu, hcurrent⟩ := h.ready entry hentry v hv
    refine ⟨hu, hcurrent.mono fun t hb => ?_⟩
    rw [hcalls]
    exact brought_set hb hget hon

theorem Server.step_inv {op : Op R M E} {s' : Server R M V E} (h : s.Inv rules ∧ s.Logged rules)
    (hstep : s.step rules op = .ok s') : s'.Inv rules ∧ s'.Logged rules := by
  obtain ⟨hinv, hlog⟩ := h
  cases op with
  | request client r =>
    cases hstep
    exact hinv.request hlog client r
  | tick d =>
    cases hstep
    exact ⟨hinv.tick d, hlog.queued, hlog.ready⟩
  | call i event =>
    unfold Server.step at hstep
    dsimp only at hstep
    split at hstep
    · cases hstep
    · rename_i effect hbind
      cases hstep
      obtain ⟨c, hget, hcall⟩ := Option.bind_eq_some_iff.mp hbind
      have hmoves := Call.step_moves hcall
      have hmoved := hmoves.moved
      have hkept := (hinv.kept c (List.mem_of_getElem? hget)).step hmoves
      unfold Server.settle
      cases houtcome : effect.outcome with
      | none =>
        exact ⟨hinv.goes hget hmoves.onward hkept fun hl => hmoved.live hl houtcome,
          hlog.set hget hmoves.onward hmoved.accepted rfl rfl⟩
      | some outcome =>
        obtain ⟨hlive, reply, hended, rfl⟩ := hmoved.ends outcome houtcome
        refine ⟨hinv.ends hget hmoves.onward hkept hlive hended, ?_⟩
        unfold Server.close
        cases rules.outcome reply with
        | ok v => exact hlog.set hget hmoves.onward hmoved.accepted rfl rfl
        | error e => exact hlog.set hget hmoves.onward hmoved.accepted rfl rfl

theorem Server.Inv.init (rules : Rules M V E) : (Server.init rules : Server R M V E).Inv rules := by
  refine ⟨fun c hc => ?_, fun i c hc => ?_, fun i hi => ?_, .nil, fun c hc => ?_, le_refl _, fun i hi => ?_,
    .inr ⟨rfl, fun _ => .inl rfl⟩, fun c hc => ?_⟩
  · cases hc
  · cases hc
  · cases hi
  · cases hc
  · cases hi
  · cases hc

theorem Server.Runs.inv (h : s.Runs rules) : s.Inv rules ∧ s.Logged rules := by
  have hinit : (Server.init rules : Server R M V E).Logged rules := by
    refine ⟨rfl, fun entry hentry => ?_⟩
    cases hentry
  exact h.invariant (fun s => s.Inv rules ∧ s.Logged rules) ⟨.init rules, hinit⟩
    fun u op u' hu _ hrun => Server.step_inv hu hrun

end Server

/-! ## The main result -/

/-- How the requests that a call accepted are answered. -/
structure Call.Answers (rules : Rules M V E) (c : Call R M V E) : Prop where
  /-- None before the call is over. -/
  live : c.Live → c.answered = [] ∧ c.calls = []
  /-- Then each, once and in the order they came, with the one outcome. -/
  ended : ∀ time reply, c.stage = .ended time reply →
    c.answered ++ c.calls = c.accepted.map fun r => (r, rules.outcome reply)
  bounded : c.accepted.length ≤ rules.limit + 1
  progress : c.Progress rules

structure Server.Exact (rules : Rules M V E) (s : Server R M V E) : Prop where
  /-- Who was told to wait was accepted by one call, once. -/
  queued : s.queued = s.calls.flatMap (·.accepted)
  answers : ∀ c ∈ s.calls, c.Answers rules
  /-- One call at a time, and none while a value is kept. -/
  apart : s.calls.Pairwise (Call.Before rules)
  /-- What was told at once was brought by a call that was over not too long before. -/
  ready : ∀ entry ∈ s.log, ∀ v, entry.taken = .ready v → rules.usable v = true ∧ s.Current rules entry.time v

theorem shared_exact {s : Server R M V E} (h : s.Runs rules) : s.Exact rules := by
  obtain ⟨hinv, hlog⟩ := h.inv
  refine ⟨hlog.queued, fun c hc => ⟨fun hlive => ?_, fun time reply hended => ?_, (hinv.kept c hc).bounded,
    (hinv.kept c hc).progress⟩, hinv.before, hlog.ready⟩
  · obtain ⟨-, hcalls, hanswered⟩ := (hinv.kept c hc).live hlive
    exact ⟨hanswered, hcalls⟩
  · exact ((hinv.kept c hc).ended time reply hended).2

end Lws.SharedCall
