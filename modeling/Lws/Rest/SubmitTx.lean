/-
  Lws.Rest.SubmitTx — the transactions that clients submit (`submit_raw_tx` of
  `src/rest_server.cpp`).

  Requests share one socket to the daemon. The first starts a `frame`, whose coroutine
  sends the message of the request in front, reads the daemon's reply, answers the request
  and goes on with the next; the others queue up behind it while the cache points at the
  frame. A frame ends when nothing is queued, or when the socket fails or is too slow: then
  all that are queued are answered with the failure. The queue and `outstanding` are
  changed under one lock, so a request and the parts of the coroutine between two locks are
  the steps that interleave. A frame that has ended may still be calling its requests back
  while the next one runs.

  `outstanding` should be the bytes that are queued and not yet sent. A request adds its
  message before the transaction is parsed, and does not take it off again where the
  transaction is not valid (`invalid_leaks`): `submits_exact` is for runs in which no such
  request gets past the check for room. The request that starts a frame is not checked.
  Every step of a frame brings it closer to its end (`Frame.work`), so each request that it
  accepted is called back.
-/

import Lws.Transition
import Lws.Lmdb.Bytes

namespace Lws.Rest

open Lws.Lmdb Lws.Transition

/-! ## Messages -/

/-- `SendRawTxHex::Response`, as far as it is read. -/
structure DaemonResponse where
  status : String
  errorDetails : String
  relayed : Bool
  deriving DecidableEq, Repr

/-- What a reply of the daemon parses to. -/
inductive FullMessage where
  | response (r : DaemonResponse)
  | error (errorStr message : String)
  /-- `JSON_ERROR`, with what was read before. -/
  | jsonError (r : DaemonResponse)
  deriving DecidableEq, Repr

/-- `rpc::parse_response`: the parser, and whether it succeeded. -/
def parseResponse : FullMessage → DaemonResponse × Bool
  | .response r => (r, true)
  | .error errorStr message => (⟨errorStr, message, false⟩, false)
  | .jsonError r => (r, false)

/-- `submit_raw_tx_response`. -/
structure SubmitResponse where
  status : String
  reason : String
  notRelayed : Bool
  deriving DecidableEq, Repr

inductive SubmitError (ε : Type) where
  | badClientTx
  | load
  | daemonTimeout
  | badDaemonResponse
  /-- An error of ZMQ, or of writing JSON. -/
  | other (e : ε)
  deriving DecidableEq, Repr

inductive HttpStatus where
  | ok
  | unprocessableEntity
  deriving DecidableEq, Repr

structure HttpResponse where
  body : Bytes
  status : HttpStatus
  deriving DecidableEq, Repr

/-- `submit_raw_tx_request`, with the connection to call back. -/
structure SubmitRequest where
  tx : Bytes
  resume : Nat
  deriving DecidableEq, Repr

/-- The libraries: `parse_hexstr_to_binbuff`, `parse_and_validate_tx_from_blob`,
    `make_message` and the JSON of a response. -/
structure SubmitEnv (Tx ε : Type) where
  parseHex : Bytes → Option Bytes
  parseTx : Bytes → Option Tx
  makeMessage : Bytes → Bytes
  toJson : SubmitResponse → Except ε Bytes
  /-- The server has a `mempool`. -/
  mempool : Bool

variable {Tx ε : Type}

/-- The value that the coroutine answers with, and whether the transaction was relayed. -/
def answerTo (env : SubmitEnv Tx ε) (reply : FullMessage) : Except (SubmitError ε) HttpResponse × Bool :=
  let json (status : HttpStatus) (resp : SubmitResponse) : Except (SubmitError ε) HttpResponse :=
    match env.toJson resp with
    | .ok body => .ok ⟨body, status⟩
    | .error e => .error (.other e)
  let (daemonResp, ok) := parseResponse reply
  if !ok && daemonResp.status == "Failed" then
    (json .unprocessableEntity ⟨daemonResp.status, daemonResp.errorDetails, false⟩, false)
  else if !ok then (.error .badDaemonResponse, false)
  else if !daemonResp.relayed then (json .ok ⟨"OK", "Not relayed", true⟩, false)
  else (json .ok ⟨"OK", "", false⟩, true)

/-! ## A frame -/

/-- An element of `resumers`. -/
structure Resumer (Tx : Type) where
  msg : Bytes
  resume : Nat
  tx : Tx
  deriving DecidableEq, Repr

/-- Where the coroutine is: at the head of its loop, waiting for the socket, or past its end. -/
inductive Stage where
  | ready
  | writing (next : Bytes)
  | reading (sent : Bytes)
  | finished
  | failed
  deriving DecidableEq, Repr

def Stage.ended : Stage → Bool
  | .finished | .failed => true
  | _ => false

/-- `frame`, with its coroutine. The last three are not in the source, and are read by none
    of it: what was queued, what the daemon replied to, and what was called back. -/
structure Frame (Tx ε : Type) where
  resumers : List (Resumer Tx)
  outstanding : Nat
  stage : Stage
  /-- The timer has run out, and its handler is on its way. -/
  expired : Bool
  /-- What `send_response` has yet to call, and with what. -/
  calls : List (Nat × Except (SubmitError ε) HttpResponse)
  accepted : List (Resumer Tx)
  exchanges : List (Bytes × FullMessage)
  answered : List (Nat × Except (SubmitError ε) HttpResponse)

inductive FrameEvent where
  /-- The coroutine goes on at the head of its loop. -/
  | run
  | written
  | replied (reply : FullMessage)
  | expire
  /-- The socket fails, or the handler of the timer has cancelled it. -/
  | failed
  /-- The next connection is called back. -/
  | call
  deriving DecidableEq, Repr

/-- `send_response` with an error: prevents further resumers. -/
def Frame.sendError (f : Frame Tx ε) : Frame Tx ε :=
  { f with
    resumers := []
    calls := f.calls ++ f.resumers.map fun r => (r.resume, .error .daemonTimeout)
    stage := .failed }

/-- What a step does to the frame, whether it resets the cache, and what it adds to the pool. -/
structure Effect (Tx ε : Type) where
  frame : Frame Tx ε
  reset : Bool
  txs : List Tx

/-- The coroutine, from one point where it waits or locks to the next. -/
def Frame.step (env : SubmitEnv Tx ε) (f : Frame Tx ε) (event : FrameEvent) : Option (Effect Tx ε) :=
  match event, f.stage with
  | .run, .ready =>
    -- the last answer is given before the loop goes on
    if f.calls.isEmpty then
      match f.resumers with
      | [] => some ⟨{ f with stage := .finished }, true, []⟩
      | front :: rest =>
        some ⟨{ f with
          resumers := { front with msg := [] } :: rest
          outstanding := f.outstanding - min f.outstanding front.msg.length
          stage := .writing front.msg
          expired := false }, false, []⟩
    else none
  | .written, .writing next =>
    if f.expired then some ⟨f.sendError, true, []⟩
    else some ⟨{ f with stage := .reading next }, false, []⟩
  | .replied reply, .reading sent =>
    if f.expired then some ⟨f.sendError, true, []⟩
    else
      match f.resumers with
      | [] => none
      | front :: rest =>
        let (value, relayed) := answerTo env reply
        some ⟨{ f with
          resumers := rest
          calls := f.calls ++ [(front.resume, value)]
          stage := .ready
          exchanges := f.exchanges ++ [(sent, reply)] }, false, if relayed && env.mempool then [front.tx] else []⟩
  | .expire, .writing _ | .expire, .reading _ =>
    if f.expired then none else some ⟨{ f with expired := true }, false, []⟩
  | .failed, .writing _ | .failed, .reading _ => some ⟨f.sendError, true, []⟩
  | .call, _ =>
    match f.calls with
    | [] => none
    | next :: calls => some ⟨{ f with calls, answered := f.answered ++ [next] }, false, []⟩
  | _, _ => none

/-! ## The server -/

/-- `cached_result`, all frames that were started, and the transactions that the pool was given. -/
structure Submits (Tx ε : Type) where
  frames : List (Frame Tx ε)
  status : Option Nat
  pool : List Tx

def submitTxMax : Nat := 100 * 1024 * 1024

/-- `cache.status.lock()`. -/
def Submits.active (s : Submits Tx ε) : Option (Nat × Frame Tx ε) :=
  s.status.bind fun i => s.frames[i]?.map fun f => (i, f)

/-- The check for `error::load`. -/
def Frame.full (f : Frame Tx ε) (msg : Bytes) : Prop :=
  2 ^ 64 - 1 - msg.length < f.outstanding ∨ submitTxMax < msg.length + f.outstanding

instance (f : Frame Tx ε) (msg : Bytes) : Decidable (f.full msg) := inferInstanceAs (Decidable (_ ∨ _))

def Frame.count (f : Frame Tx ε) (msg : Bytes) : Frame Tx ε := { f with outstanding := f.outstanding + msg.length }

def Frame.push (f : Frame Tx ε) (elem : Resumer Tx) : Frame Tx ε :=
  { f with resumers := f.resumers ++ [elem], accepted := f.accepted ++ [elem] }

def Frame.start (elem : Resumer Tx) : Frame Tx ε := ⟨[elem], elem.msg.length, .ready, false, [], [elem], [], []⟩

/-- `submit_raw_tx::handle`; `client` is what `get_async_client` fails with. -/
def Submits.handle (env : SubmitEnv Tx ε) (client : Option ε) (req : SubmitRequest) (s : Submits Tx ε) :
    Except (SubmitError ε) Unit × Submits Tx ε :=
  match env.parseHex req.tx with
  | none => (.error .badClientTx, s)
  | some blob =>
    let msg := env.makeMessage req.tx
    match s.active with
    | some (i, f) =>
      if f.full msg then (.error .load, s)
      else
        -- counted before the transaction is parsed
        let f := f.count msg
        match env.parseTx blob with
        | none => (.error .badClientTx, { s with frames := s.frames.set i f })
        | some tx => (.ok (), { s with frames := s.frames.set i (f.push ⟨msg, req.resume, tx⟩) })
    | none =>
      match client, env.parseTx blob with
      | some e, _ => (.error (.other e), s)
      | none, none => (.error .badClientTx, { s with status := none })
      | none, some tx =>
        (.ok (), { s with frames := s.frames ++ [.start ⟨msg, req.resume, tx⟩], status := some s.frames.length })

inductive SubmitEvent (ε : Type) where
  | request (client : Option ε) (req : SubmitRequest)
  | frame (i : Nat) (event : FrameEvent)

/-- One step of the server; a step that is not to happen fails. -/
def Submits.step (env : SubmitEnv Tx ε) (event : SubmitEvent ε) (s : Submits Tx ε) : Except Unit (Submits Tx ε) :=
  match event with
  | .request client req => .ok (s.handle env client req).2
  | .frame i event =>
    match s.frames[i]?.bind fun f => f.step env event with
    | none => .error ()
    | some effect =>
      .ok ⟨s.frames.set i effect.frame, if effect.reset then none else s.status, s.pool ++ effect.txs⟩

def Submits.init : Submits Tx ε := ⟨[], none, []⟩

/-! ## What a step of a frame does -/

/-- Each thing that a frame can do. -/
inductive Frame.Moves (env : SubmitEnv Tx ε) (f : Frame Tx ε) : Effect Tx ε → Prop where
  | finish : f.stage = .ready → f.resumers = [] → Frame.Moves env f ⟨{ f with stage := .finished }, true, []⟩
  | send {front : Resumer Tx} {rest : List (Resumer Tx)} : f.stage = .ready → f.resumers = front :: rest →
      Frame.Moves env f ⟨{ f with
        resumers := { front with msg := [] } :: rest
        outstanding := f.outstanding - min f.outstanding front.msg.length
        stage := .writing front.msg
        expired := false }, false, []⟩
  | sent {next : Bytes} : f.stage = .writing next → Frame.Moves env f ⟨{ f with stage := .reading next }, false, []⟩
  | answer {sent : Bytes} {front : Resumer Tx} {rest : List (Resumer Tx)} {txs : List Tx} (reply : FullMessage) :
      f.stage = .reading sent → f.resumers = front :: rest →
      Frame.Moves env f ⟨{ f with
        resumers := rest
        calls := f.calls ++ [(front.resume, (answerTo env reply).1)]
        stage := .ready
        exchanges := f.exchanges ++ [(sent, reply)] }, false, txs⟩
  | expire {msg : Bytes} : f.stage = .writing msg ∨ f.stage = .reading msg → f.expired = false →
      Frame.Moves env f ⟨{ f with expired := true }, false, []⟩
  | fail {msg : Bytes} : f.stage = .writing msg ∨ f.stage = .reading msg → Frame.Moves env f ⟨f.sendError, true, []⟩
  | call {next : Nat × Except (SubmitError ε) HttpResponse} {calls : List (Nat × Except (SubmitError ε) HttpResponse)} :
      f.calls = next :: calls → Frame.Moves env f ⟨{ f with calls, answered := f.answered ++ [next] }, false, []⟩

variable {env : SubmitEnv Tx ε} {f : Frame Tx ε} {effect : Effect Tx ε}

theorem Frame.step_moves {event : FrameEvent} (h : f.step env event = some effect) : f.Moves env effect := by
  unfold Frame.step at h
  split at h
  case h_1 hstage =>
    split at h
    · split at h
      · rename_i hnil
        cases h
        exact .finish hstage hnil
      · rename_i hcons
        cases h
        exact .send hstage hcons
    · cases h
  case h_2 next hstage =>
    split at h
    · cases h
      exact .fail (.inl hstage)
    · cases h
      exact .sent hstage
  case h_3 reply sent hstage =>
    split at h
    · cases h
      exact .fail (.inr hstage)
    · split at h
      · cases h
      · rename_i hcons
        cases h
        exact .answer reply hstage hcons
  case h_4 hstage =>
    split at h
    · cases h
    · rename_i hexpired
      cases h
      exact .expire (.inl hstage) (by simpa using hexpired)
  case h_5 hstage =>
    split at h
    · cases h
    · rename_i hexpired
      cases h
      exact .expire (.inr hstage) (by simpa using hexpired)
  case h_6 hstage =>
    cases h
    exact .fail (.inl hstage)
  case h_7 hstage =>
    cases h
    exact .fail (.inr hstage)
  case h_8 =>
    split at h
    · cases h
    · rename_i hcons
      cases h
      exact .call hcons
  case h_9 => cases h

theorem Frame.Moves.reset_eq (h : f.Moves env effect) :
    effect.reset = (!f.stage.ended && effect.frame.stage.ended) ∧
      (f.stage.ended = true → effect.frame.stage.ended = true) := by
  cases h with
  | finish hstage _ => simp [hstage, Stage.ended]
  | send hstage _ => simp [hstage, Stage.ended]
  | sent hstage => simp [hstage, Stage.ended]
  | answer _ hstage _ => simp [hstage, Stage.ended]
  | expire hstage _ => rcases hstage with hstage | hstage <;> simp [hstage, Stage.ended]
  | fail hstage => rcases hstage with hstage | hstage <;> simp [hstage, Stage.ended, Frame.sendError]
  | call _ => simp

/-! ## The answers of a frame -/

def Frame.due (f : Frame Tx ε) : List (Resumer Tx) := f.accepted.drop f.exchanges.length

/-- The answer to a request whose exchange with the daemon this was. -/
def answerOf (env : SubmitEnv Tx ε) (r : Resumer Tx) (exchange : Bytes × FullMessage) :
    Nat × Except (SubmitError ε) HttpResponse :=
  (r.resume, (answerTo env exchange.2).1)

def Frame.replied (env : SubmitEnv Tx ε) (f : Frame Tx ε) : List (Nat × Except (SubmitError ε) HttpResponse) :=
  List.zipWith (answerOf env) f.accepted f.exchanges

/-- What is queued: the requests without a reply, and where the coroutine waits for the socket
    the message of the first is gone from the queue. -/
def Frame.Waiting (f : Frame Tx ε) : Prop :=
  match f.stage with
  | .ready => f.resumers = f.due
  | .writing msg | .reading msg =>
    ∃ front rest, f.due = front :: rest ∧ msg = front.msg ∧ f.resumers = { front with msg := [] } :: rest
  | .finished => f.resumers = [] ∧ f.due = []
  | .failed => f.resumers = []

/-- The answers in their order: the replies to what was accepted, and then the failure. -/
structure Frame.Kept (env : SubmitEnv Tx ε) (f : Frame Tx ε) : Prop where
  sent : f.exchanges.map (·.1) = (f.accepted.take f.exchanges.length).map (·.msg)
  waiting : f.Waiting
  served : f.answered ++ f.calls =
    f.replied env ++ if f.stage = .failed then f.due.map fun r => (r.resume, .error .daemonTimeout) else []

theorem Frame.Kept.length_le (h : f.Kept env) : f.exchanges.length ≤ f.accepted.length := by
  have hlen := congrArg List.length h.sent
  simp only [List.length_map, List.length_take] at hlen
  omega

theorem Frame.due_eq_cons {front : Resumer Tx} {rest : List (Resumer Tx)} (h : f.due = front :: rest) :
    f.accepted[f.exchanges.length]? = some front ∧ f.accepted.drop (f.exchanges.length + 1) = rest := by
  constructor
  · rw [← List.head?_drop]
    exact congrArg List.head? h
  · rw [← List.tail_drop]
    exact congrArg List.tail h

/-- While the coroutine waits for the socket, the first request that is due is in front. -/
theorem Frame.Waiting.sending {msg : Bytes} (h : f.Waiting) (hstage : f.stage = .writing msg ∨ f.stage = .reading msg) :
    ∃ front rest, f.due = front :: rest ∧ msg = front.msg ∧ f.resumers = { front with msg := [] } :: rest := by
  unfold Frame.Waiting at h
  rcases hstage with hstage | hstage
  · rw [hstage] at h
    exact h
  · rw [hstage] at h
    exact h

theorem zipWith_concat {α β γ : Type} (g : α → β → γ) {as : List α} {a : α} (bs : List β) (b : β)
    (h : as[bs.length]? = some a) : List.zipWith g as (bs ++ [b]) = List.zipWith g as bs ++ [g a b] := by
  induction bs generalizing as with
  | nil =>
    cases as with
    | nil => simp at h
    | cons x as =>
      obtain rfl : x = a := by simpa using h
      simp
  | cons y bs ih =>
    cases as with
    | nil => simp at h
    | cons x as => simp [ih (show as[bs.length]? = some a by simpa using h)]

theorem Frame.Moves.kept (h : f.Moves env effect) (hkept : f.Kept env) : effect.frame.Kept env := by
  have hwait := hkept.waiting
  have hserved := hkept.served
  cases h with
  | finish hstage hnil =>
    rw [Frame.Waiting, hstage] at hwait
    rw [hstage] at hserved
    exact ⟨hkept.sent, ⟨hnil, hwait ▸ hnil⟩, hserved⟩
  | send hstage hcons =>
    rw [Frame.Waiting, hstage] at hwait
    rw [hstage] at hserved
    exact ⟨hkept.sent, ⟨_, _, hwait ▸ hcons, rfl, rfl⟩, hserved⟩
  | sent hstage =>
    rw [hstage] at hserved
    exact ⟨hkept.sent, hwait.sending (.inl hstage), hserved⟩
  | @answer sent front' rest' txs reply hstage hcons =>
    obtain ⟨front, rest, hdue, rfl, hresumers⟩ := hwait.sending (.inr hstage)
    rw [hresumers] at hcons
    obtain ⟨rfl, rfl⟩ := List.cons.inj hcons
    obtain ⟨hget, hdrop⟩ := Frame.due_eq_cons hdue
    refine ⟨?_, ?_, ?_⟩
    · simp only [List.map_append, List.length_append, List.length_singleton, List.take_add_one, hget, hkept.sent]
      simp
    · simpa [Frame.Waiting, Frame.due] using hdrop.symm
    · rw [hstage, if_neg (by simp), List.append_nil] at hserved
      rw [if_neg (by simp), List.append_nil, ← List.append_assoc, hserved]
      exact (zipWith_concat (answerOf env) f.exchanges (front.msg, reply) hget).symm
  | expire _ _ => exact ⟨hkept.sent, hwait, hserved⟩
  | fail hstage =>
    obtain ⟨front, rest, hdue, -, hresumers⟩ := hwait.sending hstage
    have hlive : f.stage ≠ .failed := by rcases hstage with hstage | hstage <;> simp [hstage]
    refine ⟨hkept.sent, rfl, ?_⟩
    rw [if_neg hlive, List.append_nil] at hserved
    have hall : f.sendError.due = front :: rest := hdue
    have hreplied : f.sendError.replied env = f.answered ++ f.calls := hserved.symm
    simp only [hall, hreplied]
    simp [Frame.sendError, hresumers]
  | call hcalls =>
    refine ⟨hkept.sent, hwait, ?_⟩
    rw [hcalls] at hserved
    rw [List.append_assoc]
    exact hserved

theorem zipWith_append_left {α β γ : Type} (g : α → β → γ) {as : List α} (more : List α) {bs : List β}
    (h : bs.length ≤ as.length) : List.zipWith g (as ++ more) bs = List.zipWith g as bs := by
  induction bs generalizing as with
  | nil => simp
  | cons b bs ih =>
    cases as with
    | nil => simp at h
    | cons a as => simp [ih (show bs.length ≤ as.length by simpa using h)]

theorem Frame.Kept.push (h : f.Kept env) (hlive : f.stage.ended = false) (elem : Resumer Tx) :
    (f.push elem).Kept env := by
  have hlen := h.length_le
  have hwait := h.waiting
  have hserved := h.served
  have hdue : (f.push elem).due = f.due ++ [elem] := List.drop_append_of_le_length hlen
  have hreplied : (f.push elem).replied env = f.replied env := zipWith_append_left (answerOf env) [elem] hlen
  have hfailed : f.stage ≠ .failed := by
    intro hstage
    rw [hstage] at hlive
    cases hlive
  refine ⟨?_, ?_, ?_⟩
  · have htake : (f.accepted ++ [elem]).take f.exchanges.length = f.accepted.take f.exchanges.length :=
      List.take_append_of_le_length hlen
    have hsent := h.sent
    rw [← htake] at hsent
    exact hsent
  · cases hstage : f.stage with
    | ready =>
      rw [Frame.Waiting, hstage] at hwait
      simp [Frame.Waiting, hdue, ← hwait]
      simp [Frame.push, hstage]
    | writing msg =>
      obtain ⟨front, rest, hfront, hmsg, hresumers⟩ := hwait.sending (.inl hstage)
      simp [Frame.Waiting, hdue, hfront]
      simp [Frame.push, hresumers, hstage, hmsg]
    | reading msg =>
      obtain ⟨front, rest, hfront, hmsg, hresumers⟩ := hwait.sending (.inr hstage)
      simp [Frame.Waiting, hdue, hfront]
      simp [Frame.push, hresumers, hstage, hmsg]
    | finished =>
      rw [hstage] at hlive
      cases hlive
    | failed => exact absurd hstage hfailed
  · rw [if_neg hfailed] at hserved
    rw [hreplied, if_neg (show (f.push elem).stage ≠ .failed from hfailed)]
    exact hserved

/-! ## The counter -/

def Frame.queued (f : Frame Tx ε) : Nat := (f.resumers.map fun r => r.msg.length).sum

/-- A frame that still runs counts what is queued. -/
def Frame.Counted (f : Frame Tx ε) : Prop := f.stage.ended = false → f.outstanding = f.queued

theorem Frame.Moves.counted (h : f.Moves env effect) (hwait : f.Waiting) (hcount : f.Counted) :
    effect.frame.Counted := by
  intro hended
  cases h with
  | finish _ _ => simp [Stage.ended] at hended
  | @send front rest hstage hcons =>
    have hone := hcount (by rw [hstage]; rfl)
    simp only [Frame.queued, hcons, List.map_cons, List.sum_cons] at hone
    simp only [Frame.queued, List.map_cons, List.sum_cons, List.length_nil, hone]
    omega
  | sent hstage => exact hcount (by rw [hstage]; rfl)
  | @answer sent front' rest' _ reply hstage hcons =>
    obtain ⟨front, rest, -, -, hresumers⟩ := hwait.sending (.inr hstage)
    rw [hresumers] at hcons
    obtain ⟨-, rfl⟩ := List.cons.inj hcons
    have hone := hcount (by rw [hstage]; rfl)
    simpa [Frame.queued, hresumers] using hone
  | expire _ _ => exact hcount hended
  | fail _ => simp [Stage.ended, Frame.sendError] at hended
  | call _ => exact hcount hended

theorem Frame.Counted.push (h : f.Counted) (hlive : f.stage.ended = false) (elem : Resumer Tx) :
    ((f.count elem.msg).push elem).Counted := by
  intro _
  have hone := h hlive
  simp [Frame.queued, Frame.push, Frame.count, hone]

/-! ## Every state that is reached -/

/-- The cache points at the frame that runs, and all frames are as they should be. -/
structure Submits.Inv (env : SubmitEnv Tx ε) (s : Submits Tx ε) : Prop where
  current : ∀ i f, s.frames[i]? = some f → (f.stage.ended = false ↔ s.status = some i)
  inside : ∀ i, s.status = some i → i < s.frames.length
  kept : ∀ f ∈ s.frames, f.Kept env
  counted : ∀ f ∈ s.frames, f.Counted

variable {s : Submits Tx ε}

theorem Submits.active_eq_some {i : Nat} :
    s.active = some (i, f) ↔ s.status = some i ∧ s.frames[i]? = some f := by
  simp only [Submits.active, Option.bind_eq_some_iff, Option.map_eq_some_iff, Prod.mk.injEq]
  constructor
  · rintro ⟨j, hstatus, g, hget, rfl, rfl⟩
    exact ⟨hstatus, hget⟩
  · rintro ⟨hstatus, hget⟩
    exact ⟨i, hstatus, f, hget, rfl, rfl⟩

theorem Submits.Inv.active_eq_none (h : s.Inv env) : s.active = none ↔ s.status = none := by
  constructor
  · intro hnone
    cases hstatus : s.status with
    | none => rfl
    | some i =>
      have hget := List.getElem?_eq_getElem (h.inside i hstatus)
      rw [Submits.active_eq_some.mpr ⟨hstatus, hget⟩] at hnone
      cases hnone
  · intro hnone
    simp [Submits.active, hnone]

theorem Submits.Inv.set {i : Nat} {g : Frame Tx ε} {status : Option Nat} {pool : List Tx} (h : s.Inv env)
    (hget : s.frames[i]? = some f) (hkept : g.Kept env) (hcount : g.Counted)
    (hstatus : status = if g.stage.ended = f.stage.ended then s.status else none)
    (hended : f.stage.ended = true → g.stage.ended = true) :
    Submits.Inv env ⟨s.frames.set i g, status, pool⟩ := by
  have hlt : i < s.frames.length := (List.getElem?_eq_some_iff.mp hget).1
  refine ⟨fun j u hu => ?_, fun j hj => ?_, fun u hu => ?_, fun u hu => ?_⟩
  · rw [List.getElem?_set] at hu
    by_cases hij : i = j
    · subst hij
      simp only [if_true, if_pos hlt, Option.some.injEq] at hu
      subst hu
      rw [hstatus]
      by_cases hsame : g.stage.ended = f.stage.ended
      · rw [if_pos hsame, hsame]
        exact h.current i f hget
      · rw [if_neg hsame]
        cases hg : g.stage.ended with
        | true => simp
        | false =>
          have hf : f.stage.ended = true := by simpa [hg] using hsame
          rw [hended hf] at hg
          cases hg
    · rw [if_neg hij] at hu
      rw [hstatus]
      by_cases hsame : g.stage.ended = f.stage.ended
      · rw [if_pos hsame]
        exact h.current j u hu
      · have hf : f.stage.ended = false := by
          cases hf : f.stage.ended with
          | false => rfl
          | true => exact absurd (hended hf) (by rw [← hf]; exact hsame)
        have hi := (h.current i f hget).mp hf
        have hj := h.current j u hu
        rw [hi] at hj
        rw [if_neg hsame, hj]
        simp [hij]
  · rw [hstatus] at hj
    rw [List.length_set]
    split at hj
    · exact h.inside j hj
    · cases hj
  · rcases List.mem_or_eq_of_mem_set hu with hu | rfl
    · exact h.kept u hu
    · exact hkept
  · rcases List.mem_or_eq_of_mem_set hu with hu | rfl
    · exact h.counted u hu
    · exact hcount

theorem Submits.inv_init : (Submits.init : Submits Tx ε).Inv env :=
  ⟨by simp [Submits.init], by simp [Submits.init], by simp [Submits.init], by simp [Submits.init]⟩

theorem Submits.inv_frame {s' : Submits Tx ε} {i : Nat} {event : FrameEvent} (h : s.Inv env)
    (hstep : s.step env (.frame i event) = .ok s') : s'.Inv env := by
  simp only [Submits.step] at hstep
  split at hstep
  · cases hstep
  · rename_i effect heffect
    cases hstep
    obtain ⟨f, hget, hone⟩ := Option.bind_eq_some_iff.mp heffect
    have hmem := List.mem_of_getElem? hget
    have hmoves := Frame.step_moves hone
    obtain ⟨hreset, hended⟩ := hmoves.reset_eq
    refine h.set hget (hmoves.kept (h.kept f hmem))
      (hmoves.counted (h.kept f hmem).waiting (h.counted f hmem)) ?_ hended
    rw [hreset]
    cases hf : f.stage.ended with
    | true => simp [hended hf]
    | false => cases effect.frame.stage.ended <;> simp

/-- A request that the running frame has room for is valid, and the one that starts a frame is
    not too large. -/
def Submits.Admits (env : SubmitEnv Tx ε) (s : Submits Tx ε) (req : SubmitRequest) (blob : Bytes) : Prop :=
  match s.active with
  | some (_, f) => f.full (env.makeMessage req.tx) ∨ (env.parseTx blob).isSome = true
  | none => (env.makeMessage req.tx).length ≤ submitTxMax

/-- What the steps have to meet. -/
def Submits.Meets (env : SubmitEnv Tx ε) (s : Submits Tx ε) : SubmitEvent ε → Prop
  | .request _ req => ∀ blob ∈ env.parseHex req.tx, s.Admits env req blob
  | .frame _ _ => True

instance (req : SubmitRequest) (blob : Bytes) : Decidable (s.Admits env req blob) := by
  unfold Submits.Admits
  split <;> infer_instance

instance (event : SubmitEvent ε) : Decidable (s.Meets env event) := by
  cases event
  · exact inferInstanceAs (Decidable (∀ _ ∈ _, _))
  · exact inferInstanceAs (Decidable True)

/-- Each thing that comes of a request. -/
inductive Submits.Handled (env : SubmitEnv Tx ε) (s : Submits Tx ε) (req : SubmitRequest) :
    Except (SubmitError ε) Unit × Submits Tx ε → Prop where
  | badHex : env.parseHex req.tx = none → Submits.Handled env s req (.error .badClientTx, s)
  | load {blob : Bytes} {i : Nat} {f : Frame Tx ε} : env.parseHex req.tx = some blob → s.active = some (i, f) →
      f.full (env.makeMessage req.tx) → Submits.Handled env s req (.error .load, s)
  | invalid {blob : Bytes} {i : Nat} {f : Frame Tx ε} : env.parseHex req.tx = some blob → s.active = some (i, f) →
      ¬f.full (env.makeMessage req.tx) → env.parseTx blob = none →
      Submits.Handled env s req
        (.error .badClientTx, { s with frames := s.frames.set i (f.count (env.makeMessage req.tx)) })
  | queued {blob : Bytes} {i : Nat} {f : Frame Tx ε} {tx : Tx} : env.parseHex req.tx = some blob →
      s.active = some (i, f) → ¬f.full (env.makeMessage req.tx) → env.parseTx blob = some tx →
      Submits.Handled env s req (.ok (), { s with
        frames := s.frames.set i ((f.count (env.makeMessage req.tx)).push ⟨env.makeMessage req.tx, req.resume, tx⟩) })
  | client {blob : Bytes} (e : ε) : env.parseHex req.tx = some blob → s.active = none →
      Submits.Handled env s req (.error (.other e), s)
  | firstInvalid {blob : Bytes} : env.parseHex req.tx = some blob → s.active = none → env.parseTx blob = none →
      Submits.Handled env s req (.error .badClientTx, { s with status := none })
  | first {blob : Bytes} {tx : Tx} : env.parseHex req.tx = some blob → s.active = none → env.parseTx blob = some tx →
      Submits.Handled env s req (.ok (), { s with
        frames := s.frames ++ [.start ⟨env.makeMessage req.tx, req.resume, tx⟩], status := some s.frames.length })

theorem Submits.handle_handled (env : SubmitEnv Tx ε) (client : Option ε) (req : SubmitRequest) (s : Submits Tx ε) :
    s.Handled env req (s.handle env client req) := by
  unfold Submits.handle
  cases hblob : env.parseHex req.tx with
  | none => exact .badHex hblob
  | some blob =>
    cases hactive : s.active with
    | none =>
      cases client with
      | some e => exact .client e hblob hactive
      | none =>
        cases htx : env.parseTx blob with
        | none => simpa only [htx] using Submits.Handled.firstInvalid hblob hactive htx
        | some tx => simpa only [htx] using Submits.Handled.first hblob hactive htx
    | some current =>
      obtain ⟨i, f⟩ := current
      by_cases hfull : f.full (env.makeMessage req.tx)
      · simpa only [if_pos hfull] using Submits.Handled.load hblob hactive hfull
      · cases htx : env.parseTx blob with
        | none => simpa only [if_neg hfull, htx] using Submits.Handled.invalid hblob hactive hfull htx
        | some tx => simpa only [if_neg hfull, htx] using Submits.Handled.queued hblob hactive hfull htx

theorem Frame.kept_start (elem : Resumer Tx) : (Frame.start elem : Frame Tx ε).Kept env :=
  ⟨rfl, rfl, rfl⟩

theorem Frame.Kept.count (h : f.Kept env) (msg : Bytes) : (f.count msg).Kept env := ⟨h.sent, h.waiting, h.served⟩

theorem Submits.Inv.start (h : s.Inv env) (hnone : s.active = none) (elem : Resumer Tx) :
    Submits.Inv env { s with frames := s.frames ++ [.start elem], status := some s.frames.length } := by
  have hstatus := h.active_eq_none.mp hnone
  refine ⟨fun j u hu => ?_, fun j hj => ?_, fun u hu => ?_, fun u hu => ?_⟩
  · by_cases hj : j < s.frames.length
    · rw [List.getElem?_append_left hj] at hu
      have hended := h.current j u hu
      rw [hstatus] at hended
      rw [hended]
      simp only [reduceCtorEq, Option.some.injEq, false_iff]
      omega
    · rw [List.getElem?_append_right (not_lt.mp hj)] at hu
      obtain ⟨hzero, rfl⟩ := List.getElem?_eq_some_iff.mp hu
      simp only [List.length_singleton] at hzero
      have hlast : s.frames.length = j := by omega
      simp [Frame.start, Stage.ended, hlast]
  · simp only [Option.some.injEq] at hj
    simp [← hj]
  · rcases List.mem_append.mp hu with hu | hu
    · exact h.kept u hu
    · rw [List.mem_singleton.mp hu]
      exact Frame.kept_start elem
  · rcases List.mem_append.mp hu with hu | hu
    · exact h.counted u hu
    · rw [List.mem_singleton.mp hu]
      intro _
      simp [Frame.start, Frame.queued]

theorem Submits.inv_request {client : Option ε} {req : SubmitRequest} (h : s.Inv env)
    (hmeets : s.Meets env (.request client req)) : (s.handle env client req).2.Inv env := by
  have hhandled := Submits.handle_handled env client req s
  generalize s.handle env client req = result at hhandled
  cases hhandled with
  | badHex _ => exact h
  | load _ _ _ => exact h
  | client _ _ _ => exact h
  | invalid hblob hactive hfull htx =>
    have hone := hmeets _ hblob
    rw [Submits.Admits, hactive] at hone
    exact absurd hone (by simp [hfull, htx])
  | queued hblob hactive hfull htx =>
    obtain ⟨hstatus, hget⟩ := Submits.active_eq_some.mp hactive
    have hmem := List.mem_of_getElem? hget
    have hlive := (h.current _ _ hget).mpr hstatus
    exact h.set hget (((h.kept _ hmem).count _).push hlive _) ((h.counted _ hmem).push hlive _)
      (if_pos rfl).symm fun hended => hended
  | firstInvalid _ hactive _ =>
    have hstatus := h.active_eq_none.mp hactive
    rw [← hstatus]
    exact h
  | first _ hactive _ => exact h.start hactive _

/-- What the server may have come to when every step met the condition. -/
def Submits.Runs (env : SubmitEnv Tx ε) : Submits Tx ε → Prop :=
  Steps (Submits.step env) (Submits.Meets env) Submits.init

theorem Submits.Runs.inv (h : s.Runs env) : s.Inv env :=
  Steps.invariant (Submits.Inv env) Submits.inv_init
    (fun u event u' hu hmeets hstep => by
      cases event with
      | request client req =>
        cases hstep
        exact Submits.inv_request hu hmeets
      | frame i event => exact Submits.inv_frame hu hstep) h

/-! ## What the requests get -/

def Submits.queued (s : Submits Tx ε) : Nat :=
  match s.active with
  | some (_, f) => f.queued
  | none => 0

theorem Frame.full_iff (f : Frame Tx ε) (msg : Bytes) : f.full msg ↔ submitTxMax < msg.length + f.outstanding := by
  simp only [Frame.full, submitTxMax]
  omega

theorem Submits.Inv.load_iff (h : s.Inv env) {client : Option ε} {req : SubmitRequest} {blob : Bytes}
    (hblob : env.parseHex req.tx = some blob)
    (hfirst : s.active = none → (env.makeMessage req.tx).length ≤ submitTxMax) :
    (s.handle env client req).1 = .error .load ↔ submitTxMax < (env.makeMessage req.tx).length + s.queued := by
  have hcount : ∀ i f, s.active = some (i, f) → f.outstanding = s.queued := by
    intro i f hactive
    obtain ⟨hstatus, hget⟩ := Submits.active_eq_some.mp hactive
    rw [Submits.queued, hactive]
    exact h.counted f (List.mem_of_getElem? hget) ((h.current i f hget).mpr hstatus)
  have hnone : s.active = none → ¬submitTxMax < (env.makeMessage req.tx).length + s.queued := by
    intro hactive
    rw [Submits.queued, hactive]
    exact not_lt.mpr (hfirst hactive)
  have hhandled := Submits.handle_handled env client req s
  generalize s.handle env client req = result at hhandled
  cases hhandled with
  | badHex hnot =>
    rw [hblob] at hnot
    cases hnot
  | load _ hactive hfull =>
    rw [Frame.full_iff, hcount _ _ hactive] at hfull
    exact iff_of_true rfl hfull
  | invalid _ hactive hfull _ =>
    rw [Frame.full_iff, hcount _ _ hactive] at hfull
    exact iff_of_false (by simp) hfull
  | queued _ hactive hfull _ =>
    rw [Frame.full_iff, hcount _ _ hactive] at hfull
    exact iff_of_false (by simp) hfull
  | client _ _ hactive => exact iff_of_false (by simp) (hnone hactive)
  | firstInvalid _ hactive _ => exact iff_of_false (by simp) (hnone hactive)
  | first _ hactive _ => exact iff_of_false (by simp) (hnone hactive)

/-- What a frame accepted, none where there is no such frame. -/
def Submits.accepted (s : Submits Tx ε) (i : Nat) : List (Resumer Tx) :=
  match s.frames[i]? with
  | some f => f.accepted
  | none => []

theorem Submits.accepted_set {i : Nat} {g : Frame Tx ε} (hget : s.frames[i]? = some f) (j : Nat) :
    Submits.accepted { s with frames := s.frames.set i g } j = if j = i then g.accepted else s.accepted j := by
  have hlt : i < s.frames.length := (List.getElem?_eq_some_iff.mp hget).1
  unfold Submits.accepted
  by_cases hj : j = i
  · subst hj
    simp [hlt]
  · simp [hj, Ne.symm hj]

theorem Submits.accepted_start (s : Submits Tx ε) (elem : Resumer Tx) (status : Option Nat) (j : Nat) :
    Submits.accepted { s with frames := s.frames ++ [.start elem], status } j =
      s.accepted j ++ if j = s.frames.length then [elem] else [] := by
  unfold Submits.accepted
  rcases lt_trichotomy j s.frames.length with hj | rfl | hj
  · simp [List.getElem?_append_left hj, hj.ne]
  · simp [Frame.start]
  · have hnone : s.frames[j]? = none := List.getElem?_eq_none hj.le
    have hnone' : (s.frames ++ [Frame.start elem])[j]? = none := List.getElem?_eq_none (by simpa using hj)
    simp [hnone, hnone', hj.ne']

/-- A request that is accepted is the last of one frame; one that is not is in none. -/
theorem Submits.handle_accepts (env : SubmitEnv Tx ε) (client : Option ε) (req : SubmitRequest) (s : Submits Tx ε) :
    ((s.handle env client req).1 = .ok () → ∃ i tx, ∀ j, (s.handle env client req).2.accepted j =
      s.accepted j ++ if j = i then [⟨env.makeMessage req.tx, req.resume, tx⟩] else []) ∧
    ((s.handle env client req).1 ≠ .ok () → ∀ j, (s.handle env client req).2.accepted j = s.accepted j) := by
  have hhandled := Submits.handle_handled env client req s
  generalize s.handle env client req = result at hhandled
  cases hhandled with
  | badHex _ => exact ⟨fun h => by simp at h, fun _ _ => rfl⟩
  | load _ _ _ => exact ⟨fun h => by simp at h, fun _ _ => rfl⟩
  | client _ _ _ => exact ⟨fun h => by simp at h, fun _ _ => rfl⟩
  | firstInvalid _ _ _ => exact ⟨fun h => by simp at h, fun _ _ => rfl⟩
  | @invalid _ i f _ hactive _ _ =>
    refine ⟨fun h => by simp at h, fun _ j => ?_⟩
    have hget := (Submits.active_eq_some.mp hactive).2
    rw [Submits.accepted_set hget]
    by_cases hj : j = i
    · rw [if_pos hj, hj, Submits.accepted, hget]
      rfl
    · rw [if_neg hj]
  | @queued _ i f tx _ hactive _ _ =>
    refine ⟨fun _ => ⟨i, tx, fun j => ?_⟩, fun h => absurd rfl h⟩
    have hget := (Submits.active_eq_some.mp hactive).2
    rw [Submits.accepted_set hget]
    by_cases hj : j = i
    · rw [if_pos hj, if_pos hj, hj, Submits.accepted, hget]
      rfl
    · rw [if_neg hj, if_neg hj, List.append_nil]
  | @first _ tx _ _ _ => exact ⟨fun _ => ⟨s.frames.length, tx, Submits.accepted_start s _ _⟩, fun h => absurd rfl h⟩

/-- How the requests of a frame are answered. -/
structure Frame.Answers (env : SubmitEnv Tx ε) (f : Frame Tx ε) : Prop where
  /-- Each is called back, is to be, or is queued, once and in the order they came. -/
  order : (f.answered ++ f.calls).map (·.1) ++ f.resumers.map (·.resume) = f.accepted.map (·.resume)
  /-- What it is called with is the daemon's reply to its own message, or the failure. -/
  own : ∀ (k id : Nat) (value : Except (SubmitError ε) HttpResponse), (f.answered ++ f.calls)[k]? = some (id, value) →
    ∃ r : Resumer Tx, f.accepted[k]? = some r ∧
    id = r.resume ∧ ((∃ reply, f.exchanges[k]? = some (r.msg, reply) ∧ value = (answerTo env reply).1) ∨
      f.stage = .failed ∧ value = .error .daemonTimeout)

theorem map_fst_replied (env : SubmitEnv Tx ε) (accepted : List (Resumer Tx)) (exchanges : List (Bytes × FullMessage)) :
    (List.zipWith (answerOf env) accepted exchanges).map (·.1) = (accepted.take exchanges.length).map (·.resume) := by
  induction exchanges generalizing accepted with
  | nil => simp
  | cons exchange exchanges ih =>
    cases accepted with
    | nil => simp
    | cons r accepted => simp [ih, answerOf]

theorem Frame.Kept.resumes (h : f.Kept env) (hlive : f.stage ≠ .failed) :
    f.resumers.map (·.resume) = f.due.map (·.resume) := by
  have hwait := h.waiting
  cases hstage : f.stage with
  | ready =>
    rw [Frame.Waiting, hstage] at hwait
    rw [hwait]
  | writing msg =>
    obtain ⟨front, rest, hdue, -, hresumers⟩ := hwait.sending (.inl hstage)
    simp [hdue, hresumers]
  | reading msg =>
    obtain ⟨front, rest, hdue, -, hresumers⟩ := hwait.sending (.inr hstage)
    simp [hdue, hresumers]
  | finished =>
    rw [Frame.Waiting, hstage] at hwait
    rw [hwait.1, hwait.2]
  | failed => exact absurd hstage hlive

theorem Frame.Kept.answers (h : f.Kept env) : f.Answers env := by
  have hreplied : (f.replied env).map (·.1) = (f.accepted.take f.exchanges.length).map (·.resume) :=
    map_fst_replied env _ _
  have hsplit : f.accepted.map (·.resume) =
      (f.accepted.take f.exchanges.length).map (·.resume) ++ f.due.map (·.resume) := by
    rw [Frame.due, ← List.map_append, List.take_append_drop]
  refine ⟨?_, fun k id value hk => ?_⟩
  · rw [h.served, List.map_append, hreplied, hsplit]
    by_cases hfailed : f.stage = .failed
    · have hwait := h.waiting
      rw [Frame.Waiting, hfailed] at hwait
      simp [hfailed, hwait, Function.comp_def]
    · simp [hfailed, h.resumes hfailed]
  · rw [h.served] at hk
    have hlen : (f.replied env).length = f.exchanges.length := by
      simpa [Frame.replied] using h.length_le
    by_cases hlt : k < f.exchanges.length
    · have hr : k < f.accepted.length := lt_of_lt_of_le hlt h.length_le
      rw [List.getElem?_append_left (by rwa [hlen]), Frame.replied, List.getElem?_zipWith,
        List.getElem?_eq_getElem hr, List.getElem?_eq_getElem hlt] at hk
      obtain ⟨rfl, rfl⟩ := Prod.mk.inj (Option.some.inj hk)
      have hsent := congrArg (·[k]?) h.sent
      simp only [List.getElem?_map, List.getElem?_eq_getElem hlt, List.getElem?_take_of_lt hlt,
        List.getElem?_eq_getElem hr, Option.map_some, Option.some.injEq] at hsent
      refine ⟨_, List.getElem?_eq_getElem hr, rfl, .inl ⟨f.exchanges[k].2, ?_, rfl⟩⟩
      rw [List.getElem?_eq_getElem hlt, ← hsent]
    · rw [List.getElem?_append_right (by rw [hlen]; exact not_lt.mp hlt), hlen] at hk
      split at hk
      · rename_i hfailed
        rw [List.getElem?_map, Option.map_eq_some_iff] at hk
        obtain ⟨r, hr, hvalue⟩ := hk
        obtain ⟨rfl, rfl⟩ := Prod.mk.inj hvalue
        rw [Frame.due, List.getElem?_drop, Nat.add_sub_of_le (not_lt.mp hlt)] at hr
        exact ⟨r, hr, rfl, .inr ⟨hfailed, rfl⟩⟩
      · simp at hk

/-! ## Every request is answered -/

/-- A bound on the steps that a frame takes before all that it accepted are called back. -/
def Frame.work (f : Frame Tx ε) : Nat :=
  2 * f.calls.length +
    match f.stage with
    | .ready => 8 * f.resumers.length + 6
    | .writing _ => 8 * f.resumers.length + 4 + if f.expired then 0 else 1
    | .reading _ => 8 * f.resumers.length + 2 + if f.expired then 0 else 1
    | .finished | .failed => 0

/-- A frame comes to its end, and there nothing is left. -/
structure Frame.Progress (env : SubmitEnv Tx ε) (f : Frame Tx ε) : Prop where
  done : f.work = 0 → f.answered.map (·.1) = f.accepted.map (·.resume)
  next : f.work ≠ 0 → ∃ event effect, f.step env event = some effect
  down : ∀ event effect, f.step env event = some effect → effect.frame.work < f.work

theorem Frame.Moves.work_lt (h : f.Moves env effect) : effect.frame.work < f.work := by
  cases h with
  | finish hstage _ => simp [Frame.work, hstage]
  | send hstage hcons => simp [Frame.work, hstage, hcons]
  | sent hstage =>
    simp only [Frame.work, hstage]
    split <;> omega
  | answer _ hstage hcons =>
    simp only [Frame.work, hstage, hcons, List.length_append, List.length_cons, List.length_nil]
    split <;> omega
  | expire hstage hexpired => rcases hstage with hstage | hstage <;> simp [Frame.work, hstage, hexpired]
  | fail hstage =>
    rcases hstage with hstage | hstage
    · simp only [Frame.work, hstage, Frame.sendError, List.length_append, List.length_map]
      split <;> omega
    · simp only [Frame.work, hstage, Frame.sendError, List.length_append, List.length_map]
      split <;> omega
  | call hcalls => simp [Frame.work, hcalls]

theorem Frame.step_next (env : SubmitEnv Tx ε) (h : f.work ≠ 0) : ∃ event effect, f.step env event = some effect := by
  cases hcalls : f.calls with
  | cons next calls => exact ⟨.call, _, by simp [Frame.step, hcalls]; rfl⟩
  | nil =>
    cases hstage : f.stage with
    | ready =>
      cases hresumers : f.resumers with
      | nil => exact ⟨.run, _, by simp [Frame.step, hstage, hcalls, hresumers]; rfl⟩
      | cons front rest => exact ⟨.run, _, by simp [Frame.step, hstage, hcalls, hresumers]; rfl⟩
    | writing msg => exact ⟨.failed, _, by simp [Frame.step, hstage]; rfl⟩
    | reading msg => exact ⟨.failed, _, by simp [Frame.step, hstage]; rfl⟩
    | finished => exact absurd (by simp [Frame.work, hstage, hcalls]) h
    | failed => exact absurd (by simp [Frame.work, hstage, hcalls]) h

theorem Frame.Kept.progress (h : f.Kept env) : f.Progress env := by
  refine ⟨fun hwork => ?_, Frame.step_next env, fun _ _ hstep => (Frame.step_moves hstep).work_lt⟩
  have hcalls : f.calls = [] := List.length_eq_zero_iff.mp (by unfold Frame.work at hwork; omega)
  have hresumers : f.resumers = [] := by
    have hwait := h.waiting
    cases hstage : f.stage with
    | finished =>
      rw [Frame.Waiting, hstage] at hwait
      exact hwait.1
    | failed =>
      rw [Frame.Waiting, hstage] at hwait
      exact hwait
    | ready => simp [Frame.work, hstage] at hwork
    | writing msg => simp [Frame.work, hstage] at hwork
    | reading msg => simp [Frame.work, hstage] at hwork
  have horder := h.answers.order
  simpa [hcalls, hresumers] using horder

/-- Where no request with a transaction that is not valid gets past the check for room, and no
    frame starts with a message that is too large: the counter is what is queued and not yet
    sent, `error::load` is for what would be too much of it, and each request that is accepted
    is answered once, in order, with what the daemon replied to its own message or with the
    failure of the frame. -/
theorem submits_exact (env : SubmitEnv Tx ε) (s : Submits Tx ε) (h : s.Runs env) :
    (∀ i f, s.active = some (i, f) → f.outstanding = f.queued) ∧
    (∀ (client : Option ε) (req : SubmitRequest) (blob : Bytes), env.parseHex req.tx = some blob →
      (s.active = none → (env.makeMessage req.tx).length ≤ submitTxMax) →
      ((s.handle env client req).1 = .error .load ↔ submitTxMax < (env.makeMessage req.tx).length + s.queued)) ∧
    ∀ f ∈ s.frames, f.Answers env ∧ f.Progress env := by
  have hinv := h.inv
  refine ⟨fun i f hactive => ?_, fun client req blob hblob hfirst => hinv.load_iff hblob hfirst, fun f hf => ?_⟩
  · obtain ⟨hstatus, hget⟩ := Submits.active_eq_some.mp hactive
    exact hinv.counted f (List.mem_of_getElem? hget) ((hinv.current i f hget).mpr hstatus)
  · exact ⟨(hinv.kept f hf).answers, (hinv.kept f hf).progress⟩

/-! ## Two runs -/

/-- A transaction is one byte, `2`, and a message is what was submitted. -/
def twosOnly : SubmitEnv UInt8 Unit :=
  ⟨some, fun blob => if blob = [2] then some 2 else none, id, fun _ => .ok [], true⟩

def threeSubmits : List (SubmitEvent Unit) :=
  [.request none ⟨[2], 7⟩, .frame 0 .run, .request none ⟨[2], 8⟩, .frame 0 .written,
    .frame 0 (.replied (.response ⟨"OK", "", true⟩)), .frame 0 .call, .frame 0 .run, .request none ⟨[2], 9⟩]

def afterThree : Submits UInt8 Unit := runAll (Submits.step twosOnly) threeSubmits Submits.init

theorem submits_exact_three :
    (afterThree.active.isSome = true ∧ ∀ i f, afterThree.active = some (i, f) → f.outstanding = f.queued) ∧
    ((afterThree.handle twosOnly none ⟨[2], 10⟩).1 = .error .load ↔ submitTxMax < 1 + afterThree.queued) ∧
    ∀ f ∈ afterThree.frames, f.Answers twosOnly ∧ f.Progress twosOnly := by
  have hactive : afterThree.active.isSome = true := by decide
  obtain ⟨hcounted, hload, hframes⟩ :=
    submits_exact twosOnly afterThree (steps_runAll threeSubmits Submits.init (by decide +kernel))
  have hbusy : afterThree.active ≠ none := by
    rintro hnone
    rw [hnone] at hactive
    cases hactive
  exact ⟨⟨hactive, hcounted⟩, hload none ⟨[2], 10⟩ [2] rfl fun hnone => absurd hnone hbusy, hframes⟩

/-- A message that is not valid stays counted: of four bytes three are not queued. -/
theorem invalid_leaks :
    ¬∀ s : Submits UInt8 Unit, Steps (Submits.step twosOnly) (fun _ _ => True) Submits.init s →
      ∀ i f, s.active = some (i, f) → f.outstanding = f.queued := by
  intro h
  have hsteps : Steps (Submits.step twosOnly) (fun _ _ => True) Submits.init
      (runAll (Submits.step twosOnly) [.request none ⟨[2], 7⟩, .request none ⟨[1, 1, 1], 8⟩] Submits.init) :=
    steps_runAll _ _ ⟨trivial, trivial, trivial⟩
  have hcount := h _ hsteps 0 ⟨[⟨[2], 7, 2⟩], 4, .ready, false, [], [⟨[2], 7, 2⟩], [], []⟩ rfl
  exact absurd hcount (by decide)

end Lws.Rest
