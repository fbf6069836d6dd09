/-
  Lws.Net.HttpClient — the client that posts webhooks and reads exchange rates
  (`src/net/http/client.cpp`).

  Messages queue up in `client_state::outgoing`. A coroutine, `client_loop`, takes the one in
  front through name lookup, connection, TLS handshake, request and response, tells its
  notifier how it went, and keeps the connection for the next message where the server allows
  it and host and port are the same. Whoever queues a message on an empty queue also starts a
  loop. All of it runs on one strand, so the steps that interleave are a message being queued
  and an operation of a loop ending.

  A queue may be empty while its loop is still in the TLS shutdown of the last message. A
  message queued then starts a second loop on the same socket and queue: both work on it, and
  one reads the front of an empty queue (`queued_while_closing`). In every run in which that
  does not happen there is one loop at most, and every message is taken from the queue once,
  in order, and its notifier called once (`messages_exact`).

  A kept connection is not asked whether it is a TLS one. It always is the one of the message
  that opened it, which had the same host and port (`connections_exact`), but may have had the
  other scheme (`plain_over_tls`).
-/

import Lws.Transition
import Lws.Lmdb.Bytes

namespace Lws.Net

open Lws.Lmdb Lws.Transition

/-! ## Messages -/

/-- `message`. A notifier is a name of its own. -/
structure Message where
  jsonBody : Bytes
  host : String
  target : String
  port : Nat
  https : Bool
  notifier : Option Nat
  deriving DecidableEq, Repr

inductive Verb where
  | get
  | post
  deriving DecidableEq, Repr

structure Request where
  verb : Verb
  target : String
  body : Bytes
  contentType : Option String
  host : String
  deriving DecidableEq, Repr

structure UrlContent where
  schema : String
  host : String
  port : Nat
  uri : String
  deriving DecidableEq, Repr

/-- `parse_url`, `make_address_v6`, and the errors of Asio that the loop makes itself. -/
structure HttpEnv (ε : Type) where
  parseUrl : String → Option UrlContent
  isV6 : String → Bool
  hostNotFound : ε
  operationNotSupported : ε

variable {ε Endpoint : Type}

def maxPort : Nat := 65535

/-- The message of `queue_async`; none is `bad_url`. -/
def toMessage (env : HttpEnv ε) (url : String) (jsonBody : Bytes) (notifier : Option Nat) : Option Message :=
  match env.parseUrl url with
  | none => none
  | some parsed =>
    if maxPort < parsed.port then none
    else if parsed.schema ≠ "http" ∧ parsed.schema ≠ "https" then none
    else some
      { jsonBody
        host := parsed.host
        target := if parsed.uri = "" then "/" else parsed.uri
        port := if parsed.port = 0 then (if parsed.schema = "http" then 80 else 443) else parsed.port
        https := parsed.schema == "https"
        notifier }

def Message.request (env : HttpEnv ε) (m : Message) : Request where
  verb := if m.notifier.isSome then .get else .post
  target := m.target
  body := m.jsonBody
  contentType := if m.jsonBody = [] then none else some "application/json"
  host :=
    if env.isV6 m.host then "[" ++ m.host ++ "]:" ++ toString m.port
    else if (m.https && m.port == 443) || (!m.https && m.port == 80) then m.host
    else m.host ++ ":" ++ toString m.port

/-- What is left of a message once `async_write` took its body. -/
def Message.emptied (m : Message) : Message := { m with jsonBody := [] }

/-! ## The loop -/

/-- The socket, once connected: where to, and whether a TLS handshake was made. -/
structure Connection (Endpoint : Type) where
  endpoint : Endpoint
  /-- The message that opened it. -/
  opener : Message
  tls : Bool
  deriving DecidableEq, Repr

def Connection.secured (c : Connection Endpoint) : Connection Endpoint := { c with tls := true }

/-- What a loop waits for. -/
inductive Stage where
  | posted
  | resolving
  | connecting
  | handshaking
  | writing
  | reading
  /-- In `async_shutdown`. -/
  | closing
  deriving DecidableEq, Repr

structure Response where
  status : Nat
  keepAlive : Bool
  body : Bytes
  deriving DecidableEq, Repr

/-- How an operation ends. A timeout makes it fail. -/
inductive Completion (ε Endpoint : Type) where
  | success
  | resolved (ips : List Endpoint)
  | response (r : Response)
  | failure (e : ε)
  deriving DecidableEq, Repr

/-- What a notifier is called with. -/
abbrev Notice (ε : Type) := Except ε Bytes

structure ClientState (ε Endpoint : Type) where
  outgoing : List Message
  endpoint : Option Endpoint
  sock : Option (Connection Endpoint)
  iteration : Nat
  loops : List Stage
  /-- Every message that was queued. -/
  accepted : List Message
  /-- How often a message was popped. -/
  popped : Nat
  sent : List (Request × Option (Connection Endpoint))
  called : List (Nat × Notice ε)
  deriving DecidableEq, Repr

inductive ClientError where
  | badUrl
  /-- No loop waits for this. -/
  | disabled
  /-- The front of an empty deque. -/
  | undefined
  deriving DecidableEq, Repr

namespace ClientState

def init : ClientState ε Endpoint := ⟨[], none, none, 0, [], [], 0, [], []⟩

/-- The socket is shut down and closed, and the `while` goes on. -/
def cleanup (s : ClientState ε Endpoint) : ClientState ε Endpoint × Option Stage :=
  ({ s with sock := none, iteration := s.iteration + 1 }, if s.outgoing = [] then none else some .resolving)

/-- `async_write` of the message in front. -/
def write (env : HttpEnv ε) (front : Message) (rest : List Message) (s : ClientState ε Endpoint) :
    ClientState ε Endpoint × Option Stage :=
  ({ s with outgoing := front.emptied :: rest, sent := s.sent ++ [(front.request env, s.sock)] }, some .writing)

/-- From the end of a message to the next operation. -/
def finish (env : HttpEnv ε) (front : Message) (rest : List Message) (notice : Notice ε) (keepAlive : Bool)
    (s : ClientState ε Endpoint) : ClientState ε Endpoint × Option Stage :=
  let called := s.called ++ (front.notifier.map fun notifier => (notifier, notice)).toList
  let s := { s with outgoing := rest, popped := s.popped + 1, called }
  match rest with
  | next :: after =>
    if keepAlive && front.host == next.host && front.port == next.port then
      write env next after { s with iteration := s.iteration + 1 }
    else if front.https then (s, some .closing)
    else s.cleanup
  | [] => if front.https then (s, some .closing) else s.cleanup

/-- `client_loop::operator()`, from one yield to the next. No stage is the end of the loop. -/
def resume (env : HttpEnv ε) (stage : Stage) (completion : Completion ε Endpoint) (s : ClientState ε Endpoint) :
    Except ClientError (ClientState ε Endpoint × Option Stage) :=
  match stage, completion, s.outgoing with
  | .posted, .success, outgoing => .ok (s, if outgoing = [] then none else some .resolving)
  | .closing, .success, _ => .ok s.cleanup
  | .closing, .failure _, _ => .ok s.cleanup
  | .posted, _, _ => .error .disabled
  | .closing, _, _ => .error .disabled
  | .resolving, .resolved (ip :: _), _ => .ok ({ s with endpoint := some ip }, some .connecting)
  | _, _, [] => .error .undefined
  | _, .failure e, front :: rest => .ok (s.finish env front rest (.error e) false)
  | .resolving, .resolved [], front :: rest => .ok (s.finish env front rest (.error env.hostNotFound) false)
  | .connecting, .success, front :: rest =>
    let s := { s with sock := s.endpoint.map fun endpoint => ⟨endpoint, front, false⟩ }
    .ok (if front.https then (s, some .handshaking) else s.write env front rest)
  | .handshaking, .success, front :: rest =>
    let s := { s with sock := s.sock.map Connection.secured }
    .ok (s.write env front rest)
  | .writing, .success, _ => .ok (s, some .reading)
  | .reading, .response r, front :: rest =>
    if r.status ≠ 200 ∧ r.status ≠ 201 then .ok (s.finish env front rest (.error env.operationNotSupported) false)
    else .ok (s.finish env front rest (.ok r.body) r.keepAlive)
  | _, _, _ => .error .disabled

end ClientState

inductive ClientEvent (ε Endpoint : Type) where
  /-- `queue_async`. -/
  | queue (url : String) (jsonBody : Bytes) (notifier : Option Nat)
  /-- An operation of a loop ends. -/
  | complete (loop : Nat) (completion : Completion ε Endpoint)

namespace ClientState

def push (m : Message) (s : ClientState ε Endpoint) : ClientState ε Endpoint :=
  { s with
    outgoing := s.outgoing ++ [m]
    accepted := s.accepted ++ [m]
    loops := if s.outgoing = [] then s.loops ++ [.posted] else s.loops }

def step (env : HttpEnv ε) (event : ClientEvent ε Endpoint) (s : ClientState ε Endpoint) :
    Except ClientError (ClientState ε Endpoint) :=
  match event with
  | .queue url jsonBody notifier =>
    match toMessage env url jsonBody notifier with
    | none => .error .badUrl
    | some m => .ok (s.push m)
  | .complete i completion =>
    match s.loops[i]? with
    | none => .error .disabled
    | some stage =>
      match s.resume env stage completion with
      | .error e => .error e
      | .ok (s', none) => .ok { s' with loops := s.loops.eraseIdx i }
      | .ok (s', some next) => .ok { s' with loops := s.loops.set i next }

end ClientState

/-! ## One loop at most -/

/-- A connection that one of the messages opened, on which `m` may be sent. -/
structure Connection.Serves (c : Connection Endpoint) (messages : List Message) (m : Message) : Prop where
  opened : c.opener ∈ messages
  host : c.opener.host = m.host
  port : c.opener.port = m.port
  tls : c.tls = c.opener.https

namespace ClientState

/-- The messages that were not popped, as they were queued. -/
def waiting (s : ClientState ε Endpoint) : List Message := s.accepted.drop s.popped

/-- What holds where a loop waits. -/
def At (s : ClientState ε Endpoint) : Option Stage → Prop
  | none => s.outgoing = [] ∧ s.waiting = [] ∧ s.sock = none
  | some .posted | some .resolving => s.outgoing ≠ [] ∧ s.outgoing = s.waiting ∧ s.sock = none
  | some .connecting => s.outgoing ≠ [] ∧ s.outgoing = s.waiting ∧ s.sock = none ∧ s.endpoint.isSome
  | some .handshaking => ∃ front rest c, s.waiting = front :: rest ∧ s.outgoing = front :: rest ∧ front.https = true ∧
      s.sock = some c ∧ c.opener = front
  | some .writing | some .reading => ∃ front rest c, s.waiting = front :: rest ∧ s.outgoing = front.emptied :: rest ∧
      s.sock = some c ∧ c.Serves s.accepted front
  | some .closing => s.outgoing = s.waiting

/-- The message in front was handed to the socket. -/
def inHand : Option Stage → Nat
  | some .writing | some .reading => 1
  | _ => 0

/-- What every step keeps of the logs, with the messages popped and `n` more handed to the socket. -/
structure Kept (env : HttpEnv ε) (s : ClientState ε Endpoint) (n : Nat) : Prop where
  popped : s.popped ≤ s.accepted.length
  called : s.called.map (·.1) = (s.accepted.take s.popped).filterMap (·.notifier)
  sent : (s.sent.map (·.1)).Sublist ((s.accepted.take (s.popped + n)).map (Message.request env))
  socks : ∀ e ∈ s.sent, ∃ m ∈ s.accepted, e.1 = m.request env ∧ ∃ c, e.2 = some c ∧ c.Serves s.accepted m

structure Holds (env : HttpEnv ε) (s : ClientState ε Endpoint) (stage : Option Stage) : Prop where
  at_ : s.At stage
  kept : s.Kept env (inHand stage)

def Inv (env : HttpEnv ε) (s : ClientState ε Endpoint) : Prop := ∃ stage, s.loops = stage.toList ∧ s.Holds env stage

/-- No message is queued while a loop closes the connection of the last one. -/
def Meets (s : ClientState ε Endpoint) : ClientEvent ε Endpoint → Prop
  | .queue _ _ _ => s.outgoing = [] → s.loops = []
  | .complete _ _ => True

instance (s : ClientState ε Endpoint) (event : ClientEvent ε Endpoint) : Decidable (s.Meets event) := by
  cases event <;> unfold Meets <;> infer_instance

variable {env : HttpEnv ε} {s : ClientState ε Endpoint}

theorem inv_init : (init : ClientState ε Endpoint).Inv env :=
  ⟨none, rfl, ⟨rfl, rfl, rfl⟩, Nat.le_refl _, rfl, List.Sublist.slnil, fun _ h => absurd h List.not_mem_nil⟩

theorem take_succ_of_waiting {front : Message} {rest : List Message} (h : s.waiting = front :: rest) :
    s.popped < s.accepted.length ∧ s.accepted.take (s.popped + 1) = s.accepted.take s.popped ++ [front] ∧
      s.accepted.drop (s.popped + 1) = rest := by
  have hdrop : s.accepted.drop s.popped = front :: rest := h
  have hget : s.accepted[s.popped]? = some front := by
    rw [← List.head?_drop, hdrop]
    rfl
  obtain ⟨hlt, hfront⟩ := List.getElem?_eq_some_iff.mp hget
  refine ⟨hlt, ?_, ?_⟩
  · rw [← hfront, List.take_append_getElem hlt]
  · rw [← List.tail_drop, hdrop]
    rfl

theorem mem_accepted_of_waiting {front : Message} {rest : List Message} (h : s.waiting = front :: rest) :
    front ∈ s.accepted := by
  have hdrop : s.accepted.drop s.popped = front :: rest := h
  exact List.mem_of_mem_drop (hdrop ▸ List.mem_cons_self)

theorem Kept.frame {n : Nat} {t : ClientState ε Endpoint} (h : s.Kept env n) (haccepted : t.accepted = s.accepted)
    (hpopped : t.popped = s.popped) (hsent : t.sent = s.sent) (hcalled : t.called = s.called) : t.Kept env n := by
  refine ⟨?_, ?_, ?_, ?_⟩
  · rw [hpopped, haccepted]
    exact h.popped
  · rw [hcalled, hpopped, haccepted]
    exact h.called
  · rw [hsent, hpopped, haccepted]
    exact h.sent
  · rw [hsent, haccepted]
    exact h.socks

theorem Kept.cleanup (h : s.Kept env 0) (hwaiting : s.outgoing = s.waiting) : s.cleanup.1.Holds env s.cleanup.2 := by
  unfold ClientState.cleanup
  by_cases hnil : s.outgoing = []
  · rw [if_pos hnil]
    exact ⟨⟨hnil, hwaiting ▸ hnil, rfl⟩, h.popped, h.called, h.sent, h.socks⟩
  · rw [if_neg hnil]
    exact ⟨⟨hnil, hwaiting, rfl⟩, h.popped, h.called, h.sent, h.socks⟩

theorem Kept.write {front : Message} {rest : List Message} {c : Connection Endpoint} (h : s.Kept env 0)
    (hwaiting : s.waiting = front :: rest) (hsock : s.sock = some c) (hc : c.Serves s.accepted front) :
    (s.write env front rest).1.Holds env (s.write env front rest).2 := by
  obtain ⟨-, htake, -⟩ := take_succ_of_waiting hwaiting
  refine ⟨⟨front, rest, c, hwaiting, rfl, hsock, hc⟩, h.popped, h.called, ?_, fun e he => ?_⟩
  · show ((s.sent ++ [(front.request env, s.sock)]).map (·.1)).Sublist
      ((s.accepted.take (s.popped + 1)).map (Message.request env))
    rw [htake, List.map_append, List.map_append]
    exact h.sent.append (List.Sublist.refl _)
  · rcases List.mem_append.mp he with he | he
    · exact h.socks e he
    · rw [List.mem_singleton.mp he]
      exact ⟨front, mem_accepted_of_waiting hwaiting, rfl, c, hsock, hc⟩

/-- The message in front is popped, whatever became of it. -/
theorem Kept.finish {n : Nat} {front m : Message} {rest : List Message} {notice : Notice ε} {keepAlive : Bool}
    (h : s.Kept env n) (hn : n ≤ 1) (hwaiting : s.waiting = m :: rest) (hfront : front = m ∨ front = m.emptied)
    (hkeep : keepAlive = true → ∃ c, s.sock = some c ∧ c.Serves s.accepted m) :
    (s.finish env front rest notice keepAlive).1.Holds env (s.finish env front rest notice keepAlive).2 := by
  obtain ⟨hlt, htake, hdrop⟩ := take_succ_of_waiting hwaiting
  have hnotifier : front.notifier = m.notifier := by rcases hfront with rfl | rfl <;> rfl
  have hhost : front.host = m.host := by rcases hfront with rfl | rfl <;> rfl
  have hport : front.port = m.port := by rcases hfront with rfl | rfl <;> rfl
  have hkept : ∀ i, Kept env { s with
      outgoing := rest
      popped := s.popped + 1
      iteration := i
      called := s.called ++ (front.notifier.map fun notifier => (notifier, notice)).toList } 0 := by
    intro i
    refine ⟨hlt, ?_, h.sent.trans ?_, h.socks⟩
    · dsimp only
      rw [htake, List.map_append, List.filterMap_append, h.called, hnotifier]
      cases hm : m.notifier <;> simp [hm]
    · refine (List.take_sublist_take_left ?_).map _
      show s.popped + n ≤ s.popped + 1
      omega
  unfold ClientState.finish
  dsimp only
  split
  · rename_i next after
    split
    · rename_i hreuse
      simp only [Bool.and_eq_true, beq_iff_eq] at hreuse
      obtain ⟨c, hsock, hc⟩ := hkeep hreuse.1.1
      refine (hkept (s.iteration + 1)).write hdrop hsock ⟨hc.opened, ?_, ?_, hc.tls⟩
      · rw [hc.host, ← hhost, hreuse.1.2]
      · rw [hc.port, ← hport, hreuse.2]
    · split
      · exact ⟨hdrop.symm, hkept _⟩
      · exact (hkept _).cleanup hdrop.symm
  · split
    · exact ⟨hdrop.symm, hkept _⟩
    · exact (hkept _).cleanup hdrop.symm

section Resume

variable {completion : Completion ε Endpoint} {result : ClientState ε Endpoint × Option Stage}

/-- A failure, of the message handed to the socket or before. -/
theorem Holds.fail {stage : Stage} {m front : Message} {rest : List Message} {notice : Notice ε}
    (h : s.Holds env (some stage)) (hwaiting : s.waiting = m :: rest) (hfront : front = m ∨ front = m.emptied) :
    (s.finish env front rest notice false).1.Holds env (s.finish env front rest notice false).2 := by
  refine h.kept.finish ?_ hwaiting hfront fun hkeep => absurd hkeep Bool.false_ne_true
  cases stage <;> decide

theorem Holds.resolved (h : s.Holds env (some .resolving)) (hresume : s.resume env .resolving completion = .ok result) :
    result.1.Holds env result.2 := by
  obtain ⟨hne, hwaiting, hsock⟩ := h.at_
  obtain ⟨front, rest, hout⟩ := List.exists_cons_of_ne_nil hne
  unfold ClientState.resume at hresume
  cases completion with
  | resolved ips =>
    cases ips with
    | nil =>
      simp only [hout, Except.ok.injEq] at hresume
      subst hresume
      exact h.fail (hwaiting.symm.trans hout) (Or.inl rfl)
    | cons ip ips =>
      cases hresume
      exact ⟨⟨hne, hwaiting, hsock, rfl⟩, h.kept.frame rfl rfl rfl rfl⟩
  | failure e =>
    simp only [hout, Except.ok.injEq] at hresume
    subst hresume
    exact h.fail (hwaiting.symm.trans hout) (Or.inl rfl)
  | _ => simp [hout] at hresume

theorem Holds.connected (h : s.Holds env (some .connecting))
    (hresume : s.resume env .connecting completion = .ok result) :
    result.1.Holds env result.2 := by
  obtain ⟨hne, hwaiting, hsock, hendpoint⟩ := h.at_
  obtain ⟨front, rest, hout⟩ := List.exists_cons_of_ne_nil hne
  obtain ⟨endpoint, he⟩ := Option.isSome_iff_exists.mp hendpoint
  have hfront : s.waiting = front :: rest := hwaiting.symm.trans hout
  unfold ClientState.resume at hresume
  cases completion with
  | success =>
    simp only [hout, he, Option.map_some, Except.ok.injEq] at hresume
    subst hresume
    split
    · rename_i hhttps
      exact ⟨⟨front, rest, _, hfront, rfl, hhttps, rfl, rfl⟩, h.kept.frame rfl rfl rfl rfl⟩
    · rename_i hhttps
      refine Kept.write (h.kept.frame rfl rfl rfl rfl) hfront rfl
        ⟨mem_accepted_of_waiting hfront, rfl, rfl, ?_⟩
      exact (eq_false_of_ne_true hhttps).symm
  | failure e =>
    simp only [hout, Except.ok.injEq] at hresume
    subst hresume
    exact h.fail hfront (Or.inl rfl)
  | _ => simp [hout] at hresume

theorem Holds.shaken (h : s.Holds env (some .handshaking))
    (hresume : s.resume env .handshaking completion = .ok result) :
    result.1.Holds env result.2 := by
  obtain ⟨front, rest, c, hfront, hout, hhttps, hsock, hopener⟩ := h.at_
  unfold ClientState.resume at hresume
  cases completion with
  | success =>
    simp only [hout, Except.ok.injEq] at hresume
    subst hresume
    refine Kept.write (h.kept.frame rfl rfl rfl rfl) hfront (congrArg (Option.map Connection.secured) hsock)
      ⟨?_, ?_, ?_, ?_⟩
    · exact (hopener ▸ mem_accepted_of_waiting hfront : c.opener ∈ s.accepted)
    · exact congrArg Message.host hopener
    · exact congrArg Message.port hopener
    · exact (hopener ▸ hhttps : c.opener.https = true).symm
  | failure e =>
    simp only [hout, Except.ok.injEq] at hresume
    subst hresume
    exact h.fail hfront (Or.inl rfl)
  | _ => simp [hout] at hresume

theorem Holds.written (h : s.Holds env (some .writing)) (hresume : s.resume env .writing completion = .ok result) :
    result.1.Holds env result.2 := by
  obtain ⟨front, rest, c, hfront, hout, hsock, hc⟩ := h.at_
  unfold ClientState.resume at hresume
  cases completion with
  | success =>
    simp only [hout, Except.ok.injEq] at hresume
    subst hresume
    exact ⟨⟨front, rest, c, hfront, hout, hsock, hc⟩, h.kept⟩
  | failure e =>
    simp only [hout, Except.ok.injEq] at hresume
    subst hresume
    exact h.fail hfront (Or.inr rfl)
  | _ => simp [hout] at hresume

theorem Holds.answered (h : s.Holds env (some .reading)) (hresume : s.resume env .reading completion = .ok result) :
    result.1.Holds env result.2 := by
  obtain ⟨front, rest, c, hfront, hout, hsock, hc⟩ := h.at_
  unfold ClientState.resume at hresume
  cases completion with
  | response r =>
    simp only [hout] at hresume
    split at hresume
    · cases hresume
      exact h.fail hfront (Or.inr rfl)
    · cases hresume
      exact h.kept.finish (Nat.le_refl _) hfront (Or.inr rfl) fun _ => ⟨c, hsock, hc⟩
  | failure e =>
    simp only [hout, Except.ok.injEq] at hresume
    subst hresume
    exact h.fail hfront (Or.inr rfl)
  | _ => simp [hout] at hresume

theorem Holds.resume {stage : Stage} (h : s.Holds env (some stage))
    (hresume : s.resume env stage completion = .ok result) :
    result.1.Holds env result.2 := by
  cases stage with
  | posted =>
    obtain ⟨hne, hwaiting, hsock⟩ := h.at_
    cases completion with
    | success =>
      cases hresume
      rw [if_neg hne]
      exact ⟨⟨hne, hwaiting, hsock⟩, h.kept⟩
    | _ => cases hresume
  | closing =>
    have hkept : s.Kept env 0 := h.kept
    cases completion with
    | success | failure e =>
      cases hresume
      exact hkept.cleanup h.at_
    | _ => cases hresume
  | resolving => exact h.resolved hresume
  | connecting => exact h.connected hresume
  | handshaking => exact h.shaken hresume
  | writing => exact h.written hresume
  | reading => exact h.answered hresume

end Resume

/-! ## Every run -/

theorem Kept.push {n : Nat} (h : s.Kept env n) (m : Message) : (s.push m).Kept env n := by
  have htake : (s.accepted ++ [m]).take s.popped = s.accepted.take s.popped := List.take_append_of_le_length h.popped
  refine ⟨?_, ?_, ?_, fun e he => ?_⟩
  · show s.popped ≤ (s.accepted ++ [m]).length
    have := h.popped
    rw [List.length_append]
    omega
  · show _ = ((s.accepted ++ [m]).take s.popped).filterMap (·.notifier)
    rw [htake]
    exact h.called
  · exact h.sent.trans (((List.prefix_append s.accepted [m]).take _).sublist.map _)
  · obtain ⟨w, hw, hrequest, c, hc, hserves⟩ := h.socks e he
    exact ⟨w, List.mem_append_left _ hw, hrequest, c, hc, List.mem_append_left _ hserves.opened, hserves.host,
      hserves.port, hserves.tls⟩

theorem waiting_push (h : s.popped ≤ s.accepted.length) (m : Message) : (s.push m).waiting = s.waiting ++ [m] := by
  show (s.accepted ++ [m]).drop s.popped = _
  rw [List.drop_append_of_le_length h]
  rfl

/-- A message is queued behind the ones that a loop works on. -/
theorem Holds.push {stage : Stage} (h : s.Holds env (some stage)) (m : Message) :
    (s.push m).Holds env (some stage) := by
  have hwaiting := waiting_push h.kept.popped m
  have hsame : s.outgoing = s.waiting → (s.push m).outgoing = (s.push m).waiting := by
    intro hout
    rw [hwaiting, ← hout]
    rfl
  have hne : (s.push m).outgoing ≠ [] := by simp [ClientState.push]
  refine ⟨?_, h.kept.push m⟩
  have hat := h.at_
  cases stage with
  | posted => exact ⟨hne, hsame hat.2.1, hat.2.2⟩
  | resolving => exact ⟨hne, hsame hat.2.1, hat.2.2⟩
  | connecting => exact ⟨hne, hsame hat.2.1, hat.2.2⟩
  | closing => exact hsame hat
  | handshaking =>
    obtain ⟨front, rest, c, hfront, hout, hc⟩ := hat
    refine ⟨front, rest ++ [m], c, ?_, ?_, hc⟩
    · rw [hwaiting, hfront]
      rfl
    · show s.outgoing ++ [m] = _
      rw [hout]
      rfl
  | writing | reading =>
    obtain ⟨front, rest, c, hfront, hout, hsock, hc⟩ := hat
    refine ⟨front, rest ++ [m], c, ?_, ?_, hsock, List.mem_append_left _ hc.opened, hc.host, hc.port, hc.tls⟩
    · rw [hwaiting, hfront]
      rfl
    · show s.outgoing ++ [m] = _
      rw [hout]
      rfl

theorem step_complete {i : Nat} {completion : Completion ε Endpoint} {t : ClientState ε Endpoint}
    (h : s.step env (.complete i completion) = .ok t) :
    ∃ stage s' next, s.loops[i]? = some stage ∧ s.resume env stage completion = .ok (s', next) ∧
      t = { s' with loops := match next with | none => s.loops.eraseIdx i | some next => s.loops.set i next } := by
  unfold ClientState.step at h
  dsimp only at h
  split at h
  · cases h
  · rename_i stage hstage
    split at h
    · cases h
    · rename_i s' hresume
      exact ⟨stage, s', none, hstage, hresume, (Except.ok.inj h).symm⟩
    · rename_i s' next hresume
      exact ⟨stage, s', some next, hstage, hresume, (Except.ok.inj h).symm⟩

theorem Holds.loops {stage : Option Stage} (h : s.Holds env stage) (loops : List Stage) :
    Holds env { s with loops } stage := by
  refine ⟨?_, h.kept.frame rfl rfl rfl rfl⟩
  have hat := h.at_
  rcases stage with _ | stage
  · exact hat
  · cases stage <;> exact hat

theorem only_loop {stage : Option Stage} {at_ : Stage} {i : Nat} (hloops : s.loops = stage.toList)
    (hat : s.loops[i]? = some at_) : i = 0 ∧ stage = some at_ := by
  rw [hloops] at hat
  rcases stage with _ | stage
  · cases hat
  · obtain ⟨hi, hstage⟩ := List.getElem?_eq_some_iff.mp hat
    have hzero : i = 0 := Nat.lt_one_iff.mp hi
    subst hzero
    exact ⟨rfl, congrArg some hstage⟩

theorem inv_step {event : ClientEvent ε Endpoint} {t : ClientState ε Endpoint} (h : s.Inv env) (hmeets : s.Meets event)
    (hstep : s.step env event = .ok t) : t.Inv env := by
  obtain ⟨stage, hloops, hholds⟩ := h
  cases event with
  | queue url jsonBody notifier =>
    unfold ClientState.step at hstep
    dsimp only at hstep
    split at hstep
    · cases hstep
    · rename_i m hm
      cases hstep
      rcases stage with _ | stage
      · -- the queue was empty and nothing ran
        obtain ⟨hout, hwaiting, hsock⟩ := hholds.at_
        refine ⟨some .posted, ?_, ⟨?_, ?_, hsock⟩, hholds.kept.push m⟩
        · simp [ClientState.push, hout, hloops]
        · simp [ClientState.push]
        · rw [waiting_push hholds.kept.popped, hwaiting]
          simp [ClientState.push, hout]
      · refine ⟨some stage, ?_, hholds.push m⟩
        have hne : s.outgoing ≠ [] := by
          intro hout
          rw [hmeets hout] at hloops
          cases hloops
        show (if s.outgoing = [] then _ else s.loops) = _
        rw [if_neg hne, hloops]
  | complete i completion =>
    obtain ⟨at_, s', next, hat, hresume, rfl⟩ := step_complete hstep
    obtain ⟨rfl, rfl⟩ := only_loop hloops hat
    refine ⟨next, ?_, (hholds.resume hresume).loops _⟩
    rcases next with _ | next
    · simp [hloops]
    · simp [hloops]

/-- What the client may have come to when every step met the condition. -/
def Runs (env : HttpEnv ε) : ClientState ε Endpoint → Prop := Steps (step env) Meets init

theorem Runs.inv (h : s.Runs env) : s.Inv env :=
  Steps.invariant (Inv env) inv_init (fun _ _ _ => inv_step) h

/-! ## The end of a loop -/

/-- How many operations a loop may still end with the message in front. -/
def Stage.rank : Stage → Nat
  | .posted => 7
  | .closing => 7
  | .resolving => 6
  | .connecting => 5
  | .handshaking => 4
  | .writing => 3
  | .reading => 2

def rankOf : Option Stage → Nat
  | none => 0
  | some stage => Stage.rank stage

def work (s : ClientState ε Endpoint) : Nat := 8 * s.outgoing.length + (s.loops.map Stage.rank).sum

theorem cleanup_work (s : ClientState ε Endpoint) :
    8 * s.cleanup.1.outgoing.length + rankOf s.cleanup.2 ≤ 8 * s.outgoing.length + 6 := by
  unfold ClientState.cleanup
  dsimp only
  split
  · simp [rankOf]
  · simp [rankOf, Stage.rank]

theorem finish_work (front : Message) (rest : List Message) (notice : Notice ε) (keepAlive : Bool) :
    8 * (s.finish env front rest notice keepAlive).1.outgoing.length +
      rankOf (s.finish env front rest notice keepAlive).2 ≤ 8 * rest.length + 7 := by
  unfold ClientState.finish
  dsimp only
  split
  · split
    · simp [ClientState.write, rankOf, Stage.rank]
    · split
      · simp [rankOf, Stage.rank]
      · exact (cleanup_work _).trans (Nat.le_succ _)
  · split
    · simp [rankOf, Stage.rank]
    · exact (cleanup_work _).trans (Nat.le_succ _)

theorem resume_work {stage : Stage} {completion : Completion ε Endpoint}
    {result : ClientState ε Endpoint × Option Stage} (h : s.resume env stage completion = .ok result) :
    8 * result.1.outgoing.length + rankOf result.2 < 8 * s.outgoing.length + Stage.rank stage := by
  have hfinish : ∀ {front : Message} {rest : List Message} (notice : Notice ε) (keepAlive : Bool),
      s.outgoing = front :: rest → 8 * (s.finish env front rest notice keepAlive).1.outgoing.length +
        rankOf (s.finish env front rest notice keepAlive).2 < 8 * s.outgoing.length + Stage.rank stage := by
    intro front rest notice keepAlive hout
    have := @finish_work ε Endpoint env s front rest notice keepAlive
    rw [hout, List.length_cons]
    omega
  unfold ClientState.resume at h
  split at h
  · cases h
    dsimp only
    split
    · simp [rankOf, Stage.rank]
    · simp [rankOf, Stage.rank]
  · cases h
    exact (cleanup_work s).trans_lt (Nat.lt_succ_self _)
  · cases h
    exact (cleanup_work s).trans_lt (Nat.lt_succ_self _)
  · cases h
  · cases h
  · cases h
    simp [rankOf, Stage.rank]
  · cases h
  · rename_i hout
    cases h
    exact hfinish _ _ hout
  · rename_i hout
    cases h
    exact hfinish _ _ hout
  · rename_i front rest hout
    cases h
    split
    · simp [rankOf, Stage.rank]
    · simp [ClientState.write, rankOf, Stage.rank, hout]
  · rename_i front rest hout
    cases h
    simp [ClientState.write, rankOf, Stage.rank, hout]
  · cases h
    simp [rankOf, Stage.rank]
  · rename_i hout
    split at h
    · cases h
      exact hfinish _ _ hout
    · cases h
      exact hfinish _ _ hout
  · cases h

theorem Holds.outgoing_length {stage : Option Stage} (h : s.Holds env stage) :
    s.popped + s.outgoing.length = s.accepted.length := by
  have hlength : s.outgoing.length = s.waiting.length := by
    have hat := h.at_
    rcases stage with _ | stage
    · rw [hat.1, hat.2.1]
    cases stage with
    | posted | resolving => rw [← hat.2.1]
    | connecting => rw [← hat.2.1]
    | closing => exact congrArg List.length hat
    | handshaking =>
      obtain ⟨front, rest, c, hfront, hout, -⟩ := hat
      rw [hfront, hout]
    | writing | reading =>
      obtain ⟨front, rest, c, hfront, hout, -⟩ := hat
      rw [hfront, hout, List.length_cons, List.length_cons]
  have hpopped := h.kept.popped
  rw [hlength, waiting, List.length_drop]
  omega

/-- Where a loop waits with a message in front of it, there is one. -/
theorem Holds.defined {stage : Stage} (h : s.Holds env (some stage)) (completion : Completion ε Endpoint) :
    s.resume env stage completion ≠ .error .undefined := by
  have hat := h.at_
  have hout : stage = .posted ∨ stage = .closing ∨ ∃ front rest, s.outgoing = front :: rest := by
    cases stage with
    | posted => exact Or.inl rfl
    | closing => exact Or.inr (Or.inl rfl)
    | resolving => exact Or.inr (Or.inr (List.exists_cons_of_ne_nil hat.1))
    | connecting => exact Or.inr (Or.inr (List.exists_cons_of_ne_nil hat.1))
    | handshaking =>
      obtain ⟨front, rest, c, -, hout, -⟩ := hat
      exact Or.inr (Or.inr ⟨_, _, hout⟩)
    | writing | reading =>
      obtain ⟨front, rest, c, -, hout, -⟩ := hat
      exact Or.inr (Or.inr ⟨_, _, hout⟩)
  unfold ClientState.resume
  rcases hout with rfl | rfl | ⟨front, rest, hout⟩
  · cases completion <;> simp
  · cases completion <;> simp
  · rw [hout]
    split
    case h_13 =>
      split
      · simp
      · simp
    all_goals simp_all

/-- An operation of the loop that ends leaves it less to do. -/
theorem Inv.complete (h : s.Inv env) (i : Nat) (completion : Completion ε Endpoint) :
    s.step env (.complete i completion) ≠ .error .undefined ∧
      ∀ t, s.step env (.complete i completion) = .ok t → t.work < s.work := by
  obtain ⟨stage, hloops, hholds⟩ := h
  refine ⟨fun herror => ?_, fun t ht => ?_⟩
  · unfold ClientState.step at herror
    dsimp only at herror
    split at herror
    · cases herror
    · rename_i at_ hat
      obtain ⟨rfl, rfl⟩ := only_loop hloops hat
      split at herror
      · rename_i e hresume
        exact hholds.defined completion (hresume.trans (congrArg Except.error (Except.error.inj herror)))
      · cases herror
      · cases herror
  · obtain ⟨at_, s', next, hat, hresume, rfl⟩ := step_complete ht
    obtain ⟨rfl, rfl⟩ := only_loop hloops hat
    have hwork := resume_work hresume
    rcases next with _ | next
    · simpa [work, rankOf, hloops] using hwork
    · simpa [work, rankOf, hloops] using hwork

/-- In every run in which no message is queued while a loop closes the connection of the last one, a queue that is not
empty has exactly one loop, every message is popped once and in order, every notifier is called once and in order, and
the requests that are sent are those of the messages, each sent once at most and in order. No operation of the loop
reads the front of an empty queue, and each of them leaves it less to do. -/
theorem messages_exact (h : s.Runs env) :
    s.loops.length ≤ 1 ∧ (s.loops = [] → s.outgoing = []) ∧
      s.popped + s.outgoing.length = s.accepted.length ∧
      s.called.map (·.1) = (s.accepted.take s.popped).filterMap (·.notifier) ∧
      (s.sent.map (·.1)).Sublist (s.accepted.map (Message.request env)) ∧
      ∀ i completion, s.step env (.complete i completion) ≠ .error .undefined ∧
        ∀ t, s.step env (.complete i completion) = .ok t → t.work < s.work := by
  obtain ⟨stage, hloops, hholds⟩ := h.inv
  refine ⟨?_, ?_, hholds.outgoing_length, hholds.kept.called, ?_, h.inv.complete⟩
  · rw [hloops]
    exact Option.length_toList_le
  · intro hnil
    rcases stage with _ | stage
    · exact hholds.at_.1
    · rw [hloops] at hnil
      cases hnil
  · exact hholds.kept.sent.trans ((List.take_sublist _ _).map _)

/-- Every URL is one of a host of its own, over TLS. -/
def tlsEnv : HttpEnv Nat where
  parseUrl url := some ⟨"https", url, 0, ""⟩
  isV6 _ := false
  hostNotFound := 1
  operationNotSupported := 45

/-- Two messages for one host: the connection is kept for the second, which is refused. -/
def keptRun : List (ClientEvent Nat Nat) :=
  [.queue "host" [] (some 1), .queue "host" [] (some 2), .complete 0 .success, .complete 0 (.resolved [7]),
    .complete 0 .success, .complete 0 .success, .complete 0 .success, .complete 0 (.response ⟨200, true, [1]⟩),
    .complete 0 .success, .complete 0 (.response ⟨404, true, []⟩), .complete 0 .success]

theorem messages_exact_kept :
    (runAll (step tlsEnv) keptRun init).popped = 2 ∧
      (runAll (step tlsEnv) keptRun init).called.map (·.1) =
        ((runAll (step tlsEnv) keptRun init).accepted.take (runAll (step tlsEnv) keptRun init).popped).filterMap
          (·.notifier) :=
  ⟨by decide +kernel, (messages_exact (steps_runAll keptRun init (by decide +kernel))).2.2.2.1⟩

/-- A message that is queued while the connection of the last one is closed: the loop that starts fails to connect the
socket that the other connects, and pops the message the other then asks for. -/
def closingRun : List (ClientEvent Nat Nat) :=
  [.queue "host" [] none, .complete 0 .success, .complete 0 (.resolved [7]), .complete 0 .success,
    .complete 0 .success, .complete 0 .success, .complete 0 (.response ⟨200, true, []⟩), .queue "host" [] none,
    .complete 0 .success, .complete 1 .success, .complete 0 (.resolved [7]), .complete 1 (.resolved [7]),
    .complete 1 (.failure 114)]

theorem queued_while_closing :
    (runAll (step tlsEnv) closingRun init).loops = [.connecting, .closing] ∧
      (runAll (step tlsEnv) closingRun init).outgoing = [] ∧
      (runAll (step tlsEnv) closingRun init).step tlsEnv (.complete 0 .success) = .error .undefined := by
  decide +kernel

/-! ## Connections -/

/-- Every URL is of one host and port, with a scheme of its own. -/
def mixedEnv : HttpEnv Nat := { tlsEnv with parseUrl := fun url => some ⟨url, "host", 9000, ""⟩ }

/-- A message for `http` behind one for `https`, for the same host and port, is sent over the connection with TLS. -/
theorem plain_over_tls :
    (runAll (step mixedEnv) ([.queue "https" [] none, .queue "http" [] none, .complete 0 .success,
      .complete 0 (.resolved [7]), .complete 0 .success, .complete 0 .success, .complete 0 .success,
      .complete 0 (.response ⟨200, true, []⟩)] : List (ClientEvent Nat Nat)) init).sent.map (·.2) =
      [some ⟨7, ⟨[], "host", "/", 9000, true, none⟩, true⟩, some ⟨7, ⟨[], "host", "/", 9000, true, none⟩, true⟩] := by
  decide +kernel

end ClientState

end Lws.Net
