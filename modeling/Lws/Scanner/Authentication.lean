/-
  Lws.Scanner.Authentication — what a remote scanner can do before it gives the password
  (`src/rpc/scanner/server.cpp`: `server_connection`, `initialize_handler`,
  `update_accounts_handler`; `src/rpc/scanner/read_commands.h`: `do_read_commands`).

  A peer sends headers and payloads. The read loop asks the connection for the size of
  the payload, which is zero for a peer that may not send it, and hands the payload to the
  handler of its id. Checks and replacements of the accounts run in between, and go over
  all connections: one without threads gets no account (`sent_threads`).

  The log has what each connection did. `Allowed` says what may be logged after what was
  logged before; `authentication_guards` says that every run keeps to it.
-/

import Lws.Scanner.ServerRuns

namespace Lws.Scanner

open Lws.Transition

/-! ## Messages -/

structure Header where
  version : UInt8
  id : UInt8
  length : UInt32
  deriving DecidableEq, Repr

structure Initialize where
  pass : List UInt8
  threads : UInt32
  deriving DecidableEq, Repr

structure UpdateAccounts where
  users : List Lws.Account
  blocks : List Db.Hash
  deriving DecidableEq, Repr

/-- The msgpack readers of both commands, and `server::check_pass`. -/
structure Wire where
  readInitialize : List UInt8 → Option Initialize
  readUpdateAccounts : List UInt8 → Option UpdateAccounts
  checkPass : List UInt8 → Bool

/-- "Max incoming message size before valid authentication". -/
def maxUnauthenticated : Nat := 1 * 1024 * 1024

/-! ## Connections -/

/-- Where `do_read_commands` waits. -/
inductive ReadPhase where
  | header
  | payload (next : Header)
  /-- After `cleanup`. -/
  | closed
  deriving DecidableEq, Repr

/-- A `server_connection`. -/
structure Peer where
  threads : Nat
  authenticated : Bool
  phase : ReadPhase
  deriving DecidableEq, Repr

/-- What a handler does. -/
inductive CommandOutcome where
  | continued
  | stored (msg : UpdateAccounts)
  | closed
  deriving DecidableEq, Repr

inductive Entry where
  /-- The payload is asked for. -/
  | read (conn : Nat) (next : Header)
  /-- The connection is closed after the header. -/
  | refused (conn : Nat) (next : Header)
  | command (conn : Nat) (next : Header) (payload : List UInt8) (outcome : CommandOutcome)
  /-- A socket error, a timeout, or the server stops. -/
  | close (conn : Nat)
  deriving DecidableEq, Repr

def Entry.conn : Entry → Nat
  | .read conn _ | .refused conn _ | .command conn _ _ _ | .close conn => conn

structure Node where
  server : Server
  peers : Nat → Option Peer
  /-- The last first. -/
  log : List Entry

def Peer.nextSize (peer : Peer) (next : Header) : Nat :=
  if peer.authenticated = true ∨ (next.id = 0 ∧ next.length.toNat ≤ maxUnauthenticated) then next.length.toNat else 0

/-- `initialize_handler::handle`: the threads, or `none` where the connection is closed. -/
def Peer.initializeThreads (w : Wire) (peer : Peer) (payload : List UInt8) : Option UInt32 := do
  let msg ← w.readInitialize payload
  if peer.threads ≠ 0 then none
  else if msg.threads = 0 then none
  else if w.checkPass msg.pass = false then none
  else some msg.threads

/-- `update_accounts_handler::handle`. -/
def Peer.updateAccounts (w : Wire) (peer : Peer) (payload : List UInt8) : CommandOutcome :=
  match w.readUpdateAccounts payload with
  | none => .closed
  | some msg =>
    if msg.users = [] then .continued
    else if peer.authenticated = false then .closed
    else .stored msg

inductive PeerEvent where
  | accept (conn position : Nat)
  | header (conn : Nat) (next : Header)
  | payload (conn : Nat) (bytes : List UInt8)
  | close (conn : Nat)
  /-- The last `shared_ptr` of a closed connection is gone. -/
  | expire (conn : Nat)
  /-- The database changes, or the server runs `check_users` or `do_replace_users`. -/
  | server (event : ServerEvent)

def ServerEvent.own : ServerEvent → Bool
  | .activate .. | .deactivate .. | .checkUsers .. | .replaceUsers => true
  | .connect .. | .initializeHandler .. | .disconnect .. => false

def Node.handled (n : Node) (conn : Nat) (peer : Peer) (next : Header) (payload : List UInt8)
    (outcome : CommandOutcome) : Node :=
  { n with
    peers := Function.update n.peers conn (some { peer with phase := if outcome = .closed then .closed else .header })
    log := .command conn next payload outcome :: n.log }

/-- A payload came in for `next`: the handler of its id runs. -/
def Node.call (w : Wire) (n : Node) (conn : Nat) (peer : Peer) (next : Header) (payload : List UInt8) :
    Except ServerError Node :=
  if next.id = 0 then
    match peer.initializeThreads w payload with
    | none => .ok (n.handled conn peer next payload .closed)
    | some threads => do
      let server ← n.server.step (.initializeHandler conn threads)
      return Node.handled { n with server } conn { peer with threads := threads.toNat, authenticated := true } next payload
        .continued
  else if next.id = 1 then .ok (n.handled conn peer next payload (peer.updateAccounts w payload))
  else .ok (n.handled conn peer next payload .closed)

def Node.step (w : Wire) : PeerEvent → Node → Except ServerError Node
  | .accept conn position, n =>
    match n.peers conn with
    | some _ => .ok n
    | none => do
      let server ← n.server.step (.connect conn position)
      return { n with server, peers := Function.update n.peers conn (some ⟨0, false, .header⟩) }
  | .header conn next, n =>
    match n.peers conn with
    | some ⟨threads, authenticated, .header⟩ =>
      if Peer.nextSize ⟨threads, authenticated, .header⟩ next = 0 then
        .ok { n with
          peers := Function.update n.peers conn (some ⟨threads, authenticated, .closed⟩)
          log := .refused conn next :: n.log }
      else
        .ok { n with
          peers := Function.update n.peers conn (some ⟨threads, authenticated, .payload next⟩)
          log := .read conn next :: n.log }
    | _ => .ok n
  | .payload conn bytes, n =>
    match n.peers conn with
    | some ⟨threads, authenticated, .payload next⟩ =>
      if bytes.length = next.length.toNat then n.call w conn ⟨threads, authenticated, .payload next⟩ next bytes else .ok n
    | _ => .ok n
  | .close conn, n =>
    match n.peers conn with
    | some peer =>
      .ok { n with peers := Function.update n.peers conn (some { peer with phase := .closed }), log := .close conn :: n.log }
    | none => .ok n
  | .expire conn, n =>
    match n.peers conn with
    | some ⟨_, _, .closed⟩ => do
      let server ← n.server.step (.disconnect conn)
      return { n with server }
    | _ => .ok n
  | .server event, n =>
    if event.own = true then do
      let server ← n.server.step event
      return { n with server }
    else .ok n

/-! ## The guarantee -/

section Guarantee

variable (w : Wire)

/-- The connection sent an `initialize` with the password and threads. -/
def Delivered (log : List Entry) (conn : Nat) : Prop :=
  ∃ next payload outcome msg, .command conn next payload outcome ∈ log ∧ next.id = 0 ∧
    w.readInitialize payload = some msg ∧ w.checkPass msg.pass = true ∧ msg.threads ≠ 0

/-- A header that any peer may send. -/
def Header.Small (next : Header) : Prop := next.id = 0 ∧ next.length.toNat ≤ maxUnauthenticated

def Entry.closes (conn : Nat) : Entry → Prop
  | .read .. => False
  | .refused c _ => c = conn
  | .command c _ _ outcome => c = conn ∧ outcome = .closed
  | .close c => c = conn

/-- What may happen after `log`: payloads are read from connections that are not closed, and before the password only small
    ones of `initialize`; accounts are stored after it; a second `initialize` closes the connection. -/
def Allowed (log : List Entry) : Entry → Prop
  | .read conn next => (∀ e ∈ log, ¬ e.closes conn) ∧ (Delivered w log conn ∨ next.Small)
  | .command conn next _ outcome =>
    (∀ e ∈ log, ¬ e.closes conn) ∧ (Delivered w log conn ∨ next.Small) ∧
      ((∃ msg, outcome = .stored msg) → Delivered w log conn) ∧
      (next.id = 0 → Delivered w log conn → outcome = .closed)
  | .refused .. | .close .. => True

end Guarantee

/-! ## What the server sends -/

/-- A remote without threads gets no account. -/
theorem replaceRemotes_none {α : Type} : ∀ {remotes : List Remote} {remaining : Nat} {users : List α} {conn : Nat}
    {list : List α},
    (Worker.remote conn, list) ∈ (remotes.map fun remote => Worker.remote remote.conn).zip
      (replaceRemotes (remotes.map (·.threads)) remaining users).1 → list ≠ [] →
    ∃ remote ∈ remotes, remote.conn = conn ∧ remote.threads ≠ 0 := by
  intro remotes
  induction remotes with
  | nil => intro remaining users conn list h _; simp at h
  | cons remote rest ih =>
    intro remaining users conn list h hne
    simp only [List.map_cons, replaceRemotes, List.zip_cons_cons, List.mem_cons] at h
    rcases h with h | h
    · simp only [Prod.mk.injEq, Worker.remote.injEq] at h
      refine ⟨remote, List.mem_cons_self, h.1.symm, fun h0 => hne ?_⟩
      rw [h.2, h0]
      simp [takeBack]
    · obtain ⟨other, hmem, hconn⟩ := ih h hne
      exact ⟨other, List.mem_cons_of_mem remote hmem, hconn⟩

theorem queue_zip {locals : Nat} {lists : List (List Lws.Account)} {conn : Nat} {list : List Lws.Account} :
    (Worker.remote conn, list) ∉ ((List.range locals).map Worker.queue).zip lists := by
  intro h
  simpa using (List.of_mem_zip h).1

theorem doReplaceUsers_threads {s s' : Server} (h : s.doReplaceUsers = .ok s') :
    s'.remotes = s.remotes.filter (·.live) ∧ ∀ conn users, (Worker.remote conn, users) ∈ s'.sent → users ≠ [] →
      (Worker.remote conn, users) ∈ s.sent ∨ ∃ remote ∈ s.remotes, remote.conn = conn ∧ remote.threads ≠ 0 := by
  unfold Server.doReplaceUsers at h
  cases htotal : sumThreads s.locals s.liveThreads with
  | error e => simp [htotal, bind, Except.bind] at h
  | ok total =>
    simp only [htotal, bind, Except.bind, pure, Except.pure] at h
    split at h
    · cases h
      exact ⟨rfl, fun _ _ hm _ => Or.inl hm⟩
    · cases h
      refine ⟨rfl, fun conn users hm hne => Or.inr ?_⟩
      dsimp only at hm
      rw [workers, List.zip_append (by simp [(replaceLocals_spec _ _ _).1])] at hm
      rcases List.mem_append.mp hm with hm | hm
      · exact absurd hm queue_zip
      · obtain ⟨remote, hmem, hconn⟩ := replaceRemotes_none hm hne
        exact ⟨remote, (List.mem_filter.mp hmem).1, hconn⟩

theorem findRemote_mem : ∀ {remotes : List Remote} {next offset : Nat} {remote : Remote},
    findRemote next offset remotes = some remote → remote ∈ remotes := by
  intro remotes
  induction remotes with
  | nil => intro next offset remote h; simp [findRemote] at h
  | cons first rest ih =>
    intro next offset remote h
    rw [findRemote] at h
    split at h
    · cases h; exact List.mem_cons_self
    · exact List.mem_cons_of_mem first (ih h)

theorem roundRobin_threads {locals total : Nat} {remotes : List Remote} : ∀ {fuel next last : Nat}
    {newAccounts : List Lws.Account} {sent : List (Worker × List Lws.Account)},
    roundRobin locals remotes total fuel next newAccounts = .ok (last, sent) → ∀ conn users,
      (Worker.remote conn, users) ∈ sent → ∃ remote ∈ remotes, remote.conn = conn := by
  intro fuel
  induction fuel with
  | zero => intro next last newAccounts sent h conn users hm; cases h; simp at hm
  | succ fuel ih =>
    intro next last newAccounts sent h conn users hm
    rw [roundRobin] at h
    split at h
    · cases h; simp at hm
    · split at h
      · cases hrec : roundRobin locals remotes total fuel ((next + 1) % total)
            (newAccounts.take (newAccounts.length - 1)) with
        | error e => simp only [hrec, bind, Except.bind, reduceCtorEq] at h
        | ok out =>
          simp only [hrec, bind, Except.bind, pure, Except.pure] at h
          cases h
          simp only [List.mem_cons, Prod.mk.injEq, reduceCtorEq, false_and, false_or] at hm
          exact ih hrec conn users hm
      · split at h
        · cases h
        · rename_i remote hfind
          dsimp only at h
          cases hrec : roundRobin locals remotes total fuel ((next + remote.threads) % 2 ^ 64 % total)
              (newAccounts.take (newAccounts.length - min newAccounts.length remote.threads)) with
          | error e => simp only [hrec, bind, Except.bind, reduceCtorEq] at h
          | ok out =>
            simp only [hrec, bind, Except.bind, pure, Except.pure] at h
            cases h
            simp only [List.mem_cons, Prod.mk.injEq, Worker.remote.injEq] at hm
            rcases hm with ⟨rfl, _⟩ | hm
            · exact ⟨remote, findRemote_mem hfind, rfl⟩
            · exact ih hrec conn users hm

/-- No remote gets threads, and an account is sent to no remote but one that has some. -/
def SendsToThreads (s s' : Server) : Prop :=
  (∀ remote ∈ s'.remotes, remote.threads ≠ 0 → ∃ old ∈ s.remotes, old.conn = remote.conn ∧ old.threads ≠ 0) ∧
    ∀ conn users, (Worker.remote conn, users) ∈ s'.sent → users ≠ [] →
      (Worker.remote conn, users) ∈ s.sent ∨ ∃ remote ∈ s.remotes, remote.conn = conn ∧ remote.threads ≠ 0

theorem sends_of_remotes {s s' : Server} (hremotes : ∀ remote ∈ s'.remotes, remote.threads ≠ 0 → remote ∈ s.remotes)
    (hsent : ∀ m ∈ s'.sent, m ∈ s.sent) : SendsToThreads s s' :=
  ⟨fun remote hmem hne => ⟨remote, hremotes remote hmem hne, rfl, hne⟩, fun _ _ hm _ => Or.inl (hsent _ hm)⟩

theorem SendsToThreads.refl (s : Server) : SendsToThreads s s := sends_of_remotes (fun _ hmem _ => hmem) fun _ hm => hm

theorem doReplaceUsers_sends {s s' : Server} (h : s.doReplaceUsers = .ok s') : SendsToThreads s s' := by
  obtain ⟨hremotes, hsent⟩ := doReplaceUsers_threads h
  refine ⟨fun remote hmem hne => ⟨remote, ?_, rfl, hne⟩, hsent⟩
  rw [hremotes] at hmem
  exact (List.mem_filter.mp hmem).1

theorem checkUsers_sends {s s' : Server} {view : Nat → Nat → Nat × Nat} (h : s.checkUsers view = .ok s') :
    SendsToThreads s s' := by
  unfold Server.checkUsers at h
  cases hlock : lockRemotes s.locals s.remotes with
  | error e => simp [hlock, bind, Except.bind] at h
  | ok locked =>
    simp only [hlock, bind, Except.bind, pure, Except.pure] at h
    cases locked with
    | none => exact doReplaceUsers_sends h
    | some total =>
      dsimp only at h
      split at h
      · cases h; exact .refl s
      split at h
      · exact doReplaceUsers_sends h
      split at h
      · have hsends := doReplaceUsers_sends h
        exact hsends
      split at h
      · cases h
        refine ⟨(SendsToThreads.refl s).1, fun conn users hm _ => Or.inl ?_⟩
        rcases List.mem_append.mp hm with hm | hm
        · exact hm
        · simp [balanceNew] at hm
      · generalize hrun : roundRobin _ _ _ _ _ _ = run at h
        cases run with
        | error e => cases h
        | ok out =>
          cases h
          refine ⟨(SendsToThreads.refl s).1, fun conn users hm _ => ?_⟩
          rcases List.mem_append.mp hm with hm | hm
          · exact Or.inl hm
          · obtain ⟨remote, hmem, hconn⟩ := roundRobin_threads hrun conn users hm
            obtain ⟨hold, hthreads⟩ := List.mem_filter.mp hmem
            exact Or.inr ⟨remote, hold, hconn, by simpa using hthreads⟩

/-- The events that are not a connection's keep the threads of all. -/
theorem sent_threads {s s' : Server} {event : ServerEvent} (hown : event.own = true) (h : s.step event = .ok s') :
    SendsToThreads s s' := by
  cases event with
  | connect | initializeHandler | disconnect => simp [ServerEvent.own] at hown
  | activate user => cases h; exact .refl s
  | deactivate id => cases h; exact .refl s
  | checkUsers view => exact checkUsers_sends h
  | replaceUsers =>
    have hsends := @doReplaceUsers_sends { s with queued := s.queued - 1 } s' h
    exact hsends

/-! ## Every run -/

section Runs

variable {w : Wire} {n n' : Node} {log : List Entry} {conn : Nat}

theorem Delivered.cons (h : Delivered w log conn) (e : Entry) : Delivered w (e :: log) conn := by
  obtain ⟨next, payload, outcome, msg, hmem, hrest⟩ := h
  exact ⟨next, payload, outcome, msg, List.mem_cons_of_mem e hmem, hrest⟩

/-- An entry that is no command of the connection delivers nothing. -/
theorem delivered_cons {e : Entry} (he : ∀ next payload outcome, e ≠ .command conn next payload outcome) :
    Delivered w (e :: log) conn ↔ Delivered w log conn := by
  refine ⟨fun ⟨next, payload, outcome, msg, hmem, hrest⟩ => ?_, fun h => h.cons e⟩
  rcases List.mem_cons.mp hmem with rfl | hmem
  · exact absurd rfl (he next payload outcome)
  · exact ⟨next, payload, outcome, msg, hmem, hrest⟩

theorem not_closes {e : Entry} (h : e.conn ≠ conn) : ¬ e.closes conn := by
  cases e with
  | read c next => exact id
  | refused c next => exact h
  | command c next payload outcome => exact fun hc => h hc.1
  | close c => exact h

/-- What is known of a connection. -/
structure PeerOk (w : Wire) (log : List Entry) (conn : Nat) (peer : Peer) : Prop where
  auth : peer.authenticated = true → Delivered w log conn
  threads : Delivered w log conn → peer.phase = .closed ∨ peer.threads ≠ 0
  payload : ∀ next, peer.phase = .payload next → Delivered w log conn ∨ next.Small
  closed : (∃ e ∈ log, e.closes conn) → peer.phase = .closed

/-- An entry of another connection changes nothing. -/
theorem PeerOk.other {peer : Peer} (h : PeerOk w log conn peer) {e : Entry} (he : e.conn ≠ conn) :
    PeerOk w (e :: log) conn peer := by
  have hdelivered : Delivered w (e :: log) conn ↔ Delivered w log conn :=
    delivered_cons fun next payload outcome heq => he (by rw [heq]; rfl)
  refine ⟨fun ha => hdelivered.mpr (h.auth ha), fun hd => h.threads (hdelivered.mp hd),
    fun next hp => (h.payload next hp).imp_left hdelivered.mpr, fun ⟨e', hmem, hc⟩ => ?_⟩
  rcases List.mem_cons.mp hmem with rfl | hmem
  · exact absurd hc (not_closes he)
  · exact h.closed ⟨e', hmem, hc⟩

structure NodeOk (w : Wire) (n : Node) : Prop where
  peer : ∀ conn peer, n.peers conn = some peer → PeerOk w n.log conn peer
  /-- Only connections that were accepted are in the log. -/
  known : ∀ e ∈ n.log, ∃ peer, n.peers e.conn = some peer
  remotes : ∀ remote ∈ n.server.remotes, remote.threads ≠ 0 → Delivered w n.log remote.conn
  sent : ∀ conn users, (Worker.remote conn, users) ∈ n.server.sent → users ≠ [] → Delivered w n.log conn
  log : ∀ post e pre, n.log = post ++ e :: pre → Allowed w pre e

/-- A step of a connection that it may take leaves the others as they are. -/
theorem NodeOk.logged {e : Entry} {server : Server} {peer : Peer} (hn : NodeOk w n) (hallowed : Allowed w n.log e)
    (hpeer : PeerOk w (e :: n.log) e.conn peer)
    (hremotes : ∀ remote ∈ server.remotes, remote.threads ≠ 0 → Delivered w (e :: n.log) remote.conn)
    (hsent : server.sent = n.server.sent) :
    NodeOk w ⟨server, Function.update n.peers e.conn (some peer), e :: n.log⟩ := by
  refine ⟨fun c p hp => ?_, fun e' he' => ?_, hremotes, fun c users hm hne => ?_, fun post e' pre hlog => ?_⟩
  · dsimp only at hp ⊢
    by_cases hc : c = e.conn
    · subst hc
      rw [Function.update_self] at hp
      cases hp
      exact hpeer
    · rw [Function.update_of_ne hc] at hp
      exact (hn.peer c p hp).other (Ne.symm hc)
  · dsimp only at he' ⊢
    by_cases hc : e'.conn = e.conn
    · exact ⟨peer, by rw [hc, Function.update_self]⟩
    · rw [Function.update_of_ne hc]
      rcases List.mem_cons.mp he' with rfl | he'
      · exact absurd rfl hc
      · exact hn.known e' he'
  · dsimp only at hm
    rw [hsent] at hm
    exact (hn.sent c users hm hne).cons e
  · cases post with
    | nil =>
      simp only [List.nil_append, List.cons.injEq] at hlog
      rw [← hlog.1, ← hlog.2]
      exact hallowed
    | cons first post =>
      simp only [List.cons_append, List.cons.injEq] at hlog
      exact hn.log post e' pre hlog.2

/-- A step of the server that sends accounts to no new connection. -/
theorem NodeOk.served {server : Server} (hn : NodeOk w n) (h : SendsToThreads n.server server) :
    NodeOk w { n with server } := by
  refine ⟨hn.peer, hn.known, fun remote hmem hne => ?_, fun c users hm hne => ?_, hn.log⟩
  · obtain ⟨old, hold, hconn, hthreads⟩ := h.1 remote hmem hne
    rw [← hconn]
    exact hn.remotes old hold hthreads
  · rcases h.2 c users hm hne with hold | ⟨remote, hmem, rfl, hthreads⟩
    · exact hn.sent c users hold hne
    · exact hn.remotes remote hmem hthreads

/-- A handler that accepts `initialize` has had the password. -/
theorem initializeThreads_some {peer : Peer} {payload : List UInt8} {threads : UInt32}
    (h : peer.initializeThreads w payload = some threads) :
    peer.threads = 0 ∧ threads ≠ 0 ∧ ∃ msg, w.readInitialize payload = some msg ∧ w.checkPass msg.pass = true ∧
      msg.threads ≠ 0 := by
  unfold Peer.initializeThreads at h
  cases hread : w.readInitialize payload with
  | none => simp [hread] at h
  | some msg =>
    simp only [hread, bind, Option.bind] at h
    split at h
    · cases h
    split at h
    · cases h
    split at h
    · cases h
    · rename_i hthreads hmsg hpass
      cases h
      exact ⟨by simpa using hthreads, hmsg, msg, rfl, by simpa using hpass, hmsg⟩

theorem initializeHandler_threads {s s' : Server} {threads : UInt32}
    (h : s.step (.initializeHandler conn threads) = .ok s') :
    s'.sent = s.sent ∧ ∀ remote ∈ s'.remotes, remote.threads ≠ 0 → remote.conn = conn ∨ remote ∈ s.remotes := by
  simp only [Server.step] at h
  split at h
  · cases h
    refine ⟨rfl, fun remote hmem _ => ?_⟩
    obtain ⟨old, hold, rfl⟩ := List.mem_map.mp hmem
    split
    · rename_i hconn
      exact Or.inl hconn.1
    · exact Or.inr hold
  · cases h
    exact ⟨rfl, fun remote hmem _ => Or.inr hmem⟩

/-- A peer that is closed stays so, whatever is logged of it. -/
theorem PeerOk.close {peer : Peer} (h : PeerOk w log conn peer) (e : Entry) :
    PeerOk w (e :: log) conn { peer with phase := .closed } :=
  ⟨fun ha => (h.auth ha).cons e, fun _ => Or.inl rfl, fun next hp => absurd hp (by simp), fun _ => rfl⟩

/-- The log has no end of a connection that is open. -/
theorem PeerOk.opened {peer : Peer} (h : PeerOk w log conn peer) (hp : peer.phase ≠ .closed) :
    ∀ e ∈ log, ¬ e.closes conn := fun e he hc => hp (h.closed ⟨e, he, hc⟩)

section Call

variable {peer : Peer} {next : Header} {payload : List UInt8} (hn : NodeOk w n) (hpeer : n.peers conn = some peer)
  (hphase : peer.phase = .payload next)

include hn hpeer hphase

theorem handled_closed : NodeOk w (n.handled conn peer next payload .closed) := by
  have hpo := hn.peer conn peer hpeer
  have hopen := hpo.opened (by simp [hphase])
  refine @NodeOk.logged w n (.command conn next payload .closed) n.server { peer with phase := .closed } hn
    ⟨hopen, hpo.payload next hphase, fun ⟨_, h⟩ => absurd h (by simp), fun _ _ => rfl⟩ (hpo.close _)
    (fun remote hmem hne => (hn.remotes remote hmem hne).cons _) rfl

/-- A command other than `initialize` comes from a connection with the password. -/
theorem handled_other (hid : next.id ≠ 0) (outcome : CommandOutcome) :
    NodeOk w (n.handled conn peer next payload outcome) := by
  by_cases hclosed : outcome = .closed
  · subst hclosed
    exact handled_closed hn hpeer hphase
  have hpo := hn.peer conn peer hpeer
  have hopen := hpo.opened (by simp [hphase])
  have hdelivered : Delivered w n.log conn := (hpo.payload next hphase).resolve_right fun h => hid h.1
  have hthreads : peer.threads ≠ 0 := (hpo.threads hdelivered).resolve_left (by simp [hphase])
  refine @NodeOk.logged w n (.command conn next payload outcome) n.server _ hn
    ⟨hopen, Or.inl hdelivered, fun _ => hdelivered, fun h => absurd h hid⟩ ?_
    (fun remote hmem hne => (hn.remotes remote hmem hne).cons _) rfl
  refine ⟨fun _ => hdelivered.cons _, fun _ => Or.inr hthreads, fun next' h => ?_, fun ⟨e, he, hc⟩ => ?_⟩
  · simp [hclosed] at h
  · rcases List.mem_cons.mp he with rfl | he
    · exact absurd hc.2 hclosed
    · exact absurd hc (hopen e he)

theorem call_ok (h : n.call w conn peer next payload = .ok n') : NodeOk w n' := by
  have hpo := hn.peer conn peer hpeer
  have hopen := hpo.opened (by simp [hphase])
  unfold Node.call at h
  split at h
  · rename_i hid
    split at h
    · cases h
      exact handled_closed hn hpeer hphase
    · rename_i threads haccept
      obtain ⟨hfirst, hne, msg, hread, hpass, hmsg⟩ := initializeThreads_some haccept
      cases hserver : n.server.step (.initializeHandler conn threads) with
      | error e => simp [hserver, bind, Except.bind] at h
      | ok server =>
        simp only [hserver, bind, Except.bind, pure, Except.pure] at h
        cases h
        obtain ⟨hsent, hremotes⟩ := initializeHandler_threads hserver
        have hnew : Delivered w (.command conn next payload .continued :: n.log) conn :=
          ⟨next, payload, .continued, msg, List.mem_cons_self, hid, hread, hpass, hmsg⟩
        refine @NodeOk.logged w n (.command conn next payload .continued) server _ hn
          ⟨hopen, hpo.payload next hphase, fun ⟨_, h⟩ => absurd h (by simp), fun _ hd => ?_⟩ ?_ (fun remote hmem hthreads => ?_)
          hsent
        · have hsecond := (hpo.threads hd).resolve_left (by simp [hphase])
          exact absurd hfirst hsecond
        · refine ⟨fun _ => hnew, fun _ => Or.inr ?_, fun next' h => ?_, fun ⟨e, he, hc⟩ => ?_⟩
          · simpa [← UInt32.toNat_inj] using hne
          · simp at h
          · rcases List.mem_cons.mp he with rfl | he
            · simp [Entry.closes] at hc
            · exact absurd hc (hopen e he)
        · rcases hremotes remote hmem hthreads with hconn | hold
          · rw [hconn]
            exact hnew
          · exact (hn.remotes remote hold hthreads).cons _
  · rename_i hid
    split at h
    · cases h
      exact handled_other hn hpeer hphase hid _
    · cases h
      exact handled_closed hn hpeer hphase

end Call

theorem connect_sends {s s' : Server} {position : Nat} (h : s.step (.connect conn position) = .ok s') :
    SendsToThreads s s' := by
  simp only [Server.step] at h
  split at h
  · cases h
    exact .refl s
  · cases h
    refine sends_of_remotes (fun remote hmem hthreads => ?_) fun _ hm => hm
    rcases List.mem_append.mp hmem with hmem | hmem
    · exact List.mem_of_mem_take hmem
    · rcases List.mem_cons.mp hmem with rfl | hmem
      · exact absurd rfl hthreads
      · exact List.mem_of_mem_drop hmem

theorem disconnect_sends {s s' : Server} (h : s.step (.disconnect conn) = .ok s') : SendsToThreads s s' := by
  cases h
  refine ⟨fun remote hmem hne => ?_, (SendsToThreads.refl s).2⟩
  obtain ⟨old, hold, rfl⟩ := List.mem_map.mp hmem
  refine ⟨old, hold, ?_⟩
  split at hne <;> simp_all

/-- A connection that is accepted has said nothing yet. -/
theorem accept_ok (hn : NodeOk w n) (hnone : n.peers conn = none) :
    NodeOk w { n with peers := Function.update n.peers conn (some ⟨0, false, .header⟩) } := by
  have hsilent : ∀ e ∈ n.log, e.conn ≠ conn := by
    intro e he hconn
    obtain ⟨peer, hpeer⟩ := hn.known e he
    rw [hconn, hnone] at hpeer
    cases hpeer
  refine ⟨fun c peer hpeer => ?_, fun e he => ?_, hn.remotes, hn.sent, hn.log⟩
  · dsimp only at hpeer ⊢
    by_cases hc : c = conn
    · subst hc
      rw [Function.update_self] at hpeer
      cases hpeer
      refine ⟨fun h => absurd h (by simp), fun ⟨_, _, _, _, hmem, _⟩ => absurd rfl (hsilent _ hmem),
        fun _ h => absurd h (by simp), fun ⟨e, he, hcloses⟩ => absurd hcloses (not_closes (hsilent e he))⟩
    · rw [Function.update_of_ne hc] at hpeer
      exact hn.peer c peer hpeer
  · dsimp only
    rw [Function.update_of_ne (hsilent e he)]
    exact hn.known e he

theorem step_ok (hn : NodeOk w n) {event : PeerEvent} (h : n.step w event = .ok n') : NodeOk w n' := by
  cases event with
  | accept conn position =>
    simp only [Node.step] at h
    split at h
    · cases h; exact hn
    · rename_i hnone
      cases hserver : n.server.step (.connect conn position) with
      | error e => simp [hserver, bind, Except.bind] at h
      | ok server =>
        simp only [hserver, bind, Except.bind, pure, Except.pure] at h
        cases h
        exact accept_ok (hn.served (connect_sends hserver)) hnone
  | header conn next =>
    simp only [Node.step] at h
    split at h
    · rename_i threads authenticated hpeer
      have hpo := hn.peer conn _ hpeer
      have hdelivered : Delivered w (.read conn next :: n.log) conn ↔ Delivered w n.log conn :=
        delivered_cons fun _ _ _ heq => by cases heq
      have hremotes : ∀ (e : Entry), ∀ remote ∈ n.server.remotes, remote.threads ≠ 0 → Delivered w (e :: n.log) remote.conn :=
        fun e remote hmem hne => (hn.remotes remote hmem hne).cons e
      split at h
      · cases h
        exact @NodeOk.logged w n (.refused conn next) n.server _ hn trivial (hpo.close _) (hremotes _) rfl
      · rename_i hsize
        cases h
        have hopen := hpo.opened (by simp)
        have hread : Delivered w n.log conn ∨ next.Small := by
          by_contra hnot
          refine hsize (if_neg fun hor => hnot ?_)
          exact hor.imp hpo.auth id
        refine @NodeOk.logged w n (.read conn next) n.server _ hn ⟨hopen, hread⟩ ?_ (hremotes _) rfl
        refine ⟨fun ha => (hpo.auth ha).cons _, fun hd => ?_, fun next' hp => ?_, fun ⟨e, he, hc⟩ => ?_⟩
        · exact Or.inr ((hpo.threads (hdelivered.mp hd)).resolve_left (by simp))
        · cases hp
          exact hread.imp_left hdelivered.mpr
        · rcases List.mem_cons.mp he with rfl | he
          · exact absurd hc id
          · exact absurd hc (hopen e he)
    · cases h; exact hn
  | payload conn bytes =>
    simp only [Node.step] at h
    split at h
    · rename_i threads authenticated next hpeer
      split at h
      · exact call_ok hn hpeer rfl h
      · cases h; exact hn
    · cases h; exact hn
  | close conn =>
    simp only [Node.step] at h
    split at h
    · rename_i peer hpeer
      cases h
      exact @NodeOk.logged w n (.close conn) n.server _ hn trivial ((hn.peer conn peer hpeer).close _)
        (fun remote hmem hne => (hn.remotes remote hmem hne).cons _) rfl
    · cases h; exact hn
  | expire conn =>
    simp only [Node.step] at h
    split at h
    · cases hserver : n.server.step (.disconnect conn) with
      | error e => simp [hserver, bind, Except.bind] at h
      | ok server =>
        simp only [hserver, bind, Except.bind, pure, Except.pure] at h
        cases h
        exact hn.served (disconnect_sends hserver)
    · cases h; exact hn
  | server event =>
    simp only [Node.step] at h
    split at h
    · rename_i hown
      cases hserver : n.server.step event with
      | error e => simp [hserver, bind, Except.bind] at h
      | ok server =>
        simp only [hserver, bind, Except.bind, pure, Except.pure] at h
        cases h
        exact hn.served (sent_threads hown hserver)
    · cases h; exact hn

/-- The daemon before its first connection: its accounts are at its own threads. -/
structure Node.Started (n : Node) : Prop where
  peers : n.peers = fun _ => none
  remotes : n.server.remotes = []
  sent : ∀ m ∈ n.server.sent, ∃ i, m.1 = .queue i
  log : n.log = []

theorem Node.Started.ok (h : n.Started) : NodeOk w n := by
  refine ⟨fun c peer hp => ?_, fun e he => ?_, fun remote hmem => ?_, fun c users hm _ => ?_, fun post e pre hlog => ?_⟩
  · simp [h.peers] at hp
  · simp [h.log] at he
  · simp [h.remotes] at hmem
  · obtain ⟨i, hi⟩ := h.sent _ hm
    cases hi
  · simp [h.log] at hlog

/-- In every run, each connection keeps to what is allowed, and accounts are sent to no connection before it gave the
    password. -/
theorem authentication_guards {n₀ : Node} (h0 : n₀.Started) (h : Steps (Node.step w) (fun _ _ => True) n₀ n) :
    (∀ post e pre, n.log = post ++ e :: pre → Allowed w pre e) ∧
      ∀ conn users, (Worker.remote conn, users) ∈ n.server.sent → users ≠ [] → Delivered w n.log conn := by
  have hn : NodeOk w n := h.invariant (NodeOk w) h0.ok fun u event u' hu _ hrun => step_ok hu hrun
  exact ⟨hn.log, hn.sent⟩

end Runs

/-! ## A run -/

def sampleInitialize : List UInt8 := [0x82, 0x00, 0xa2, 0x70, 0x77, 0x01, 0x02]

def sampleWire : Wire where
  readInitialize bytes := if bytes = sampleInitialize then some ⟨[0x70, 0x77], 2⟩ else none
  readUpdateAccounts _ := none
  checkPass pass := pass = [0x70, 0x77]

def emptyNode : Node := ⟨⟨0, [], [], 0, false, 0, [userAt 1 10], []⟩, fun _ => none, []⟩

theorem emptyNode_started : emptyNode.Started := ⟨rfl, rfl, by simp [emptyNode], rfl⟩

/-- A replacement before the password sends an empty list, and one after it the account. -/
def passwordEvents : List PeerEvent :=
  [.accept 7 0, .accept 8 1, .server .replaceUsers, .header 7 ⟨0, 0, 7⟩, .header 8 ⟨0, 1, 7⟩, .payload 7 sampleInitialize,
    .server .replaceUsers]

theorem authentication_guards_password :
    (runAll (Node.step sampleWire) passwordEvents emptyNode).log =
        [.command 7 ⟨0, 0, 7⟩ sampleInitialize .continued, .refused 8 ⟨0, 1, 7⟩, .read 7 ⟨0, 0, 7⟩] ∧
      (runAll (Node.step sampleWire) passwordEvents emptyNode).server.sent =
        [(.remote 7, [userAt 1 10]), (.remote 8, [])] ∧
      Delivered sampleWire (runAll (Node.step sampleWire) passwordEvents emptyNode).log 7 := by
  have hsent : (runAll (Node.step sampleWire) passwordEvents emptyNode).server.sent =
      [(.remote 7, [userAt 1 10]), (.remote 8, [])] := by decide +kernel
  have hsteps : Steps (Node.step sampleWire) (fun _ _ => True) emptyNode
      (runAll (Node.step sampleWire) passwordEvents emptyNode) := steps_runAll _ _ (by decide)
  refine ⟨by decide +kernel, hsent, (authentication_guards emptyNode_started hsteps).2 7 [userAt 1 10] ?_ (by simp)⟩
  simp [hsent]

end Lws.Scanner
