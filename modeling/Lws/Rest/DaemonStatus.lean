/-
  Lws.Rest.DaemonStatus — the state of the daemon, as `/daemon_status` tells it
  (`daemon_status` of `src/rest_server.cpp`, with its response of `src/rpc/light_wallet.cpp`).

  The requests share one call to the daemon (`Lws.SharedCall`). The body of its answer is
  kept for five seconds, and an empty one stands for none. A daemon that fails or is too slow
  is not an error: the body says that it is unavailable, and is kept like any other. Only a
  reply that does not parse is one, and is not kept.

  - `daemon_status_exact`: in every state of a run, what each request was told.
-/

import Lws.SharedCall
import Lws.Lmdb.Bytes

namespace Lws.Rest

open Lws.Lmdb Lws.SharedCall Lws.Transition

/-- `daemon_cache_timeout`, in nanoseconds. -/
def daemonCacheTimeout : Nat := 5 * 10 ^ 9

def daemonWaitQueueMax : Nat := 25000

/-- `GetInfo::Response`, as far as it is read. -/
structure DaemonInfo where
  outgoingConnectionsCount : UInt64
  incomingConnectionsCount : UInt64
  height : UInt64
  targetHeight : UInt64
  deriving DecidableEq, Repr

inductive DaemonState where
  | ok
  | noConnections
  | synchronizing
  | unavailable
  deriving DecidableEq, Repr

inductive NetworkType where
  | main
  | test
  | stage
  | fake
  deriving DecidableEq, Repr

structure DaemonStatusResponse where
  outgoingConnectionsCount : UInt64
  incomingConnectionsCount : UInt64
  height : UInt64
  targetHeight : UInt64
  network : NetworkType
  state : DaemonState
  deriving DecidableEq, Repr

/-- `config::network`, the JSON of a response, and what the constructor of a response leaves
    in `target_height`, which it does not set. -/
structure StatusEnv (ε : Type) where
  network : NetworkType
  toJson : DaemonStatusResponse → Except ε Bytes
  unset : UInt64

inductive StatusError (ε : Type) where
  | badDaemonResponse
  /-- An error of ZMQ, or of writing JSON. -/
  | other (e : ε)
  deriving DecidableEq, Repr

variable {ε : Type}

/-- The constructor of `daemon_status_response`. -/
def unavailableStatus (env : StatusEnv ε) : DaemonStatusResponse := ⟨0, 0, 0, env.unset, env.network, .unavailable⟩

def daemonState (info : DaemonInfo) : DaemonState :=
  if info.outgoingConnectionsCount = 0 ∧ info.incomingConnectionsCount = 0 then .noConnections
  else if info.targetHeight ≠ 0 ∧ 5 ≤ info.targetHeight - info.height then .synchronizing
  else .ok

def daemonStatus (env : StatusEnv ε) (info : DaemonInfo) : DaemonStatusResponse :=
  ⟨info.outgoingConnectionsCount, info.incomingConnectionsCount, info.height, info.targetHeight, env.network,
    daemonState info⟩

def statusBody (env : StatusEnv ε) (resp : DaemonStatusResponse) : Except (StatusError ε) Bytes :=
  match env.toJson resp with
  | .ok body => .ok body
  | .error e => .error (.other e)

/-- What the coroutine sends: without a reply the daemon has failed, and a reply may not parse. -/
def statusOutcome (env : StatusEnv ε) : Option (Option DaemonInfo) → Except (StatusError ε) Bytes
  | none => statusBody env (unavailableStatus env)
  | some none => .error .badDaemonResponse
  | some (some info) => statusBody env (daemonStatus env info)

def statusRules (env : StatusEnv ε) : Rules (Option DaemonInfo) Bytes (StatusError ε) where
  keep := daemonCacheTimeout
  limit := daemonWaitQueueMax
  empty := []
  usable := fun body => !body.isEmpty
  outcome := statusOutcome env
  empty_usable := fun h => by simp at h

/-! ## What a status says -/

/-- The difference of the heights is taken in 64 bits: a daemon past its target is called
    synchronizing as well. -/
theorem daemonState_synchronizing (info : DaemonInfo) : daemonState info = .synchronizing ↔
    ¬(info.outgoingConnectionsCount = 0 ∧ info.incomingConnectionsCount = 0) ∧ info.targetHeight ≠ 0 ∧
      (info.height.toNat + 5 ≤ info.targetHeight.toNat ∨ info.targetHeight.toNat < info.height.toNat ∧
        info.height.toNat + 5 ≤ info.targetHeight.toNat + 2 ^ 64) := by
  have hwrap : 5 ≤ info.targetHeight - info.height ↔ info.height.toNat + 5 ≤ info.targetHeight.toNat ∨
      info.targetHeight.toNat < info.height.toNat ∧ info.height.toNat + 5 ≤ info.targetHeight.toNat + 2 ^ 64 := by
    have hheight := info.height.toNat_lt
    have htarget := info.targetHeight.toNat_lt
    rw [UInt64.le_iff_toNat_le, UInt64.toNat_sub]
    show 5 ≤ _ ↔ _
    omega
  unfold daemonState
  rw [← hwrap]
  split
  · rename_i hnone
    exact iff_of_false (by simp) fun h => h.1 hnone
  · rename_i hsome
    split
    · rename_i hsync
      exact iff_of_true rfl ⟨hsome, hsync⟩
    · rename_i hsync
      exact iff_of_false (by simp) fun h => hsync h.2

/-- A body that a call brought is that of a status. -/
theorem statusOutcome_ok {env : StatusEnv ε} {reply : Option (Option DaemonInfo)} {body : Bytes}
    (h : statusOutcome env reply = .ok body) :
    (reply = none ∧ env.toJson (unavailableStatus env) = .ok body) ∨
      ∃ info, reply = some (some info) ∧ env.toJson (daemonStatus env info) = .ok body := by
  have hbody : ∀ resp, statusBody env resp = .ok body → env.toJson resp = .ok body := by
    intro resp h
    unfold statusBody at h
    split at h
    · rename_i hjson
      cases h
      exact hjson
    · cases h
  rcases reply with _ | _ | info
  · exact .inl ⟨rfl, hbody _ h⟩
  · cases h
  · exact .inr ⟨info, rfl, hbody _ h⟩

/-! ## The main result -/

abbrev StatusServer (ε : Type) := Server Nat (Option DaemonInfo) Bytes (StatusError ε)

structure StatusExact (env : StatusEnv ε) (s : StatusServer ε) : Prop where
  /-- One call at a time and none while a body is kept, and all who wait are called back once, in
      order, with its one outcome. -/
  shared : s.Exact (statusRules env)
  /-- What a call ended with, and when: its outcome is no error where the daemon has failed. -/
  ended : ∀ c ∈ s.calls, ∀ time reply, c.stage = .ended time reply →
    c.answered ++ c.calls = c.accepted.map fun resume => (resume, statusOutcome env reply)
  /-- What is told at once is a status that a call ended with, less than five seconds before. -/
  ready : ∀ entry ∈ s.log, ∀ body, entry.taken = .ready body → body ≠ [] ∧ ∃ c ∈ s.calls, ∃ time reply,
    c.stage = .ended time reply ∧ time ≤ entry.time ∧ entry.time < time + daemonCacheTimeout ∧
    ((reply = none ∧ env.toJson (unavailableStatus env) = .ok body) ∨
      ∃ info, reply = some (some info) ∧ env.toJson (daemonStatus env info) = .ok body)
  /-- The daemon is asked again where the last call has brought no body, or one that is five seconds old. -/
  apart : ∀ (i j : Nat) (c d : Call Nat (Option DaemonInfo) Bytes (StatusError ε)), i < j → s.calls[i]? = some c →
    s.calls[j]? = some d → ∃ time reply, c.stage = .ended time reply ∧ time ≤ d.began ∧
      ∀ body, statusOutcome env reply = .ok body → body ≠ [] → time + daemonCacheTimeout ≤ d.began

/-- In every state of a run of requests, of the coroutines of the calls and of the clock. -/
theorem daemon_status_exact {env : StatusEnv ε} {s : StatusServer ε} (h : s.Runs (statusRules env)) :
    StatusExact env s := by
  have hexact := shared_exact h
  refine ⟨hexact, fun c hc => (hexact.answers c hc).ended, fun entry hentry body hbody => ?_,
    fun i j c d hij hc hd => ?_⟩
  · obtain ⟨hu, hcurrent⟩ := hexact.ready entry hentry body hbody
    have hne : body ≠ [] := by
      rintro rfl
      cases hu
    refine ⟨hne, ?_⟩
    rcases hcurrent with ⟨c, hc, time, ⟨reply, hended, hvalue⟩, hle, hlt⟩ | ⟨hempty, -⟩
    · exact ⟨c, hc, time, reply, hended, hle, hlt, statusOutcome_ok hvalue⟩
    · exact absurd hempty hne
  · obtain ⟨hi, rfl⟩ := List.getElem?_eq_some_iff.mp hc
    obtain ⟨hj, rfl⟩ := List.getElem?_eq_some_iff.mp hd
    obtain ⟨time, reply, hended, hle, hkept⟩ := List.pairwise_iff_getElem.mp hexact.apart i j hi hj hij
    refine ⟨time, reply, hended, hle, fun body hbody hne => hkept body hbody ?_⟩
    cases body with
    | nil => exact absurd rfl hne
    | cons b rest => rfl

/-! ## A run -/

def stateOnly : StatusEnv Unit :=
  ⟨.main, fun resp => .ok (match resp.state with
    | .ok => [1]
    | .noConnections => [2]
    | .synchronizing => [3]
    | .unavailable => [4]), 77⟩

/-- Two requests share a call, that the daemon answers; a third comes a second later; six seconds
    later a fourth starts another call, that fails. -/
def fourAsk : List (SharedCall.Op Nat (Option DaemonInfo) (StatusError Unit)) :=
  [.tick (10 ^ 10), .request none 1, .call 0 .run, .request none 2, .call 0 .written,
    .call 0 (.replied (some ⟨8, 0, 100, 0⟩)), .call 0 .call, .tick (10 ^ 9), .request none 3, .call 0 .call,
    .tick (6 * 10 ^ 9), .request none 4, .call 1 .run, .call 1 .failed, .call 1 .call]

def afterFour : StatusServer Unit :=
  runAll (Server.step (statusRules stateOnly)) fourAsk (Server.init (statusRules stateOnly))

theorem daemon_status_exact_four : StatusExact stateOnly afterFour ∧
    afterFour.calls.map (fun c => c.answered.map fun a => (a.1, a.2.toOption)) =
      [[(1, some [1]), (2, some [1])], [(4, some [4])]] ∧
    afterFour.log.map (·.taken) = [.queued, .queued, .ready [1], .queued] :=
  ⟨daemon_status_exact (steps_runAll fourAsk _ (by decide +kernel)), by decide +kernel, by decide +kernel⟩

end Lws.Rest
