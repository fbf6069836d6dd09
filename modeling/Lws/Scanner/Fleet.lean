/-
  Lws.Scanner.Fleet — the daemon's scan threads and the remote scanners as one system
  (`src/rpc/scanner/server.cpp`, `src/rpc/scanner/client.cpp`).

  The server hands accounts to its own queues directly, and to a scanner by commands that
  its connection carries in order; the scanner shares each command out among its queues,
  and every thread reads its queue when it gets to it. A connection may be closed at any
  time, with the commands on their way.

  - `issue_step`: the commands that go with each of the server's steps.
  - `fleet_accounts`: wherever the steps of the server meet the conditions of
    `Server.Met`, what a worker scans, with what is in its queues and on its way to it, is
    what the server gave it. Once nothing is on its way, and no worker is lost, every
    account that the server counts as active is scanned by one thread, and no other is.
-/

import Lws.Scanner.Client
import Lws.Scanner.Authentication

namespace Lws.Scanner

open Lws.Transition

/-! ## The server's commands -/

def Server.replaceIssue (s : Server) : Except ServerError (Server × List (Worker × Command)) := do
  let s' ← s.doReplaceUsers
  if s.locals + s.liveThreads.sum = 0 then return (s', [])
  return (s', s'.sent.map fun m => (m.1, .replaceAccounts m.2))

/-- `check_users`, with what it writes. -/
def Server.checkIssue (view : Nat → Nat → Nat × Nat) (s : Server) :
    Except ServerError (Server × List (Worker × Command)) := do
  match ← lockRemotes s.locals s.remotes with
  | none => s.replaceIssue
  | some total =>
    if total = 0 then return (s, [])
    else if s.users.length < s.active.length then s.replaceIssue
    else
      let (found, many) := findNew s.users ⟨s.active, s.active, []⟩
      let s := { s with active := found.active }
      if many = true ∨ found.copy ≠ [] then s.replaceIssue
      else if s.balance = true ∧ s.locals ≠ 0 then
        let sent := balanceNew s.locals view found.newAccounts
        return ({ s with sent := s.sent ++ sent }, sent.map fun m => (m.1, .pushAccounts m.2))
      else do
        let (nextThread, sent) ← roundRobin s.locals (initialized s.remotes) total found.newAccounts.length
          (s.nextThread % total) found.newAccounts
        return ({ s with nextThread, sent := s.sent ++ sent }, sent.map fun m => (m.1, .pushAccounts m.2))

def Server.issue : ServerEvent → Server → Except ServerError (Server × List (Worker × Command))
  | .checkUsers view, s => s.checkIssue view
  | .replaceUsers, s => Server.replaceIssue { s with queued := s.queued - 1 }
  | event, s => (s.step event).map fun s' => (s', [])

def assigned (sent : List (Worker × List Account)) (worker : Worker) : List Account :=
  (sent.filter (·.1 = worker)).flatMap (·.2)

def commandsTo (worker : Worker) (commands : List (Worker × Command)) : List Command :=
  (commands.filter (·.1 = worker)).map (·.2)

theorem replaceIssue_fst (s : Server) : s.replaceIssue.map (·.1) = s.doReplaceUsers := by
  unfold Server.replaceIssue
  cases s.doReplaceUsers with
  | error e => rfl
  | ok s' =>
    simp only [bind, Except.bind, pure, Except.pure]
    split <;> rfl

theorem map_fst_silent (run : Except ServerError Server) :
    (run.map fun s' => (s', ([] : List (Worker × Command)))).map (·.1) = run := by
  cases run <;> rfl

/-- The commands come with the step, and change nothing in it. -/
theorem issue_step (event : ServerEvent) (s : Server) : (s.issue event).map (·.1) = s.step event := by
  cases event with
  | checkUsers view =>
    show (s.checkIssue view).map (·.1) = s.checkUsers view
    unfold Server.checkIssue Server.checkUsers
    cases lockRemotes s.locals s.remotes with
    | error e => rfl
    | ok total =>
      cases total with
      | none => exact replaceIssue_fst s
      | some total =>
        simp only [bind, Except.bind, pure, Except.pure]
        split
        · rfl
        · split
          · exact replaceIssue_fst s
          · split
            · exact replaceIssue_fst _
            · split
              · rfl
              · cases roundRobin s.locals (initialized s.remotes) total _ _ _ with
                | error e => rfl
                | ok out => rfl
  | replaceUsers => exact replaceIssue_fst _
  | connect => exact map_fst_silent _
  | initializeHandler => exact map_fst_silent _
  | disconnect => rfl
  | activate => rfl
  | deactivate => rfl

/-- What a step sends: nothing, a new list for each worker, or more for some of them. -/
inductive Sends (s s' : Server) (commands : List (Worker × Command)) : Prop where
  | silent (hsent : s'.sent = s.sent) (hcommands : commands = [])
  | replace (hworkers : s'.sent.map (·.1) = workers s.locals (s.remotes.filter (·.live)))
      (hcommands : commands = s'.sent.map fun m => (m.1, .replaceAccounts m.2))
  | push (sent : List (Worker × List Account)) (hsent : s'.sent = s.sent ++ sent)
      (hcommands : commands = sent.map fun m => (m.1, .pushAccounts m.2))
      (hremotes : ∀ conn users, (Worker.remote conn, users) ∈ sent → ∃ remote ∈ s.remotes, remote.conn = conn)

theorem replaceIssue_sends {s s' : Server} {commands : List (Worker × Command)}
    (h : s.replaceIssue = .ok (s', commands)) :
    Sends s s' commands ∧ s'.locals = s.locals ∧ s'.remotes = s.remotes.filter (·.live) := by
  unfold Server.replaceIssue at h
  by_cases hfits : s.liveThreads.sum = 0 ∨ s.locals + s.liveThreads.sum < 2 ^ 64
  · by_cases hpos : s.locals + s.liveThreads.sum = 0
    · have hrun : s.doReplaceUsers = .ok { s with remotes := s.remotes.filter (·.live) } := by
        simp [Server.doReplaceUsers, sumThreads_ok hfits, bind, Except.bind, pure, Except.pure, hpos]
      rw [hrun] at h
      simp only [bind, Except.bind, pure, Except.pure, if_pos hpos] at h
      cases h
      exact ⟨.silent rfl rfl, rfl, rfl⟩
    · obtain ⟨lists, left, hrun, hlen, -, -⟩ := doReplaceUsers_ok hpos hfits
      rw [hrun] at h
      simp only [bind, Except.bind, pure, Except.pure, if_neg hpos] at h
      cases h
      exact ⟨.replace (sent_zip hlen).1 rfl, rfl, rfl⟩
  · have herror : s.doReplaceUsers = .error .configuration := by
      simp [Server.doReplaceUsers, sumThreads_error hfits, bind, Except.bind]
    rw [herror] at h
    cases h

theorem checkIssue_sends {s s' : Server} {view : Nat → Nat → Nat × Nat} {commands : List (Worker × Command)}
    (h : s.checkIssue view = .ok (s', commands)) :
    Sends s s' commands ∧ s'.locals = s.locals ∧
      (s'.remotes = s.remotes ∨ s'.remotes = s.remotes.filter (·.live)) := by
  -- a replacement, from whatever ids were recorded as active before it
  have hreplace : ∀ {active : List Nat}, Server.replaceIssue { s with active } = .ok (s', commands) →
      Sends s s' commands ∧ s'.locals = s.locals ∧
        (s'.remotes = s.remotes ∨ s'.remotes = s.remotes.filter (·.live)) := by
    intro active h
    obtain ⟨hsends, hlocals, hremotes⟩ := replaceIssue_sends h
    refine ⟨?_, hlocals, Or.inr hremotes⟩
    rcases hsends with ⟨hsent, hcommands⟩ | ⟨hworkers, hcommands⟩ | ⟨sent, hsent, hcommands, hmem⟩
    · exact .silent hsent hcommands
    · exact .replace hworkers hcommands
    · exact .push sent hsent hcommands hmem
  unfold Server.checkIssue at h
  cases hlock : lockRemotes s.locals s.remotes with
  | error e =>
    rw [hlock] at h
    cases h
  | ok locked =>
    simp only [hlock, bind, Except.bind, pure, Except.pure] at h
    cases locked with
    | none => exact hreplace h
    | some total =>
      dsimp only at h
      split at h
      · cases h
        exact ⟨.silent rfl rfl, rfl, Or.inl rfl⟩
      split at h
      · exact hreplace h
      split at h
      · exact hreplace h
      split at h
      · cases h
        refine ⟨.push _ rfl rfl fun conn users hm => ?_, rfl, Or.inl rfl⟩
        simp [balanceNew] at hm
      · generalize hrun : roundRobin _ _ _ _ _ _ = run at h
        cases run with
        | error e => cases h
        | ok out =>
          cases h
          refine ⟨.push out.2 rfl rfl fun conn users hm => ?_, rfl, Or.inl rfl⟩
          obtain ⟨remote, hmem, hconn⟩ := roundRobin_threads hrun conn users hm
          exact ⟨remote, (List.mem_filter.mp hmem).1, hconn⟩

/-- The remotes of `s'` are among those of `s`, and none comes back to life. -/
structure Remains (s s' : Server) : Prop where
  locals : s'.locals = s.locals
  conns : (s'.remotes.map (·.conn)).Sublist (s.remotes.map (·.conn))
  live : ∀ remote ∈ s'.remotes, remote.live = true → ∃ old ∈ s.remotes, old.conn = remote.conn ∧ old.live = true

/-- The records of the connections are changed in place. -/
theorem remains_of_map {s s' : Server} {change : Remote → Remote} (hlocals : s'.locals = s.locals)
    (h : s'.remotes = s.remotes.map change) (hconn : ∀ remote, (change remote).conn = remote.conn)
    (hlive : ∀ remote, (change remote).live = true → remote.live = true) : Remains s s' := by
  refine ⟨hlocals, ?_, fun remote hmem hremote => ?_⟩
  · have hmap : s'.remotes.map (·.conn) = s.remotes.map (·.conn) := by
      rw [h, List.map_map]
      exact List.map_congr_left fun remote _ => hconn remote
    rw [hmap]
  · rw [h] at hmem
    obtain ⟨old, hold, rfl⟩ := List.mem_map.mp hmem
    exact ⟨old, hold, (hconn old).symm, hlive old hremote⟩

theorem remains_of_sublist {s s' : Server} (hlocals : s'.locals = s.locals)
    (h : s'.remotes.Sublist s.remotes) : Remains s s' :=
  ⟨hlocals, h.map _, fun remote hmem hlive => ⟨remote, h.subset hmem, rfl, hlive⟩⟩

/-- Every event but a new connection. -/
theorem issue_sends {s s' : Server} {event : ServerEvent} {commands : List (Worker × Command)}
    (hconnect : ∀ conn position, event ≠ .connect conn position) (h : s.issue event = .ok (s', commands)) :
    Sends s s' commands ∧ Remains s s' := by
  cases event with
  | connect conn position => exact absurd rfl (hconnect conn position)
  | initializeHandler conn threads =>
    dsimp only [Server.issue, Server.step] at h
    split at h
    · cases h
      refine ⟨.silent rfl rfl, remains_of_map rfl rfl (fun remote => ?_) fun remote hlive => ?_⟩
      · split <;> rfl
      · split at hlive <;> exact hlive
    · cases h
      exact ⟨.silent rfl rfl, remains_of_sublist rfl (List.Sublist.refl _)⟩
  | disconnect conn =>
    cases h
    refine ⟨.silent rfl rfl, remains_of_map rfl rfl (fun remote => ?_) fun remote hlive => ?_⟩
    · split <;> rfl
    · split at hlive
      · cases hlive
      · exact hlive
  | activate user =>
    cases h
    exact ⟨.silent rfl rfl, remains_of_sublist rfl (List.Sublist.refl _)⟩
  | deactivate id =>
    cases h
    exact ⟨.silent rfl rfl, remains_of_sublist rfl (List.Sublist.refl _)⟩
  | checkUsers view =>
    obtain ⟨hsends, hlocals, hremotes⟩ := checkIssue_sends h
    refine ⟨hsends, remains_of_sublist hlocals ?_⟩
    rcases hremotes with hremotes | hremotes
    · rw [hremotes]
    · rw [hremotes]
      exact List.filter_sublist
  | replaceUsers =>
    obtain ⟨hsends, hlocals, hremotes⟩ := replaceIssue_sends h
    refine ⟨?_, remains_of_sublist hlocals (hremotes ▸ List.filter_sublist)⟩
    rcases hsends with ⟨hsent, hcommands⟩ | ⟨hworkers, hcommands⟩ | ⟨sent, hsent, hcommands, hmem⟩
    · exact .silent hsent hcommands
    · exact .replace hworkers hcommands
    · exact .push sent hsent hcommands hmem

/-! ## The system -/

/-- A connection of a scanner, with what the server wrote and the scanner has not read. -/
structure Link where
  inbox : List Command
  client : Client
  /-- `cleanup_`: nothing is written or read any more. -/
  down : Bool
  deriving DecidableEq, Repr

def Link.write (l : Link) (command : Command) : Link :=
  if l.down then l else { l with inbox := l.inbox ++ [command] }

structure Fleet where
  server : Server
  /-- The daemon's own queues, each with its thread. -/
  locals : List Thread
  /-- Every connection there was, in the order of the `conn` of its `Remote`. -/
  links : List Link

inductive FleetEvent where
  | server (event : ServerEvent)
  /-- A scanner with these threads connects. -/
  | connect (position threads : Nat)
  /-- A read or a write fails, or too much is to be written. -/
  | close (conn : Nat)
  /-- A scanner reads the next command. -/
  | deliver (conn : Nat)
  | localThread (index : Nat) (event : Event)
  | remoteThread (conn index : Nat) (event : Event)

inductive FleetError where
  | server (e : ServerError)
  | disabled
  deriving DecidableEq, Repr

/-- A thread's own event. -/
def Event.inner : Event → Bool
  | .replace _ | .push _ => false
  | _ => true

section Model

variable (publisher : Bool)

/-- A command of the server for one of its own queues. -/
def Thread.obey (t : Thread) : Command → Thread
  | .pushAccounts users => t.step publisher (.push users)
  | .replaceAccounts users => t.step publisher (.replace users)

def Fleet.send (s : Fleet) (m : Worker × Command) : Fleet :=
  match m.1 with
  | .queue index => { s with locals := s.locals.modify index fun t => t.obey publisher m.2 }
  | .remote conn => { s with links := s.links.modify conn fun l => l.write m.2 }

def Fleet.permits (s : Fleet) : ServerEvent → Bool
  | .connect .. => false
  | .initializeHandler conn threads => (s.links[conn]?.map fun l => l.client.threads.length) == some threads.toNat
  | .disconnect conn => (s.links[conn]?.map (·.down)) == some true
  | _ => true

def Fleet.step (event : FleetEvent) (s : Fleet) : Except FleetError Fleet :=
  match event with
  | .server event =>
    if s.permits event then
      match s.server.issue event with
      | .error e => .error (.server e)
      | .ok (server, commands) => .ok (commands.foldl (Fleet.send publisher) { s with server })
    else .error .disabled
  | .connect position threads =>
    if threads = 0 then .error .disabled
    else
      match s.server.step (.connect s.links.length position) with
      | .error e => .error (.server e)
      | .ok server => .ok { s with server, links := s.links ++ [⟨[], .start threads, false⟩] }
  | .close conn => .ok { s with links := s.links.modify conn fun l => { l with inbox := [], down := true } }
  | .deliver conn =>
    match s.links[conn]? with
    | some ⟨command :: inbox, client, false⟩ =>
      match client.handle publisher command with
      | .error e => .error (.server e)
      | .ok client => .ok { s with links := s.links.set conn ⟨inbox, client, false⟩ }
    | _ => .error .disabled
  | .localThread index event =>
    match s.locals[index]? with
    | some t =>
      if event.inner then .ok { s with locals := s.locals.set index (t.step publisher event) } else .error .disabled
    | none => .error .disabled
  | .remoteThread conn index event =>
    match s.links[conn]? with
    | some l =>
      match l.client.threads[index]? with
      | some t =>
        if event.inner then
          let client := { l.client with threads := l.client.threads.set index (t.step publisher event) }
          .ok { s with links := s.links.set conn { l with client } }
        else .error .disabled
      | none => .error .disabled
    | none => .error .disabled

end Model

/-- The conditions of `Server.Met`, for a step of the server. -/
def Fleet.Met (s : Fleet) : FleetEvent → Prop
  | .server event => s.server.Met event
  | _ => True

instance (s : Fleet) (event : FleetEvent) : Decidable (s.Met event) := by
  cases event <;> unfold Fleet.Met <;> infer_instance

namespace Fleet

/-- What a worker scans once it has read all that is on its way. -/
def pending (s : Fleet) : Worker → List Account
  | .queue index => (s.locals[index]?.map Thread.content).getD []
  | .remote conn => (s.links[conn]?.map fun l => l.inbox.foldl Command.given (contents l.client.threads)).getD []

def scanned (s : Fleet) : Worker → List Account
  | .queue index => (s.locals[index]?.map Thread.users).getD []
  | .remote conn => (s.links[conn]?.map fun l => l.client.threads.flatMap Thread.users).getD []

/-- The worker runs, and its connection is there. -/
def Up (s : Fleet) : Worker → Prop
  | .queue index => ∃ t, s.locals[index]? = some t ∧ t.phase ≠ .ended
  | .remote conn => (∃ remote ∈ s.server.remotes, remote.conn = conn ∧ remote.live = true) ∧
      ∃ l, s.links[conn]? = some l ∧ l.down = false ∧ running l.client.threads

instance (s : Fleet) (worker : Worker) : Decidable (s.Up worker) :=
  match worker with
  | .queue index => inferInstanceAs (Decidable (∃ t, t ∈ s.locals[index]? ∧ t.phase ≠ .ended))
  | .remote conn => inferInstanceAs (Decidable ((∃ remote ∈ s.server.remotes, remote.conn = conn ∧ remote.live = true) ∧
      ∃ l, l ∈ s.links[conn]? ∧ l.down = false ∧ ∀ t ∈ l.client.threads, t.phase ≠ .ended))

structure Settled (s : Fleet) : Prop where
  locals : ∀ t ∈ s.locals, t.queue.hasAccounts = false
  inboxes : ∀ l ∈ s.links, l.inbox = []
  links : ∀ l ∈ s.links, ∀ t ∈ l.client.threads, t.queue.hasAccounts = false

/-- The workers that the server counts on. -/
def present (s : Fleet) : List Worker := workers s.server.locals (s.server.remotes.filter (·.live))

/-- Every worker that is up scans, or will, what the server gave it. -/
def Given (s : Fleet) : Prop :=
  ∀ worker, s.Up worker → ((s.pending worker).map who).Perm ((assigned s.server.sent worker).map who)

/-- The daemon at its start: its threads have the accounts that were handed out. -/
structure Started (s : Fleet) : Prop where
  server : s.server.Started
  locals : s.locals.length = s.server.locals
  links : s.links = []
  sent : ∀ m ∈ s.server.sent, m.1 ∈ workers s.server.locals []
  given : s.Given

structure Inv (s : Fleet) : Prop where
  server : s.server.Sound
  locals : s.locals.length = s.server.locals
  fresh : ∀ conn ∈ s.server.remotes.map (·.conn), conn < s.links.length
  once : (s.server.remotes.map (·.conn)).Nodup
  sent : ∀ conn users, (Worker.remote conn, users) ∈ s.server.sent → conn < s.links.length
  ready : ∀ l ∈ s.links, l.client.Ready
  given : s.Given

variable {publisher : Bool} {s : Fleet}

theorem Started.inv (h : s.Started) : s.Inv := by
  refine ⟨h.server.sound, h.locals, ?_, ?_, fun conn users hm => ?_, ?_, h.given⟩
  · simp [h.server.remotes]
  · simp [h.server.remotes]
  · have := h.sent _ hm
    simp [workers] at this
  · simp [h.links]

/-! ## What is sent -/

theorem workers_nodup {locals : Nat} {remotes : List Remote} (h : (remotes.map (·.conn)).Nodup) :
    (workers locals remotes).Nodup := by
  unfold workers
  refine List.nodup_append.mpr ⟨?_, ?_, ?_⟩
  · exact List.nodup_range.map fun a b hab => Worker.queue.inj hab
  · have hmap : (remotes.map fun remote => Worker.remote remote.conn) = (remotes.map (·.conn)).map Worker.remote := by
      rw [List.map_map]
      rfl
    rw [hmap]
    exact h.map fun a b hab => Worker.remote.inj hab
  · intro a ha b hb hab
    obtain ⟨index, -, rfl⟩ := List.mem_map.mp ha
    obtain ⟨remote, -, rfl⟩ := List.mem_map.mp hb
    cases hab

theorem assigned_cons (m : Worker × List Account) (sent : List (Worker × List Account)) (worker : Worker) :
    assigned (m :: sent) worker = if m.1 = worker then m.2 ++ assigned sent worker else assigned sent worker := by
  unfold assigned
  by_cases h : m.1 = worker
  · rw [List.filter_cons_of_pos (by simpa using h), if_pos h, List.flatMap_cons]
  · rw [List.filter_cons_of_neg (by simpa using h), if_neg h]

theorem assigned_append (sent sent' : List (Worker × List Account)) (worker : Worker) :
    assigned (sent ++ sent') worker = assigned sent worker ++ assigned sent' worker := by
  rw [assigned, List.filter_append, List.flatMap_append]
  rfl

theorem assigned_none {sent : List (Worker × List Account)} {worker : Worker} (h : worker ∉ sent.map (·.1)) :
    assigned sent worker = [] := by
  have hnil : sent.filter (·.1 = worker) = [] :=
    List.filter_eq_nil_iff.mpr fun m hm heq => h (of_decide_eq_true heq ▸ List.mem_map_of_mem hm)
  rw [assigned, hnil]
  rfl

theorem commandsTo_cons (m : Worker × Command) (commands : List (Worker × Command)) (worker : Worker) :
    commandsTo worker (m :: commands) =
      if m.1 = worker then m.2 :: commandsTo worker commands else commandsTo worker commands := by
  unfold commandsTo
  by_cases h : m.1 = worker
  · rw [List.filter_cons_of_pos (by simpa using h), if_pos h, List.map_cons]
  · rw [List.filter_cons_of_neg (by simpa using h), if_neg h]

theorem commandsTo_none {commands : List (Worker × Command)} {worker : Worker} (h : worker ∉ commands.map (·.1)) :
    commandsTo worker commands = [] := by
  have hnil : commands.filter (·.1 = worker) = [] :=
    List.filter_eq_nil_iff.mpr fun m hm heq => h (of_decide_eq_true heq ▸ List.mem_map_of_mem hm)
  rw [commandsTo, hnil]
  rfl

theorem commandsTo_pushes (worker : Worker) (sent : List (Worker × List Account)) (users : List Account) :
    (commandsTo worker (sent.map fun m => (m.1, .pushAccounts m.2))).foldl Command.given users =
      users ++ assigned sent worker := by
  induction sent generalizing users with
  | nil => exact (List.append_nil users).symm
  | cons m sent ih =>
    rw [List.map_cons, commandsTo_cons, assigned_cons]
    by_cases h : m.1 = worker
    · rw [if_pos h, if_pos h, List.foldl_cons, ih, Command.given, List.append_assoc]
    · rw [if_neg h, if_neg h, ih]

theorem commandsTo_replaces {worker : Worker} {sent : List (Worker × List Account)} (hnodup : (sent.map (·.1)).Nodup)
    (hmem : worker ∈ sent.map (·.1)) (users : List Account) :
    (commandsTo worker (sent.map fun m => (m.1, .replaceAccounts m.2))).foldl Command.given users =
      assigned sent worker := by
  induction sent with
  | nil => cases hmem
  | cons m sent ih =>
    rw [List.map_cons, List.nodup_cons] at hnodup
    rw [List.map_cons, commandsTo_cons, assigned_cons]
    by_cases h : m.1 = worker
    · subst h
      have hrest : m.1 ∉ (sent.map fun m => (m.1, Command.replaceAccounts m.2)).map (·.1) := by
        rw [List.map_map]
        exact hnodup.1
      rw [if_pos rfl, if_pos rfl, commandsTo_none hrest, assigned_none hnodup.1, List.append_nil]
      rfl
    · rw [if_neg h, if_neg h]
      refine ih hnodup.2 ?_
      rcases List.mem_cons.mp hmem with rfl | hmem
      · exact absurd rfl h
      · exact hmem

/-- After a step of the server a worker that is there has what the commands add to what it had. -/
theorem sends_assigned {server server' : Server} {commands : List (Worker × Command)} {worker : Worker}
    (h : Sends server server' commands) (hnodup : (server.remotes.map (·.conn)).Nodup)
    (hworker : worker ∈ workers server.locals (server.remotes.filter (·.live))) :
    assigned server'.sent worker = (commandsTo worker commands).foldl Command.given (assigned server.sent worker) := by
  rcases h with ⟨hsent, rfl⟩ | ⟨hworkers, rfl⟩ | ⟨sent, hsent, rfl, -⟩
  · rw [hsent]
    rfl
  · have hlive : ((server.remotes.filter (·.live)).map (·.conn)).Nodup := hnodup.sublist (List.filter_sublist.map _)
    exact (commandsTo_replaces (hworkers ▸ workers_nodup hlive) (hworkers ▸ hworker) _).symm
  · rw [hsent, assigned_append]
    exact (commandsTo_pushes worker sent _).symm

/-! ## What arrives -/

theorem content_obey (t : Thread) (commands : List Command) :
    (commands.foldl (Thread.obey publisher) t).content = commands.foldl Command.given t.content ∧
      (commands.foldl (Thread.obey publisher) t).phase = t.phase := by
  induction commands generalizing t with
  | nil => exact ⟨rfl, rfl⟩
  | cons command commands ih =>
    obtain ⟨hcontent, hphase⟩ := ih (t.obey publisher command)
    rw [List.foldl_cons, hcontent, hphase]
    cases command with
    | pushAccounts users => exact ⟨by rw [List.foldl_cons, Thread.obey, content_push]; rfl, rfl⟩
    | replaceAccounts users => exact ⟨by rw [List.foldl_cons, Thread.obey, content_replace]; rfl, rfl⟩

theorem foldl_write (l : Link) (commands : List Command) :
    commands.foldl Link.write l = if l.down then l else { l with inbox := l.inbox ++ commands } := by
  induction commands generalizing l with
  | nil =>
    rw [List.append_nil]
    exact (ite_self l).symm
  | cons command commands ih =>
    rw [List.foldl_cons, ih]
    cases hdown : l.down with
    | true => simp [Link.write, hdown]
    | false => simp [Link.write, hdown]

theorem length_foldl_send (commands : List (Worker × Command)) (s : Fleet) :
    (commands.foldl (send publisher) s).locals.length = s.locals.length ∧
      (commands.foldl (send publisher) s).links.length = s.links.length := by
  induction commands generalizing s with
  | nil => exact ⟨rfl, rfl⟩
  | cons m commands ih =>
    obtain ⟨worker, command⟩ := m
    obtain ⟨hlocals, hlinks⟩ := ih (s.send publisher (worker, command))
    rw [List.foldl_cons]
    refine ⟨hlocals.trans ?_, hlinks.trans ?_⟩
    · cases worker with
      | queue index => exact List.length_modify _ _ _
      | remote conn => rfl
    · cases worker with
      | queue index => rfl
      | remote conn => exact List.length_modify _ _ _

/-- The commands reach the queues and connections they are for. -/
theorem foldl_send (commands : List (Worker × Command)) (s : Fleet) :
    (commands.foldl (send publisher) s).server = s.server ∧
      (∀ index : Nat, (commands.foldl (send publisher) s).locals[index]? =
        s.locals[index]?.map fun t => (commandsTo (.queue index) commands).foldl (Thread.obey publisher) t) ∧
      ∀ conn : Nat, (commands.foldl (send publisher) s).links[conn]? =
        s.links[conn]?.map fun l => (commandsTo (.remote conn) commands).foldl Link.write l := by
  induction commands generalizing s with
  | nil =>
    refine ⟨rfl, fun index => ?_, fun conn => ?_⟩
    · exact Option.map_id'.symm
    · exact Option.map_id'.symm
  | cons m commands ih =>
    obtain ⟨worker, command⟩ := m
    obtain ⟨hserver, hlocals, hlinks⟩ := ih (s.send publisher (worker, command))
    rw [List.foldl_cons]
    refine ⟨hserver.trans ?_, fun index => (hlocals index).trans ?_, fun conn => (hlinks conn).trans ?_⟩
    · cases worker <;> rfl
    · rw [commandsTo_cons]
      cases worker with
      | remote other => rfl
      | queue other =>
        rw [send, List.getElem?_modify]
        by_cases h : other = index
        · subst h
          cases s.locals[other]? <;> simp
        · cases s.locals[index]? <;> simp [h]
    · rw [commandsTo_cons]
      cases worker with
      | queue other => rfl
      | remote other =>
        rw [send, List.getElem?_modify]
        by_cases h : other = conn
        · subst h
          cases s.links[other]? <;> simp
        · cases s.links[conn]? <;> simp [h]

/-- A worker that is up after a step of the server was up before, and waits for the commands sent to it. -/
theorem up_server {server' : Server} {commands : List (Worker × Command)} {worker : Worker} (h : s.Inv)
    (hremains : Remains s.server server') (hup : (commands.foldl (send publisher) { s with server := server' }).Up worker) :
    s.Up worker ∧ worker ∈ s.present ∧
      (commands.foldl (send publisher) { s with server := server' }).pending worker =
        (commandsTo worker commands).foldl Command.given (s.pending worker) := by
  obtain ⟨hserver, hlocals, hlinks⟩ := @foldl_send publisher commands { s with server := server' }
  cases worker with
  | queue index =>
    obtain ⟨t', ht', hphase⟩ := hup
    have hget := hlocals index
    rw [ht'] at hget
    obtain ⟨t, ht, rfl⟩ := Option.map_eq_some_iff.mp hget.symm
    obtain ⟨hcontent, hsame⟩ := @content_obey publisher t (commandsTo (.queue index) commands)
    refine ⟨⟨t, ht, hsame ▸ hphase⟩, ?_, ?_⟩
    · have hlt : index < s.server.locals := h.locals ▸ (List.getElem?_eq_some_iff.mp ht).1
      simp [present, workers, hlt]
    · have ht : s.locals[index]? = some t := ht
      simp [pending, ht', ht, hcontent]
  | remote conn =>
    obtain ⟨⟨remote, hmem, rfl, hlive⟩, l', hl', hdown, hrun⟩ := hup
    rw [hserver] at hmem
    obtain ⟨old, hold, hconn, hwas⟩ := hremains.live remote hmem hlive
    have hget := hlinks remote.conn
    rw [hl'] at hget
    obtain ⟨l, hl, rfl⟩ := Option.map_eq_some_iff.mp hget.symm
    rw [foldl_write] at hdown hrun hl'
    have hup : l.down = false := by
      cases hd : l.down with
      | false => rfl
      | true => simp [hd] at hdown
    rw [if_neg (by simp [hup])] at hrun hl'
    have hl : s.links[remote.conn]? = some l := hl
    refine ⟨⟨⟨old, hold, hconn, hwas⟩, l, hl, hup, hrun⟩, ?_, ?_⟩
    · rw [← hconn]
      simp only [present, workers, List.mem_append, List.mem_map]
      exact Or.inr ⟨old, List.mem_filter.mpr ⟨hold, hwas⟩, rfl⟩
    · simp [pending, hl', hl, List.foldl_append]

theorem inv_server {server' : Server} {event : ServerEvent} {commands : List (Worker × Command)} (h : s.Inv)
    (hconnect : ∀ conn position, event ≠ .connect conn position) (hmet : s.server.Met event)
    (hissue : s.server.issue event = .ok (server', commands)) :
    (commands.foldl (send publisher) { s with server := server' }).Inv := by
  obtain ⟨hsends, hremains⟩ := issue_sends hconnect hissue
  obtain ⟨hserver, -, hlinks⟩ := @foldl_send publisher commands { s with server := server' }
  obtain ⟨hlocalsLength, hlinksLength⟩ := @length_foldl_send publisher commands { s with server := server' }
  have hsound : server'.Sound := by
    have hstep := issue_step event s.server
    rw [hissue] at hstep
    obtain ⟨_, hrun, hsound, -⟩ := step_sound h.server event hmet
    cases hstep.trans hrun
    exact hsound
  refine ⟨?_, ?_, ?_, ?_, ?_, ?_, fun worker hup => ?_⟩
  · rw [hserver]
    exact hsound
  · rw [hserver, hlocalsLength]
    exact h.locals.trans hremains.locals.symm
  · intro conn hmem
    rw [hserver] at hmem
    rw [hlinksLength]
    exact h.fresh conn (hremains.conns.subset hmem)
  · rw [hserver]
    exact h.once.sublist hremains.conns
  · intro conn users hm
    rw [hserver] at hm
    rw [hlinksLength]
    rcases hsends with ⟨hsent, -⟩ | ⟨hworkers, -⟩ | ⟨sent, hsent, -, hremotes⟩
    · exact h.sent conn users (hsent ▸ hm)
    · have hmem : Worker.remote conn ∈ workers s.server.locals (s.server.remotes.filter (·.live)) :=
        hworkers ▸ List.mem_map_of_mem hm
      refine h.fresh conn ?_
      simp only [workers, List.mem_append, List.mem_map, reduceCtorEq, and_false, exists_false, false_or] at hmem
      obtain ⟨remote, hremote, hconn⟩ := hmem
      exact List.mem_map.mpr ⟨remote, (List.mem_filter.mp hremote).1, Worker.remote.inj hconn⟩
    · rw [hsent] at hm
      rcases List.mem_append.mp hm with hm | hm
      · exact h.sent conn users hm
      · obtain ⟨remote, hremote, rfl⟩ := hremotes conn users hm
        exact h.fresh remote.conn (List.mem_map_of_mem hremote)
  · intro l hl
    obtain ⟨conn, hconn⟩ := List.getElem?_of_mem hl
    rw [hlinks conn] at hconn
    obtain ⟨old, hold, rfl⟩ := Option.map_eq_some_iff.mp hconn
    rw [foldl_write]
    have hready : old.client.Ready := h.ready old (List.mem_of_getElem? hold)
    split
    · exact hready
    · exact hready
  · obtain ⟨hold, hpresent, hpending⟩ := up_server h hremains hup
    rw [hserver, hpending, sends_assigned hsends h.once hpresent]
    exact foldl_given_who _ (h.given worker hold)

/-- Steps that are not the server's change one worker. -/
theorem Inv.frame {t : Fleet} (h : s.Inv) (hserver : t.server = s.server) (hlocals : t.locals.length = s.locals.length)
    (hlinks : t.links.length = s.links.length) (hready : ∀ l ∈ t.links, l.client.Ready)
    (hgiven : ∀ worker, t.Up worker → s.Up worker ∧ ((t.pending worker).map who).Perm ((s.pending worker).map who)) :
    t.Inv := by
  refine ⟨?_, ?_, ?_, ?_, ?_, hready, fun worker hup => ?_⟩
  · rw [hserver]
    exact h.server
  · rw [hserver, hlocals]
    exact h.locals
  · rw [hserver, hlinks]
    exact h.fresh
  · rw [hserver]
    exact h.once
  · rw [hserver, hlinks]
    exact h.sent
  · obtain ⟨hold, hperm⟩ := hgiven worker hup
    rw [hserver]
    exact hperm.trans (h.given worker hold)

/-- A change of one connection. -/
theorem Inv.link {links : List Link} (h : s.Inv) (conn : Nat) (hlength : links.length = s.links.length)
    (hother : ∀ other, other ≠ conn → links[other]? = s.links[other]?)
    (hconn : ∀ l', links[conn]? = some l' → ∃ l, s.links[conn]? = some l ∧ l'.client.Ready ∧
      (l'.down = false → running l'.client.threads → l.down = false ∧ running l.client.threads ∧
        ((l'.inbox.foldl Command.given (contents l'.client.threads)).map who).Perm
          ((l.inbox.foldl Command.given (contents l.client.threads)).map who))) :
    Inv { s with links } := by
  refine h.frame rfl rfl hlength (fun l hl => ?_) fun worker hup => ?_
  · obtain ⟨other, hget⟩ := List.getElem?_of_mem hl
    by_cases heq : other = conn
    · subst heq
      obtain ⟨-, -, hready, -⟩ := hconn l hget
      exact hready
    · exact h.ready l (List.mem_of_getElem? (hother other heq ▸ hget))
  · cases worker with
    | queue index => exact ⟨hup, List.Perm.refl _⟩
    | remote other =>
      obtain ⟨hremote, l', hl', hdown, hrun⟩ := hup
      have hl' : links[other]? = some l' := hl'
      by_cases heq : other = conn
      · subst heq
        obtain ⟨l, hl, -, hkeep⟩ := hconn l' hl'
        obtain ⟨hup, hruns, hperm⟩ := hkeep hdown hrun
        refine ⟨⟨hremote, l, hl, hup, hruns⟩, ?_⟩
        simpa [pending, hl', hl] using hperm
      · have hl : s.links[other]? = some l' := hother other heq ▸ hl'
        refine ⟨⟨hremote, l', hl, hdown, hrun⟩, ?_⟩
        simp [pending, hl', hl]

theorem given_of_inner {event : Event} (h : event.inner = true) (users : List Account) : event.given users = users := by
  cases event with
  | replace => cases h
  | push => cases h
  | _ => rfl

theorem inv_localThread {index : Nat} {event : Event} {t : Thread} (h : s.Inv) (hget : s.locals[index]? = some t)
    (hinner : event.inner = true) : Inv { s with locals := s.locals.set index (t.step publisher event) } := by
  have hlt : index < s.locals.length := (List.getElem?_eq_some_iff.mp hget).1
  refine h.frame rfl List.length_set rfl h.ready fun worker hup => ?_
  cases worker with
  | remote conn => exact ⟨hup, List.Perm.refl _⟩
  | queue other =>
    obtain ⟨t', ht', hphase⟩ := hup
    have ht' : (s.locals.set index (t.step publisher event))[other]? = some t' := ht'
    by_cases heq : other = index
    · subst heq
      obtain rfl : t.step publisher event = t' := by simpa [hlt] using ht'
      refine ⟨⟨t, hget, fun hended => hphase (step_ended hended event)⟩, ?_⟩
      simpa [pending, ht', hget] using content_step (given_of_inner hinner) hphase
    · rw [List.getElem?_set_ne (Ne.symm heq)] at ht'
      refine ⟨⟨t', ht', hphase⟩, ?_⟩
      simp [pending, List.getElem?_set_ne (Ne.symm heq)]

/-- What a thread of a scanner does by itself leaves the accounts of the scanner. -/
theorem contents_inner {threads : List Thread} {index : Nat} {event : Event} {t : Thread}
    (hget : threads[index]? = some t) (hinner : event.inner = true)
    (hrun : running (threads.set index (t.step publisher event))) :
    running threads ∧
      ((contents (threads.set index (t.step publisher event))).map who).Perm ((contents threads).map who) := by
  have hlt : index < threads.length := (List.getElem?_eq_some_iff.mp hget).1
  have hlive : (t.step publisher event).phase ≠ .ended := hrun _ (List.mem_set hlt _)
  refine ⟨fun other hother => ?_, ?_⟩
  · obtain ⟨i, hi⟩ := List.getElem?_of_mem hother
    by_cases heq : i = index
    · subst heq
      obtain rfl : t = other := Option.some.inj (hget.symm.trans hi)
      exact fun hended => hlive (step_ended hended event)
    · rw [← List.getElem?_set_ne (Ne.symm heq)] at hi
      exact hrun other (List.mem_of_getElem? hi)
  · have hstep : ((t.step publisher event).content.map who).Perm (t.content.map who ++ []) := by
      rw [List.append_nil]
      exact content_step (given_of_inner hinner) hlive
    simpa using contents_set who hget hstep

/-- A scanner that connects has nothing, and was given nothing. -/
theorem contents_start (threads : Nat) : contents (Client.start threads).threads = [] := by
  refine List.flatMap_eq_nil_iff.mpr fun t ht => ?_
  rw [List.eq_of_mem_replicate ht]
  rfl

theorem inv_connect {position threads : Nat} {server' : Server} (h : s.Inv) (hthreads : threads ≠ 0)
    (hstep : s.server.step (.connect s.links.length position) = .ok server') :
    Inv { s with server := server', links := s.links ++ [⟨[], .start threads, false⟩] } := by
  have hnew : s.links.length ∉ s.server.remotes.map (·.conn) := fun hmem => Nat.lt_irrefl _ (h.fresh _ hmem)
  have hsound : server'.Sound := by
    obtain ⟨_, hrun, hsound, -⟩ := step_sound h.server (.connect s.links.length position) trivial
    cases hstep.symm.trans hrun
    exact hsound
  dsimp only [Server.step] at hstep
  rw [if_neg hnew] at hstep
  cases hstep
  have hperm : ((s.server.remotes.take position ++ ⟨s.links.length, 0, true⟩ :: s.server.remotes.drop position).map
      (·.conn)).Perm (s.links.length :: s.server.remotes.map (·.conn)) := by
    refine (List.perm_middle.map _).trans ?_
    rw [List.take_append_drop]
    rfl
  refine ⟨hsound, h.locals, fun conn hmem => ?_, ?_, fun conn users hm => ?_, fun l hl => ?_, fun worker hup => ?_⟩
  · rw [List.length_append, List.length_singleton]
    rcases List.mem_cons.mp (hperm.mem_iff.mp hmem) with rfl | hmem
    · exact Nat.lt_succ_self _
    · exact Nat.lt_succ_of_lt (h.fresh conn hmem)
  · exact hperm.nodup_iff.mpr (List.nodup_cons.mpr ⟨hnew, h.once⟩)
  · rw [List.length_append, List.length_singleton]
    exact Nat.lt_succ_of_lt (h.sent conn users hm)
  · rcases List.mem_append.mp hl with hl | hl
    · exact h.ready l hl
    · rw [List.mem_singleton.mp hl, Client.Ready]
      simpa [Client.start] using Nat.pos_of_ne_zero hthreads
  · cases worker with
    | queue index => exact h.given (.queue index) hup
    | remote conn =>
      obtain ⟨⟨remote, hmem, rfl, hlive⟩, l, hl, hdown, hrun⟩ := hup
      have hl : (s.links ++ [(⟨[], .start threads, false⟩ : Link)])[remote.conn]? = some l := hl
      by_cases heq : remote.conn = s.links.length
      · rw [heq, List.getElem?_concat_length] at hl
        cases hl
        have hnone : assigned s.server.sent (.remote remote.conn) = [] := by
          refine assigned_none fun hsent => ?_
          obtain ⟨⟨worker, users⟩, hm, rfl⟩ := List.mem_map.mp hsent
          exact absurd (h.sent _ _ hm) (Nat.not_lt.mpr (Nat.le_of_eq heq.symm))
        dsimp only [pending]
        rw [hnone, heq, List.getElem?_concat_length]
        simp [contents_start]
      · have hlt : remote.conn < s.links.length := by
          have := (List.getElem?_eq_some_iff.mp hl).1
          rw [List.length_append, List.length_singleton] at this
          omega
        have hold : remote ∈ s.server.remotes := by
          have hmem := List.perm_middle.mem_iff.mp hmem
          rw [List.take_append_drop] at hmem
          rcases List.mem_cons.mp hmem with rfl | hmem
          · exact absurd rfl heq
          · exact hmem
        have hget : s.links[remote.conn]? = some l := by rwa [List.getElem?_append_left hlt] at hl
        have hgiven := h.given (.remote remote.conn) ⟨⟨remote, hold, rfl, hlive⟩, l, hget, hdown, hrun⟩
        simp only [pending, List.getElem?_append_left hlt]
        exact hgiven

/-- A command is read from a connection, and the scanner behind it does as it is told. -/
theorem inv_deliver {conn : Nat} {t : Fleet} (h : s.Inv) (hstep : s.step publisher (.deliver conn) = .ok t) :
    t.Inv := by
  unfold step at hstep
  dsimp only at hstep
  split at hstep
  · rename_i command inbox client hget
    have hlt : conn < s.links.length := (List.getElem?_eq_some_iff.mp hget).1
    obtain ⟨client', hrun, hready, hphases, hperm⟩ :=
      @handle_content publisher command _ (h.ready _ (List.mem_of_getElem? hget))
    rw [hrun] at hstep
    cases hstep
    refine h.link conn List.length_set (fun other hother => List.getElem?_set_ne (Ne.symm hother)) fun l' hl' => ?_
    obtain rfl : (⟨inbox, client', false⟩ : Link) = l' := by simpa [hlt] using hl'
    refine ⟨_, hget, hready, fun _ hruns => ⟨rfl, running_of_phases hphases hruns, ?_⟩⟩
    exact foldl_given_who inbox (hperm.map who)
  · cases hstep

theorem inv_remoteThread {conn index : Nat} {event : Event} {l : Link} {t : Thread} (h : s.Inv)
    (hget : s.links[conn]? = some l) (ht : l.client.threads[index]? = some t) (hinner : event.inner = true) :
    Inv { s with
      links := s.links.set conn
        { l with client := { l.client with threads := l.client.threads.set index (t.step publisher event) } } } := by
  have hlt : conn < s.links.length := (List.getElem?_eq_some_iff.mp hget).1
  refine h.link conn List.length_set (fun other hother => List.getElem?_set_ne (Ne.symm hother)) fun l' hl' => ?_
  obtain rfl : { l with client :=
      { l.client with threads := l.client.threads.set index (t.step publisher event) } } = l' := by
    simpa [hlt] using hl'
  refine ⟨l, hget, ?_, fun hdown hruns => ?_⟩
  · have hready : l.client.Ready := h.ready l (List.mem_of_getElem? hget)
    rw [Client.Ready, List.length_set]
    exact hready
  · obtain ⟨hrun, hperm⟩ := contents_inner ht hinner hruns
    exact ⟨hdown, hrun, foldl_given_who l.inbox hperm⟩

theorem inv_step {event : FleetEvent} {t : Fleet} (h : s.Inv) (hmet : s.Met event)
    (hstep : s.step publisher event = .ok t) : t.Inv := by
  cases event with
  | server event =>
    unfold step at hstep
    dsimp only at hstep
    split at hstep
    · rename_i hpermits
      split at hstep
      · cases hstep
      · rename_i server' commands hissue
        cases hstep
        refine inv_server h (fun conn position heq => ?_) hmet hissue
        subst heq
        cases hpermits
    · cases hstep
  | connect position threads =>
    unfold step at hstep
    dsimp only at hstep
    split at hstep
    · cases hstep
    · rename_i hthreads
      split at hstep
      · cases hstep
      · rename_i server' hconnect
        cases hstep
        exact inv_connect h hthreads hconnect
  | close conn =>
    cases hstep
    refine h.link conn (List.length_modify _ _ _) (fun other hother => ?_) fun l' hl' => ?_
    · simp [Ne.symm hother]
    · rw [List.getElem?_modify] at hl'
      obtain ⟨l, hl, rfl⟩ := Option.map_eq_some_iff.mp hl'
      rw [if_pos rfl]
      refine ⟨l, hl, h.ready l (List.mem_of_getElem? hl), fun hdown => ?_⟩
      cases hdown
  | deliver conn => exact inv_deliver h hstep
  | localThread index event =>
    unfold step at hstep
    dsimp only at hstep
    split at hstep
    · rename_i t hget
      split at hstep
      · rename_i hinner
        cases hstep
        exact inv_localThread h hget hinner
      · cases hstep
    · cases hstep
  | remoteThread conn index event =>
    unfold step at hstep
    dsimp only at hstep
    split at hstep
    · rename_i l hget
      split at hstep
      · rename_i t ht
        split at hstep
        · rename_i hinner
          cases hstep
          exact inv_remoteThread h hget ht hinner
        · cases hstep
      · cases hstep
    · cases hstep

/-! ## Every run -/

/-- What one worker is given besides. -/
theorem flatMap_given {present : List Worker} {worker : Worker} (hnodup : present.Nodup) (hmem : worker ∈ present)
    (users : List Account) (rest : Worker → List Account) :
    (present.flatMap fun w => if worker = w then users ++ rest w else rest w).Perm (users ++ present.flatMap rest) := by
  induction present with
  | nil => cases hmem
  | cons first present ih =>
    rw [List.nodup_cons] at hnodup
    rw [List.flatMap_cons, List.flatMap_cons]
    by_cases heq : worker = first
    · subst heq
      have hrest : (present.flatMap fun w => if worker = w then users ++ rest w else rest w) = present.flatMap rest := by
        refine List.flatMap_congr fun w hw => if_neg fun heq => ?_
        subst heq
        exact hnodup.1 hw
      rw [if_pos rfl, hrest, List.append_assoc]
    · rw [if_neg heq]
      refine ((ih hnodup.2 ?_).append_left _).trans ?_
      · rcases List.mem_cons.mp hmem with rfl | hmem
        · exact absurd rfl heq
        · exact hmem
      · rw [← List.append_assoc, ← List.append_assoc]
        exact List.perm_append_comm.append_right _

/-- The workers have between them all that was sent, where it was sent to them. -/
theorem assigned_perm {present : List Worker} {sent : List (Worker × List Account)} (hnodup : present.Nodup)
    (h : ∀ m ∈ sent, m.1 ∈ present) : (present.flatMap (assigned sent)).Perm (sent.flatMap (·.2)) := by
  induction sent with
  | nil => exact List.Perm.of_eq (List.flatMap_eq_nil_iff.mpr fun _ _ => rfl)
  | cons m sent ih =>
    obtain ⟨hm, hrest⟩ := List.forall_mem_cons.mp h
    rw [funext (assigned_cons m sent), List.flatMap_cons]
    exact (flatMap_given hnodup hm m.2 (assigned sent)).trans ((ih hrest).append_left _)

theorem Settled.pending_eq (h : s.Settled) (worker : Worker) : s.pending worker = s.scanned worker := by
  cases worker with
  | queue index =>
    dsimp only [pending, scanned]
    cases hget : s.locals[index]? with
    | none => rfl
    | some t => exact merge_of_not_hasAccounts (h.locals t (List.mem_of_getElem? hget))
  | remote conn =>
    dsimp only [pending, scanned]
    cases hget : s.links[conn]? with
    | none => rfl
    | some l =>
      have hl : l ∈ s.links := List.mem_of_getElem? hget
      rw [Option.map_some, Option.map_some, h.inboxes l hl]
      exact List.flatMap_congr fun t ht => merge_of_not_hasAccounts (h.links l hl t ht)

/-- In every run in which the steps of the server meet the conditions, each worker that is up scans, once it has read
what is on its way, what the server gave it. With nothing on its way, and every worker up that the server gave accounts
to or counts on, the accounts that are scanned are the active ones, each by one thread. -/
theorem fleet_accounts {s₀ : Fleet} (h0 : s₀.Started) (h : Steps (step publisher) Met s₀ s) :
    (∀ worker, s.Up worker → ((s.pending worker).map who).Perm ((assigned s.server.sent worker).map who)) ∧
      (s.Settled → (∀ worker ∈ s.present, s.Up worker) → (∀ m ∈ s.server.sent, m.1 ∈ s.present) →
        ((s.present.flatMap s.scanned).map (·.id)).Perm s.server.active ∧ s.server.active.Nodup) := by
  have hinv : s.Inv := h.invariant Inv h0.inv fun _ _ _ => inv_step
  refine ⟨hinv.given, fun hsettled hup hsent => ⟨?_, hinv.server.active.imp fun hlt => Nat.ne_of_lt hlt⟩⟩
  have hpresent : s.present.Nodup := workers_nodup (hinv.once.sublist (List.filter_sublist.map _))
  have hids : ∀ worker ∈ s.present,
      ((s.scanned worker).map (·.id)).Perm ((assigned s.server.sent worker).map (·.id)) := by
    intro worker hworker
    have hgiven := (hinv.given worker (hup worker hworker)).map (·.1)
    rw [List.map_map, List.map_map, hsettled.pending_eq] at hgiven
    exact hgiven
  rw [List.map_flatMap]
  refine (List.Perm.flatMap_left _ hids).trans ?_
  rw [← List.map_flatMap]
  exact ((assigned_perm hpresent hsent).map _).trans hinv.server.sent

def noThreads : Fleet := ⟨remoteServer, [], []⟩

def oneScanner : List FleetEvent :=
  [.connect 0 2, .server (.initializeHandler 0 2), .server .replaceUsers, .server (.activate (userAt 1 10)),
    .server (.activate (userAt 2 20)), .server (.checkUsers fun _ _ => (0, 0)), .deliver 0, .deliver 0,
    .remoteThread 0 0 .wake, .remoteThread 0 1 .wake]

theorem fleet_accounts_scanner :
    (runAll (step false) oneScanner noThreads).server.active = [1, 2] ∧
      (((runAll (step false) oneScanner noThreads).present.flatMap
        (runAll (step false) oneScanner noThreads).scanned).map (·.id)).Perm [1, 2] := by
  have h0 : noThreads.Started := by
    refine ⟨remoteServer_started, rfl, rfl, by decide, fun worker hup => ?_⟩
    cases worker with
    | queue index =>
      obtain ⟨t, ht, -⟩ := hup
      cases ht
    | remote conn =>
      obtain ⟨-, l, hl, -⟩ := hup
      cases hl
  have hsteps : Steps (step false) Met noThreads (runAll (step false) oneScanner noThreads) :=
    steps_runAll oneScanner noThreads (by decide +kernel)
  have hactive : (runAll (step false) oneScanner noThreads).server.active = [1, 2] := by decide +kernel
  have hall := (fleet_accounts h0 hsteps).2 ⟨by decide +kernel, by decide +kernel, by decide +kernel⟩ (by decide +kernel)
    (by decide +kernel)
  rw [hactive] at hall
  exact ⟨hactive, hall.1⟩

end Fleet

end Lws.Scanner
