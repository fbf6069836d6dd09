/-
  Lws.Rpc.FeedRuns — what a feed connection does over a whole run.

  `error_terminal`: an `error:` message ends a connection, unless it is the one for missed
  messages: `prep_update` returns that one as a message, and the loop goes on.

  `blocks_gapless`: the ranges of the `blocks` messages leave no gap after the first one.
  The first begins at its own update, so what was suppressed before it is in no message.
-/

import Lws.Db.Operations
import Lws.Rpc.Feed

namespace Lws.Rpc.Feed

open Lws.Db

/-! ## One message -/

@[simp] theorem isError_prepError (e : ErrorCode) : (prepError e).isError = true := rfl

theorem misses_blocks {sync : ConnectionSync} {u : Update} (hn : u.newHeight ≠ txpool) :
    sync.misses (.update (.ok u)) = true ↔ sync.height ≠ txpool ∧ sync.height ≠ u.oldHeight := by
  simp [ConnectionSync.misses, hn]

theorem misses_mempool {sync : ConnectionSync} {u : Update} (hn : u.newHeight = txpool) :
    sync.misses (.update (.ok u)) = false := by
  simp [ConnectionSync.misses, hn]

/-- A message that finds others missed is answered with the error, and changes nothing. -/
theorem prepUpdate_misses {m : Moment} {source : Source} {sync : ConnectionSync} (h : sync.misses source = true) :
    prepUpdate m source sync = (.message (prepError .missedMessages), sync) := by
  rcases source with ⟨error, w⟩ | (e | u)
  · simp only [ConnectionSync.misses, Bool.and_eq_true, Bool.not_eq_true', bne_iff_ne, Option.isSome_iff_exists] at h
    obtain ⟨⟨hr, e, rfl⟩, hw⟩ := h
    simp [prepUpdate, prepWarning, hr, hw]
  · simp [ConnectionSync.misses] at h
  · simp only [ConnectionSync.misses, Bool.and_eq_true, bne_iff_ne] at h
    obtain ⟨⟨hn, hh⟩, ho⟩ := h
    simp [prepUpdate, hn, hh, ho]

/-- An update of blocks that is where the last one ended. -/
theorem prepUpdate_blocks {m : Moment} {u : Update} {sync : ConnectionSync} (hn : u.newHeight ≠ txpool)
    (h : sync.misses (.update (.ok u)) = false) :
    prepUpdate m (.update (.ok u)) sync =
      if sync.suppresses m.now u then (.nothing, { sync with height := u.newHeight })
      else prepBlocks m u { sync with height := u.newHeight } := by
  have hh : ¬(sync.height ≠ txpool ∧ sync.height ≠ u.oldHeight) := by
    rw [← misses_blocks hn, h]
    exact Bool.false_ne_true
  simp only [prepUpdate]
  rw [if_pos hn, if_neg hh]

theorem prepUpdate_mempool {m : Moment} {u : Update} {sync : ConnectionSync} (hn : u.newHeight = txpool) :
    prepUpdate m (.update (.ok u)) sync =
      match u.outputs with
      | [received] => (.message (.mempool received), sync)
      | _ => (.thrown, sync) := by
  have hu : ¬u.newHeight ≠ txpool := not_not_intro hn
  unfold prepUpdate
  exact if_neg hu

/-- A warning that parses is not sent, whatever its number. -/
theorem prepUpdate_warning {m : Moment} {w : FeedWarning} {sync : ConnectionSync} :
    prepUpdate m (.warning none w) sync = (if sync.receivesOnly then .nothing else .failed invalidErrorCode, sync) := by
  by_cases hr : sync.receivesOnly = true
  · simp [prepUpdate, prepWarning, hr]
  · simp [prepUpdate, prepWarning, hr]

theorem prepBlocks_isError {m : Moment} {u : Update} {sync : ConnectionSync} {message : Message}
    (h : (prepBlocks m u sync).1 = .message message) : message.isError = false := by
  unfold prepBlocks at h
  split at h
  · cases h
  · cases h
    rfl

/-- `prep_update` sends an `error:` message for missed messages and for nothing else. -/
theorem prepUpdate_isError {m : Moment} {source : Source} {sync : ConnectionSync} {message : Message}
    (hs : sync.misses source = false) (h : (prepUpdate m source sync).1 = .message message) : message.isError = false := by
  rcases source with ⟨error, w⟩ | (e | u)
  · simp only [prepUpdate, prepWarning] at h
    split at h
    · cases h
    · rename_i hr
      cases error with
      | none => cases h
      | some e =>
        have hw : sync.warnings = w.counter := by simpa [ConnectionSync.misses, hr] using hs
        simp only [hw, ne_eq, not_true_eq_false, if_false] at h
        cases h
        rfl
  · cases h
  · by_cases hn : u.newHeight = txpool
    · rw [prepUpdate_mempool hn] at h
      split at h
      · cases h
        rfl
      · cases h
    · rw [prepUpdate_blocks hn hs] at h
      split at h
      · cases h
      · exact prepBlocks_isError h

/-! ## Errors end the connection -/

/-- An `error:` message is the last one put in the queue, and the loop has stopped. -/
def Connection.Terminal (c : Connection) : Prop :=
  ∀ (i : Nat) (m : Message), c.queued[i]? = some m → m.isError = true → i + 1 = c.queued.length ∧ c.phase = .stopped

def Connection.Clean (c : Connection) : Prop := ∀ m ∈ c.queued, m.isError = false

theorem Connection.Clean.terminal {c : Connection} (h : c.Clean) : c.Terminal := by
  intro i m hi he
  rw [h m (List.mem_of_getElem? hi)] at he
  cases he

theorem Connection.Terminal.clean {c : Connection} (h : c.Terminal) (hp : c.phase ≠ .stopped) : c.Clean := by
  intro m hm
  obtain ⟨i, hi⟩ := List.mem_iff_getElem?.mp hm
  cases he : m.isError with
  | false => rfl
  | true => exact absurd (h i m hi he).2 hp

theorem Connection.Terminal.congr {c d : Connection} (h : c.Terminal) (hq : d.queued = c.queued)
    (hp : d.phase = c.phase) :
    d.Terminal := by
  unfold Terminal
  rw [hq, hp]
  exact h

theorem Connection.Clean.stop {c : Connection} (h : c.Clean) : c.stop.Terminal := Clean.terminal h

theorem Connection.Clean.enqueue {c : Connection} (h : c.Clean) {m : Message} (hm : m.isError = false) :
    (c.enqueue m).Clean := by
  intro x hx
  rcases List.mem_append.mp hx with hx | hx
  · exact h x hx
  · rw [List.mem_singleton.mp hx]
    exact hm

/-- The one message that may be an error is the last before the loop stops. -/
theorem Connection.Clean.enqueue_stop {c : Connection} (h : c.Clean) (m : Message) : (c.enqueue m).stop.Terminal := by
  intro i x hi he
  refine ⟨?_, rfl⟩
  change (c.queued ++ [m])[i]? = some x at hi
  change i + 1 = (c.queued ++ [m]).length
  rw [List.getElem?_append] at hi
  split at hi
  · rw [h x (List.mem_of_getElem? hi)] at he
    cases he
  · have := (List.getElem?_eq_some_iff.mp hi).1
    simp only [List.length_singleton] at this
    simp only [List.length_append, List.length_singleton]
    omega

/-- A write of something that is not an error as a value keeps the connection terminal. -/
theorem Connection.Clean.doWrite {c : Connection} (h : c.Clean) {prepared : Prepared}
    (hp : ∀ m, prepared = .message m → m.isError = false) : (Connection.continue (c.doWrite prepared)).Terminal := by
  cases prepared with
  | message m =>
    have hc : (Connection.continue (c.doWrite (.message m))).Clean := h.enqueue (hp m rfl)
    exact hc.terminal
  | nothing =>
    have hc : (Connection.continue (c.doWrite .nothing)).Clean := h
    exact hc.terminal
  | failed e => exact h.enqueue_stop (prepError e)
  | thrown => exact h.stop

/-- `prep_login` answers with an `error:` message only by failing. -/
theorem prepLogin_isError {env : Env} {m : Moment} {watch : Except ErrorCode UInt32} {source : LoginSource}
    {sync : ConnectionSync} {message : Message} (h : (prepLogin env m watch source sync).1 = .message message) :
    message.isError = false := by
  unfold prepLogin at h
  split at h
  · cases h
  · cases h
  · split at h
    · cases h
    · split at h
      · cases h
      · rename_i user db hopen
        dsimp only at h
        split at h
        · cases h
        · rename_i answer hanswer
          cases h
          unfold loginMessage at hanswer
          cases hb : getLastBlock db with
          | error e => simp [hb, bind, Except.bind] at hanswer
          | ok lastBlock =>
            simp only [hb, bind, Except.bind] at hanswer
            split at hanswer
            · cases hanswer
              rfl
            · cases hanswer
              rfl

/-- One completion: the connection stays terminal unless the loop reads a message that finds
    others missed. -/
theorem Connection.Terminal.step {c : Connection} (h : c.Terminal) {e : FeedEvent}
    (he : ∀ m source, e = .update m source → c.phase = .reading → c.queue.length ≤ queueMax →
      c.sync.misses source = false) : (c.step e).Terminal := by
  cases e with
  | handshake ok =>
    simp only [Connection.step]
    split
    · rename_i hp
      have hc : c.Clean := h.clean (by simp [hp])
      split
      · have hc' : ({ c with phase := LoopPhase.login } : Connection).Clean := hc
        exact hc'.terminal
      · exact hc.stop
    · exact h
  | loginFailure =>
    simp only [Connection.step]
    split
    · rename_i hp
      exact (h.clean (by simp [hp])).stop
    · exact h
  | login env m watch source =>
    simp only [Connection.step]
    split
    · rename_i hp
      have hc : ({ c with sync := (prepLogin env m watch source c.sync).2 } : Connection).Clean := h.clean (by simp [hp])
      exact hc.doWrite fun message hm => prepLogin_isError hm
    · exact h
  | update m source =>
    simp only [Connection.step]
    split
    · rename_i hp
      have hclean : c.Clean := h.clean (by simp [hp])
      unfold Connection.push
      split
      · exact hclean.enqueue_stop (prepError .queueMax)
      · rename_i hq
        have hmiss := he m source rfl hp (Nat.not_lt.mp hq)
        have hc : ({ c with sync := (prepUpdate m source c.sync).2 } : Connection).Clean := hclean
        exact hc.doWrite fun message hm => prepUpdate_isError hmiss hm
    · exact h
  | readFailure =>
    simp only [Connection.step]
    split
    · rename_i hp
      exact (h.clean (by simp [hp])).stop
    · exact h
  | written => exact h.congr rfl rfl
  | close => exact h.congr rfl rfl

/-- A message that finds others missed leaves an error in the queue and the loop running. -/
theorem Connection.step_misses {c : Connection} {m : Moment} {source : Source} (hp : c.phase = .reading)
    (hq : c.queue.length ≤ queueMax) (h : c.sync.misses source = true) : ¬(c.step (.update m source)).Terminal := by
  have hstep : c.step (.update m source) = { c.enqueue (prepError .missedMessages) with phase := .reading } := by
    simp only [Connection.step, hp, if_true, Connection.push, Nat.not_lt.mpr hq, if_false, prepUpdate_misses h]
    rfl
  intro ht
  rw [hstep] at ht
  have hlast : (c.queued ++ [prepError .missedMessages])[c.queued.length]? = some (prepError .missedMessages) := by simp
  have := (ht c.queued.length _ hlast rfl).2
  cases this

@[simp] theorem Connection.run_append (c : Connection) (es fs : List FeedEvent) :
    c.run (es ++ fs) = (c.run es).run fs := List.foldl_append ..

@[simp] theorem Connection.run_cons (c : Connection) (e : FeedEvent) (es : List FeedEvent) :
    c.run (e :: es) = (c.step e).run es := rfl

theorem Connection.init_terminal : Connection.init.Terminal := by
  intro i m hi
  cases hi

/-- An `error:` message is terminal in every state of a run exactly when no message that the
    loop handles finds others missed. -/
theorem error_terminal (events : List FeedEvent) :
    (∀ before after, events = before ++ after → (Connection.init.run before).Terminal) ↔
      ∀ before m source after, events = before ++ .update m source :: after →
        (Connection.init.run before).phase = .reading → (Connection.init.run before).queue.length ≤ queueMax →
          (Connection.init.run before).sync.misses source = false := by
  constructor
  · intro h before m source after hev hp hq
    cases hmiss : (Connection.init.run before).sync.misses source with
    | false => rfl
    | true =>
      have ht := h (before ++ [.update m source]) after (by simp [hev])
      rw [Connection.run_append] at ht
      exact absurd ht (Connection.step_misses hp hq hmiss)
  · intro h before
    induction before using List.reverseRecOn with
    | nil =>
      intro after _
      exact Connection.init_terminal
    | append_singleton before e ih =>
      intro after hev
      rw [Connection.run_append]
      refine (ih (e :: after) (by simp [hev])).step fun m source he => ?_
      subst he
      exact h before m source after (by simp [hev])

def feedDb : Storage := Op.runs sampleEnv [.syncChain 0 [100, 101, 102, 103] true, .addAccount 5 ⟨1007, 50⟩ 7 0]

def feedMoment : Moment := ⟨feedDb, none, 20 * 10 ^ 9, 20 * 10 ^ 9⟩

def emptyUpdate (oldHeight newHeight : Nat) : Update := ⟨[], [], oldHeight, newHeight⟩

/-- The update from 4 to 5 is lost, the next two arrive. -/
def missedEvents : List FeedEvent :=
  [.handshake true, .login sampleEnv feedMoment (.ok 0) (.login (.ok ⟨⟨1007, 50⟩, 7, false, false⟩)),
    .update feedMoment (.update (.ok (emptyUpdate 3 4))), .update feedMoment (.update (.ok (emptyUpdate 5 6))),
    .update feedMoment (.update (.ok (mempoolReceive (sampleOutput 7 1))))]

theorem error_not_terminal :
    ((Connection.init.run missedEvents).queued.map Message.isError = [false, false, true, false] ∧
      (Connection.init.run missedEvents).phase = .reading) ∧
    ¬ ∀ events before after, events = before ++ after → (Connection.init.run before).Terminal := by
  have hq : (Connection.init.run missedEvents).queued.map Message.isError = [false, false, true, false] := by
    decide +kernel
  refine ⟨⟨hq, by decide +kernel⟩, fun h => ?_⟩
  have ht := h missedEvents missedEvents [] (by simp)
  have hlen := congrArg List.length hq
  rw [List.length_map] at hlen
  have h2 := congrArg (fun l => l[2]?) hq
  simp only [List.getElem?_map] at h2
  obtain ⟨m, hm, he⟩ := Option.map_eq_some_iff.mp h2
  have := (ht 2 m hm he).1
  rw [hlen] at this
  cases this

/-! ## The ranges that are reported -/

/-- The ranges of the `blocks` messages for a sequence of updates, until one cannot be handled. -/
def intervals : ConnectionSync → List (Moment × Update) → List (Nat × Nat)
  | _, [] => []
  | sync, (m, u) :: rest =>
    match prepUpdate m (.update (.ok u)) sync with
    | (.message (.blocks scanStart scanEnd _ _ _ _ _), sync') => (scanStart, scanEnd) :: intervals sync' rest
    | (.message _, sync') => intervals sync' rest
    | (.nothing, sync') => intervals sync' rest
    | (.failed _, _) => []
    | (.thrown, _) => []

/-- The first range begins at or below `start`, each later one at or below the end of the
    one before it. -/
def Gapless : Nat → List (Nat × Nat) → Prop
  | _, [] => True
  | start, (scanStart, scanEnd) :: rest => scanStart ≤ start ∧ Gapless scanEnd rest

def blockUpdates (updates : List (Moment × Update)) : List Update :=
  (updates.map (·.2)).filter fun u => decide (u.newHeight ≠ txpool)

/-- What a scanner without losses publishes for an account: each update begins where the one
    before ended, and between them outputs of the pool, one each. -/
structure Lossless (updates : List (Moment × Update)) : Prop where
  consecutive : (blockUpdates updates).IsChain fun u v => u.newHeight = v.oldHeight
  upward : ∀ u ∈ blockUpdates updates, u.oldHeight ≤ u.newHeight
  /-- Heights are 64-bit. -/
  fits : ∀ u ∈ blockUpdates updates, u.newHeight < txpool
  single : ∀ u ∈ updates.map (·.2), u.newHeight = txpool → u.outputs.length = 1

/-- A message that changes nothing but the height: one of the pool, or a suppressed one. -/
def ConnectionSync.Quiet (sync : ConnectionSync) (x : Moment × Update) : Prop :=
  x.2.newHeight = txpool ∨ sync.suppresses x.1.now x.2 = true

/-- `u` is the first update that a `blocks` message is made for. -/
structure ConnectionSync.Reports (sync : ConnectionSync) (before : List (Moment × Update)) (m : Moment) (u : Update) :
    Prop where
  quiet : ∀ x ∈ before, sync.Quiet x
  block : u.newHeight ≠ txpool
  loud : sync.suppresses m.now u = false
  read : ∃ found, m.lookup sync.id = .ok found

theorem ConnectionSync.reports_height {sync : ConnectionSync} {height : Nat} {before : List (Moment × Update)}
    {m : Moment} {u : Update} : ({ sync with height } : ConnectionSync).Reports before m u ↔ sync.Reports before m u :=
  ⟨fun h => ⟨h.quiet, h.block, h.loud, h.read⟩, fun h => ⟨h.quiet, h.block, h.loud, h.read⟩⟩

theorem blockUpdates_cons_block {x : Moment × Update} {rest : List (Moment × Update)} (h : x.2.newHeight ≠ txpool) :
    blockUpdates (x :: rest) = x.2 :: blockUpdates rest := by
  simp [blockUpdates, h]

theorem blockUpdates_cons_mempool {x : Moment × Update} {rest : List (Moment × Update)} (h : x.2.newHeight = txpool) :
    blockUpdates (x :: rest) = blockUpdates rest := by
  simp [blockUpdates, h]

section Step

variable {m : Moment} {u : Update} {sync : ConnectionSync} {rest : List (Moment × Update)}

theorem intervals_misses (h : sync.misses (.update (.ok u)) = true) :
    intervals sync ((m, u) :: rest) = intervals sync rest := by
  simp only [intervals, prepUpdate_misses h]
  rfl

theorem intervals_suppressed (hn : u.newHeight ≠ txpool) (hm : sync.misses (.update (.ok u)) = false)
    (hs : sync.suppresses m.now u = true) :
    intervals sync ((m, u) :: rest) = intervals { sync with height := u.newHeight } rest := by
  simp only [intervals, prepUpdate_blocks hn hm, hs, if_true]

theorem intervals_reported (hn : u.newHeight ≠ txpool) (hm : sync.misses (.update (.ok u)) = false)
    (hs : sync.suppresses m.now u = false) {found : BlockInfo × Db.Account} (hl : m.lookup sync.id = .ok found) :
    ∃ sync' : ConnectionSync, sync'.lastReported = u.newHeight ∧
      intervals sync ((m, u) :: rest) = (min sync.lastReported u.oldHeight, u.newHeight) :: intervals sync' rest := by
  obtain ⟨lastBlock, user⟩ := found
  refine ⟨{ sync with
    height := u.newHeight
    onTip := decide (lastBlock.id - min lastBlock.id u.newHeight ≤ onTipBlocks)
    lastUpdate := m.later
    lastReported := u.newHeight }, rfl, ?_⟩
  simp only [intervals, prepUpdate_blocks hn hm, hs, Bool.false_eq_true, if_false, prepBlocks, hl]

theorem intervals_failed (hn : u.newHeight ≠ txpool) (hm : sync.misses (.update (.ok u)) = false)
    (hs : sync.suppresses m.now u = false) {e : ErrorCode} (hl : m.lookup sync.id = .error e) :
    intervals sync ((m, u) :: rest) = [] := by
  simp only [intervals, prepUpdate_blocks hn hm, hs, Bool.false_eq_true, if_false, prepBlocks, hl]

theorem intervals_mempool (hn : u.newHeight = txpool) {received : Output} (ho : u.outputs = [received]) :
    intervals sync ((m, u) :: rest) = intervals sync rest := by
  simp only [intervals, prepUpdate_mempool hn, ho]

theorem intervals_thrown (hn : u.newHeight = txpool) (ho : ∀ received, u.outputs ≠ [received]) :
    intervals sync ((m, u) :: rest) = [] := by
  have hp : prepUpdate m (.update (.ok u)) sync = (.thrown, sync) := by
    rw [prepUpdate_mempool hn]
    split
    · rename_i received h
      exact absurd h (ho received)
    · rfl
  simp only [intervals, hp]

end Step

/-- After a report the next one begins at or below its end, whatever arrives. -/
theorem gapless_lastReported (updates : List (Moment × Update)) :
    ∀ sync : ConnectionSync, Gapless sync.lastReported (intervals sync updates) := by
  induction updates with
  | nil =>
    intro sync
    trivial
  | cons x rest ih =>
    obtain ⟨m, u⟩ := x
    intro sync
    cases hm : sync.misses (.update (.ok u)) with
    | true =>
      rw [intervals_misses hm]
      exact ih sync
    | false =>
      by_cases hn : u.newHeight = txpool
      · by_cases ho : ∃ received, u.outputs = [received]
        · obtain ⟨received, ho⟩ := ho
          rw [intervals_mempool hn ho]
          exact ih sync
        · rw [intervals_thrown hn (not_exists.mp ho)]
          trivial
      · cases hs : sync.suppresses m.now u with
        | true =>
          rw [intervals_suppressed hn hm hs]
          exact ih { sync with height := u.newHeight }
        | false =>
          cases hl : m.lookup sync.id with
          | error e =>
            rw [intervals_failed hn hm hs hl]
            trivial
          | ok found =>
            obtain ⟨sync', hlast, heq⟩ := @intervals_reported m u sync rest hn hm hs found hl
            rw [heq]
            exact ⟨min_le_left _ _, hlast ▸ ih sync'⟩

/-- Nothing is missed when each update begins where the last one ended. -/
theorem misses_of_chain {sync : ConnectionSync} {x : Moment × Update} {rest : List (Moment × Update)}
    (hn : x.2.newHeight ≠ txpool)
      (hh : sync.height = txpool ∨ ∀ u ∈ (blockUpdates (x :: rest)).head?, u.oldHeight = sync.height) :
    sync.misses (.update (.ok x.2)) = false := by
  rw [Bool.eq_false_iff, ne_eq, misses_blocks hn]
  rintro ⟨h1, h2⟩
  rcases hh with hh | hh
  · exact h1 hh
  · rw [blockUpdates_cons_block hn] at hh
    exact h2 (hh x.2 rfl).symm

theorem Lossless.tail {x : Moment × Update} {rest : List (Moment × Update)} (h : Lossless (x :: rest)) :
    Lossless rest := by
  by_cases hn : x.2.newHeight = txpool
  · have hb : blockUpdates (x :: rest) = blockUpdates rest := blockUpdates_cons_mempool hn
    exact ⟨hb ▸ h.consecutive, hb ▸ h.upward, hb ▸ h.fits, fun u hu => h.single u (List.mem_cons_of_mem _ hu)⟩
  · have hb : blockUpdates (x :: rest) = x.2 :: blockUpdates rest := blockUpdates_cons_block hn
    have hc := h.consecutive
    rw [hb] at hc
    exact ⟨hc.tail, fun u hu => h.upward u (hb ▸ List.mem_cons_of_mem _ hu),
      fun u hu => h.fits u (hb ▸ List.mem_cons_of_mem _ hu), fun u hu => h.single u (List.mem_cons_of_mem _ hu)⟩

theorem Lossless.next {x : Moment × Update} {rest : List (Moment × Update)} (h : Lossless (x :: rest))
    (hn : x.2.newHeight ≠ txpool) : ∀ u ∈ (blockUpdates rest).head?, u.oldHeight = x.2.newHeight := by
  have hc := h.consecutive
  rw [blockUpdates_cons_block hn, List.isChain_cons] at hc
  exact fun u hu => (hc.1 u hu).symm

theorem reports_cons_quiet {sync : ConnectionSync} {x : Moment × Update} {rest : List (Moment × Update)}
    {P : Update → Prop} (hx : sync.Quiet x) :
    (∀ before m u after, x :: rest = before ++ (m, u) :: after → sync.Reports before m u → P u) ↔
      ∀ before m u after, rest = before ++ (m, u) :: after → sync.Reports before m u → P u := by
  constructor
  · intro h before m u after hrest hr
    refine h (x :: before) m u after (by rw [hrest]; rfl) ⟨fun y hy => ?_, hr.block, hr.loud, hr.read⟩
    rcases List.mem_cons.mp hy with rfl | hy
    · exact hx
    · exact hr.quiet y hy
  · intro h before m u after hsplit hr
    cases before with
    | nil =>
      obtain ⟨rfl, rfl⟩ := List.cons.inj hsplit
      rcases hx with hx | hx
      · exact absurd hx hr.block
      · rw [hr.loud] at hx
        cases hx
    | cons y before =>
      exact h before m u after (List.cons.inj hsplit).2
        ⟨fun z hz => hr.quiet z (List.mem_cons_of_mem _ hz), hr.block, hr.loud, hr.read⟩

/-- One that is not quiet is the first, if the database can be read. -/
theorem reports_cons_loud {sync : ConnectionSync} {m : Moment} {u : Update} {rest : List (Moment × Update)}
    {P : Update → Prop} (hn : u.newHeight ≠ txpool) (hs : sync.suppresses m.now u = false) :
    (∀ before m' u' after, (m, u) :: rest = before ++ (m', u') :: after → sync.Reports before m' u' → P u') ↔
      ((∃ found, m.lookup sync.id = .ok found) → P u) := by
  constructor
  · intro h hread
    exact h [] m u rest rfl ⟨fun x hx => absurd hx List.not_mem_nil, hn, hs, hread⟩
  · intro h before m' u' after hsplit hr
    cases before with
    | nil =>
      cases hsplit
      exact h hr.read
    | cons y before =>
      obtain ⟨rfl, -⟩ := List.cons.inj hsplit
      rcases hr.quiet _ List.mem_cons_self with hq | hq
      · exact absurd hq hn
      · rw [hs] at hq
        cases hq

/-- Before the first report, the ranges leave no gap from `start` on exactly when the first
    update that is reported begins at or below it. -/
theorem gapless_first (start : Nat) (hstart : start < txpool) (updates : List (Moment × Update)) :
    ∀ sync : ConnectionSync, sync.lastReported = txpool → Lossless updates →
      (sync.height = txpool ∨ ∀ u ∈ (blockUpdates updates).head?, u.oldHeight = sync.height) →
      (Gapless start (intervals sync updates) ↔
        ∀ before m u after, updates = before ++ (m, u) :: after → sync.Reports before m u → u.oldHeight ≤ start) := by
  induction updates with
  | nil =>
    intro sync _ _ _
    refine iff_of_true trivial fun before m u after h => ?_
    simp at h
  | cons x rest ih =>
    obtain ⟨m, u⟩ := x
    intro sync hlast hloss hh
    by_cases hn : u.newHeight = txpool
    · obtain ⟨received, ho⟩ := List.length_eq_one_iff.mp (hloss.single u List.mem_cons_self hn)
      rw [intervals_mempool hn ho, reports_cons_quiet (Or.inl hn)]
      rw [blockUpdates_cons_mempool hn] at hh
      exact ih sync hlast hloss.tail hh
    · have hm : sync.misses (.update (.ok u)) = false := misses_of_chain hn hh
      cases hs : sync.suppresses m.now u with
      | true =>
        rw [intervals_suppressed hn hm hs, reports_cons_quiet (Or.inr hs)]
        have := ih { sync with height := u.newHeight } hlast hloss.tail (Or.inr (hloss.next hn))
        simpa only [ConnectionSync.reports_height] using this
      | false =>
        rw [reports_cons_loud hn hs]
        cases hl : m.lookup sync.id with
        | error e =>
          rw [intervals_failed hn hm hs hl]
          refine iff_of_true trivial fun ⟨found, h⟩ => ?_
          cases h
        | ok found =>
          obtain ⟨sync', hlast', heq⟩ := @intervals_reported m u sync rest hn hm hs found hl
          have hrest : Gapless u.newHeight (intervals sync' rest) := hlast' ▸ gapless_lastReported rest sync'
          rw [heq, hlast]
          constructor
          · rintro ⟨h, -⟩ -
            omega
          · intro h
            exact ⟨(min_le_right _ _).trans (h ⟨found, rfl⟩), hrest⟩

/-- In a chain of updates, one begins no higher than the first exactly when those before it
    cover no block. -/
theorem chain_start {before : List Update} : ∀ {first u : Update},
    (∀ v ∈ before, v.oldHeight ≤ v.newHeight) → (before ++ [u]).IsChain (fun u v => u.newHeight = v.oldHeight) →
    (before ++ [u]).head? = some first →
    first.oldHeight ≤ u.oldHeight ∧ (u.oldHeight ≤ first.oldHeight ↔ ∀ v ∈ before, v.oldHeight = v.newHeight) := by
  induction before with
  | nil =>
    intro first u _ _ hfirst
    cases hfirst
    simp
  | cons v before ih =>
    intro first u hup hchain hfirst
    cases hfirst
    rw [List.cons_append, List.isChain_cons] at hchain
    obtain ⟨hnext, hchain⟩ := hchain
    obtain ⟨w, hw⟩ : ∃ w, (before ++ [u]).head? = some w := by
      cases before with
      | nil => exact ⟨u, rfl⟩
      | cons w _ => exact ⟨w, rfl⟩
    obtain ⟨hle, hiff⟩ := ih (fun x hx => hup x (List.mem_cons_of_mem _ hx)) hchain hw
    have hv := hup v List.mem_cons_self
    have hvw : v.newHeight = w.oldHeight := hnext w hw
    refine ⟨by omega, ?_⟩
    rw [List.forall_mem_cons, ← hiff]
    omega

/-- After a login, and for any updates of the account without a loss: the ranges of the
    `blocks` messages leave no gap from the first update on exactly when nothing was
    suppressed before the first message but updates that cover no block. -/
theorem blocks_gapless (id : Nat) (warnings : UInt32) (receivesOnly : Bool) (updates : List (Moment × Update))
    (hloss : Lossless updates) (first : Update) (hfirst : (blockUpdates updates).head? = some first) :
    Gapless first.oldHeight (intervals { ConnectionSync.init with id, warnings, receivesOnly } updates) ↔
      ∀ before m u after, updates = before ++ (m, u) :: after →
        ({ ConnectionSync.init with id, warnings, receivesOnly } : ConnectionSync).Reports before m u →
          ∀ v ∈ blockUpdates before, v.oldHeight = v.newHeight := by
  have hmem : first ∈ blockUpdates updates := List.mem_of_head? hfirst
  have hstart : first.oldHeight < txpool := lt_of_le_of_lt (hloss.upward first hmem) (hloss.fits first hmem)
  rw [gapless_first first.oldHeight hstart updates _ rfl hloss (Or.inl rfl)]
  refine forall₅_congr fun before m u after hsplit => forall_congr' fun hr => ?_
  have hblocks : blockUpdates updates = blockUpdates before ++ [u] ++ blockUpdates after := by
    simp [hsplit, blockUpdates, hr.block]
  have hchain := hloss.consecutive
  rw [hblocks] at hchain
  refine (chain_start (fun v hv => hloss.upward v ?_) hchain.left_of_append ?_).2
  · rw [hblocks]
    simp [hv]
  · rw [hblocks] at hfirst
    simpa [List.head?_append] using hfirst

/-- The first update finds nothing, the second an output. -/
def receivingUpdates : List (Moment × Update) :=
  [(feedMoment, emptyUpdate 3 4), (feedMoment, ⟨[], [sampleOutput 5 1], 4, 5⟩)]

theorem receivingUpdates_lossless : Lossless receivingUpdates where
  consecutive := by decide
  upward := by decide
  fits := by decide
  single := by decide

theorem blocks_gapless_all :
    intervals { ConnectionSync.init with id := 1, warnings := 0, receivesOnly := false } receivingUpdates =
        [(3, 4), (4, 5)] ∧
      ∀ before m u after, receivingUpdates = before ++ (m, u) :: after →
        ({ ConnectionSync.init with id := 1, warnings := 0, receivesOnly := false } : ConnectionSync).Reports before m u →
          ∀ v ∈ blockUpdates before, v.oldHeight = v.newHeight := by
  have hrun : intervals { ConnectionSync.init with id := 1, warnings := 0, receivesOnly := false } receivingUpdates =
      [(3, 4), (4, 5)] := by decide +kernel
  refine ⟨hrun, (blocks_gapless 1 0 false receivingUpdates receivingUpdates_lossless (emptyUpdate 3 4) rfl).mp ?_⟩
  rw [hrun]
  exact ⟨le_rfl, le_rfl, trivial⟩

/-- A client that wants receives only is told of the blocks from 4 on, and never of those
    from 3 to 4. -/
theorem receives_only_gap :
    Lossless receivingUpdates ∧ (blockUpdates receivingUpdates).head? = some (emptyUpdate 3 4) ∧
      intervals { ConnectionSync.init with id := 1, warnings := 0, receivesOnly := true } receivingUpdates = [(4, 5)] ∧
      ¬Gapless (emptyUpdate 3 4).oldHeight
        (intervals { ConnectionSync.init with id := 1, warnings := 0, receivesOnly := true } receivingUpdates) := by
  have hrun : intervals { ConnectionSync.init with id := 1, warnings := 0, receivesOnly := true } receivingUpdates =
      [(4, 5)] := by decide +kernel
  refine ⟨receivingUpdates_lossless, rfl, hrun, ?_⟩
  rw [hrun]
  rintro ⟨h, -⟩
  exact absurd h (by decide)

end Lws.Rpc.Feed
