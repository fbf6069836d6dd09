/-
  Lws.Db.Events — the events of an account refer to a stored webhook and, below its scan
  height, to a stored output, so that `add_ongoing_hooks` finds both.

  Deleting webhooks deletes their events, and a reorg drops the events of its blocks. A
  rescan keeps the events and deletes the outputs, which the scan of the blocks after the
  scan height finds again; but not the output at the new scan height itself
  (`rescan_dangles`). In a run that goes back to no height of an event, `events_sound`
  holds in every state.
-/

import Lws.Db.Hooks
import Lws.Db.History

namespace Lws.Db

open Lws.Lmdb Lws.Transition

def Awaited (events : Events) (id : Nat) (w : WebhookOutput) : Prop := ∃ e, (id, e) ∈ events ∧ e.link = w

/-- What holds of the events in a state an operation passes through; `want` is what was
    awaited when it started. -/
structure EventsHeld (want : Nat → WebhookOutput → Prop) (db : Storage) : Prop where
  hooks : ∀ r ∈ db.events, ∃ data, (⟨r.1, .txConfirmation⟩, (r.2.linkWebhook, data)) ∈ db.webhooks
  outputs : ∀ r ∈ db.events, want r.1 r.2.link ∨ (r.1, r.2.link) ∈ refs db.outputs
  stored : StillStored want db

/-- An account goes back only while no event was added. -/
def EventsKept (want : Nat → WebhookOutput → Prop) (db : Storage) : Act → Prop
  | .lower _ _ => ∀ r ∈ db.events, want r.1 r.2.link
  | _ => True

section Events

variable {env : Env} {want : Nat → WebhookOutput → Prop} {db db' : Storage}

/-- An event of the batch or of before, with its output in the batch or where it was. -/
theorem EventsHeld.checked {user : Lws.Account} (h : EventsHeld want db) {r : Nat × WebhookEvent}
    (hr : r ∈ checkHooks db.webhooks user db.events) :
    (∃ data, (⟨r.1, .txConfirmation⟩, (r.2.linkWebhook, data)) ∈ db.webhooks) ∧
      (want r.1 r.2.link ∨ (r.1, r.2.link) ∈ refs (db.outputs.putAllAbsent user.id user.outputs)) := by
  rcases mem_checkHooks.mp hr with hr | ⟨hid, o, ho, he⟩
  · refine ⟨h.hooks r hr, (h.outputs r hr).imp id fun hin => ?_⟩
    obtain ⟨p, hp, hpr⟩ := mem_refs.mp hin
    exact mem_refs.mpr ⟨p, Table.mem_putAllAbsent_of_mem hp, hpr⟩
  · obtain ⟨hlink, -, hdata⟩ := mem_hookEvents.mp he
    rw [hid, hlink]
    exact ⟨hdata, Or.inr (stored_of_batch ho)⟩

theorem events_change {act : Act} (hagree : db.Agree env) (hagree' : db'.Agree env) (h : EventsHeld want db)
    (hspares : Spares want db act) (hkept : EventsKept want db act) (hc : Change env act db db') : EventsHeld want db' := by
  have hstored := stillStored_change hagree hagree' h.stored hspares hc
  cases hc with
  | @hook _ user type event owner =>
    refine ⟨fun r hr => ?_, h.outputs, hstored⟩
    obtain ⟨data, hd⟩ := h.hooks r hr
    by_cases e : (⟨r.1, .txConfirmation⟩ : WebhookKey) = ⟨user, type⟩ ∧ r.2.linkWebhook = event.1
    · refine ⟨event.2, ?_⟩
      rw [e.1, e.2]; exact Table.mem_put_self _ _ _
    · exact ⟨data, Table.mem_put.mpr (Or.inr ⟨hd, e⟩)⟩
  | unhook user =>
    refine ⟨fun r hr => ?_, fun r hr => h.outputs r (Table.mem_eraseKey.mp hr).1, hstored⟩
    obtain ⟨hr, hne⟩ := Table.mem_eraseKey.mp hr
    obtain ⟨data, hd⟩ := h.hooks r hr
    exact ⟨data, Table.mem_eraseKey.mpr ⟨hd, fun e => hne (congrArg WebhookKey.user e)⟩⟩
  | unhookIds ids =>
    refine ⟨fun r hr => ?_, fun r hr => h.outputs r (Table.mem_filter.mp hr).1, hstored⟩
    obtain ⟨hr, hne⟩ := Table.mem_filter.mp hr
    obtain ⟨data, hd⟩ := h.hooks r hr
    exact ⟨data, Table.mem_filter.mpr ⟨hd, hne⟩⟩
  | lower _ _ _ _ _ _ _ => exact ⟨h.hooks, fun r hr => Or.inl (hkept r hr), hstored⟩
  | rewind _ => exact hspares.elim
  | @store _ height lastUpdate user status existing l pubs pubs' events ha hid hscan hlt hl hl' hooks =>
    obtain ⟨-, -, hmem⟩ := addOngoingHooks_ok hooks
    refine ⟨fun r hr => ?_, fun r hr => ?_, hstored⟩
    · exact (h.checked ((hmem r).mp hr).1).1
    · exact (h.checked ((hmem r).mp hr).1).2
  | _ => exact ⟨h.hooks, h.outputs, hstored⟩

/-- The lookups of `add_ongoing_hooks` for an account the batch raises. -/
theorem EventsHeld.found {height lastUpdate : Nat} {user : Lws.Account} {status : AccountStatus} {existing : Account}
    (h : EventsHeld want db) (hspares : Spares want db (.store height lastUpdate user)) (ha : (status, existing) ∈ db.accounts)
    (hid : existing.id = user.id) (hscan : user.scanHeight ≤ existing.scanHeight) {e : WebhookEvent}
    (he : (user.id, e) ∈ checkHooks db.webhooks user db.events) :
    HooksFound db.webhooks (db.outputs.putAllAbsent user.id user.outputs) user.id (ongoingStart height existing)
      (lastUpdate + 1) e := by
  intro hdue
  obtain ⟨hdata, hout⟩ := h.checked he
  refine ⟨hdata, ?_⟩
  have hin : (user.id, e.link) ∈ refs (db.outputs.putAllAbsent user.id user.outputs) := by
    rcases hout with hw | hin
    · by_cases hle : e.link.tx.height ≤ existing.scanHeight
      · obtain ⟨o, ho, hr⟩ := mem_refs.mp ((h.stored user.id e.link hw).2 ⟨status, existing, ha, hid, hle⟩)
        exact mem_refs.mpr ⟨o, Table.mem_putAllAbsent_of_mem ho, hr⟩
      · obtain ⟨o, ho, hr⟩ := hspares e.link hw (by omega) (by omega)
        rw [← hr]
        exact stored_of_batch ho
    · exact hin
  obtain ⟨o, ho, hr⟩ := mem_refs.mp hin
  exact ⟨o, ho, by rw [← sort_ref, hr]⟩

/-! ## Runs -/

/-- The invariant of a trace. -/
structure EventsTraced (t : Trace) : Prop where
  records : Records t.db
  held : EventsHeld (Awaited t.db.events) t.db
  seen : ∀ r ∈ t.db.events, (r.1, r.2.link) ∈ t.seen

/-- No account goes back to a height it was scanned to and has an event at. -/
def NoEventAtTarget (db : Storage) (op : Op) : Prop :=
  ∀ t ∈ op.targets db, ∀ r ∈ db.accounts, r.2.id = t.1 → t.2 ≤ r.2.scanHeight →
    ∀ q ∈ db.events, q.1 = t.1 → q.2.link.tx.height ≠ t.2

instance (db : Storage) (op : Op) : Decidable (NoEventAtTarget db op) :=
  inferInstanceAs (Decidable (∀ t ∈ op.targets db, ∀ r ∈ db.accounts, r.2.id = t.1 → t.2 ≤ r.2.scanHeight →
    ∀ q ∈ db.events, q.1 = t.1 → q.2.link.tx.height ≠ t.2))

def EventsOk (t : Trace) (op : Op) : Prop := HonestOp t op ∧ NoEventAtTarget t.db op

instance (t : Trace) (op : Op) : Decidable (EventsOk t op) := inferInstanceAs (Decidable (_ ∧ _))

/-- The changes of an operation spare what is awaited. -/
theorem events_acts {t : Trace} {op : Op} (h : EventsTraced t) (hok : EventsOk t op) (hf : op.forkAt t.db = none)
    {mid : Storage} {act : Act} (ha : op.Acts t.db mid act) :
    Spares (Awaited t.db.events) mid act ∧ EventsKept (Awaited t.db.events) mid act := by
  obtain ⟨hhonest, hnone⟩ := hok
  cases act with
  | lower user height =>
    obtain ⟨hin, hlow⟩ := acts_lower.mp ha
    refine ⟨fun st a hst hid hle w hw he => ?_, fun r hr => ⟨r.2, hlow.events ▸ hr, rfl⟩⟩
    obtain ⟨e, hev, rfl⟩ := hw
    obtain ⟨a₀, ha₀, hid₀, hle₀⟩ := hlow.accounts st a hst
    exact hnone _ hin _ ha₀ (hid₀.trans hid) (hle.trans hle₀) _ hev rfl he
  | store start lastUpdate user =>
    obtain ⟨chain, users, pow, regtest, rfl, rfl, hin, -⟩ := acts_store ha
    refine ⟨fun w hw h1 h2 => ?_, trivial⟩
    obtain ⟨e, hev, rfl⟩ := hw
    exact (hhonest _ rfl).again user hin (user.id, e.link) (h.seen _ hev) rfl h1 h2
  | rewind height =>
    obtain ⟨-, hfork⟩ := acts_rewind.mp ha
    cases hf.symm.trans hfork
  | _ => exact ⟨trivial, trivial⟩

theorem events_run {t : Trace} {op : Op} (hagree : t.db.Agree env) (hcount : db'.accounts.rows.length < 2 ^ 32 - 2)
    (h : EventsTraced t) (hok : EventsOk t op) (hf : op.forkAt t.db = none) (hrun : op.run env t.db = .ok db') :
    EventsTraced ⟨db', t.seen ++ refs db'.outputs⟩ := by
  have hrec := records_run h.records hok.1.honest hrun
  have hend := ((run_changes hrun).keeps_agree (EventsHeld (Awaited t.db.events)) ?_ hcount hagree h.held).2
  · refine ⟨hrec, ⟨hend.hooks, fun r hr => Or.inl ⟨r.2, hr, rfl⟩, fun id w hw => ?_⟩, fun r hr => ?_⟩
    · obtain ⟨e, he, rfl⟩ := hw
      rcases hend.outputs _ he with hw | hin
      · exact hend.stored id e.link hw
      · obtain ⟨o, ho, hr⟩ := mem_refs.mp hin
        exact ⟨(hrec.outputs _ ho).zero, fun _ => hin⟩
    · rcases hend.outputs r hr with ⟨e, he, hl⟩ | hin
      · rw [← hl]
        exact List.mem_append_left _ (h.seen _ he)
      · exact List.mem_append_right _ hin
  · intro u u' act hu hu' hinv ha hc
    obtain ⟨hspares, hkept⟩ := events_acts h hok hf ha
    exact events_change hu hu' hinv hspares hkept hc

theorem events_rewind {t : Trace} {height : Nat} {mid : Storage} (hagree : t.db.Agree env) (h : EventsTraced t)
    (hrw : Rewound height t.db mid) : EventsTraced ⟨mid, seenBelow height t.seen⟩ := by
  have hevents : ∀ r, r ∈ mid.events ↔ r ∈ t.db.events ∧ r.2.link.tx.height < height := by
    intro r
    rw [show mid.events = t.db.events.filter fun r => decide (r.2.link.tx.height < height) by rw [hrw.frame],
      Table.mem_filter, decide_eq_true_eq]
  have hhooks : mid.webhooks = t.db.webhooks := by rw [hrw.frame]
  have hrec := records_change h.records (show HonestAct t.db (.rewind height) from trivial) (@Change.rewind env _ _ _ hrw)
  refine ⟨hrec, ⟨fun r hr => ?_, fun r hr => Or.inl ⟨r.2, hr, rfl⟩, fun id w hw => ?_⟩, fun r hr => ?_⟩
  · show ∃ data, _ ∈ mid.webhooks
    rw [hhooks]
    exact h.held.hooks r ((hevents r).mp hr).1
  · obtain ⟨e, he, rfl⟩ := hw
    obtain ⟨he, hlt⟩ := (hevents _).mp he
    exact stillStored_rewind hagree h.held.stored hrw id e.link ⟨⟨e, he, rfl⟩, hlt⟩
  · obtain ⟨hr, hlt⟩ := (hevents r).mp hr
    exact mem_seenBelow.mpr ⟨h.seen r hr, hlt⟩

theorem events_traced {t : Trace} (h : Traced env EventsOk t) (hcount : t.db.accounts.rows.length < 2 ^ 32 - 2) :
    EventsTraced t := by
  refine h.invariant EventsTraced ?_ (fun hagree hlt hinv hok hf hrun => events_run hagree hlt hinv hok hf hrun)
    (fun hagree hinv hrw => ?_) hcount
  · refine ⟨records_fresh env, ⟨fun _ hr => ?_, fun _ hr => ?_, fun _ w hw => ?_⟩, fun _ hr => ?_⟩
    · exact absurd hr (Table.not_mem_empty _)
    · exact absurd hr (Table.not_mem_empty _)
    · obtain ⟨e, he, -⟩ := hw
      exact absurd he (Table.not_mem_empty _)
    · exact absurd hr (Table.not_mem_empty _)
  · have hmid := events_rewind hagree hinv hrw
    exact ⟨⟨hmid.records.outputs, hmid.records.spends, hmid.records.images, hmid.records.links⟩,
      ⟨hmid.held.hooks, hmid.held.outputs, hmid.held.stored⟩, hmid.seen⟩

/-! ## The main result -/

structure EventsSound (db : Storage) : Prop where
  hooks : ∀ r ∈ db.events, ∃ hook, (⟨r.1, .txConfirmation⟩, hook) ∈ db.webhooks ∧ hook.1 = r.2.linkWebhook
  outputs : ∀ r ∈ db.events, ∀ s ∈ db.accounts, s.2.id = r.1 → r.2.link.tx.height ≤ s.2.scanHeight →
    ∃ o, (r.1, o) ∈ db.outputs ∧ o.link = r.2.link.tx ∧ o.spendMeta.id = r.2.link.out

/-- In an update, `add_ongoing_hooks` succeeds for every account whose data is stored, in
    the state the accounts before it left. -/
def OngoingHooksSucceed (env : Env) (height : Nat) (chain : List Hash) (users : List Lws.Account) (pow : List PowSync)
    (regtest : Bool) (db : Storage) : Prop :=
  ∀ base, updateChain env height chain pow regtest db = .ok base →
    ∀ before user after, users = before ++ user :: after →
      ∀ mid out, updateUsersNow height (height + chain.length - 1) before ⟨[], [], 0⟩ base = .ok (mid, out) →
        ∀ status existing, existingAccount mid user = .ok (some (status, existing)) →
          user.scanHeight ≤ existing.scanHeight → existing.scanHeight < height + chain.length - 1 →
            ∃ result, addOngoingHooks mid.webhooks (bulkInsert mid.outputs user.id user.outputs) user.id
              (max (height + 1) (existing.scanHeight + 1)) (height + chain.length - 1 + 1) out.confirmPubs
              (checkHooks mid.webhooks user mid.events) = .ok result

theorem ongoingHooks_succeed {t : Trace} (hagree : t.db.Agree env) (h : EventsTraced t) {height : Nat}
    {chain : List Hash} {users : List Lws.Account} {pow : List PowSync} {regtest : Bool}
    (hok : EventsOk t (.update height chain users pow regtest)) :
    OngoingHooksSucceed env height chain users pow regtest t.db := by
  intro base hbase before user after husers mid out hmid status existing hex hscan hraise
  subst husers
  obtain ⟨blocks, pows, rfl⟩ := updateChain_ok hbase
  have hgrown : Grown (before ++ user :: after) t.db { t.db with blocks, pows } :=
    ⟨fun _ h => Or.inl h, fun _ h => Or.inl h, fun _ h => h⟩
  have hchanges := @updateUsersNow_changes env _ _ _ _ before _ _ _ _ (fun _ hu => List.mem_append_left _ hu) hgrown hmid
  have hheld := hchanges.keeps (fun u => u.Agree env ∧ EventsHeld (Awaited t.db.events) u) ?_
    ⟨hagree, h.held.hooks, h.held.outputs, h.held.stored⟩
  · obtain ⟨hstored, hid⟩ := existingAccount_ok hex
    have hspares : Spares (Awaited t.db.events) mid (.store height (height + chain.length - 1) user) := by
      intro w hw h1 h2
      obtain ⟨e, hev, rfl⟩ := hw
      exact (hok.1 _ rfl).again user (by simp) (user.id, e.link) (h.seen _ hev) rfl h1 h2
    rw [bulkInsert_noDup]
    exact addOngoingHooks_succeeds (fun e he => hheld.2.found hspares hstored hid hscan he) out.confirmPubs
  · intro u u' act hu ha hc
    have hadd : act ≠ .add := fun e => by rw [e] at ha; exact ha
    have hu' := agree_change hu.1 (fun e => absurd e hadd) hc
    obtain ⟨hspares, hkept⟩ := events_acts h hok rfl (stores_acts _ _ ha)
    exact ⟨hu', events_change hu.1 hu' hu.2 hspares hkept hc⟩

/-- In every state of a run of honest scans that goes back to no height of an event, every
    event has its webhook and, below the scan height, its output; so the lookups of the
    next update succeed. -/
theorem events_sound {t : Trace} (h : Traced env EventsOk t) (hcount : t.db.accounts.rows.length < 2 ^ 32 - 2) :
    EventsSound t.db ∧ ∀ height chain users pow regtest, HonestOp t (.update height chain users pow regtest) →
      OngoingHooksSucceed env height chain users pow regtest t.db := by
  have hagree := agree_reached (@Traced.reached env EventsOk t (fun _ _ => True) (fun _ _ _ => trivial) h) hcount
  have htraced := events_traced h hcount
  refine ⟨⟨fun r hr => ?_, fun r hr s hs hid hle => ?_⟩, fun height chain users pow regtest hhonest => ?_⟩
  · obtain ⟨data, hd⟩ := htraced.held.hooks r hr
    exact ⟨_, hd, rfl⟩
  · obtain ⟨o, ho, he⟩ := mem_refs.mp ((htraced.held.stored r.1 r.2.link ⟨r.2, hr, rfl⟩).2 ⟨s.1, s.2, hs, hid, hle⟩)
    rw [← he]
    exact ⟨o, ho, rfl, rfl⟩
  · exact ongoingHooks_succeed hagree htraced ⟨hhonest, fun t ht => by cases ht⟩

end Events

def hookOps : List Op :=
  [.addAccount 5 ⟨1007, 50⟩ 7 0, .syncChain 0 [100, 101, 102] false,
    .addWebhook .txConfirmation (some ⟨1007, 50⟩) (⟨0, 77⟩, ⟨"http://u", "t", 5⟩),
    .update 0 [100, 101, 102] [sampleUser 0 [sampleOutput 1 9] []] [] false]

def hookRescanOps : List Op :=
  hookOps ++ [.rescan 0 [⟨1007, 50⟩], .update 0 [100, 101, 102] [sampleUser 0 [sampleOutput 1 9] []] [] false]

theorem events_sound_rescan : EventsSound (Op.traces sampleEnv hookRescanOps).db ∧
    (Op.traces sampleEnv hookRescanOps).db.events.rows = [(1, ⟨(sampleOutput 1 9).ref, ⟨0, 77⟩⟩)] :=
  ⟨(events_sound (traced_traces (by decide)) (by decide)).1, by decide⟩

def hookDanglingOps : List Op := hookOps ++ [.rescan 1 [⟨1007, 50⟩]]

/-- A rescan to the block of the output deletes it, and the scan goes on after it: the
    event dangles, and no update of the account succeeds. -/
theorem rescan_dangles :
    Traced sampleEnv HonestOp (Op.traces sampleEnv hookDanglingOps) ∧
      ¬ EventsSound (Op.traces sampleEnv hookDanglingOps).db ∧
      HonestOp (Op.traces sampleEnv hookDanglingOps) (.update 1 [101, 102] [sampleUser 1 [] []] [] false) ∧
      ((Op.update 1 [101, 102] [sampleUser 1 [] []] [] false).run sampleEnv
        (Op.traces sampleEnv hookDanglingOps).db).isOk = false := by
  refine ⟨traced_traces (by decide), fun h => ?_, by decide, by decide⟩
  obtain ⟨o, ho, -⟩ := h.outputs (1, ⟨(sampleOutput 1 9).ref, ⟨0, 77⟩⟩) (by decide)
    (.active, ⟨1, 5, ⟨1007, 50⟩, 7, 1, 0, 5, 0, ⟨0, 0⟩, 0⟩) (by decide) rfl (by decide)
  exact absurd ho ((show ∀ r ∈ (Op.traces sampleEnv hookDanglingOps).db.outputs, False by decide) _)

end Lws.Db
