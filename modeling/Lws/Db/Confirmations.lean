/-
  Lws.Db.Confirmations — the confirmations published for one webhook and one output over
  a sequence of updates.

  An update publishes the counts of the blocks that are new to the account
  (`publishedCounts`), so batches that overlap or repeat add up to 1, 2, .. as if they
  were one. The event is deleted with its last count, though, and an update that is still
  given an output from before the account's scan height starts it anew: it then publishes
  one count more than asked for (`redelivery_past_requested`). `confirmations_exact` holds
  for every sequence without such an update.
-/

import Lws.Db.Hooks
import Lws.Db.Records
import Lws.Db.History

namespace Lws.Db

open Lws.Lmdb

/-! ## Counting -/

/-- The counts from `current` on, until the count asked for or the last block. -/
theorem confirmationsFrom_eq {requested : Nat} (hreq : requested < 2 ^ 32) : ∀ (n current : Nat),
    confirmationsFrom requested n current = List.range' current (min n (requested - current) + 1) := by
  intro n
  induction n with
  | zero => intro current; simp [confirmationsFrom]
  | succ n ih =>
    intro current
    unfold confirmationsFrom
    by_cases h : requested ≤ current
    · rw [if_pos h, show min (n + 1) (requested - current) + 1 = 1 by omega]; rfl
    · rw [if_neg h, Nat.mod_eq_of_lt (by omega), ih,
        show min (n + 1) (requested - current) + 1 = (min n (requested - (current + 1)) + 1) + 1 by omega]
      rfl

theorem publishedCounts_joins {requested start scan last height : Nat} (hreq : requested < 2 ^ 32)
    (hone : 1 ≤ requested) (hstart : start = scan + 1) (hraise : scan < last) (hle : height ≤ last)
    (hopen : height ≤ scan → scan + 1 - height < requested) :
    List.range' 1 (min requested (scan + 1 - height)) ++ publishedCounts requested start (last + 1) height =
      List.range' 1 (min requested (last + 1 - height)) := by
  unfold publishedCounts
  subst hstart
  rw [if_pos (by omega), Nat.mod_eq_of_lt (by rcases Nat.le_total height scan with h | h <;> omega), confirmationsFrom_eq hreq]
  rcases Nat.lt_or_ge scan height with h | h
  · rw [show max (scan + 1) height = height by omega, show min requested (scan + 1 - height) = 0 by omega, List.range'_zero,
      List.nil_append, Nat.sub_self]
    congr 1
    omega
  · have := hopen h
    rw [show max (scan + 1) height = scan + 1 by omega, show min requested (scan + 1 - height) = scan + 1 - height by omega,
      show scan + 1 - height + 1 = 1 + 1 * (scan + 1 - height) by omega, List.range'_append]
    congr 1
    omega

/-- A batch completes the event if it reaches the last count asked for. -/
theorem publishedCounts_last {requested start scan last height : Nat} (hreq : requested < 2 ^ 32) (hone : 1 ≤ requested)
    (hstart : start = scan + 1) (hraise : scan < last) (hle : height ≤ last)
    (hopen : height ≤ scan → scan + 1 - height < requested) :
    requested ≤ (publishedCounts requested start (last + 1) height).getLast?.getD 0 ↔ requested ≤ last + 1 - height := by
  unfold publishedCounts
  subst hstart
  rw [if_pos (by omega), Nat.mod_eq_of_lt (by rcases Nat.le_total height scan with h | h <;> omega), confirmationsFrom_eq hreq,
    List.getLast?_range']
  rcases Nat.lt_or_ge scan height with h | h
  · rw [show max (scan + 1) height = height by omega]
    rw [if_neg (by omega), Option.getD_some]
    omega
  · have := hopen h
    rw [show max (scan + 1) height = scan + 1 by omega]
    rw [if_neg (by omega), Option.getD_some]
    omega

/-! ## One webhook and one output -/

/-- A webhook of `user` that asks for `requested` confirmations, and an output for it. -/
structure Pair where
  user : Nat
  out : Output
  hook : WebhookDupsort
  requested : Nat

namespace Pair

variable (p : Pair)

def height : Nat := p.out.link.height

def event : WebhookEvent := ⟨p.out.ref, p.hook⟩

/-- The counts published for the pair. -/
def counts (pubs : List WebhookTxConfirmation) : List Nat :=
  (pubs.filter fun q => decide (q.key.user = p.user ∧ q.value.1 = p.hook ∧ q.txInfo.ref = p.out.ref)).map
    (·.value.2.confirmations)

def Hooked (webhooks : Webhooks) : Prop :=
  ∃ data, (⟨p.user, .txConfirmation⟩, (p.hook, data)) ∈ webhooks ∧ data.confirmations = p.requested

end Pair

section Counts

variable {p : Pair} {webhooks : Webhooks} {outputs : Outputs} {user begin_ end_ : Nat} {e : WebhookEvent}

theorem counts_append (pubs pubs' : List WebhookTxConfirmation) :
    p.counts (pubs ++ pubs') = p.counts pubs ++ p.counts pubs' := by
  simp only [Pair.counts, List.filter_append, List.map_append]

theorem mem_eventPubs {q : WebhookTxConfirmation} (hq : q ∈ eventPubs webhooks outputs user begin_ end_ e) :
    q.key.user = user ∧ q.value.1 = e.linkWebhook ∧ q.txInfo.ref = e.link := by
  unfold eventPubs at hq
  split at hq
  · rename_i hook out hh ho
    obtain ⟨n, -, rfl⟩ := List.mem_map.mp hq
    refine ⟨rfl, (Table.get?_eq_some.mp hh).2, ?_⟩
    have hs := (Table.get?_eq_some.mp ho).2
    have h := Prod.mk.inj (toLex.injective hs)
    show (⟨out.link, out.spendMeta.id⟩ : WebhookOutput) = e.link
    rw [h.1, h.2]
  · cases hq

theorem counts_other (h : ¬ (user = p.user ∧ e = p.event)) :
    p.counts (eventPubs webhooks outputs user begin_ end_ e) = [] := by
  unfold Pair.counts
  rw [List.map_eq_nil_iff, List.filter_eq_nil_iff]
  intro q hq hm
  obtain ⟨h1, h2, h3⟩ := of_decide_eq_true hm
  obtain ⟨g1, g2, g3⟩ := mem_eventPubs hq
  refine h ⟨g1.symm.trans h1, ?_⟩
  obtain ⟨link, hook⟩ := e
  simp only at g2 g3
  rw [Pair.event, ← h2, ← h3, g2, g3]

theorem counts_own (hook : p.Hooked webhooks) (hfound : HooksFound webhooks outputs p.user begin_ end_ p.event) :
    p.counts (eventPubs webhooks outputs p.user begin_ end_ p.event) = publishedCounts p.requested begin_ end_ p.height := by
  by_cases hdue : max begin_ p.height < end_
  · obtain ⟨data, hd, hreq⟩ := hook
    obtain ⟨-, o, ho, hs⟩ := hfound hdue
    have h1 : webhooks.get? ⟨p.user, .txConfirmation⟩ p.event.linkWebhook = some (p.hook, data) :=
      Table.get?_eq_some.mpr ⟨hd, rfl⟩
    have h2 : outputs.get? p.user p.event.link.sort = some o := Table.get?_eq_some.mpr ⟨ho, hs⟩
    have hall : ∀ q ∈ eventPubs webhooks outputs p.user begin_ end_ p.event,
        decide (q.key.user = p.user ∧ q.value.1 = p.hook ∧ q.txInfo.ref = p.out.ref) = true :=
      fun q hq => decide_eq_true (mem_eventPubs hq)
    unfold Pair.counts
    rw [List.filter_eq_self.mpr hall]
    unfold eventPubs
    simp only [h1, h2, List.map_map, hreq]
    exact List.map_id _
  · rw [(not_due hdue).1]
    unfold publishedCounts
    rw [if_neg hdue]; rfl

/-- Over the distinct events of an account, only the pair's own counts. -/
theorem counts_flatMap : ∀ {events : List WebhookEvent}, events.Nodup →
    p.counts (events.flatMap (eventPubs webhooks outputs user begin_ end_)) =
      if user = p.user ∧ p.event ∈ events then p.counts (eventPubs webhooks outputs user begin_ end_ p.event) else [] := by
  intro events
  induction events with
  | nil => intro _; simp [Pair.counts]
  | cons e events ih =>
    intro hn
    rw [List.nodup_cons] at hn
    rw [List.flatMap_cons, counts_append, ih hn.2]
    by_cases he : user = p.user ∧ e = p.event
    · obtain ⟨hu, rfl⟩ := he
      rw [if_neg fun h => hn.1 h.2, if_pos ⟨hu, List.mem_cons_self⟩, List.append_nil]
    · rw [counts_other he, List.nil_append]
      refine if_congr ⟨fun h => ⟨h.1, List.mem_cons_of_mem _ h.2⟩, fun h => ⟨h.1, ?_⟩⟩ rfl rfl
      exact (List.mem_cons.mp h.2).resolve_left fun e' => he ⟨h.1, e'.symm⟩

theorem dups_nodup (events : Events) (user : Nat) : (events.dups user).Nodup :=
  (events.dups_sorted user).imp fun h he => absurd h (by rw [he]; exact lt_irrefl _)

theorem counts_ongoing {pubs pubs' : List WebhookTxConfirmation} {events events' : Events} (hook : p.Hooked webhooks)
    (h : addOngoingHooks webhooks outputs user begin_ end_ pubs events = .ok (pubs', events')) :
    p.counts pubs' = p.counts pubs ++
      if user = p.user ∧ (user, p.event) ∈ events then publishedCounts p.requested begin_ end_ p.height else [] := by
  obtain ⟨hfound, rfl, -⟩ := addOngoingHooks_ok h
  rw [counts_append, counts_flatMap (dups_nodup _ _)]
  congr 1
  by_cases e : user = p.user ∧ (user, p.event) ∈ events
  · rw [if_pos e, if_pos ⟨e.1, Table.mem_dups.mpr e.2⟩]
    obtain ⟨rfl, hin⟩ := e
    exact counts_own hook (hfound _ hin)
  · rw [if_neg e, if_neg fun h => e ⟨h.1, Table.mem_dups.mp h.2⟩]

theorem eventDone_own (hook : p.Hooked webhooks) :
    eventDone webhooks p.user begin_ end_ p.event = true ↔ max begin_ p.height < end_ ∧
      p.requested ≤ (publishedCounts p.requested begin_ end_ p.height).getLast?.getD 0 := by
  obtain ⟨data, hd, hreq⟩ := hook
  have h1 : webhooks.get? ⟨p.user, .txConfirmation⟩ p.event.linkWebhook = some (p.hook, data) :=
    Table.get?_eq_some.mpr ⟨hd, rfl⟩
  unfold eventDone
  simp only [h1, hreq, Bool.and_eq_true, decide_eq_true_eq]
  rfl

end Counts

/-! ## One account of a batch -/

structure Batch where
  height : Nat
  chain : List Hash
  users : List Lws.Account
  pow : List PowSync
  regtest : Bool

def Batch.last (b : Batch) : Nat := b.height + b.chain.length - 1

/-- The batch goes on from the account's scan height or below, and holds the output
    exactly if it scanned its block. -/
structure Pair.Honest (p : Pair) (b : Batch) (u : Lws.Account) : Prop where
  start : b.height ≤ u.scanHeight
  found : p.out ∈ u.outputs ↔ u.scanHeight < p.height ∧ p.height ≤ b.last
  same : ∀ o ∈ u.outputs, o.ref = p.out.ref → o = p.out

instance (p : Pair) (b : Batch) (u : Lws.Account) : Decidable (p.Honest b u) :=
  decidable_of_iff (b.height ≤ u.scanHeight ∧ (p.out ∈ u.outputs ↔ u.scanHeight < p.height ∧ p.height ≤ b.last) ∧
      ∀ o ∈ u.outputs, o.ref = p.out.ref → o = p.out)
    ⟨fun h => ⟨h.1, h.2.1, h.2.2⟩, fun h => ⟨h.start, h.found, h.same⟩⟩

/-- An update of an account at `scan`, past the last confirmation, does not scan the
    output's block again. -/
def Pair.NotRedelivered (p : Pair) (b : Batch) (scan : Nat) (u : Lws.Account) : Prop :=
  u.scanHeight ≤ scan → scan < b.last → p.height + p.requested ≤ scan + 1 → p.height ≤ u.scanHeight

instance (p : Pair) (b : Batch) (scan : Nat) (u : Lws.Account) : Decidable (p.NotRedelivered b scan u) :=
  inferInstanceAs (Decidable (_ → _ → _ → _))

/-- The pair's state when the account is at `scan` and `counts` was published: the event
    is there as long as a confirmation is left. -/
structure Pair.Counted (p : Pair) (db : Storage) (scan : Nat) (counts : List Nat) : Prop where
  hook : p.Hooked db.webhooks
  account : ∃ st a, (st, a) ∈ db.accounts ∧ a.id = p.user ∧ a.scanHeight = scan
  counts : counts = List.range' 1 (min p.requested (scan + 1 - p.height))
  ongoing : p.height ≤ scan → ((p.user, p.event) ∈ db.events ↔ scan + 1 - p.height < p.requested)

section Step

variable {env : Env} {p : Pair} {b : Batch} {db db' : Storage} {scan : Nat} {counts earlier : List Nat} {u : Lws.Account}

theorem mem_checkHooks_own (hmatch : p.hook.paymentId = p.out.shortId) (hook : p.Hooked db.webhooks)
    (hid : u.id = p.user) (h : p.Honest b u) :
    (p.user, p.event) ∈ checkHooks db.webhooks u db.events ↔ (p.user, p.event) ∈ db.events ∨ p.out ∈ u.outputs := by
  rw [mem_checkHooks]
  refine or_congr_right ⟨fun ⟨_, o, ho, he⟩ => ?_, fun ho => ⟨hid.symm, p.out, ho, ?_⟩⟩
  · have href : o.ref = p.out.ref := (mem_hookEvents.mp he).1.symm
    rw [← h.same o ho href]
    exact ho
  · obtain ⟨data, hd, -⟩ := hook
    exact mem_hookEvents.mpr ⟨rfl, hmatch, data, by rw [hid]; exact hd⟩

/-- After `check_hooks` of a batch that reaches the output, the event is there if and only
    if a confirmation is left. -/
theorem Pair.Counted.open_iff (hmatch : p.hook.paymentId = p.out.shortId) (h : p.Counted db scan counts)
    (hb : p.Honest b u)
    (hnot : p.NotRedelivered b scan u) (hid : u.id = p.user) (hle : u.scanHeight ≤ scan) (hlt : scan < b.last)
    (hreach : p.height ≤ b.last) :
    (p.user, p.event) ∈ checkHooks db.webhooks u db.events ↔ (p.height ≤ scan → scan + 1 - p.height < p.requested) := by
  rw [mem_checkHooks_own hmatch h.hook hid hb]
  by_cases hs : p.height ≤ scan
  · refine ⟨fun hc _ => ?_, fun hopen => Or.inl ((h.ongoing hs).mpr (hopen hs))⟩
    rcases hc with hc | hc
    · exact (h.ongoing hs).mp hc
    · -- found again, so not complete
      by_contra hfull
      have h1 := (hb.found.mp hc).1
      have h2 := hnot hle hlt (by omega)
      omega
  · exact ⟨fun _ hc => absurd hc hs, fun _ => Or.inr (hb.found.mpr ⟨by omega, hreach⟩)⟩

theorem Pair.Counted.own {status : AccountStatus} {existing : Account} {events : Events}
    {pubs pubs' : List WebhookTxConfirmation} (hreq : p.requested < 2 ^ 32) (hone : 1 ≤ p.requested)
    (hmatch : p.hook.paymentId = p.out.shortId) (h : p.Counted db scan counts) (hb : p.Honest b u)
    (hnot : p.NotRedelivered b scan u) (hid : u.id = p.user) (hex : existing.id = u.id) (hscan : existing.scanHeight = scan)
    (hle : u.scanHeight ≤ scan) (hlt : scan < b.last) (hcounts : counts = earlier ++ p.counts pubs)
    (hooks : addOngoingHooks db.webhooks (db.outputs.putAllAbsent u.id u.outputs) u.id (ongoingStart b.height existing)
      (b.last + 1) pubs (checkHooks db.webhooks u db.events) = .ok (pubs', events)) :
    p.Counted ((raised b.last u status existing events db).withHeights b.last [⟨u.id, status⟩]) b.last
      (earlier ++ p.counts pubs') := by
  have hstart : ongoingStart b.height existing = scan + 1 := by
    unfold ongoingStart
    have := hb.start
    omega
  rw [hid, hstart] at hooks
  obtain ⟨-, -, hmem⟩ := addOngoingHooks_ok hooks
  have hpubs : earlier ++ p.counts pubs' = List.range' 1 (min p.requested (scan + 1 - p.height)) ++
      if p.user = p.user ∧ (p.user, p.event) ∈ checkHooks db.webhooks u db.events then
        publishedCounts p.requested (scan + 1) (b.last + 1) p.height else [] := by
    rw [counts_ongoing h.hook hooks, ← List.append_assoc, ← hcounts, h.counts]
  have hopen := h.open_iff hmatch hb hnot hid hle hlt
  refine ⟨h.hook, ⟨status, _, Table.mem_put_self _ _ _, hex.trans hid, rfl⟩, ?_, fun hreach => ?_⟩
  · rw [hpubs]
    by_cases hreach : p.height ≤ b.last
    · by_cases hev : (p.user, p.event) ∈ checkHooks db.webhooks u db.events
      · rw [if_pos ⟨rfl, hev⟩]
        exact publishedCounts_joins hreq hone rfl hlt hreach ((hopen hreach).mp hev)
      · obtain ⟨hs, hfull⟩ := Classical.not_imp.mp fun ho => hev ((hopen hreach).mpr ho)
        rw [if_neg fun hc => hev hc.2, List.append_nil]
        congr 1
        omega
    · have hno : publishedCounts p.requested (scan + 1) (b.last + 1) p.height = [] := by
        unfold publishedCounts
        rw [if_neg (by omega)]
      rw [hno, ite_self, List.append_nil]
      congr 1
      omega
  · rw [show ((raised b.last u status existing events db).withHeights b.last [⟨u.id, status⟩]).events = events from rfl,
      hmem, eventDone_own h.hook]
    by_cases hev : (p.user, p.event) ∈ checkHooks db.webhooks u db.events
    · rw [publishedCounts_last hreq hone rfl hlt hreach ((hopen hreach).mp hev)]
      refine ⟨fun hc => ?_, fun hc => ⟨hev, fun hd => absurd hd.2.2 (by omega)⟩⟩
      by_contra hfull
      exact hc.2 ⟨rfl, by omega, by omega⟩
    · obtain ⟨hs, hfull⟩ := Classical.not_imp.mp fun ho => hev ((hopen hreach).mpr ho)
      exact ⟨fun hc => absurd hc.1 hev, fun hc => absurd hc (by omega)⟩

theorem Pair.Counted.other {status : AccountStatus} {existing : Account} {events : Events} {begin_ lastUpdate : Nat}
    {pubs pubs' : List WebhookTxConfirmation} (h : p.Counted db scan counts) (hid : u.id ≠ p.user) (hex : existing.id = u.id)
    (hcounts : counts = earlier ++ p.counts pubs)
    (hooks : addOngoingHooks db.webhooks (db.outputs.putAllAbsent u.id u.outputs) u.id begin_ (lastUpdate + 1) pubs
      (checkHooks db.webhooks u db.events) = .ok (pubs', events)) :
    p.Counted ((raised lastUpdate u status existing events db).withHeights lastUpdate [⟨u.id, status⟩]) scan
      (earlier ++ p.counts pubs') := by
  obtain ⟨-, -, hmem⟩ := addOngoingHooks_ok hooks
  have hpubs := counts_ongoing h.hook hooks
  rw [if_neg fun hc => hid hc.1, List.append_nil] at hpubs
  obtain ⟨st, a, ha, haid, hscan⟩ := h.account
  refine ⟨h.hook, ⟨st, a, Table.mem_put.mpr (Or.inr ⟨ha, fun e => hid ?_⟩), haid, hscan⟩, ?_, fun hh => ?_⟩
  · exact (hex.symm.trans e.2.symm).trans haid
  · rw [hpubs, ← hcounts, h.counts]
  · rw [show ((raised lastUpdate u status existing events db).withHeights lastUpdate [⟨u.id, status⟩]).events = events from
      rfl, hmem, mem_checkHooks, ← h.ongoing hh]
    refine ⟨fun hc => hc.1.resolve_right fun e => hid e.1.symm, fun hc => ⟨Or.inl hc, fun e => hid e.1.symm⟩⟩

end Step

/-! ## Runs -/

section Run

variable {env : Env} {p : Pair} {b : Batch}

/-- The accounts of a batch; the account starts at `start`, and is raised at most once. -/
theorem Pair.Counted.users (hreq : p.requested < 2 ^ 32) (hone : 1 ≤ p.requested)
    (hmatch : p.hook.paymentId = p.out.shortId) {start : Nat} {earlier : List Nat} : ∀ (users : List Lws.Account)
    {db db' : Storage} {out out' : Updated} {scan : Nat},
    (∀ u ∈ users, u.id = p.user → p.Honest b u ∧ p.NotRedelivered b start u) → db.Agree env →
    p.Counted db scan (earlier ++ p.counts out.confirmPubs) → (scan = start ∨ b.last ≤ scan) →
    updateUsersNow b.height b.last users out db = .ok (db', out') →
      ∃ scan', db'.Agree env ∧ p.Counted db' scan' (earlier ++ p.counts out'.confirmPubs) := by
  intro users
  induction users with
  | nil =>
    intro db db' out out' scan _ hagree h _ hrun
    cases hrun
    exact ⟨scan, hagree, h⟩
  | cons u users ih =>
    intro db db' out out' scan hall hagree h hstart hrun
    rw [List.forall_mem_cons] at hall
    unfold updateUsersNow at hrun
    obtain ⟨⟨mid, out₁⟩, hu, hrest⟩ := bind_ok.mp hrun
    rcases updateUserNow_cases hu with ⟨rfl, hpubs, -⟩ | ⟨status, existing, l, events, hex, hle, hlt, hl, hl', hev, rfl⟩
    · exact ih hall.2 hagree (hpubs ▸ h) hstart hrest
    · obtain ⟨hstored, hid⟩ := existingAccount_ok hex
      have hagree' := agree_change hagree (fun e => by cases e)
        (@Change.store env _ _ _ _ _ _ _ _ _ _ hstored hid hle hlt hl hl' hev)
      by_cases e : u.id = p.user
      · -- the row found is the account's
        obtain ⟨st, a, ha, haid, hscan⟩ := h.account
        cases hagree.ids _ hstored _ ha (hid.trans (e.trans haid.symm))
        obtain ⟨hb, hnot⟩ := hall.1 e
        have hsame : scan = start := hstart.resolve_right (by omega)
        refine ih hall.2 hagree' (h.own hreq hone hmatch hb (hsame ▸ hnot) e hid hscan (hscan ▸ hle) (hscan ▸ hlt) rfl hev)
          (Or.inr (Nat.le_refl _)) hrest
      · exact ih hall.2 hagree' (h.other e hid rfl hev) hstart hrest

def runUpdates (env : Env) : List Batch → Storage → Except Error (Storage × List WebhookTxConfirmation)
  | [], db => .ok (db, [])
  | b :: batches, db => do
    let (db, out) ← db.update env b.height b.chain b.users b.pow b.regtest
    let (db, pubs) ← runUpdates env batches db
    .ok (db, out.confirmPubs ++ pubs)

/-- No update of the sequence delivers the output again past its last confirmation. -/
def Pair.OnceDelivered (env : Env) (p : Pair) : List Batch → Storage → Prop
  | [], _ => True
  | b :: batches, db =>
    (∀ r ∈ db.accounts, r.2.id = p.user → ∀ u ∈ b.users, u.id = p.user → p.NotRedelivered b r.2.scanHeight u) ∧
      ∀ r ∈ (db.update env b.height b.chain b.users b.pow b.regtest).toOption, p.OnceDelivered env batches r.1

instance Pair.decidableOnceDelivered (env : Env) (p : Pair) : ∀ (batches : List Batch) (db : Storage),
    Decidable (p.OnceDelivered env batches db)
  | [], _ => inferInstanceAs (Decidable True)
  | b :: batches, db =>
    have := fun r : Storage × Updated => Pair.decidableOnceDelivered env p batches r.1
    inferInstanceAs (Decidable (
      (∀ r ∈ db.accounts, r.2.id = p.user → ∀ u ∈ b.users, u.id = p.user → p.NotRedelivered b r.2.scanHeight u) ∧
        ∀ r ∈ (db.update env b.height b.chain b.users b.pow b.regtest).toOption, p.OnceDelivered env batches r.1))

theorem Pair.Counted.update {db db' : Storage} {scan : Nat} {earlier : List Nat} {out : Updated}
    (hreq : p.requested < 2 ^ 32) (hone : 1 ≤ p.requested) (hmatch : p.hook.paymentId = p.out.shortId)
    (hhonest : ∀ u ∈ b.users, u.id = p.user → p.Honest b u)
    (honce : ∀ r ∈ db.accounts, r.2.id = p.user → ∀ u ∈ b.users, u.id = p.user → p.NotRedelivered b r.2.scanHeight u)
    (hagree : db.Agree env) (h : p.Counted db scan earlier)
    (hrun : db.update env b.height b.chain b.users b.pow b.regtest = .ok (db', out)) :
    ∃ scan', db'.Agree env ∧ p.Counted db' scan' (earlier ++ p.counts out.confirmPubs) := by
  have hempty : earlier ++ p.counts [] = earlier := List.append_nil _
  unfold Storage.update at hrun
  split at hrun
  · cases hrun
    exact ⟨scan, hagree, hempty.symm ▸ h⟩
  · split at hrun
    · cases hrun
    · split at hrun
      · cases hrun
      · obtain ⟨mid, hchain, hrun⟩ := bind_ok.mp hrun
        obtain ⟨blocks, pows, rfl⟩ := updateChain_ok hchain
        rw [updateUsers_eq, withHeights_nil] at hrun
        obtain ⟨st, a, ha, haid, rfl⟩ := h.account
        have hagree₁ : Storage.Agree env { db with blocks, pows } := hagree
        have h₁ : p.Counted { db with blocks, pows } a.scanHeight (earlier ++ p.counts []) := by
          rw [hempty]
          exact ⟨h.hook, h.account, h.counts, h.ongoing⟩
        exact Pair.Counted.users hreq hone hmatch b.users (fun u hu hid => ⟨hhonest u hu hid, honce _ ha haid u hu hid⟩)
          hagree₁ h₁ (Or.inl rfl) hrun

/-- For every sequence of updates from a state where the account is below the output's
    height, without a redelivery past the last confirmation: the counts published are
    1, 2, .. up to the number asked for or the last block, each once and in order. -/
theorem confirmations_exact (hreq : p.requested < 2 ^ 32) (hone : 1 ≤ p.requested)
    (hmatch : p.hook.paymentId = p.out.shortId) {batches : List Batch} {db db' : Storage} {pubs : List WebhookTxConfirmation}
    {st : AccountStatus} {a : Account} (hagree : db.Agree env) (hook : p.Hooked db.webhooks) (ha : (st, a) ∈ db.accounts)
    (hid : a.id = p.user) (hlow : a.scanHeight < p.height)
    (hhonest : ∀ b ∈ batches, ∀ u ∈ b.users, u.id = p.user → p.Honest b u) (honce : p.OnceDelivered env batches db)
    (hrun : runUpdates env batches db = .ok (db', pubs)) :
    ∃ st' a', (st', a') ∈ db'.accounts ∧ a'.id = p.user ∧
      p.counts pubs = List.range' 1 (min p.requested (a'.scanHeight + 1 - p.height)) := by
  have key : ∀ (batches : List Batch) {db db' : Storage} {pubs : List WebhookTxConfirmation} {scan : Nat} {earlier : List Nat},
      (∀ b ∈ batches, ∀ u ∈ b.users, u.id = p.user → p.Honest b u) → p.OnceDelivered env batches db → db.Agree env →
      p.Counted db scan earlier → runUpdates env batches db = .ok (db', pubs) →
        ∃ scan', p.Counted db' scan' (earlier ++ p.counts pubs) := by
    intro batches
    induction batches with
    | nil =>
      intro db db' pubs scan earlier _ _ _ h hrun
      cases hrun
      exact ⟨scan, (List.append_nil earlier).symm ▸ h⟩
    | cons b batches ih =>
      intro db db' pubs scan earlier hhonest honce hagree h hrun
      rw [List.forall_mem_cons] at hhonest
      obtain ⟨⟨mid, out⟩, hupd, hrun⟩ := bind_ok.mp hrun
      obtain ⟨⟨db₂, pubs₂⟩, hrest, hrun⟩ := bind_ok.mp hrun
      cases hrun
      obtain ⟨scan', hagree', h'⟩ := h.update hreq hone hmatch hhonest.1 honce.1 hagree hupd
      obtain ⟨scan'', h''⟩ := ih hhonest.2 (honce.2 (mid, out) (by rw [hupd]; rfl)) hagree' h' hrest
      exact ⟨scan'', by rw [counts_append, ← List.append_assoc]; exact h''⟩
  have hstart : p.Counted db a.scanHeight [] := by
    refine ⟨hook, ⟨st, a, ha, hid, rfl⟩, ?_, fun hle => by omega⟩
    rw [show min p.requested (a.scanHeight + 1 - p.height) = 0 by omega]; rfl
  obtain ⟨scan', h⟩ := key batches hhonest honce hagree hstart hrun
  obtain ⟨st', a', ha', hid', hscan'⟩ := h.account
  exact ⟨st', a', ha', hid', by rw [hscan']; exact h.counts⟩

end Run

/-- A webhook of `requested` confirmations, and an output for it in block 1. -/
def samplePair (requested : Nat) : Pair := ⟨1, sampleOutput 1 9, ⟨0, 77⟩, requested⟩

def pairOps (requested : Nat) : List Op :=
  [.addAccount 5 ⟨1007, 50⟩ 7 0, .syncChain 0 [100, 101, 102] false,
    .addWebhook .txConfirmation (some ⟨1007, 50⟩) (⟨0, 77⟩, ⟨"http://u", "t", requested⟩)]

def pairAccount : Account := ⟨1, 5, ⟨1007, 50⟩, 7, 0, 0, 5, 0, ⟨0, 0⟩, 0⟩

theorem pairOps_agree (requested : Nat) (h : requested = 1 ∨ requested = 3) :
    (Op.runs sampleEnv (pairOps requested)).Agree sampleEnv := by
  refine agree_reached (@reached_runs sampleEnv Honest _ ?_) ?_
  · rcases h with rfl | rfl <;> decide
  · rcases h with rfl | rfl <;> decide

/-- Blocks 1 and 2, then both again with block 3, then block 4. -/
def overlapBatches : List Batch :=
  [⟨0, [100, 101, 102], [sampleUser 0 [sampleOutput 1 9] []], [], false⟩,
    ⟨0, [100, 101, 102, 103], [sampleUser 0 [sampleOutput 1 9] []], [], false⟩,
    ⟨3, [103, 104], [sampleUser 3 [] []], [], false⟩]

theorem confirmations_exact_overlap : ∃ db' pubs st a,
    runUpdates sampleEnv overlapBatches (Op.runs sampleEnv (pairOps 3)) = .ok (db', pubs) ∧ (st, a) ∈ db'.accounts ∧
      a.id = 1 ∧ (samplePair 3).counts pubs = List.range' 1 (min 3 (a.scanHeight + 1 - 1)) := by
  have hok : (runUpdates sampleEnv overlapBatches (Op.runs sampleEnv (pairOps 3))).isOk = true := by decide
  rcases h : runUpdates sampleEnv overlapBatches (Op.runs sampleEnv (pairOps 3)) with e | ⟨db', pubs⟩
  · rw [h] at hok
    cases hok
  · obtain ⟨st, a, ha, hid, hcounts⟩ := @confirmations_exact sampleEnv (samplePair 3) (by decide) (by decide) (by decide)
      overlapBatches _ db' pubs .active pairAccount (pairOps_agree 3 (Or.inr rfl))
      ⟨⟨"http://u", "t", 3⟩, by decide, rfl⟩ (by decide) rfl (by decide) (by decide) (by decide) h
    exact ⟨db', pubs, st, a, rfl, ha, hid, hcounts⟩

/-- Blocks 1 and 2, then both again with block 3, for a webhook of one confirmation. -/
def repeatBatches : List Batch := overlapBatches.take 2

/-- Count 3 is published although one confirmation was asked for. -/
theorem redelivery_past_requested : ∃ db' pubs, (Op.runs sampleEnv (pairOps 1)).Agree sampleEnv ∧
    (samplePair 1).Hooked (Op.runs sampleEnv (pairOps 1)).webhooks ∧
    (.active, pairAccount) ∈ (Op.runs sampleEnv (pairOps 1)).accounts ∧
    (∀ b ∈ repeatBatches, ∀ u ∈ b.users, u.id = 1 → (samplePair 1).Honest b u) ∧
    runUpdates sampleEnv repeatBatches (Op.runs sampleEnv (pairOps 1)) = .ok (db', pubs) ∧
    (samplePair 1).counts pubs = [1, 3] ∧ ∀ n, (samplePair 1).counts pubs ≠ List.range' 1 (min 1 n) := by
  have hcounts : (match runUpdates sampleEnv repeatBatches (Op.runs sampleEnv (pairOps 1)) with
    | .ok (_, pubs) => decide ((samplePair 1).counts pubs = [1, 3])
    | .error _ => false) = true := by decide
  rcases h : runUpdates sampleEnv repeatBatches (Op.runs sampleEnv (pairOps 1)) with e | ⟨db', pubs⟩
  · rw [h] at hcounts
    cases hcounts
  · rw [h] at hcounts
    have hc : (samplePair 1).counts pubs = [1, 3] := of_decide_eq_true hcounts
    refine ⟨db', pubs, pairOps_agree 1 (Or.inl rfl), ⟨⟨"http://u", "t", 1⟩, by decide, rfl⟩, by decide, by decide, rfl, hc,
      fun n hn => ?_⟩
    have hlen := congrArg List.length (hc.symm.trans hn)
    simp only [List.length_cons, List.length_nil, List.length_range'] at hlen
    omega

end Lws.Db
