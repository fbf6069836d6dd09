/-
  Lws.Db.Hooks — the two webhook functions of an update: which events `check_hooks`
  starts (`mem_checkHooks`), and what `add_ongoing_hooks` publishes and completes
  (`addOngoingHooks_ok`, `addOngoingHooks_succeeds`).
-/

import Lws.Db.UpdateProofs

namespace Lws.Db

open Lws.Lmdb

/-! ## Events -/

theorem event_sort_inj {e f : WebhookEvent} (h : e.sort = f.sort) : e = f := by
  obtain ⟨⟨tx, out⟩, hook⟩ := e
  obtain ⟨⟨tx', out'⟩, hook'⟩ := f
  have h1 := Prod.mk.inj (toLex.injective h)
  have h2 := Prod.mk.inj (toLex.injective h1.1)
  simp only at h1 h2
  rw [h1.2, h2.1, h2.2]

/-- A row of `events` is all sort fields, so writing one only adds it. -/
theorem mem_put_event {events : Events} {user : Nat} {e : WebhookEvent} {r : Nat × WebhookEvent} :
    r ∈ events.put user e ↔ r = (user, e) ∨ r ∈ events := by
  rw [Table.mem_put]
  refine ⟨fun h => h.imp id And.left, fun h => ?_⟩
  by_cases he : r = (user, e)
  · exact Or.inl he
  · refine Or.inr ⟨h.resolve_left he, fun hs => he ?_⟩
    exact Prod.ext hs.1 (event_sort_inj hs.2)

theorem mem_putAll_events {user : Nat} {r : Nat × WebhookEvent} : ∀ {list : List WebhookEvent} {events : Events},
    r ∈ events.putAll user list ↔ r ∈ events ∨ (r.1 = user ∧ r.2 ∈ list) := by
  intro list
  induction list with
  | nil => intro events; simp [Table.putAll]
  | cons e list ih =>
    intro events
    show r ∈ (events.put user e).putAll user list ↔ _
    rw [ih, mem_put_event, List.mem_cons]
    refine ⟨fun h => ?_, fun h => ?_⟩
    · rcases h with (rfl | h) | ⟨h1, h2⟩
      · exact Or.inr ⟨rfl, Or.inl rfl⟩
      · exact Or.inl h
      · exact Or.inr ⟨h1, Or.inr h2⟩
    · rcases h with h | ⟨h1, h2 | h2⟩
      · exact Or.inl (Or.inr h)
      · exact Or.inl (Or.inl (Prod.ext h1 h2))
      · exact Or.inr ⟨h1, h2⟩

/-! ## Starting events -/

section TakeRun

variable {α : Type}

/-- In a sorted list, what is dropped is all that is below. -/
theorem dropWhile_eq_filter {q : α → Bool} {R : α → α → Prop} (hup : ∀ x y, R x y → q x = true → q y = true) :
    ∀ {l : List α}, l.Pairwise R → l.dropWhile (fun x => !q x) = l.filter q := by
  intro l
  induction l with
  | nil => intro _; rfl
  | cons x l ih =>
    intro hs
    rw [List.pairwise_cons] at hs
    cases hx : q x with
    | false => simp only [List.dropWhile_cons, List.filter_cons, hx]; exact ih hs.2
    | true =>
      have hall : (x :: l).filter q = x :: l := List.filter_eq_self.mpr fun y hy => by
        rcases List.mem_cons.mp hy with rfl | hy
        · exact hx
        · exact hup x y (hs.1 y hy) hx
      rw [hall]
      simp only [List.dropWhile_cons, hx]; rfl

/-- In a sorted list, what is taken runs to the last value that may be. -/
theorem mem_takeWhile_of {p : α → Bool} {R : α → α → Prop} {x : α} (hx : p x = true) : ∀ {l : List α},
    l.Pairwise R → (∀ y ∈ l, R y x → p y = true) → x ∈ l → x ∈ l.takeWhile p := by
  intro l
  induction l with
  | nil => intro _ _ h; cases h
  | cons y l ih =>
    intro hs hall h
    rw [List.pairwise_cons] at hs
    rw [List.takeWhile_cons]
    rcases List.mem_cons.mp h with rfl | h
    · rw [if_pos hx]; exact List.mem_cons_self
    · rw [if_pos (hall y List.mem_cons_self (hs.1 x h))]
      exact List.mem_cons_of_mem _ (ih hs.2 (fun z hz => hall z (List.mem_cons_of_mem _ hz)) h)

end TakeRun

theorem hook_le {d d' : WebhookDupsort} (h : d < d') : d.paymentId ≤ d'.paymentId := by
  change toLex (d.paymentId, d.eventId) < toLex (d'.paymentId, d'.eventId) at h
  rcases Prod.Lex.toLex_lt_toLex.mp h with h | h
  · exact Nat.le_of_lt h
  · exact Nat.le_of_eq h.1

theorem sorter_le {paymentId : Nat} {d : WebhookDupsort} :
    (⟨paymentId, 0⟩ : WebhookDupsort) ≤ d ↔ paymentId ≤ d.paymentId := by
  change toLex (paymentId, 0) ≤ toLex (d.paymentId, d.eventId) ↔ _
  rw [Prod.Lex.toLex_le_toLex]
  refine ⟨fun h => ?_, fun h => ?_⟩
  · rcases h with h | h
    · exact Nat.le_of_lt h
    · exact Nat.le_of_eq h.1
  · rcases Nat.lt_or_eq_of_le h with h | h
    · exact Or.inl h
    · exact Or.inr ⟨h, Nat.zero_le _⟩

/-- The hooks of a payment id are a run of the sorted hooks of the user. -/
theorem mem_hookEvents {webhooks : Webhooks} {user : Nat} {out : Output} {e : WebhookEvent} :
    e ∈ hookEvents webhooks user out ↔ e.link = ⟨out.link, out.spendMeta.id⟩ ∧ e.linkWebhook.paymentId = out.shortId ∧
      ∃ data, (⟨user, .txConfirmation⟩, (e.linkWebhook, data)) ∈ webhooks := by
  have hup : ∀ v w : WebhookValue, v.1 < w.1 → decide ((⟨out.shortId, 0⟩ : WebhookDupsort) ≤ v.1) = true →
      decide ((⟨out.shortId, 0⟩ : WebhookDupsort) ≤ w.1) = true := by
    intro v w hlt hv
    exact decide_eq_true ((of_decide_eq_true hv).trans hlt.le)
  unfold hookEvents Table.dupsFrom
  dsimp only
  rw [dropWhile_eq_filter hup (Table.dups_sorted _ _), List.mem_map]
  refine ⟨fun ⟨hook, hh, he⟩ => ?_, fun ⟨hlink, hpay, data, hd⟩ => ⟨(e.linkWebhook, data), ?_, ?_⟩⟩
  · subst he
    have hin := List.mem_filter.mp ((List.takeWhile_sublist _).mem hh)
    refine ⟨rfl, ?_, hook.2, Table.mem_dups.mp hin.1⟩
    have hp := List.mem_takeWhile_imp hh
    exact of_decide_eq_true hp
  · have hmem : (e.linkWebhook, data) ∈ (webhooks.dups ⟨user, .txConfirmation⟩).filter
        (fun hook => decide ((⟨out.shortId, 0⟩ : WebhookDupsort) ≤ hook.1)) :=
      List.mem_filter.mpr ⟨Table.mem_dups.mpr hd, decide_eq_true (sorter_le.mpr hpay.ge)⟩
    have hsorted : ((webhooks.dups ⟨user, .txConfirmation⟩).filter
        (fun hook => decide ((⟨out.shortId, 0⟩ : WebhookDupsort) ≤ hook.1))).Pairwise fun v w => v.1 < w.1 :=
      (Table.dups_sorted _ _).sublist List.filter_sublist
    refine mem_takeWhile_of ?_ hsorted (fun y hy hlt => ?_) hmem
    · exact decide_eq_true hpay
    · have h1 := sorter_le.mp (of_decide_eq_true (List.mem_filter.mp hy).2)
      have h2 : y.1.paymentId ≤ e.linkWebhook.paymentId := hook_le hlt
      exact decide_eq_true (Nat.le_antisymm (h2.trans hpay.le) h1)
  · obtain ⟨link, hook⟩ := e
    cases hlink
    rfl

theorem mem_checkHooks {webhooks : Webhooks} {user : Lws.Account} {events : Events} {r : Nat × WebhookEvent} :
    r ∈ checkHooks webhooks user events ↔
      r ∈ events ∨ (r.1 = user.id ∧ ∃ o ∈ user.outputs, r.2 ∈ hookEvents webhooks user.id o) := by
  unfold checkHooks
  have key : ∀ (outputs : List Output) (events : Events),
      r ∈ outputs.foldl (fun events out => events.putAll user.id (hookEvents webhooks user.id out)) events ↔
        r ∈ events ∨ (r.1 = user.id ∧ ∃ o ∈ outputs, r.2 ∈ hookEvents webhooks user.id o) := by
    intro outputs
    induction outputs with
    | nil => intro events; simp
    | cons o outputs ih =>
      intro events
      rw [List.foldl_cons, ih, mem_putAll_events, or_assoc]
      refine or_congr_right ⟨fun h => ?_, fun ⟨h1, p, hp, h2⟩ => ?_⟩
      · rcases h with ⟨h1, h2⟩ | ⟨h1, p, hp, h2⟩
        · exact ⟨h1, o, List.mem_cons_self, h2⟩
        · exact ⟨h1, p, List.mem_cons_of_mem _ hp, h2⟩
      · rcases List.mem_cons.mp hp with rfl | hp
        · exact Or.inl ⟨h1, h2⟩
        · exact Or.inr ⟨h1, p, hp, h2⟩
  exact key user.outputs events

/-! ## Ongoing events -/

def publishedCounts (requested begin_ end_ height : Nat) : List Nat :=
  if max begin_ height < end_ then
    confirmationsFrom requested (end_ - (max begin_ height + 1)) ((max begin_ height - height + 1) % 2 ^ 32)
  else []

def eventPubs (webhooks : Webhooks) (outputs : Outputs) (user begin_ end_ : Nat) (e : WebhookEvent) :
    List WebhookTxConfirmation :=
  match webhooks.get? ⟨user, .txConfirmation⟩ e.linkWebhook, outputs.get? user e.link.sort with
  | some hook, some out =>
    (publishedCounts hook.2.confirmations begin_ end_ e.link.tx.height).map fun n =>
      ⟨⟨user, .txConfirmation⟩, (hook.1, { hook.2 with confirmations := n }), out⟩
  | _, _ => []

def eventDone (webhooks : Webhooks) (user begin_ end_ : Nat) (e : WebhookEvent) : Bool :=
  match webhooks.get? ⟨user, .txConfirmation⟩ e.linkWebhook with
  | none => false
  | some hook => decide (max begin_ e.link.tx.height < end_) && decide (hook.2.confirmations ≤
      (publishedCounts hook.2.confirmations begin_ end_ e.link.tx.height).getLast?.getD 0)

section Ongoing

variable {webhooks : Webhooks} {outputs : Outputs} {user begin_ end_ : Nat}

/-- The lookups of an event that is due succeed. -/
def HooksFound (webhooks : Webhooks) (outputs : Outputs) (user begin_ end_ : Nat) (e : WebhookEvent) : Prop :=
  max begin_ e.link.tx.height < end_ →
    (∃ data, (⟨user, .txConfirmation⟩, (e.linkWebhook, data)) ∈ webhooks) ∧ ∃ o, (user, o) ∈ outputs ∧ o.sort = e.link.sort

theorem ongoingHook_found {e : WebhookEvent} (h : HooksFound webhooks outputs user begin_ end_ e) (id : Nat)
    (pubs : List WebhookTxConfirmation) :
    ongoingHook webhooks outputs user begin_ end_ pubs (id, e) =
      .ok (pubs ++ eventPubs webhooks outputs user begin_ end_ e, eventDone webhooks user begin_ end_ e) := by
  unfold ongoingHook eventPubs eventDone publishedCounts
  by_cases hlt : max begin_ e.link.tx.height < end_
  · obtain ⟨⟨data, hd⟩, o, ho, hs⟩ := h hlt
    have h1 : webhooks.get? ⟨user, .txConfirmation⟩ e.linkWebhook = some (e.linkWebhook, data) :=
      Table.get?_eq_some.mpr ⟨hd, rfl⟩
    have h2 : outputs.get? user e.link.sort = some o := Table.get?_eq_some.mpr ⟨ho, hs⟩
    have h3 : require webhooks ⟨user, .txConfirmation⟩ e.linkWebhook = .ok (e.linkWebhook, data) := require_ok.mpr ⟨hd, rfl⟩
    have h4 : require outputs user e.link.sort = .ok o := require_ok.mpr ⟨ho, hs⟩
    simp only [hlt, if_true, h1, h2, h3, h4, bind, Except.bind, decide_true, Bool.true_and]
  · simp only [hlt, if_false, List.map_nil, decide_false, Bool.false_and]
    split <;> split <;> simp

theorem ongoingHook_ok {pubs pubs' : List WebhookTxConfirmation} {r : Nat × WebhookEvent} {b : Bool}
    (h : ongoingHook webhooks outputs user begin_ end_ pubs r = .ok (pubs', b)) :
    HooksFound webhooks outputs user begin_ end_ r.2 := by
  intro hlt
  unfold ongoingHook at h
  simp only [hlt, if_true] at h
  obtain ⟨hook, hh, h⟩ := bind_ok.mp h
  obtain ⟨out, ho, -⟩ := bind_ok.mp h
  obtain ⟨hm, hs⟩ := require_ok.mp hh
  refine ⟨⟨hook.2, ?_⟩, out, require_ok.mp ho⟩
  rw [← hs]; exact hm

theorem deletes_ongoingHook : Deletes (ongoingHook webhooks outputs user begin_ end_)
    fun r => eventDone webhooks user begin_ end_ r.2 := by
  intro pubs r pubs' b h
  rw [ongoingHook_found (ongoingHook_ok h) r.1 pubs] at h
  cases h
  rfl

theorem visit_ongoingHook : ∀ (rows : List (Nat × WebhookEvent)) {pubs : List WebhookTxConfirmation},
    (∀ r ∈ rows, HooksFound webhooks outputs user begin_ end_ r.2) →
      visit (ongoingHook webhooks outputs user begin_ end_) pubs rows =
        .ok (pubs ++ rows.flatMap fun r => eventPubs webhooks outputs user begin_ end_ r.2) := by
  intro rows
  induction rows with
  | nil => intro pubs _; simp
  | cons r rows ih =>
    intro pubs hall
    rw [List.forall_mem_cons] at hall
    rw [visit_cons, ongoingHook_found hall.1 r.1 pubs]
    show visit _ (pubs ++ _) rows = _
    rw [ih hall.2, List.flatMap_cons, List.append_assoc]

theorem visit_ongoingHook_ok : ∀ (rows : List (Nat × WebhookEvent)) {pubs pubs' : List WebhookTxConfirmation},
    visit (ongoingHook webhooks outputs user begin_ end_) pubs rows = .ok pubs' →
      ∀ r ∈ rows, HooksFound webhooks outputs user begin_ end_ r.2 := by
  intro rows
  induction rows with
  | nil => intro pubs pubs' _ r hr; cases hr
  | cons q rows ih =>
    intro pubs pubs' h r hr
    rw [visit_cons] at h
    obtain ⟨⟨mid, b⟩, hq, h⟩ := bind_ok.mp h
    rcases List.mem_cons.mp hr with rfl | hr
    · exact ongoingHook_ok hq
    · exact ih h r hr

/-- With nothing due, nothing is published and no event completes. -/
theorem not_due {e : WebhookEvent} (h : ¬ max begin_ e.link.tx.height < end_) :
    eventPubs webhooks outputs user begin_ end_ e = [] ∧ eventDone webhooks user begin_ end_ e = false := by
  unfold eventPubs eventDone publishedCounts
  refine ⟨?_, ?_⟩
  · split
    · rw [if_neg h]; rfl
    · rfl
  · split
    · rfl
    · rw [decide_eq_false h, Bool.false_and]

/-- What a successful call publishes and leaves, and that its lookups succeeded. -/
theorem addOngoingHooks_ok {pubs pubs' : List WebhookTxConfirmation} {events events' : Events}
    (h : addOngoingHooks webhooks outputs user begin_ end_ pubs events = .ok (pubs', events')) :
    (∀ e, (user, e) ∈ events → HooksFound webhooks outputs user begin_ end_ e) ∧
      pubs' = pubs ++ (events.dups user).flatMap (eventPubs webhooks outputs user begin_ end_) ∧
      ∀ r, r ∈ events' ↔ r ∈ events ∧ ¬ (r.1 = user ∧ eventDone webhooks user begin_ end_ r.2 = true) := by
  unfold addOngoingHooks at h
  by_cases he : begin_ = end_
  · rw [if_pos he] at h
    cases h
    have hnot : ∀ e : WebhookEvent, ¬ max begin_ e.link.tx.height < end_ := fun e hlt => by omega
    refine ⟨fun e _ hlt => absurd hlt (hnot e), ?_, fun r => ?_⟩
    · rw [List.flatMap_eq_nil_iff.mpr fun e _ => (not_due (hnot e)).1, List.append_nil]
    · rw [(@not_due webhooks outputs user begin_ end_ r.2 (hnot r.2)).2]
      simp
  · rw [if_neg he, Table.eachDup_eq _ _ deletes_ongoingHook] at h
    obtain ⟨p, hv, h⟩ := bind_ok.mp h
    cases h
    have hall := visit_ongoingHook_ok _ hv
    refine ⟨fun e hin => hall (user, e) (List.mem_filter.mpr ⟨hin, decide_eq_true rfl⟩), ?_, fun r => ?_⟩
    · rw [visit_ongoingHook _ hall] at hv
      cases hv
      rw [Table.dups, List.flatMap_map]
    · rw [Table.mem_filter]
      refine and_congr_right fun _ => ?_
      rw [Bool.not_eq_true', ← Bool.not_eq_true, Bool.and_eq_true, decide_eq_true_eq]

theorem addOngoingHooks_succeeds {events : Events}
    (h : ∀ e, (user, e) ∈ events → HooksFound webhooks outputs user begin_ end_ e) (pubs : List WebhookTxConfirmation) :
    ∃ out, addOngoingHooks webhooks outputs user begin_ end_ pubs events = .ok out := by
  unfold addOngoingHooks
  split
  · exact ⟨_, rfl⟩
  · have hall : ∀ r ∈ events.rows.filter (fun r => decide (r.1 = user)), HooksFound webhooks outputs user begin_ end_ r.2 := by
      intro r hr
      obtain ⟨hin, hid⟩ := List.mem_filter.mp hr
      exact h r.2 (of_decide_eq_true hid ▸ hin)
    rw [Table.eachDup_eq _ _ deletes_ongoingHook, visit_ongoingHook _ hall]
    exact ⟨_, rfl⟩

end Ongoing

end Lws.Db
