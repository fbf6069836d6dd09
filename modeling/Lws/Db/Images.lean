/-
  Lws.Db.Images — the images are the projection of the spends, and rolling back spends
  finds every image.

  The row of an image is keyed by the output and shared by every account that knows it,
  while `rollback_spends` deletes it for one of them: two accounts that spend one output
  break it (`shared_image_lost`). And a rescan to the height of an output deletes the
  output while the account still knows it, so that a later spend of it has no source.
  In a run that does neither, `images_exact` holds in every state.
-/

import Lws.Db.History

namespace Lws.Db

open Lws.Lmdb Lws.Transition

/-- What an account's rows promise each other, with the outputs seen so far. -/
structure Projected (seen : List (Nat × WebhookOutput)) (db : Storage) : Prop where
  records : Records db
  rows : ∀ r ∈ db.spends, ∃ x ∈ db.images, isImageOf r.2 x
  owner : ∀ r ∈ db.spends, ∀ q ∈ db.spends, SameImage r.2 q.2 → r.1 = q.1
  sources : ∀ r ∈ db.spends, ∃ o, (r.1, o) ∈ db.outputs ∧ o.spendMeta.id = r.2.source ∧ o.link.height ≤ r.2.link.height
  stored : StillStored (fun id w => (id, w) ∈ seen) db

/-- The data of an update names no output and image that another account has spent. -/
def Unshared (db : Storage) (users : List Lws.Account) : Prop :=
  ∀ u ∈ users, ∀ s ∈ u.spends, (∀ r ∈ db.spends, r.1 ≠ u.id → ¬ SameImage r.2 s) ∧
    ∀ v ∈ users, v.id ≠ u.id → ∀ q ∈ v.spends, ¬ SameImage q s

instance (db : Storage) (users : List Lws.Account) : Decidable (Unshared db users) :=
  inferInstanceAs (Decidable (∀ u ∈ users, ∀ s ∈ u.spends, (∀ r ∈ db.spends, r.1 ≠ u.id → ¬ SameImage r.2 s) ∧
    ∀ v ∈ users, v.id ≠ u.id → ∀ q ∈ v.spends, ¬ SameImage q s))

/-- No account goes back to a height it was scanned to and has an output at. -/
def NoOutputAtTarget (db : Storage) (op : Op) : Prop :=
  ∀ t ∈ op.targets db, ∀ r ∈ db.accounts, r.2.id = t.1 → t.2 ≤ r.2.scanHeight →
    ∀ q ∈ db.outputs, q.1 = t.1 → q.2.link.height ≠ t.2

instance (db : Storage) (op : Op) : Decidable (NoOutputAtTarget db op) :=
  inferInstanceAs (Decidable (∀ t ∈ op.targets db, ∀ r ∈ db.accounts, r.2.id = t.1 → t.2 ≤ r.2.scanHeight →
    ∀ q ∈ db.outputs, q.1 = t.1 → q.2.link.height ≠ t.2))

/-! ## Images of a batch -/

theorem mem_addImages_of_mem {x : OutputId × ImageRow} : ∀ {list : List Spend} {images : Images}, x ∈ images →
    x ∈ addImages list images := by
  intro list
  induction list with
  | nil => intro images h; exact h
  | cons s list ih => intro images h; exact ih (Table.mem_putAbsent.mpr (Or.inl h))

theorem addImages_stores {s : Spend} : ∀ {list : List Spend} {images : Images}, s ∈ list →
    ∃ x ∈ addImages list images, isImageOf s x := by
  intro list
  induction list with
  | nil => intro images h; cases h
  | cons t list ih =>
    intro images h
    rcases List.mem_cons.mp h with rfl | h
    · by_cases e : ∃ w, (s.source, w) ∈ images ∧ w.value = s.image
      · obtain ⟨w, hw, hv⟩ := e
        exact ⟨(s.source, w), mem_addImages_of_mem hw, rfl, hv⟩
      · have hnew : (s.source, ⟨s.image, s.link⟩) ∈ images.putAbsent s.source ⟨s.image, s.link⟩ :=
          Table.mem_putAbsent.mpr (Or.inr ⟨rfl, fun w hw hv => e ⟨w, hw, hv⟩⟩)
        exact ⟨_, @mem_addImages_of_mem _ list _ hnew, rfl, rfl⟩
    · exact ih h

/-! ## Every change keeps the projection -/

section Projected

variable {env : Env} {seen : List (Nat × WebhookOutput)} {db db' : Storage}

theorem Projected.alone (h : Projected seen db) {r q : Nat × Spend} (hr : r ∈ db.spends) (hq : q ∈ db.spends)
    (hsame : SameImage r.2 q.2) : r = q := by
  have howner := h.owner r hr q hq hsame
  have hsort : r.2.sort = q.2.sort := by
    unfold Spend.sort
    rw [h.records.links r hr q hq hsame, hsame.1, hsame.2]
  have hq' : (r.1, q.2) ∈ db.spends := howner ▸ hq
  exact Prod.ext howner (Table.unique_val (show (r.1, r.2) ∈ db.spends from hr) hq' hsort)

/-- What a batch promises of the account it stores, in a state the batch passes through. -/
def ProjectedAct (seen : List (Nat × WebhookOutput)) (mid : Storage) : Act → Prop
  | .store _ lastUpdate user => ∃ db users, user ∈ users ∧ HonestScan ⟨db, seen⟩ lastUpdate users ∧ Unshared db users ∧
    Grown users db mid
  | _ => True

theorem ProjectedAct.honest {act : Act} (h : ProjectedAct seen db act) : HonestAct db act := by
  cases act with
  | store _ lastUpdate user =>
    obtain ⟨base, users, hu, hs, -, hg⟩ := h
    exact ⟨base, users, hu, hs.toHonestBatch, hg⟩
  | _ => trivial

/-- Deleting spends along with their images, and only outputs at the height of a deleted
    spend or above. -/
theorem Projected.drop (h : Projected seen db) (gone : Nat → Nat → Prop) (hrec : Records db')
    (hup : ∀ id j k, gone id j → j ≤ k → gone id k)
    (houtputs : ∀ r, r ∈ db'.outputs ↔ r ∈ db.outputs ∧ ¬ gone r.1 r.2.link.height)
    (hspends : ∀ r, r ∈ db'.spends ↔ r ∈ db.spends ∧ ¬ gone r.1 r.2.link.height)
    (himages : ∀ x, x ∈ db'.images ↔ x ∈ db.images ∧ ∀ r ∈ db.spends, gone r.1 r.2.link.height → ¬ isImageOf r.2 x)
    {seen' : List (Nat × WebhookOutput)} (hstored : StillStored (fun id w => (id, w) ∈ seen') db') :
    Projected seen' db' := by
  refine ⟨hrec, fun r hr => ?_, fun r hr q hq => ?_, fun r hr => ?_, hstored⟩
  · obtain ⟨hr, hstays⟩ := (hspends r).mp hr
    obtain ⟨x, hx, hi⟩ := h.rows r hr
    refine ⟨x, (himages x).mpr ⟨hx, fun q hq hgone hqi => hstays ?_⟩, hi⟩
    rw [h.alone hr hq ⟨hi.1.symm.trans hqi.1, hi.2.symm.trans hqi.2⟩]
    exact hgone
  · exact h.owner r ((hspends r).mp hr).1 q ((hspends q).mp hq).1
  · obtain ⟨hr, hstays⟩ := (hspends r).mp hr
    obtain ⟨o, ho, hid, hle⟩ := h.sources r hr
    exact ⟨o, (houtputs _).mpr ⟨ho, fun hgone => hstays (hup _ _ _ hgone hle)⟩, hid, hle⟩

theorem projected_change {act : Act} (hagree : db.Agree env) (hagree' : db'.Agree env) (h : Projected seen db)
    (hspares : Spares (fun id w => (id, w) ∈ seen) db act) (hok : ProjectedAct seen db act) (hc : Change env act db db') :
    Projected seen db' := by
  have hstored := stillStored_change hagree hagree' h.stored hspares hc
  have hrec := records_change h.records hok.honest hc
  cases hc with
  | @lower _ b a a' l height spends images hb ha hid hsame hs hl hl' =>
    obtain ⟨rfl, himg⟩ := rollbackSpends_ok hs
    refine h.drop (fun id k => id = a.id ∧ height ≤ k) hrec (fun id j k hj hle => ⟨hj.1, hj.2.trans hle⟩)
      (fun r => ?_) (fun r => ?_) (fun x => ?_) hstored
    · exact Table.mem_filter.trans (and_congr_right fun _ => not_outputAbove)
    · exact Table.mem_filter.trans (and_congr_right fun _ => not_spendAbove)
    · refine (himg x).trans (and_congr_right fun _ => ⟨fun hall r hr hg => ?_, fun hall s hs' hh => ?_⟩)
      · exact hall r.2 (hg.1 ▸ hr) hg.2
      · exact hall (a.id, s) hs' ⟨rfl, hh⟩
  | rewind hrw => exact hspares.elim
  | @store _ height lastUpdate user status existing l pubs pubs' events ha hid hscan hlt hl hl' hooks =>
    obtain ⟨base, users, hu, hhonest, hun, hg⟩ := hok
    refine ⟨hrec, fun r hr => ?_, fun r hr q hq hsame => ?_, fun r hr => ?_, hstored⟩
    · rcases Table.mem_putAllAbsent hr with hr | ⟨-, hr⟩
      · obtain ⟨x, hx, hi⟩ := h.rows r hr
        exact ⟨x, mem_addImages_of_mem hx, hi⟩
      · exact addImages_stores hr
    · -- a spend of the batch and a stored one are of one account
      have hnew : ∀ {r q : Nat × Spend}, r ∈ db.spends → q.1 = user.id → q.2 ∈ user.spends → SameImage r.2 q.2 →
          r.1 = q.1 := by
        intro r q hr hq1 hq hsame
        rw [hq1]
        by_contra hne
        rcases hg.spends r hr with hr | ⟨v, hv, hv1, hr⟩
        · exact (hun user hu q.2 hq).1 r hr hne hsame
        · exact (hun user hu q.2 hq).2 v hv (by rw [hv1]; exact hne) r.2 hr hsame
      rcases Table.mem_putAllAbsent hr with hr | ⟨hr1, hr⟩ <;> rcases Table.mem_putAllAbsent hq with hq | ⟨hq1, hq⟩
      · exact h.owner r hr q hq hsame
      · exact hnew hr hq1 hq hsame
      · exact (hnew hq hr1 hr ⟨hsame.1.symm, hsame.2.symm⟩).symm
      · rw [hr1, hq1]
    · rcases Table.mem_putAllAbsent hr with hr | ⟨hr1, hr⟩
      · obtain ⟨o, ho, hrest⟩ := h.sources r hr
        exact ⟨o, Table.mem_putAllAbsent_of_mem ho, hrest⟩
      · -- the source is in the batch, or was seen: then it is stored, or in the batch again
        have hin : ∃ w, (user.id, w) ∈ refs (db.outputs.putAllAbsent user.id user.outputs) ∧ w.out = r.2.source ∧
            w.tx.height ≤ r.2.link.height := by
          rcases hhonest.sources user hu r.2 hr with ⟨⟨id, w⟩, hw, rfl, hout, hle⟩ | ⟨o, ho, hout, hle⟩
          · refine ⟨w, (hstored user.id w hw).2 ⟨status, _, Table.mem_put_self _ _ _, hid, ?_⟩, hout, hle⟩
            exact hle.trans (hhonest.spends user hu r.2 hr)
          · exact ⟨o.ref, stored_of_batch ho, hout, hle⟩
        obtain ⟨w, hw, hout, hle⟩ := hin
        obtain ⟨o, ho, rfl⟩ := mem_refs.mp hw
        rw [hr1]
        exact ⟨o, ho, hout, hle⟩
  | _ => exact ⟨hrec, h.rows, h.owner, h.sources, hstored⟩

/-! ## Runs -/

def ImagesOk (t : Trace) (op : Op) : Prop :=
  HonestOp t op ∧ (∀ b ∈ op.batch, Unshared t.db b.2) ∧ NoOutputAtTarget t.db op

instance (t : Trace) (op : Op) : Decidable (ImagesOk t op) := inferInstanceAs (Decidable (_ ∧ _ ∧ _))

theorem projected_run {t : Trace} {op : Op} (hagree : t.db.Agree env) (hcount : db'.accounts.rows.length < 2 ^ 32 - 2)
    (h : Projected t.seen t.db) (hok : ImagesOk t op) (hf : op.forkAt t.db = none) (hrun : op.run env t.db = .ok db') :
    Projected (t.seen ++ refs db'.outputs) db' := by
  have hend := ((run_changes hrun).keeps_agree (Projected t.seen) ?_ hcount hagree h).2
  · refine ⟨hend.records, hend.rows, hend.owner, hend.sources, fun id w hw => ?_⟩
    rcases List.mem_append.mp hw with hw | hw
    · exact hend.stored id w hw
    · obtain ⟨o, ho, rfl⟩ := mem_refs.mp hw
      exact ⟨(hend.records.outputs _ ho).zero, fun _ => hw⟩
  · intro u u' act hu hu' hinv ha hc
    obtain ⟨hhonest, hun, hnone⟩ := hok
    refine projected_change hu hu' hinv ?_ ?_ hc
    · cases act with
      | lower user height =>
        obtain ⟨hin, hlow⟩ := acts_lower.mp ha
        intro st a hst hid hle w hw he
        obtain ⟨a₀, ha₀, hid₀, hle₀⟩ := hlow.accounts st a hst
        have hsc : Scanned t.db.accounts user w.tx.height := ⟨st, a₀, ha₀, hid₀.trans hid, by omega⟩
        obtain ⟨o, ho, rfl⟩ := mem_refs.mp ((h.stored user w hw).2 hsc)
        exact hnone _ hin _ ha₀ (hid₀.trans hid) (hle.trans hle₀) _ ho rfl he
      | store start lastUpdate user =>
        obtain ⟨chain, users, pow, regtest, rfl, rfl, hin, -⟩ := acts_store ha
        exact fun w hw h1 h2 => (hhonest _ rfl).again user hin (user.id, w) hw rfl h1 h2
      | rewind height =>
        obtain ⟨-, hfork⟩ := acts_rewind.mp ha
        cases hf.symm.trans hfork
      | _ => trivial
    · cases act with
      | store start lastUpdate user =>
        obtain ⟨chain, users, pow, regtest, rfl, rfl, hin, hg⟩ := acts_store ha
        exact ⟨t.db, users, hin, hhonest _ rfl, hun _ rfl, hg⟩
      | _ => trivial

theorem projected_rewind {height : Nat} {mid : Storage} (hagree : db.Agree env) (h : Projected seen db)
    (hrw : Rewound height db mid) : Projected (seenBelow height seen) mid := by
  refine h.drop (fun id k => height ≤ k ∧ ∃ l ∈ lookupsAbove db.accountsBh height, l.id = id)
    (records_change h.records (show HonestAct db (.rewind height) from trivial) (@Change.rewind env _ _ _ hrw))
        (fun id j k hj hle => ⟨hj.1.trans hle, hj.2⟩)
    hrw.outputs hrw.spends (fun x => ?_) fun id w hw => ?_
  · refine (hrw.images x).trans (and_congr_right fun _ => ⟨fun hall r hr hg => hall r hr hg.1 hg.2, fun hall r hr h1 h2 => ?_⟩)
    exact hall r hr ⟨h1, h2⟩
  · exact stillStored_rewind hagree h.stored hrw id w (mem_seenBelow.mp hw)

theorem projected_traced {t : Trace} (h : Traced env ImagesOk t) (hcount : t.db.accounts.rows.length < 2 ^ 32 - 2) :
    Projected t.seen t.db := by
  refine h.invariant (fun t => Projected t.seen t.db) ?_ (fun hagree hlt hinv hok hf hrun => ?_)
    (fun hagree hinv hrw => ?_) hcount
  · refine ⟨records_fresh env, fun _ hr => ?_, fun _ hr => ?_, fun _ hr => ?_, fun _ _ hw => ?_⟩
    · exact absurd hr (Table.not_mem_empty _)
    · exact absurd hr (Table.not_mem_empty _)
    · exact absurd hr (Table.not_mem_empty _)
    · cases hw
  · exact projected_run hagree hlt hinv hok hf hrun
  · have hmid := projected_rewind hagree hinv hrw
    exact ⟨⟨hmid.records.outputs, hmid.records.spends, hmid.records.images, hmid.records.links⟩, hmid.rows, hmid.owner,
      hmid.sources, hmid.stored⟩

/-! ## Rolling back succeeds -/

/-- Each spend has an image row of its own. -/
structure Imaged (db : Storage) : Prop where
  rows : ∀ r ∈ db.spends, ∃ x ∈ db.images, isImageOf r.2 x
  alone : ∀ r ∈ db.spends, ∀ q ∈ db.spends, SameImage r.2 q.2 → r = q

theorem Imaged.rollbackSpends (h : Imaged db) (user height : Nat) :
    ∃ out, rollbackSpends user height db.spends db.images = .ok out := by
  refine rollbackSpends_succeeds (fun s hs _ => h.rows _ hs) fun s t hs ht h1 h2 => ?_
  exact congrArg Prod.snd (h.alone (user, s) hs (user, t) ht ⟨h1, h2⟩)

theorem Imaged.rolledBack {height newHeight : Nat} {lookups : List AccountLookup} (h : Imaged db)
    (hrb : RolledBack height newHeight lookups db db') : Imaged db' := by
  refine ⟨fun r hr => ?_, fun r hr q hq => h.alone r ((hrb.spends r).mp hr).1 q ((hrb.spends q).mp hq).1⟩
  obtain ⟨hr, hstays⟩ := (hrb.spends r).mp hr
  obtain ⟨x, hx, hi⟩ := h.rows r hr
  refine ⟨x, (hrb.images x).mpr ⟨hx, fun q hq h1 h2 hqi => hstays ?_⟩, hi⟩
  rw [h.alone r hr q hq ⟨hi.1.symm.trans hqi.1, hi.2.symm.trans hqi.2⟩]
  exact ⟨h1, h2⟩

theorem rollbackAccount_succeeds {height newHeight : Nat} {heights : List AccountLookup} {r : Nat × AccountLookup}
    (h : Imaged db) (ha : ∃ a, (r.2.status, a) ∈ db.accounts ∧ a.id = r.2.id) :
    ∃ out, rollbackAccount height newHeight (db, heights) r = .ok out := by
  obtain ⟨a, ha, hid⟩ := ha
  obtain ⟨⟨spends, images⟩, hs⟩ := h.rollbackSpends a.id height
  unfold rollbackAccount
  simp only [require_ok.mpr ⟨ha, hid⟩, rollbackOutputs_eq, hs, bind, Except.bind]
  exact ⟨_, rfl⟩

theorem visit_rollbackAccount_succeeds {height newHeight : Nat} : ∀ (rows : List (Nat × AccountLookup)) {db : Storage}
    {heights : List AccountLookup}, Imaged db → (∀ r ∈ rows, ∃ a, (r.2.status, a) ∈ db.accounts ∧ a.id = r.2.id) →
      ∃ out, visit (rollbackAccount height newHeight) (db, heights) rows = .ok out := by
  intro rows
  induction rows with
  | nil => intro db heights _ _; exact ⟨_, rfl⟩
  | cons r rows ih =>
    intro db heights h hall
    rw [List.forall_mem_cons] at hall
    obtain ⟨⟨⟨mid, heights'⟩, b⟩, hone⟩ := @rollbackAccount_succeeds db height newHeight heights r h hall.1
    obtain ⟨-, -, hrb, -⟩ := rollbackAccount_ok hone
    rw [visit_cons, hone]
    refine ih (h.rolledBack hrb) fun q hq => ?_
    obtain ⟨a, ha, hid⟩ := hall.2 q hq
    refine ⟨_, (hrb.accounts _ _).mpr ⟨a, ha, rfl⟩, ?_⟩
    split
    · exact hid
    · exact hid

theorem rollbackAccounts_succeeds (hagree : db.Agree env) (h : Imaged db) (height : Nat) :
    ∃ db', rollbackAccounts height db = .ok db' := by
  have hd : Deletes (rollbackAccount height (max height 1 - 1)) fun _ => true :=
    fun (db, _) _ _ _ hb => (rollbackAccount_ok hb).1
  have hall : ∀ r ∈ db.accountsBh.rows.filter (fun r => decide (height ≤ r.1)),
      ∃ a, (r.2.status, a) ∈ db.accounts ∧ a.id = r.2.id := by
    intro r hr
    obtain ⟨a, ha, hid, -⟩ := hagree.ofHeight r.1 r.2 (List.mem_filter.mp hr).1
    exact ⟨a, ha, hid⟩
  obtain ⟨out, hv⟩ := @visit_rollbackAccount_succeeds height (max height 1 - 1) _ db [] h hall
  have hw := Table.eachKeyFrom_eq db.accountsBh height hd (db, [])
  rw [hv] at hw
  exact ⟨_, bind_ok.mpr ⟨_, hw, rfl⟩⟩

theorem rollbackChain_succeeds {cur : Cursor Version BlockInfo.id} {r : Version × BlockInfo} (hagree : db.Agree env)
    (h : Imaged db) (hg : cur.gone = none) (hrow : cur.row? = some r) (height : Nat) :
    ∃ db', rollbackChain cur height db = .ok db' := by
  obtain ⟨mid, hmid⟩ := @rollbackAccounts_succeeds env { db with
    blocks := cur.table.filter fun x => decide (x.2.id < r.2.id), pows := rolledBackPows height db.pows } hagree
    ⟨h.rows, h.alone⟩ height
  rw [rollbackChain_eq, dropFrom_eq hg hrow]
  exact ⟨_, bind_ok.mpr ⟨_, rfl, bind_ok.mpr ⟨mid, hmid, rfl⟩⟩⟩

/-- `rollback` never fails. -/
theorem rollback_succeeds (hagree : db.Agree env) (h : Imaged db) (height : Nat) :
    ∃ db', db.rollback height = .ok db' := by
  unfold Storage.rollback
  split
  · exact ⟨_, rfl⟩
  · rename_i cur hc
    obtain ⟨-, hg, v, hrow, -, -⟩ := getBoth_some hc
    exact rollbackChain_succeeds hagree h hg hrow height

/-! ## The main result -/

structure ImagesExact (db : Storage) : Prop where
  images : ∀ x ∈ db.images, ∃! r, r ∈ db.spends ∧ isImageOf r.2 x
  spends : ∀ r ∈ db.spends, ∃! x, x ∈ db.images ∧ isImageOf r.2 x
  links : ∀ x ∈ db.images, ∀ r ∈ db.spends, isImageOf r.2 x → x.2.link = r.2.link
  sources : ∀ r ∈ db.spends, ∃ o, (r.1, o) ∈ db.outputs ∧ o.spendMeta.id = r.2.source
  /-- An output or a spend has its account, scanned that far. -/
  outputHeights : ∀ r ∈ db.outputs, ∃! s, s ∈ db.accounts ∧ s.2.id = r.1 ∧ r.2.link.height ≤ s.2.scanHeight
  spendHeights : ∀ r ∈ db.spends, ∃! s, s ∈ db.accounts ∧ s.2.id = r.1 ∧ r.2.link.height ≤ s.2.scanHeight
  rollbackSpends : ∀ user height, ∃ out, rollbackSpends user height db.spends db.images = .ok out
  rollback : ∀ height, ∃ db', db.rollback height = .ok db'

theorem Scanned.unique (hagree : db.Agree env) {id height : Nat} (h : Scanned db.accounts id height) :
    ∃! s, s ∈ db.accounts ∧ s.2.id = id ∧ height ≤ s.2.scanHeight := by
  obtain ⟨st, a, ha, hid, hle⟩ := h
  exact ⟨(st, a), ⟨ha, hid, hle⟩, fun s hs => hagree.ids s hs.1 _ ha (hs.2.1.trans hid.symm)⟩

/-- In every state of a run of honest scans, where no two accounts spend one output by one
    image and no account goes back to the height of an output of its own, the images are
    those of the stored spends, one each, and no rollback misses one. -/
theorem images_exact {t : Trace} (h : Traced env ImagesOk t) (hcount : t.db.accounts.rows.length < 2 ^ 32 - 2) :
    ImagesExact t.db := by
  have hagree := agree_reached (@Traced.reached env ImagesOk t (fun _ _ => True) (fun _ _ _ => trivial) h) hcount
  have hp := projected_traced h hcount
  have himaged : Imaged t.db := ⟨hp.rows, fun r hr q hq => hp.alone hr hq⟩
  refine ⟨fun x hx => ?_, fun r hr => ?_, fun x hx r hr hi => hp.records.image_link hx hr hi, fun r hr => ?_,
    fun r hr => (hp.records.outputs r hr).unique hagree, fun r hr => (hp.records.spends r hr).unique hagree,
    fun user height => himaged.rollbackSpends user height, fun height => rollback_succeeds hagree himaged height⟩
  · obtain ⟨r, hr, hi, -⟩ := hp.records.images x hx
    refine ⟨r, ⟨hr, hi⟩, fun q hq => hp.alone hq.1 hr ?_⟩
    exact ⟨hq.2.1.symm.trans hi.1, hq.2.2.symm.trans hi.2⟩
  · obtain ⟨x, hx, hi⟩ := hp.rows r hr
    refine ⟨x, ⟨hx, hi⟩, fun y hy => Table.unique hy.1 hx ?_⟩
    exact rowKey_eq.mpr ⟨hy.2.1.trans hi.1.symm, hy.2.2.trans hi.2.symm⟩
  · obtain ⟨o, ho, hid, -⟩ := hp.sources r hr
    exact ⟨o, ho, hid⟩

end Projected

def imageOps : List Op :=
  [.addAccount 5 ⟨1007, 50⟩ 7 0, .syncChain 0 [100, 101, 102] false,
    .update 0 [100, 101, 102] [sampleUser 0 [sampleOutput 1 9] [sampleSpend 2 9 5]] [] false, .rescan 0 [⟨1007, 50⟩],
    .update 0 [100, 101, 102] [sampleUser 0 [sampleOutput 1 9] [sampleSpend 2 9 5]] [] false]

theorem images_exact_rescan : ImagesExact (Op.traces sampleEnv imageOps).db ∧
    (Op.traces sampleEnv imageOps).db.spends.rows = [(1, sampleSpend 2 9 5)] :=
  ⟨images_exact (traced_traces (by decide)) (by decide), by decide⟩

/-- Two accounts know the output of block 1 and its spend in block 2; one goes back to
    block 2. -/
def sharedOps : List Op :=
  [.addAccount 5 ⟨1007, 50⟩ 7 0, .addAccount 5 ⟨1008, 51⟩ 8 0, .syncChain 0 [100, 101, 102] false,
    .update 0 [100, 101, 102] [sampleUser 0 [sampleOutput 1 9] [sampleSpend 2 9 5],
      ⟨2, ⟨1008, 51⟩, 8, 0, [], [], [sampleSpend 2 9 5], [sampleOutput 1 9]⟩] [] false, .rescan 2 [⟨1007, 50⟩]]

/-- The spend of the other account has lost its image, and a rollback fails. -/
theorem shared_image_lost :
    Traced sampleEnv (fun t op => HonestOp t op ∧ NoOutputAtTarget t.db op) (Op.traces sampleEnv sharedOps) ∧
      ¬ ImagesExact (Op.traces sampleEnv sharedOps).db ∧ ((Op.traces sampleEnv sharedOps).db.rollback 2).isOk = false := by
  refine ⟨traced_traces (by decide), fun hex => ?_, by decide⟩
  obtain ⟨x, ⟨hx, -⟩, -⟩ := hex.spends (2, sampleSpend 2 9 5) (by decide)
  exact absurd hx ((show ∀ r ∈ (Op.traces sampleEnv sharedOps).db.images, False by decide) x)

end Lws.Db
