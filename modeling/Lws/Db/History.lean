/-
  Lws.Db.History — runs of the storage along with what the scanner has found so far.

  `Trace.seen` is ghost state: the outputs stored for each account at some time, less
  those of blocks that a reorg dropped. An output that a rescan deleted is still seen,
  and an honest scan finds it again (`HonestScan.again`): the blocks are the same ones.
-/

import Lws.Db.HeightChange

namespace Lws.Db

open Lws.Lmdb Lws.Transition

/-- What events and spends know an output by. -/
def Output.ref (o : Output) : WebhookOutput := ⟨o.link, o.spendMeta.id⟩

theorem ref_eq_of_sort {o p : Output} (h : o.sort = p.sort) : o.ref = p.ref := by
  have h := Prod.mk.inj (toLex.injective h)
  unfold Output.ref
  rw [h.1, h.2]

theorem sort_ref (o : Output) : o.ref.sort = o.sort := rfl

structure Trace where
  db : Storage
  seen : List (Nat × WebhookOutput)

def refs (outputs : Outputs) : List (Nat × WebhookOutput) := outputs.rows.map fun r => (r.1, r.2.ref)

theorem mem_refs {outputs : Outputs} {id : Nat} {w : WebhookOutput} :
    (id, w) ∈ refs outputs ↔ ∃ o, (id, o) ∈ outputs ∧ o.ref = w := by
  unfold refs
  rw [List.mem_map]
  refine ⟨fun ⟨⟨i, o⟩, ho, he⟩ => ?_, fun ⟨o, ho, he⟩ => ⟨(id, o), ho, by rw [he]⟩⟩
  cases he
  exact ⟨o, ho, rfl⟩

/-- The outputs of `seen` below the first block dropped. -/
def seenBelow (height : Nat) (seen : List (Nat × WebhookOutput)) : List (Nat × WebhookOutput) :=
  seen.filter fun r => decide (r.2.tx.height < height)

theorem mem_seenBelow {height : Nat} {seen : List (Nat × WebhookOutput)} {r : Nat × WebhookOutput} :
    r ∈ seenBelow height seen ↔ r ∈ seen ∧ r.2.tx.height < height := by
  unfold seenBelow
  rw [List.mem_filter, decide_eq_true_eq]

/-- What is seen after an operation left `db`; `fork` is the first block it dropped. -/
def remember (fork : Option Nat) (seen : List (Nat × WebhookOutput)) (db : Storage) : List (Nat × WebhookOutput) :=
  match fork with
  | some height => seenBelow height seen
  | none => seen ++ refs db.outputs

def Op.trace (env : Env) (op : Op) (t : Trace) : Except Error Trace := do
  let db ← op.run env t.db
  .ok ⟨db, remember (op.forkAt t.db) t.seen db⟩

/-- `t` is reached from a fresh database by operations that each met `ok`. -/
def Traced (env : Env) (ok : Trace → Op → Prop) (t : Trace) : Prop := Steps (Op.trace env) ok ⟨fresh env, []⟩ t

def Op.traces (env : Env) (ops : List Op) : Trace := runAll (Op.trace env) ops ⟨fresh env, []⟩

theorem traced_traces {env : Env} {ok : Trace → Op → Prop} {ops : List Op}
    (h : AllOk (Op.trace env) ok ops ⟨fresh env, []⟩) : Traced env ok (Op.traces env ops) := steps_runAll ops _ h

section Traced

variable {env : Env} {ok : Trace → Op → Prop} {t : Trace}

theorem trace_ok {op : Op} {t' : Trace} (h : op.trace env t = .ok t') :
    ∃ db', op.run env t.db = .ok db' ∧ t' = ⟨db', remember (op.forkAt t.db) t.seen db'⟩ := by
  obtain ⟨db', hrun, h⟩ := bind_ok.mp h
  cases h
  exact ⟨db', hrun, rfl⟩

theorem commit_trace (op : Op) (t : Trace) : (commit (Op.trace env) op t).db = commit (Op.run env) op t.db := by
  rcases h : op.run env t.db with e | db'
  · have ht : op.trace env t = .error e := by unfold Op.trace; rw [h]; rfl
    rw [commit_of_error ht, commit_of_error h]
  · have ht : op.trace env t = .ok ⟨db', remember (op.forkAt t.db) t.seen db'⟩ := by unfold Op.trace; rw [h]; rfl
    rw [commit_of_ok ht, commit_of_ok h]

/-- The database of a trace is reached by the same operations. -/
theorem Traced.reached {ok' : Storage → Op → Prop} (hok : ∀ t op, ok t op → ok' t.db op) (h : Traced env ok t) :
    Reached env ok' t.db := by
  unfold Traced at h
  induction h with
  | refl => exact .refl
  | step op _ ho ih =>
    rw [commit_trace]
    exact .step op ih (hok _ op ho)

/-- An operation that drops blocks rolls back to the first of them, and does nothing else
    but append blocks and proofs of work. -/
theorem run_forked {op : Op} {db db' : Storage} {height : Nat} (h : op.run env db = .ok db')
    (hf : op.forkAt db = some height) : ∃ mid blocks pows, Rewound height db mid ∧ db' = { mid with blocks, pows } := by
  cases op with
  | syncChain start hashes regtest =>
    rcases syncChain_cases h with ⟨hnone, -⟩ | ⟨current, mid, blocks, hfork, hrw, he⟩
    · cases hnone.symm.trans hf
    · cases hfork.symm.trans hf
      exact ⟨mid, blocks, mid.pows, hrw, he⟩
  | syncPow start hashes pow =>
    rcases syncPow_cases h with ⟨hnone, -⟩ | ⟨fork, mid, blocks, pows, hfork, hrw, he⟩
    · cases hnone.symm.trans hf
    · cases hfork.symm.trans hf
      exact ⟨mid, blocks, pows, hrw, he⟩
  | rollback start =>
    rcases rollback_ok h with ⟨hnone, -⟩ | ⟨hsome, hrw⟩
    · simp [Op.forkAt, hnone] at hf
    · obtain rfl : start = height := by simpa [Op.forkAt, hsome] using hf
      exact ⟨db', db'.blocks, db'.pows, hrw, rfl⟩
  | _ => cases hf

/-- The rule for an invariant of a trace: it holds at the start, an operation that drops
    no block keeps it, and so does a rollback. -/
theorem Traced.invariant (inv : Trace → Prop) (h0 : inv ⟨fresh env, []⟩)
    (hgrow : ∀ {t op db'}, t.db.Agree env → db'.accounts.rows.length < 2 ^ 32 - 2 → inv t → ok t op →
      op.forkAt t.db = none → op.run env t.db = .ok db' → inv ⟨db', t.seen ++ refs db'.outputs⟩)
    (hfork : ∀ {t height mid blocks pows}, t.db.Agree env → inv t → Rewound height t.db mid →
      inv ⟨{ mid with blocks, pows }, seenBelow height t.seen⟩)
    (h : Traced env ok t) (hcount : t.db.accounts.rows.length < 2 ^ 32 - 2) : inv t := by
  refine (Steps.invariant (fun t => t.db.accounts.rows.length < 2 ^ 32 - 2 → t.db.Agree env ∧ inv t)
    (fun _ => ⟨agree_fresh env, h0⟩) (fun t op t' ih ho ht hlt => ?_) h hcount).2
  obtain ⟨db', hrun, rfl⟩ := trace_ok ht
  have hle := count_changes (run_changes hrun)
  obtain ⟨hagree, hinv⟩ := ih (by dsimp only at hlt; omega)
  refine ⟨agree_run hrun hlt hagree, ?_⟩
  rcases hf : op.forkAt t.db with _ | height
  · exact hgrow hagree hlt hinv ho hf hrun
  · obtain ⟨mid, blocks, pows, hrw, rfl⟩ := run_forked hrun hf
    exact hfork hagree hinv hrw

end Traced

/-! ## Honest scans -/

/-- What the scanner promises of a batch: its rows are of blocks up to `lastUpdate`, an
    output that was found in a block is found in it again, and a spend is of an output
    found in its block or before. -/
structure HonestScan (t : Trace) (lastUpdate : Nat) (users : List Lws.Account) : Prop
    extends HonestBatch t.db lastUpdate users where
  again : ∀ u ∈ users, ∀ r ∈ t.seen, r.1 = u.id → u.scanHeight < r.2.tx.height → r.2.tx.height ≤ lastUpdate →
    ∃ o ∈ u.outputs, o.ref = r.2
  sources : ∀ u ∈ users, ∀ s ∈ u.spends,
    (∃ r ∈ t.seen, r.1 = u.id ∧ r.2.out = s.source ∧ r.2.tx.height ≤ s.link.height) ∨
      ∃ o ∈ u.outputs, o.spendMeta.id = s.source ∧ o.link.height ≤ s.link.height

instance (t : Trace) (lastUpdate : Nat) (users : List Lws.Account) : Decidable (HonestScan t lastUpdate users) :=
  decidable_of_iff (HonestBatch t.db lastUpdate users ∧
      (∀ u ∈ users, ∀ r ∈ t.seen, r.1 = u.id → u.scanHeight < r.2.tx.height → r.2.tx.height ≤ lastUpdate →
        ∃ o ∈ u.outputs, o.ref = r.2) ∧
      ∀ u ∈ users, ∀ s ∈ u.spends,
        (∃ r ∈ t.seen, r.1 = u.id ∧ r.2.out = s.source ∧ r.2.tx.height ≤ s.link.height) ∨
          ∃ o ∈ u.outputs, o.spendMeta.id = s.source ∧ o.link.height ≤ s.link.height)
    ⟨fun h => ⟨h.1, h.2.1, h.2.2⟩, fun h => ⟨h.toHonestBatch, h.again, h.sources⟩⟩

/-- The accounts of an update come from an honest scan. -/
def HonestOp (t : Trace) (op : Op) : Prop := ∀ b ∈ op.batch, HonestScan t b.1 b.2

instance (t : Trace) (op : Op) : Decidable (HonestOp t op) :=
  inferInstanceAs (Decidable (∀ b ∈ op.batch, HonestScan t b.1 b.2))

theorem HonestOp.honest {t : Trace} {op : Op} (h : HonestOp t op) : Honest t.db op := fun b hb => (h b hb).toHonestBatch

/-! ## Outputs that stay stored -/

section StillStored

variable {env : Env} {db db' : Storage} {want : Nat → WebhookOutput → Prop}

/-- A scanned account of the new table is the one written or one of before. -/
theorem Scanned.of_put {accounts : Accounts} {st : AccountStatus} {a : Account} {id height : Nat}
    (h : Scanned (accounts.put st a) id height) : (a.id = id ∧ height ≤ a.scanHeight) ∨ Scanned accounts id height := by
  obtain ⟨s, x, hx, hid, hle⟩ := h
  rcases Table.mem_put.mp hx with hx | ⟨hx, -⟩
  · cases hx
    exact Or.inl ⟨hid, hle⟩
  · exact Or.inr ⟨s, x, hx, hid, hle⟩

theorem Scanned.zero {accounts : Accounts} {id height : Nat} (h : Scanned accounts id height) :
    Scanned accounts id 0 := by
  obtain ⟨st, a, ha, hid, -⟩ := h
  exact ⟨st, a, ha, hid, Nat.zero_le _⟩

/-- The outputs of `want` have an account, and are stored if it is scanned that far. -/
def StillStored (want : Nat → WebhookOutput → Prop) (db : Storage) : Prop :=
  ∀ id w, want id w → Scanned db.accounts id 0 ∧ (Scanned db.accounts id w.tx.height → (id, w) ∈ refs db.outputs)

/-- A change that loses none of them: an account goes back to no height of one, and a
    batch holds those of its blocks. -/
def Spares (want : Nat → WebhookOutput → Prop) (db : Storage) : Act → Prop
  | .lower user height => ∀ st a, (st, a) ∈ db.accounts → a.id = user → height ≤ a.scanHeight →
    ∀ w, want user w → w.tx.height ≠ height
  | .store _ lastUpdate user => ∀ w, want user.id w → user.scanHeight < w.tx.height → w.tx.height ≤ lastUpdate →
    ∃ o ∈ user.outputs, o.ref = w
  | .rewind _ => False
  | _ => True

theorem stored_of_batch {outputs : Outputs} {id : Nat} {found : List Output} {o : Output} (ho : o ∈ found) :
    (id, o.ref) ∈ refs (outputs.putAllAbsent id found) := by
  obtain ⟨p, hp, hs⟩ := Table.putAllAbsent_stores (t := outputs) (k := id) ho
  exact mem_refs.mpr ⟨p, hp, ref_eq_of_sort hs⟩

theorem stillStored_change {act : Act} (hagree : db.Agree env) (hagree' : db'.Agree env) (h : StillStored want db)
    (hok : Spares want db act) (hc : Change env act db db') : StillStored want db' := by
  cases hc with
  | @touch _ st a a' ha hsame =>
    intro id w hw
    refine ⟨(h id w hw).1.put ha hsame.id fun _ _ => Nat.zero_le _, fun hs => (h id w hw).2 ?_⟩
    rcases hs.of_put with ⟨hid, hle⟩ | hs
    · exact ⟨st, a, ha, hsame.id.symm.trans hid, hsame.scanHeight ▸ hle⟩
    · exact hs
  | @move _ b a l status hb hne ha hid hl hl' hfree =>
    intro id w hw
    have hmoved := (h id w hw).1.moved ha hfree
    rw [hid] at hmoved
    refine ⟨hmoved, fun hs => (h id w hw).2 ?_⟩
    rcases hs.of_put with ⟨haid, hle⟩ | ⟨s, x, hx, hrest⟩
    · exact ⟨_, a, ha, haid, hle⟩
    · exact ⟨s, x, (Table.mem_erase.mp hx).1, hrest⟩
  | @add _ user hkey hid hstart hba hbh hfree =>
    intro id w hw
    refine ⟨(h id w hw).1.put_free hfree, fun hs => ?_⟩
    rcases hs.of_put with ⟨huid, -⟩ | hs
    · -- the new id is no account's
      obtain ⟨s, x, hx, hxid, -⟩ := (h id w hw).1
      have hne : ¬ (s = newStatus user ∧ x.id = user.id) := fun e => hfree x (by rw [← e.1]; exact hx) e.2
      have heq := hagree'.ids (s, x) (Table.mem_put.mpr (Or.inr ⟨hx, hne⟩)) (newStatus user, user)
        (Table.mem_put_self _ _ _) (hxid.trans huid.symm)
      cases heq
      exact absurd rfl (hfree _ hx)
    · exact (h id w hw).2 hs
  | @lower _ b a a' l height spends images hb ha hid hsame hs hl hl' =>
    intro id w hw
    refine ⟨(h id w hw).1.put ha hsame.id fun _ _ => Nat.zero_le _, fun hsc => ?_⟩
    have hold : Scanned db.accounts id w.tx.height ∧ (id = a.id → w.tx.height ≤ height) := by
      obtain ⟨s, x, hx, hxid, hle⟩ := hsc
      rcases Table.mem_put.mp hx with hx | ⟨hx, hne⟩
      · cases hx
        rw [hsame.scanHeight] at hle
        obtain ⟨h1, h2⟩ := Nat.le_min.mp hle
        exact ⟨⟨_, a, ha, hsame.id.symm.trans hxid, h2⟩, fun _ => h1⟩
      · refine ⟨⟨s, x, hx, hxid, hle⟩, fun e => absurd ?_ hne⟩
        cases hagree.ids _ hx _ ha (hxid.trans e)
        exact ⟨rfl, hsame.id.symm⟩
    obtain ⟨o, ho, rfl⟩ := mem_refs.mp ((h id w hw).2 hold.1)
    refine mem_refs.mpr ⟨o, Table.mem_filter.mpr ⟨ho, not_outputAbove.mpr fun e => ?_⟩, rfl⟩
    obtain ⟨rfl, hle⟩ : id = a.id ∧ height ≤ o.link.height := e
    have hle' : o.link.height ≤ height := hold.2 rfl
    obtain ⟨s, x, hx, hxid, hxle⟩ := hold.1
    cases hagree.ids _ hx _ ha hxid
    exact hok _ a ha rfl (hle.trans hxle) _ hw (Nat.le_antisymm hle' hle)
  | @store _ height lastUpdate user status existing l pubs pubs' events ha hid hscan hlt hl hl' hooks =>
    intro id w hw
    have hsame : ({ existing with scanHeight := lastUpdate } : Account).id = existing.id := rfl
    refine ⟨(h id w hw).1.put ha hsame fun _ _ => Nat.zero_le _, fun hsc => ?_⟩
    have hgrown : (id, w) ∈ refs db.outputs → (id, w) ∈ refs (db.outputs.putAllAbsent user.id user.outputs) := by
      intro hin
      obtain ⟨o, ho, he⟩ := mem_refs.mp hin
      exact mem_refs.mpr ⟨o, Table.mem_putAllAbsent_of_mem ho, he⟩
    by_cases e : Scanned db.accounts id w.tx.height
    · exact hgrown ((h id w hw).2 e)
    · rcases hsc.of_put with ⟨heid, hle⟩ | hsc
      · obtain rfl : id = user.id := heid.symm.trans hid
        have habove : existing.scanHeight < w.tx.height := by
          by_contra hle'
          exact e ⟨status, existing, ha, hid, by omega⟩
        obtain ⟨o, ho, rfl⟩ := hok w hw (by omega) hle
        exact stored_of_batch ho
      · exact absurd hsc e
  | rewind hrw => exact hok.elim
  | _ => exact h

theorem stillStored_rewind {height : Nat} (hagree : db.Agree env) (h : StillStored want db)
    (hrw : Rewound height db db') :
    StillStored (fun id w => want id w ∧ w.tx.height < height) db' := by
  intro id w hw
  refine ⟨?_, fun hsc => ?_⟩
  · obtain ⟨st, a, ha, hid, -⟩ := (h id w hw.1).1
    refine ⟨st, _, (hrw.accounts st _).mpr ⟨a, ha, rfl⟩, ?_, Nat.zero_le _⟩
    split
    · exact hid
    · exact hid
  · have hold : Scanned db.accounts id w.tx.height := by
      obtain ⟨st, a', ha', hid, hle⟩ := hsc
      obtain ⟨a, ha, rfl⟩ := (hrw.accounts st a').mp ha'
      split at hid
      · rename_i hin
        have := (hagree.above ha).mp hin
        exact ⟨st, a, ha, hid, by have := hw.2; omega⟩
      · rename_i hin
        rw [if_neg hin] at hle
        exact ⟨st, a, ha, hid, hle⟩
    obtain ⟨o, ho, rfl⟩ := mem_refs.mp ((h id w hw.1).2 hold)
    refine mem_refs.mpr ⟨o, (hrw.outputs _).mpr ⟨ho, fun e => ?_⟩, rfl⟩
    exact absurd hw.2 (Nat.not_lt.mpr e.1)

end StillStored

end Lws.Db
