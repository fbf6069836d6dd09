/-
  Lws.Db.HeightChange — what `rescan` and an accepted import do to the records of the
  accounts they take back.

  `Op.targets` lists the accounts an operation takes back and the heights it is given;
  `LoweredBy` is what such a list leaves. The rows from the target height on are deleted,
  the target included, while the account's scan height becomes the target and the
  scanner goes on with the block after it: a row at the target itself is lost.
  `lowered_keepsScanned` says exactly when nothing is, and `rescan_loses_target` is a
  rescan that loses an output.
-/

import Lws.Db.Records
import Lws.Db.SubaddressProofs

namespace Lws.Db

open Lws.Lmdb Lws.Transition

/-! ## The accounts taken back -/

/-- A row of `user` at this height is deleted. -/
def Drops (targets : List (Nat × Nat)) (user height : Nat) : Prop := ∃ t ∈ targets, t.1 = user ∧ t.2 ≤ height

def lowest (targets : List (Nat × Nat)) (user scan : Nat) : Nat :=
  targets.foldl (fun scan t => if t.1 = user then min t.2 scan else scan) scan

theorem Drops.append {ts ts' : List (Nat × Nat)} {user height : Nat} :
    Drops (ts ++ ts') user height ↔ Drops ts user height ∨ Drops ts' user height := by
  unfold Drops
  simp only [List.mem_append, or_and_right, exists_or]

theorem lowest_append (ts ts' : List (Nat × Nat)) (user scan : Nat) :
    lowest (ts ++ ts') user scan = lowest ts' user (lowest ts user scan) := by
  simp only [lowest, List.foldl_append]

/-- The lowest target of an account decides. -/
theorem lowest_eq {height : Nat} {user : Nat} : ∀ {targets : List (Nat × Nat)} {scan : Nat},
    (user, height) ∈ targets → (∀ t ∈ targets, t.1 = user → height ≤ t.2) → lowest targets user scan = min height scan := by
  -- a list without the account leaves the height, and one at or above `height` does below it
  have habove : ∀ (targets : List (Nat × Nat)) (scan : Nat), (∀ t ∈ targets, t.1 = user → height ≤ t.2) →
      scan ≤ height → lowest targets user scan = scan := by
    intro targets
    induction targets with
    | nil => intro scan _ _; rfl
    | cons t targets ih =>
      intro scan hall hle
      rw [List.forall_mem_cons] at hall
      have hstep : (if t.1 = user then min t.2 scan else scan) = scan := by
        split
        · rename_i e
          have := hall.1 e
          omega
        · rfl
      show lowest targets user (if t.1 = user then min t.2 scan else scan) = scan
      rw [hstep]
      exact ih scan hall.2 hle
  intro targets
  induction targets with
  | nil => intro scan h; cases h
  | cons t targets ih =>
    intro scan hin hall
    rw [List.forall_mem_cons] at hall
    show lowest targets user (if t.1 = user then min t.2 scan else scan) = min height scan
    by_cases e : (user, height) ∈ targets
    · rw [ih e hall.2]
      split
      · rename_i ht
        have := hall.1 ht
        omega
      · rfl
    · obtain rfl : t = (user, height) := by
        rcases List.mem_cons.mp hin with h | h
        · exact h.symm
        · exact absurd h e
      rw [if_pos rfl]
      exact habove targets _ hall.2 (Nat.min_le_left _ _)

/-! ## What they leave -/

/-- `db'` is `db` with the accounts of `targets` taken back. -/
structure LoweredBy (targets : List (Nat × Nat)) (db db' : Storage) : Prop where
  accountsBa : db'.accountsBa = db.accountsBa
  accounts : ∀ st a, (st, a) ∈ db.accounts →
    ∃ a', (st, a') ∈ db'.accounts ∧ a'.id = a.id ∧ a'.scanHeight = lowest targets a.id a.scanHeight
  outputs : ∀ r, r ∈ db'.outputs ↔ r ∈ db.outputs ∧ ¬ Drops targets r.1 r.2.link.height
  spends : ∀ r, r ∈ db'.spends ↔ r ∈ db.spends ∧ ¬ Drops targets r.1 r.2.link.height
  images : ∀ x, x ∈ db'.images ↔ x ∈ db.images ∧ ∀ r ∈ db.spends, Drops targets r.1 r.2.link.height → ¬ isImageOf r.2 x
  /-- A spend is deleted along with its image. -/
  found : ∀ r ∈ db.spends, Drops targets r.1 r.2.link.height → ∃ x ∈ db.images, isImageOf r.2 x

section LoweredBy

variable {env : Env} {db mid db' : Storage}

theorem LoweredBy.refl (db : Storage) : LoweredBy [] db db := by
  have hno : ∀ user height, ¬ Drops [] user height := fun _ _ ⟨t, ht, _⟩ => by cases ht
  refine ⟨rfl, fun st a ha => ⟨a, ha, rfl, rfl⟩, fun r => ?_, fun r => ?_, fun x => ?_, fun r _ hd => absurd hd (hno _ _)⟩
  · simp [hno]
  · simp [hno]
  · simp [hno]

theorem LoweredBy.trans {ts ts' : List (Nat × Nat)} (h : LoweredBy ts db mid) (h' : LoweredBy ts' mid db') :
    LoweredBy (ts ++ ts') db db' := by
  refine ⟨h'.accountsBa.trans h.accountsBa, fun st a ha => ?_, fun r => ?_, fun r => ?_, fun x => ?_, fun r hr hd => ?_⟩
  · obtain ⟨b, hb, hid, hs⟩ := h.accounts st a ha
    obtain ⟨a', ha', hid', hs'⟩ := h'.accounts st b hb
    exact ⟨a', ha', hid'.trans hid, by rw [hs', hid, hs, lowest_append]⟩
  · rw [h'.outputs, h.outputs, Drops.append, not_or, and_assoc]
  · rw [h'.spends, h.spends, Drops.append, not_or, and_assoc]
  · rw [h'.images, h.images, and_assoc]
    refine and_congr_right fun _ => ⟨fun ⟨h1, h2⟩ r hr hd => ?_, fun hall => ⟨fun r hr hd => ?_, fun r hr hd => ?_⟩⟩
    · by_cases e : Drops ts r.1 r.2.link.height
      · exact h1 r hr e
      · exact h2 r ((h.spends r).mpr ⟨hr, e⟩) ((Drops.append.mp hd).resolve_left e)
    · exact hall r hr (Drops.append.mpr (Or.inl hd))
    · exact hall r ((h.spends r).mp hr).1 (Drops.append.mpr (Or.inr hd))
  · by_cases e : Drops ts r.1 r.2.link.height
    · exact h.found r hr e
    · obtain ⟨x, hx, hi⟩ := h'.found r ((h.spends r).mpr ⟨hr, e⟩) ((Drops.append.mp hd).resolve_left e)
      exact ⟨x, ((h.images x).mp hx).1, hi⟩

theorem drops_one {user height id k : Nat} : Drops [(user, height)] id k ↔ id = user ∧ height ≤ k := by
  unfold Drops
  simp only [List.mem_singleton, exists_eq_left]
  exact ⟨fun h => ⟨h.1.symm, h.2⟩, fun h => ⟨h.1.symm, h.2⟩⟩

theorem loweredBy_change {user height : Nat} (hagree : db.Agree env) (h : Change env (.lower user height) db db') :
    LoweredBy [(user, height)] db db' := by
  cases h with
  | @lower _ b a a' l _ spends images hb ha hid hsame hs hl hl' =>
    obtain ⟨rfl, himg⟩ := rollbackSpends_ok hs
    refine ⟨rfl, fun st x hx => ?_, fun r => ?_, fun r => ?_, fun x => ?_, fun r hr hd => ?_⟩
    · by_cases e : x.id = a.id
      · cases hagree.ids _ hx _ ha e
        refine ⟨a', Table.mem_put_self _ _ _, hsame.id, ?_⟩
        rw [hsame.scanHeight]
        exact (if_pos rfl).symm
      · refine ⟨x, Table.mem_put.mpr (Or.inr ⟨hx, fun hc => e (hc.2.trans hsame.id)⟩), rfl, ?_⟩
        exact (if_neg fun hc => e hc.symm).symm
    · exact Table.mem_filter.trans (and_congr_right fun _ => by rw [not_outputAbove, drops_one])
    · exact Table.mem_filter.trans (and_congr_right fun _ => by rw [not_spendAbove, drops_one])
    · refine (himg x).trans (and_congr_right fun _ => ⟨fun hall r hr hd => ?_, fun hall s hs' hh => ?_⟩)
      · obtain ⟨he, hh⟩ := drops_one.mp hd
        exact hall r.2 (he ▸ hr) hh
      · exact hall (a.id, s) hs' (drops_one.mpr ⟨rfl, hh⟩)
    · obtain ⟨he, hh⟩ := drops_one.mp hd
      exact rollbackSpends_found hs (show (a.id, r.2) ∈ db.spends from he ▸ hr) hh

end LoweredBy

/-! ## The two operations -/

section Run

variable {env : Env} {db db' : Storage}

theorem require_error {K V S : Type} [LinearOrder K] [LinearOrder S] {sort : V → S} {t : Table K sort} {k : K} {s : S}
    {e : Error} (h : require t k s = .error e) : e = .notFound := by
  unfold require at h
  split at h
  · cases h
  · cases h
    rfl

/-- `account_not_found` is about the address. -/
theorem changeHeight_notFound {height : Nat} {address : AccountAddress} {lookahead : AddressIndex} {limit : Option Nat}
    (h : changeHeight env height address lookahead limit db = .error .accountNotFound) :
    lookupId db.accountsBa address = none := by
  unfold changeHeight at h
  rcases bind_error h with hf | ⟨⟨lookup, user⟩, hf, h⟩
  · unfold findAccount at hf
    split at hf
    · rename_i hn
      unfold lookupId
      rw [hn]; rfl
    · rcases bind_error hf with hf | ⟨u, -, hf⟩
      · cases require_error hf
      · cases hf
  · exfalso
    rcases bind_error h with ho | ⟨outputs, -, h⟩
    · rw [rollbackOutputs_eq] at ho
      cases ho
    · rcases bind_error h with hs | ⟨⟨spends, images⟩, -, h⟩
      · cases rollbackSpends_error hs
      · rcases bind_error h with hl | ⟨⟨user', ranges, indexes⟩, -, h⟩
        · exact absurd (applyLookahead_error hl) (by decide)
        · rcases bind_error h with hr | ⟨l, -, h⟩
          · cases require_error hr
          · rcases bind_error h with hp | ⟨bh, -, h⟩
            · cases (putNewOr_error hp).1
            · cases h

theorem changeHeight_lowered {height : Nat} {address : AccountAddress} {lookahead : AddressIndex} {limit : Option Nat}
    (hagree : db.Agree env) (h : changeHeight env height address lookahead limit db = .ok db') :
    ∃ user, lookupId db.accountsBa address = some user ∧ LoweredBy [(user, height)] db db' ∧ db'.Agree env ∧
      db'.requests = db.requests := by
  obtain ⟨user, mid, hlook, hc, -, hreq, -, he⟩ := changeHeight_change h
  have hlow := loweredBy_change hagree hc
  have hagree' := agree_change hagree (fun e => by cases e) hc
  refine ⟨user, hlook, ?_, ?_, ?_⟩ <;> rw [he]
  · exact ⟨hlow.accountsBa, hlow.accounts, hlow.outputs, hlow.spends, hlow.images, hlow.found⟩
  · exact hagree'
  · exact hreq

theorem rescanLoop_lowered {height : Nat} : ∀ (addresses : List AccountAddress) {db db' : Storage}
    {updated : List AccountAddress}, db.Agree env → rescanLoop env height addresses db = .ok (db', updated) →
      LoweredBy (rescanTargets db.accountsBa height addresses) db db' := by
  intro addresses
  induction addresses with
  | nil =>
    intro db db' updated _ h
    cases h
    exact LoweredBy.refl _
  | cons address addresses ih =>
    intro db db' updated hagree h
    unfold rescanLoop at h
    unfold rescanTargets
    split at h
    · rename_i mid hch
      obtain ⟨⟨db₂, u⟩, hloop, h⟩ := bind_ok.mp h
      cases h
      obtain ⟨user, hlook, hlow, hagree', -⟩ := changeHeight_lowered hagree hch
      have hrest := ih hagree' hloop
      rw [hlow.accountsBa] at hrest
      rw [List.filterMap_cons, hlook]
      exact hlow.trans hrest
    · rename_i hch
      rw [List.filterMap_cons, changeHeight_notFound hch]
      exact ih hagree h
    · cases h

theorem importAccounts_lowered {maxSubaddresses : Nat} : ∀ (addresses : List AccountAddress) {db db' : Storage}
    {updated : List AccountAddress}, db.Agree env → importAccounts env maxSubaddresses addresses db = .ok (db', updated) →
      LoweredBy (importTargets db.accountsBa db.requests addresses) db db' := by
  intro addresses
  induction addresses with
  | nil =>
    intro db db' updated _ h
    cases h
    exact LoweredBy.refl _
  | cons address addresses ih =>
    intro db db' updated hagree h
    unfold importAccounts at h
    split at h
    · rename_i hnone
      simp only [importTargets, hnone]
      exact ih hagree h
    · rename_i info hinfo
      simp only [importTargets, hinfo]
      have hstart : LoweredBy [] db { db with requests := db.requests.erase .importScan address.spendPublic } := by
        have hr := LoweredBy.refl db
        exact ⟨rfl, hr.accounts, hr.outputs, hr.spends, hr.images, hr.found⟩
      have hagree₁ : Storage.Agree env { db with requests := db.requests.erase .importScan address.spendPublic } := hagree
      dsimp only at h
      split at h
      · rename_i mid hch
        obtain ⟨⟨db₂, u⟩, hloop, h⟩ := bind_ok.mp h
        cases h
        obtain ⟨user, hlook, hlow, hagree', hreq⟩ := changeHeight_lowered hagree₁ hch
        have hrest := ih hagree' hloop
        rw [hlow.accountsBa, hreq] at hrest
        dsimp only at hlook hrest
        rw [hlook]
        exact (hstart.trans hlow).trans hrest
      · rename_i hch
        have hlook := changeHeight_notFound hch
        dsimp only at hlook
        rw [hlook]
        exact hstart.trans (ih hagree₁ h)
      · cases h

theorem run_lowered {op : Op} (hagree : db.Agree env) (hrun : op.run env db = .ok db') (hne : op.targets db ≠ []) :
    LoweredBy (op.targets db) db db' := by
  cases op with
  | rescan height addresses =>
    obtain ⟨updated, h⟩ := fst_ok hrun
    obtain ⟨last, -, h⟩ := bind_ok.mp h
    split at h
    · cases h
    · exact rescanLoop_lowered addresses hagree h
  | acceptRequests clock req addresses maxSubaddresses =>
    obtain ⟨stored, h⟩ := fst_ok hrun
    cases req with
    | create => exact absurd rfl hne
    | importScan => exact importAccounts_lowered addresses hagree h
  | _ => exact absurd rfl hne

end Run

/-! ## Records of the blocks scanned -/

/-- The image rows of an account's spends. -/
def OwnImage (spends : Spends) (user : Nat) (x : OutputId × ImageRow) : Prop := ∃ s, (user, s) ∈ spends ∧ isImageOf s x

/-- The records of `user` up to its new scan height are those of before, and there are
    none above it. -/
structure KeepsScanned (user scanHeight : Nat) (db db' : Storage) : Prop where
  outputs : ∀ o, o.link.height ≤ scanHeight → ((user, o) ∈ db'.outputs ↔ (user, o) ∈ db.outputs)
  spends : ∀ s, s.link.height ≤ scanHeight → ((user, s) ∈ db'.spends ↔ (user, s) ∈ db.spends)
  images : ∀ x, OwnImage db.spends user x → x.2.link.height ≤ scanHeight → (x ∈ db'.images ↔ x ∈ db.images)
  outputsAbove : ∀ o, (user, o) ∈ db'.outputs → o.link.height ≤ scanHeight
  spendsAbove : ∀ s, (user, s) ∈ db'.spends → s.link.height ≤ scanHeight
  imagesAbove : ∀ x ∈ db'.images, OwnImage db.spends user x → x.2.link.height ≤ scanHeight

def NothingAt (db : Storage) (user height : Nat) : Prop :=
  (∀ o, (user, o) ∈ db.outputs → o.link.height ≠ height) ∧ ∀ s, (user, s) ∈ db.spends → s.link.height ≠ height

/-- No spend of another account that goes shares the image of one of `user` that stays. -/
def SharesNoDropped (db : Storage) (targets : List (Nat × Nat)) (user scanHeight : Nat) : Prop :=
  ∀ s, (user, s) ∈ db.spends → s.link.height ≤ scanHeight → ∀ r ∈ db.spends, r.1 ≠ user → SameImage r.2 s →
    ¬ Drops targets r.1 r.2.link.height

section Keeps

variable {env : Env} {db db' : Storage} {targets : List (Nat × Nat)} {st : AccountStatus} {a : Account} {height : Nat}

/-- The rows of an account that go are those from its lowest target on. -/
theorem drops_iff {user k : Nat} (hin : (user, height) ∈ targets) (hmin : ∀ t ∈ targets, t.1 = user → height ≤ t.2) :
    Drops targets user k ↔ height ≤ k := by
  refine ⟨fun ⟨t, ht, he, hk⟩ => (hmin t ht he).trans hk, fun h => ⟨_, hin, rfl, h⟩⟩

/-- A record of an account is not above its scan height. -/
theorem Scanned.le (hagree : db.Agree env) (ha : (st, a) ∈ db.accounts) {k : Nat} (h : Scanned db.accounts a.id k) :
    k ≤ a.scanHeight := by
  obtain ⟨s, x, hx, hid, hle⟩ := h
  cases hagree.ids _ hx _ ha hid
  exact hle

theorem keepsScanned_iff (hagree : db.Agree env) (hrec : Records db) (h : LoweredBy targets db db')
    (ha : (st, a) ∈ db.accounts) (hin : (a.id, height) ∈ targets) (hmin : ∀ t ∈ targets, t.1 = a.id → height ≤ t.2) :
    KeepsScanned a.id (min height a.scanHeight) db db' ↔
      (height ≤ a.scanHeight → NothingAt db a.id height) ∧
        SharesNoDropped db targets a.id (min height a.scanHeight) := by
  have houtputs : ∀ o, (a.id, o) ∈ db'.outputs ↔ (a.id, o) ∈ db.outputs ∧ ¬ height ≤ o.link.height := by
    intro o
    rw [h.outputs, drops_iff hin hmin]
  have hspends : ∀ s, (a.id, s) ∈ db'.spends ↔ (a.id, s) ∈ db.spends ∧ ¬ height ≤ s.link.height := by
    intro s
    rw [h.spends, drops_iff hin hmin]
  have hole : ∀ o, (a.id, o) ∈ db.outputs → o.link.height ≤ a.scanHeight := fun o ho => (hrec.outputs _ ho).le hagree ha
  have hsle : ∀ s, (a.id, s) ∈ db.spends → s.link.height ≤ a.scanHeight := fun s hs => (hrec.spends _ hs).le hagree ha
  refine ⟨fun hk => ⟨fun hle => ⟨fun o ho e => ?_, fun s hs e => ?_⟩, fun s hs hh r hr hne hsame hd => ?_⟩,
    fun ⟨hnone, hshare⟩ => ⟨fun o hh => ?_, fun s hh => ?_, fun x hx hh => ?_, fun o ho => ?_, fun s hs => ?_,
      fun x hx hown => ?_⟩⟩
  · have := ((houtputs o).mp ((hk.outputs o (by omega)).mpr ho)).2
    omega
  · have := ((hspends s).mp ((hk.spends s (by omega)).mpr hs)).2
    omega
  · -- the image of the deleted spend is the image of `s`
    obtain ⟨x, hx, hi⟩ := h.found r hr hd
    have his : isImageOf s x := ⟨hi.1.trans hsame.1, hi.2.trans hsame.2⟩
    have hlink : x.2.link = s.link := hrec.image_link hx hs his
    have hx' := (hk.images x ⟨s, hs, his⟩ (by rw [hlink]; exact hh)).mpr hx
    exact ((h.images x).mp hx').2 r hr hd hi
  · rw [houtputs]
    refine ⟨And.left, fun ho => ⟨ho, fun hle => ?_⟩⟩
    exact (hnone (by have := hole o ho; omega)).1 o ho (by omega)
  · rw [hspends]
    refine ⟨And.left, fun hs => ⟨hs, fun hle => ?_⟩⟩
    exact (hnone (by have := hsle s hs; omega)).2 s hs (by omega)
  · obtain ⟨s, hs, his⟩ := hx
    refine ⟨fun hx' => ((h.images x).mp hx').1, fun hx' => (h.images x).mpr ⟨hx', fun r hr hd hi => ?_⟩⟩
    have hsame : SameImage r.2 s := ⟨hi.1.symm.trans his.1, hi.2.symm.trans his.2⟩
    have hlink : x.2.link = s.link := hrec.image_link hx' hs his
    have hlink' : x.2.link = r.2.link := hrec.image_link hx' hr hi
    by_cases e : r.1 = a.id
    · -- a spend of the account itself, at the target
      rw [e, drops_iff hin hmin, ← hlink'] at hd
      rw [hlink] at hd hh
      exact (hnone (by have := hsle s hs; omega)).2 s hs (by omega)
    · exact hshare s hs (by rw [← hlink]; exact hh) r hr e hsame hd
  · obtain ⟨ho, hlt⟩ := (houtputs o).mp ho
    have := hole o ho
    omega
  · obtain ⟨hs, hlt⟩ := (hspends s).mp hs
    have := hsle s hs
    omega
  · obtain ⟨s, hs, his⟩ := hown
    obtain ⟨hx, hgone⟩ := (h.images x).mp hx
    have hlt : ¬ height ≤ s.link.height := fun hle => hgone _ hs ((drops_iff hin hmin).mpr hle) his
    have hlink : x.2.link = s.link := hrec.image_link hx hs his
    have := hsle s hs
    rw [hlink]
    omega

/-- In every state reached from honest scans, a rescan or an accepted import that takes
    an account back to `height` keeps its records of the scanned blocks if and only if it
    had none at `height` itself (or was not scanned that far) and shares no image of them
    with an account that loses the spend in the same call. -/
theorem lowered_keepsScanned {op : Op} (h : Reached env Honest db) (hcount : db.accounts.rows.length < 2 ^ 32 - 2)
    (hrun : op.run env db = .ok db') (ha : (st, a) ∈ db.accounts) (hin : (a.id, height) ∈ op.targets db)
    (hmin : ∀ t ∈ op.targets db, t.1 = a.id → height ≤ t.2) :
    ∃ a', (st, a') ∈ db'.accounts ∧ a'.id = a.id ∧ a'.scanHeight = min height a.scanHeight ∧
      (KeepsScanned a.id a'.scanHeight db db' ↔
        (height ≤ a.scanHeight → NothingAt db a.id height) ∧
          SharesNoDropped db (op.targets db) a.id a'.scanHeight) := by
  have hagree := agree_reached h hcount
  have hlow := run_lowered hagree hrun (List.ne_nil_of_mem hin)
  obtain ⟨a', ha', hid, hs⟩ := hlow.accounts st a ha
  rw [lowest_eq hin hmin] at hs
  exact ⟨a', ha', hid, hs, hs ▸ keepsScanned_iff hagree (records_reached h) hlow ha hin hmin⟩

end Keeps

def rescanOps : List Op :=
  [.addAccount 5 ⟨1007, 50⟩ 7 0, .syncChain 0 [100, 101, 102, 103] false,
    .update 0 [100, 101, 102, 103] [sampleUser 0 [sampleOutput 1 9, sampleOutput 3 10] []] [] false]

theorem rescanOps_reached : Reached sampleEnv Honest (Op.runs sampleEnv rescanOps) := reached_runs (by decide)

def rescanAccount (scanHeight : Nat) : Account := ⟨1, 5, ⟨1007, 50⟩, 7, scanHeight, 0, 5, 0, ⟨0, 0⟩, 0⟩

/-- Back to block 2, where nothing is: the output of block 1 stays. -/
theorem lowered_keepsScanned_between : ∃ db', (Op.rescan 2 [⟨1007, 50⟩]).run sampleEnv (Op.runs sampleEnv rescanOps) =
    .ok db' ∧
    KeepsScanned 1 2 (Op.runs sampleEnv rescanOps) db' := by
  have hok : ((Op.rescan 2 [⟨1007, 50⟩]).run sampleEnv (Op.runs sampleEnv rescanOps)).isOk = true := by decide
  rcases h : (Op.rescan 2 [⟨1007, 50⟩]).run sampleEnv (Op.runs sampleEnv rescanOps) with e | db'
  · rw [h] at hok
    cases hok
  · obtain ⟨a', -, -, hs, hiff⟩ := @lowered_keepsScanned sampleEnv _ db' .active (rescanAccount 3) 2
      (.rescan 2 [⟨1007, 50⟩]) rescanOps_reached (by decide) h (by decide) (by decide) (by decide)
    refine ⟨db', rfl, ?_⟩
    rw [show a'.scanHeight = 2 from hs] at hiff
    refine hiff.mpr ⟨fun _ => ⟨fun o ho => ?_, fun s hs => ?_⟩, fun s hs => ?_⟩
    · exact (show ∀ r ∈ (Op.runs sampleEnv rescanOps).outputs, r.2.link.height ≠ 2 by decide) _ ho
    · exact (show ∀ r ∈ (Op.runs sampleEnv rescanOps).spends, r.2.link.height ≠ 2 by decide) _ hs
    · exact absurd hs ((show ∀ r ∈ (Op.runs sampleEnv rescanOps).spends, r.1 ≠ 1 by decide) _ · rfl)

/-- Back to block 1, whose output goes although the scanner will start at block 2. -/
theorem rescan_loses_target : Reached sampleEnv Honest (Op.runs sampleEnv rescanOps) ∧
    ∃ db', (Op.rescan 1 [⟨1007, 50⟩]).run sampleEnv (Op.runs sampleEnv rescanOps) = .ok db' ∧
      (.active, rescanAccount 1) ∈ db'.accounts ∧ ¬ KeepsScanned 1 1 (Op.runs sampleEnv rescanOps) db' := by
  refine ⟨rescanOps_reached, ?_⟩
  have hlost : (match (Op.rescan 1 [⟨1007, 50⟩]).run sampleEnv (Op.runs sampleEnv rescanOps) with
    | .ok db' => decide ((.active, rescanAccount 1) ∈ db'.accounts) && decide ((1, sampleOutput 1 9) ∉ db'.outputs)
    | .error _ => false) = true := by decide
  rcases h : (Op.rescan 1 [⟨1007, 50⟩]).run sampleEnv (Op.runs sampleEnv rescanOps) with e | db'
  · rw [h] at hlost
    cases hlost
  · rw [h] at hlost
    obtain ⟨hacc, hout⟩ := Bool.and_eq_true_iff.mp hlost
    refine ⟨db', rfl, of_decide_eq_true hacc, fun hk => of_decide_eq_true hout ?_⟩
    exact (hk.outputs (sampleOutput 1 9) (by decide)).mpr (by decide)

end Lws.Db
