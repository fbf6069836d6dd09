/-
  Lws.Rest.Provision — which subaddresses `provision_subaddrs` adds.

  A request names the majors from `maj_i` and the minors from `min_i`, `n_maj` times `n_min`
  indexes. A minor past 32 bits wraps, the range then ends before it begins and
  `check_subaddress_dict` refuses it. A major past 32 bits wraps too, and nothing notices:
  the indexes of the first majors are added in place of those asked for.

  `provision_exact_iff`: a request whose majors fit adds exactly the indexes asked for, or
  fails and stores nothing where one does not fit; one that succeeds does so only then. One
  that fails has stored nothing, unless it fails at the read after the write.
-/

import Lws.Db.Lookahead
import Lws.Db.Ranges
import Lws.Rest.Handlers

namespace Lws.Rest

open Lws.Db Lws.Lmdb Lws.Rpc.Feed

/-! ## What an upsert that succeeds has done -/

section Upsert

variable {env : Env} {id : Nat} {address : AccountAddress} {viewKey : SecretKey} {maxSubaddr : Nat}

/-- Every entry of an upsert that succeeds passed its check. -/
theorem doUpsertLoop_checked : ∀ (entries : List SubaddressDict) {count : Nat} {out out' : List SubaddressDict}
    {ranges : SubaddressRanges} {indexes : SubaddressIndexes},
    (doUpsertLoop env id address viewKey maxSubaddr count out ranges indexes entries).result = .ok out' →
      ∀ e ∈ entries, checkSubaddressDict e = true := by
  intro entries
  induction entries with
  | nil =>
    intro count out out' ranges indexes _ e he
    cases he
  | cons entry entries ih =>
    intro count out out' ranges indexes h e he
    unfold doUpsertLoop at h
    rcases hone : (upsertEntry env id address viewKey maxSubaddr entry count out ranges indexes).result with err | ⟨count', mid⟩
    · simp only [hone] at h
      cases h
    · simp only [hone] at h
      rcases List.mem_cons.mp he with rfl | he
      · unfold upsertEntry at hone
        split at hone
        · cases hone
        · rename_i hcheck
          simpa using hcheck
      · exact ih h e he

/-- A row that was not there is for an index the ranges now cover. -/
theorem doUpsertLoop_new : ∀ (entries : List SubaddressDict) {count : Nat} {out out' : List SubaddressDict}
    {ranges : SubaddressRanges} {indexes : SubaddressIndexes}, count ≤ maxSubaddr →
    let done := doUpsertLoop env id address viewKey maxSubaddr count out ranges indexes entries
    done.result = .ok out' → ∀ r ∈ done.indexes, r ∈ indexes ∨ (r.1 = id ∧ Ranged done.ranges id r.2.index) := by
  intro entries
  induction entries with
  | nil =>
    intro count out out' ranges indexes _ done _ r hr
    exact Or.inl hr
  | cons entry entries ih =>
    intro count out out' ranges indexes hle
    unfold doUpsertLoop
    intro done hdone r hr
    rcases @upsertEntry_cases env id address viewKey maxSubaddr entry count out ranges indexes hle with
      ⟨count', mid, dict, hok, -, h⟩ | ⟨e, herr, -, -⟩
    · simp only [done, hok] at hdone hr ⊢
      rcases ih h.limit hdone r hr with hmid | hnew
      · rw [h.rows] at hmid
        rcases Table.mem_putAllAbsent hmid with hold | ⟨hid, hrow⟩
        · exact Or.inl hold
        · -- the entry's own rows stay covered to the end of the loop
          obtain ⟨hmajor, hcovers, -⟩ := mem_indexRows.mp hrow
          obtain ⟨-, hkeeps⟩ := doUpsertLoop_exact entries h.limit (Or.inr ⟨_, hdone⟩)
          exact Or.inr ⟨hid, hkeeps _ ⟨dict, (h.row _).mpr (Or.inl (by rw [hmajor])), hcovers⟩⟩
      · exact Or.inr hnew
    · simp only [done, herr] at hdone
      cases hdone

/-- What an upsert of the indexes `asked` leaves: they are tracked beside those that were,
    no row is lost or changed, and every new row is for a tracked index of the account. -/
structure Added (env : Env) (id : Nat) (address : AccountAddress) (viewKey : SecretKey) (asked : AddressIndex → Prop)
    (db db' : Storage) : Prop where
  ranged : ∀ i, Ranged db'.subaddressRanges id i ↔ Ranged db.subaddressRanges id i ∨ asked i
  tracked : ∀ i, asked i → Tracks env id address viewKey db'.subaddressRanges db'.subaddressIndexes i
  kept : ∀ r ∈ db.subaddressIndexes, r ∈ db'.subaddressIndexes
  fresh : ∀ r ∈ db'.subaddressIndexes,
    r ∈ db.subaddressIndexes ∨ (r.1 = id ∧ Ranged db'.subaddressRanges id r.2.index)
  others : ∀ r, r.1 ≠ id → (r ∈ db'.subaddressRanges ↔ r ∈ db.subaddressRanges)
  rest : db' = { db with subaddressRanges := db'.subaddressRanges, subaddressIndexes := db'.subaddressIndexes }

theorem Added.none {asked : AddressIndex → Prop} (db : Storage) (hasked : ∀ i, ¬ asked i) :
    Added env id address viewKey asked db db :=
  ⟨fun i => (or_iff_left (hasked i)).symm, fun i hi => absurd hi (hasked i), fun _ h => h, fun _ h => Or.inl h,
    fun _ _ => Iff.rfl, rfl⟩

theorem mem_dictIndexes {dicts : List SubaddressDict} {i : AddressIndex} :
    i ∈ dictIndexes dicts ↔ ∃ d ∈ dicts, i.majI = d.1 ∧ Db.Covers d.2 i.minI := by
  simp [dictIndexes, mem_rangeIndexes]

theorem upsertSubaddresses_added {db db' : Storage} {subaddrs out : List SubaddressDict}
    (h : db.upsertSubaddresses env id address viewKey subaddrs maxSubaddr = .ok (db', out)) :
    (∀ e ∈ subaddrs, checkSubaddressDict e = true) ∧
      Added env id address viewKey (fun i => i ∈ dictIndexes subaddrs) db db' := by
  obtain ⟨hok, rfl⟩ := upsertSubaddresses_ok h
  have hsorted : ∀ e, e ∈ subaddrs.mergeSort dictLe ↔ e ∈ subaddrs := fun e => List.mem_mergeSort
  have hup := (@doUpsert_upserted env id address viewKey maxSubaddr db.subaddressRanges db.subaddressIndexes
    (subaddrs.mergeSort dictLe)).1
  have htracks := doUpsert_tracks hok
  unfold doUpsert at hok hup htracks ⊢
  by_cases hlt : maxSubaddr < db.subaddressIndexes.count id
  · simp only [if_pos hlt] at hok
    cases hok
  · simp only [if_neg hlt] at hok hup htracks ⊢
    refine ⟨fun e he => doUpsertLoop_checked _ hok e ((hsorted e).mpr he), ?_⟩
    obtain ⟨hranged, -⟩ := doUpsertLoop_runs _ (not_lt.mp hlt) hok
    refine ⟨fun i => ?_, fun i hi => ?_, hup.grows, doUpsertLoop_new _ (not_lt.mp hlt) hok, hup.otherRanges, rfl⟩
    · rw [hranged, mem_dictIndexes, mem_dictIndexes]
      simp only [hsorted]
    · obtain ⟨d, hd, hmajor, hcovers⟩ := mem_dictIndexes.mp hi
      have := htracks d ((hsorted d).mpr hd) i.minI hcovers
      rwa [← hmajor] at this

end Upsert

/-! ## The indexes asked for -/

section Request

variable (req : ProvisionRequest)

def ProvisionRequest.majorI : Nat := (req.majI.getD 0).toNat

def ProvisionRequest.minorI : Nat := (req.minI.getD 0).toNat

def ProvisionRequest.nMajor : Nat := (req.nMaj.getD 50).toNat

def ProvisionRequest.nMinor : Nat := (req.nMin.getD 500).toNat

/-- The indexes a request names, computed without wrap-around. -/
def Asked (i : AddressIndex) : Prop :=
  (req.majorI ≤ i.majI ∧ i.majI < req.majorI + req.nMajor) ∧ (req.minorI ≤ i.minI ∧ i.minI < req.minorI + req.nMinor)

def Fits : Prop := ∀ i, Asked req i → i.majI < 2 ^ 32 ∧ i.minI < 2 ^ 32

/-- The majors do not pass 32 bits, or the request names no index. -/
def MajorsFit : Prop := req.nMajor = 0 ∨ req.nMinor = 0 ∨ req.majorI + req.nMajor ≤ 2 ^ 32

end Request

/-- A request that succeeds adds exactly the indexes it names; one that names an index past
    32 bits fails and stores nothing. -/
structure Provisioned (env : Env) (startRead : Option ErrorCode) (req : ProvisionRequest) (db db' : Storage)
    (result : Except ErrorCode NewSubaddrsResponse) : Prop where
  adds : ∀ response user, result = .ok response → openAccount env startRead req.creds db = .ok user →
    Added env user.id req.creds.address req.creds.key (Asked req) db db'
  refused : ¬ Fits req → (∃ e, result = .error e) ∧ db' = db

theorem eq_zero_of_toNat {x : UInt32} (h : x.toNat = 0) : x = 0 := UInt32.toNat_inj.mp h

theorem lastMinor_eq {minorI nMinor : UInt32} (hn : nMinor ≠ 0) :
    (minorI + nMinor - 1).toNat = (minorI.toNat + (nMinor.toNat - 1)) % 2 ^ 32 := by
  have hpos : nMinor.toNat ≠ 0 := fun h => hn (eq_zero_of_toNat h)
  rw [UInt32.toNat_sub, UInt32.toNat_add, UInt32.toNat_one]
  omega

/-- Entries that pass their check, of majors that fit, name what the request names. -/
theorem mem_provisionRanges {majorI minorI nMajor nMinor : UInt32} (hmajor : nMajor ≠ 0) (hminor : nMinor ≠ 0)
    (hfit : majorI.toNat + nMajor.toNat ≤ 2 ^ 32)
    (hcheck : ∀ e ∈ provisionRanges majorI minorI nMajor nMinor, checkSubaddressDict e = true) :
    minorI.toNat + nMinor.toNat ≤ 2 ^ 32 ∧ ∀ i : AddressIndex, i ∈ dictIndexes (provisionRanges majorI minorI nMajor nMinor) ↔
      (majorI.toNat ≤ i.majI ∧ i.majI < majorI.toNat + nMajor.toNat) ∧
        (minorI.toNat ≤ i.minI ∧ i.minI < minorI.toNat + nMinor.toNat) := by
  have hmajor' : nMajor.toNat ≠ 0 := fun h => hmajor (eq_zero_of_toNat h)
  have hminor' : nMinor.toNat ≠ 0 := fun h => hminor (eq_zero_of_toNat h)
  have hlast := @lastMinor_eq minorI nMinor hminor
  have hlt := minorI.toNat_lt
  have hlt' := nMinor.toNat_lt
  have hminors : minorI.toNat + nMinor.toNat ≤ 2 ^ 32 := by
    have hfirst : ((UInt32.ofNat majorI.toNat).toNat, [(minorI.toNat, (minorI + nMinor - 1).toNat)]) ∈
        provisionRanges majorI minorI nMajor nMinor :=
      List.mem_map.mpr ⟨majorI.toNat, List.mem_range'_1.mpr ⟨Nat.le_refl _, by omega⟩, rfl⟩
    have hordered := hcheck _ hfirst
    simp only [checkSubaddressDict, checkRanges] at hordered
    split at hordered
    · cases hordered
    · omega
  refine ⟨hminors, fun i => mem_dictIndexes.trans ?_⟩
  simp only [provisionRanges, List.mem_map, List.mem_range'_1]
  constructor
  · rintro ⟨d, ⟨x, hx, rfl⟩, hmaj, r, hr, hmin⟩
    cases List.mem_singleton.mp hr
    simp only [UInt32.toNat_ofNat'] at hmaj hmin
    omega
  · rintro ⟨hmaj, hmin⟩
    refine ⟨_, ⟨i.majI, hmaj, rfl⟩, ?_, _, List.mem_singleton.mpr rfl, ?_⟩
    · simp only [UInt32.toNat_ofNat']
      omega
    · dsimp only
      omega

section Handle

variable {env : Env} {options : Options} {startRead startReadAll : Option ErrorCode} {req : ProvisionRequest}
  {db db' : Storage}

theorem not_fits (h : ¬ MajorsFit req) : ¬ Fits req := by
  intro hfits
  simp only [MajorsFit, not_or] at h
  have hmajor : req.majorI < 2 ^ 32 := UInt32.toNat_lt _
  have hpast := (hfits ⟨2 ^ 32, req.minorI⟩
      ⟨⟨by dsimp only; omega, by dsimp only; omega⟩, Nat.le_refl _, by dsimp only; omega⟩).1
  exact absurd hpast (Nat.lt_irrefl _)

theorem provisionUpsert_ok {id : Nat} {newRanges : List SubaddressDict} (hfit : MajorsFit req)
    (h : provisionUpsert env options req id (req.majI.getD 0) (req.minI.getD 0) (req.nMaj.getD 50) (req.nMin.getD 500) db =
      .ok (db', newRanges)) :
    Added env id req.creds.address req.creds.key (Asked req) db db' ∧ Fits req := by
  unfold provisionUpsert at h
  split at h
  · rename_i hsome
    obtain ⟨hmajor, hminor⟩ := hsome
    split at h
    · cases h
    · split at h
      · cases h
      · split at h
        · cases h
        · rename_i upserted hup
          cases h
          obtain ⟨hcheck, hadded⟩ := upsertSubaddresses_added hup
          have hmajors : (req.majI.getD 0).toNat + (req.nMaj.getD 50).toNat ≤ 2 ^ 32 := by
            rcases hfit with hzero | hzero | hfit
            · exact absurd (eq_zero_of_toNat (x := req.nMaj.getD 50) hzero) hmajor
            · exact absurd (eq_zero_of_toNat (x := req.nMin.getD 500) hzero) hminor
            · exact hfit
          obtain ⟨hminors, hnames⟩ := mem_provisionRanges hmajor hminor hmajors hcheck
          refine ⟨?_, fun i hi => ⟨Nat.lt_of_lt_of_le hi.1.2 hmajors, Nat.lt_of_lt_of_le hi.2.2 hminors⟩⟩
          rwa [show (fun i => i ∈ dictIndexes (provisionRanges (req.majI.getD 0) (req.minI.getD 0) (req.nMaj.getD 50)
            (req.nMin.getD 500))) = Asked req from funext fun i => propext (hnames i)] at hadded
  · rename_i hnone
    cases h
    have hasked : ∀ i, ¬ Asked req i := by
      intro i hi
      refine hnone ⟨fun hzero => ?_, fun hzero => ?_⟩
      · have : req.nMajor = 0 := by rw [ProvisionRequest.nMajor, hzero]; rfl
        exact absurd hi.1 (by omega)
      · have : req.nMinor = 0 := by rw [ProvisionRequest.nMinor, hzero]; rfl
        exact absurd hi.2 (by omega)
    exact ⟨Added.none db hasked, fun i hi => absurd hi (hasked i)⟩

/-- The upsert of a request, for the account that was opened. -/
def ProvisionRequest.upsert (env : Env) (options : Options) (req : ProvisionRequest) (id : Nat) (db : Storage) :
    Except ErrorCode (Storage × List SubaddressDict) :=
  provisionUpsert env options req id (req.majI.getD 0) (req.minI.getD 0) (req.nMaj.getD 50) (req.nMin.getD 500) db

/-- The request is refused before it stores anything: it has no field, the account is not opened, or the upsert fails. -/
def Refused (env : Env) (options : Options) (startRead : Option ErrorCode) (req : ProvisionRequest) (db : Storage) :
    Prop :=
  (req.majI = none ∧ req.minI = none ∧ req.nMin = none ∧ req.nMaj = none) ∨
    ∀ user, openAccount env startRead req.creds db = .ok user → ∃ e, req.upsert env options user.id db = .error e

/-- A request is refused and the database stays, or its upsert was committed and only the read after it can fail. -/
theorem provisionSubaddrs_cases (env : Env) (options : Options) (startRead startReadAll : Option ErrorCode)
    (req : ProvisionRequest) (db : Storage) :
    let done := provisionSubaddrs env options startRead startReadAll req db
    (Refused env options startRead req db ∧ done.1 = db ∧ ∃ e, done.2 = .error e) ∨
      (¬ Refused env options startRead req db ∧ ∃ user newRanges, openAccount env startRead req.creds db = .ok user ∧
        req.upsert env options user.id db = .ok (done.1, newRanges) ∧ ∀ e, done.2 = .error e → startReadAll = some e) := by
  unfold provisionSubaddrs Refused
  split
  · rename_i hnone
    exact Or.inl ⟨Or.inl hnone, rfl, _, rfl⟩
  · rename_i hsome
    split
    · rename_i e hopen
      refine Or.inl ⟨Or.inr fun user hok => ?_, rfl, _, rfl⟩
      rw [hopen] at hok
      cases hok
    · rename_i user hopen
      split
      · rename_i e hup
        refine Or.inl ⟨Or.inr fun user' hok => ?_, rfl, _, rfl⟩
        rw [hopen] at hok
        cases hok
        exact ⟨e, hup⟩
      · rename_i db' newRanges hup
        refine Or.inr ⟨?_, user, newRanges, hopen, ?_⟩
        · rintro (hnone | hall)
          · exact hsome hnone
          · obtain ⟨e, herr⟩ := hall user hopen
            cases hup.symm.trans herr
        · split
          · split
            · exact ⟨hup, fun e he => congrArg some (Except.error.inj he)⟩
            · exact ⟨hup, nofun⟩
          · exact ⟨hup, nofun⟩

/-- A request whose majors fit is provisioned as it should be, and of those that succeed
    only such a one is. One that fails is as well if it stored nothing, which is so unless it
    fails at the read after the write. -/
theorem provision_exact_iff (env : Env) (options : Options) (startRead startReadAll : Option ErrorCode)
    (req : ProvisionRequest) (db : Storage) :
    let done := provisionSubaddrs env options startRead startReadAll req db
    (MajorsFit req → Provisioned env startRead req db done.1 done.2) ∧
      (∀ response, done.2 = .ok response → (Provisioned env startRead req db done.1 done.2 ↔ MajorsFit req)) ∧
      ∀ e, done.2 = .error e →
        (Provisioned env startRead req db done.1 done.2 ↔ MajorsFit req ∨ done.1 = db) ∧
        ((Refused env options startRead req db ∧ done.1 = db) ∨
          (¬ Refused env options startRead req db ∧ startReadAll = some e ∧ ∃ user newRanges,
            openAccount env startRead req.creds db = .ok user ∧
              req.upsert env options user.id db = .ok (done.1, newRanges))) := by
  intro done
  have henough : MajorsFit req → Provisioned env startRead req db done.1 done.2 := by
    intro hfit
    rcases provisionSubaddrs_cases env options startRead startReadAll req db with
      ⟨-, hdb, e, herr⟩ | ⟨-, user, newRanges, hopen, hup, -⟩
    · refine ⟨fun response user hok _ => ?_, fun _ => ⟨⟨e, herr⟩, hdb⟩⟩
      rw [show done.2 = .error e from herr] at hok
      cases hok
    · obtain ⟨hadded, hfits⟩ := provisionUpsert_ok hfit hup
      refine ⟨fun response user' _ hopen' => ?_, fun hn => absurd hfits hn⟩
      rw [hopen] at hopen'
      cases hopen'
      exact hadded
  refine ⟨henough, fun response hok => ⟨fun hp => ?_, henough⟩, fun e herr => ⟨⟨fun hp => ?_, ?_⟩, ?_⟩⟩
  · by_contra hfit
    obtain ⟨⟨e, herr⟩, -⟩ := hp.refused (not_fits hfit)
    rw [hok] at herr
    cases herr
  · by_cases hfit : MajorsFit req
    · exact Or.inl hfit
    · exact Or.inr (hp.refused (not_fits hfit)).2
  · rintro (hfit | hdb)
    · exact henough hfit
    · refine ⟨fun response user hok _ => ?_, fun _ => ⟨⟨e, herr⟩, hdb⟩⟩
      rw [herr] at hok
      cases hok
  · rcases provisionSubaddrs_cases env options startRead startReadAll req db with
      ⟨href, hdb, -⟩ | ⟨href, user, newRanges, hopen, hup, hread⟩
    · exact Or.inl ⟨href, hdb⟩
    · exact Or.inr ⟨href, hread e herr, user, newRanges, hopen, hup⟩

end Handle

def plainOps : List Op := [.addAccount 5 ⟨1007, 50⟩ 7 0]

def plainProvision (majI nMaj : UInt32) : ProvisionRequest :=
  ⟨⟨⟨1007, 50⟩, 7⟩, some majI, some 0, some nMaj, some 2, none⟩

def plainAnswers (majI nMaj : UInt32) (response : NewSubaddrsResponse) (rows : List (Nat × SubaddressDict)) : Bool :=
  match provisionSubaddrs sampleEnv ⟨20, true⟩ none none (plainProvision majI nMaj) (Op.runs sampleEnv plainOps) with
  | (db', .ok response') => decide (response' = response) && decide (db'.subaddressRanges.rows = rows)
  | (_, .error _) => false

theorem plainAnswers_ok {majI nMaj : UInt32} {response : NewSubaddrsResponse} {rows : List (Nat × SubaddressDict)}
    (h : plainAnswers majI nMaj response rows = true) :
    let done := provisionSubaddrs sampleEnv ⟨20, true⟩ none none (plainProvision majI nMaj) (Op.runs sampleEnv plainOps)
    done.2 = .ok response ∧ done.1.subaddressRanges.rows = rows := by
  unfold plainAnswers at h
  split at h
  · rename_i db' response' hok
    rw [Bool.and_eq_true, decide_eq_true_eq, decide_eq_true_eq] at h
    rw [hok, h.1]
    exact ⟨rfl, h.2⟩
  · cases h

/-- Two majors below the last. -/
theorem provision_exact_two :
    let done := provisionSubaddrs sampleEnv ⟨20, true⟩ none none (plainProvision 3 2) (Op.runs sampleEnv plainOps)
    done.2 = .ok ⟨[(3, [(0, 1)]), (4, [(0, 1)])], [(3, [(0, 1)]), (4, [(0, 1)])]⟩ ∧
      Provisioned sampleEnv none (plainProvision 3 2) (Op.runs sampleEnv plainOps) done.1 done.2 := by
  have hrun : plainAnswers 3 2 ⟨[(3, [(0, 1)]), (4, [(0, 1)])], [(3, [(0, 1)]), (4, [(0, 1)])]⟩
      [(1, (3, [(0, 1)])), (1, (4, [(0, 1)]))] = true := by
    have hsort : (provisionRanges 3 0 2 2).mergeSort dictLe = [(3, [(0, 1)]), (4, [(0, 1)])] := by
      rw [show provisionRanges 3 0 2 2 = [(3, [(0, 1)]), (4, [(0, 1)])] by decide]
      simp [List.mergeSort, dictLe]
    unfold plainAnswers provisionSubaddrs provisionUpsert Storage.upsertSubaddresses
    simp only [plainProvision, Option.getD_some, hsort]
    decide +kernel
  obtain ⟨hok, -⟩ := plainAnswers_ok hrun
  have hfit : MajorsFit (plainProvision 3 2) := Or.inr (Or.inr (by decide))
  exact ⟨hok, ((provision_exact_iff sampleEnv ⟨20, true⟩ none none (plainProvision 3 2) (Op.runs sampleEnv plainOps)).2.1 _
    hok).mpr hfit⟩

/-- The major after the last is the first: its minors are added, and the request succeeds. -/
theorem wrapped_major_provisioned :
    let done := provisionSubaddrs sampleEnv ⟨20, true⟩ none none (plainProvision 4294967295 2) (Op.runs sampleEnv plainOps)
    done.2 = .ok ⟨[(0, [(0, 1)]), (4294967295, [(0, 1)])], [(0, [(0, 1)]), (4294967295, [(0, 1)])]⟩ ∧
      done.1.subaddressRanges.rows = [(1, (0, [(0, 1)])), (1, (4294967295, [(0, 1)]))] ∧
      ¬ Provisioned sampleEnv none (plainProvision 4294967295 2) (Op.runs sampleEnv plainOps) done.1 done.2 := by
  have hrun : plainAnswers 4294967295 2
      ⟨[(0, [(0, 1)]), (4294967295, [(0, 1)])], [(0, [(0, 1)]), (4294967295, [(0, 1)])]⟩
      [(1, (0, [(0, 1)])), (1, (4294967295, [(0, 1)]))] = true := by
    have hsort : (provisionRanges 4294967295 0 2 2).mergeSort dictLe = [(0, [(0, 1)]), (4294967295, [(0, 1)])] := by
      rw [show provisionRanges 4294967295 0 2 2 = [(4294967295, [(0, 1)]), (0, [(0, 1)])] by decide]
      simp [List.mergeSort, dictLe]
    unfold plainAnswers provisionSubaddrs provisionUpsert Storage.upsertSubaddresses
    simp only [plainProvision, Option.getD_some, hsort]
    decide +kernel
  obtain ⟨hok, hrows⟩ := plainAnswers_ok hrun
  refine ⟨hok, hrows, fun hp => ?_⟩
  obtain ⟨⟨e, herr⟩, -⟩ := hp.refused (not_fits (by unfold MajorsFit; decide))
  rw [hok] at herr
  cases herr

end Lws.Rest
