/-
  Lws.Db.SubaddressProofs — the subaddress functions: which errors they return, what a
  merge of ranges covers and counts, and what `do_upsert` leaves in the two tables.
-/

import Lws.Db.AccountsProofs

namespace Lws.Db

open Lws.Lmdb

/-! ## Errors -/

def upsertErrors : List Error := [.schemaArray, .keyExist, .maxSubaddresses, .outOfRange]

section Errors

variable {env : Env} {id : Nat} {address : AccountAddress} {viewKey : SecretKey} {maxSubaddr : Nat} {e : Error}

theorem storeEntry_error {major : Nat} {newDict : List IndexRange} {count : Nat} {out : List SubaddressDict}
    {ranges : SubaddressRanges} {indexes : SubaddressIndexes}
    (h : (storeEntry env id address viewKey major newDict count out ranges indexes).result = .error e) : e = .keyExist := by
  unfold storeEntry at h
  dsimp only at h
  split at h
  · cases h; rfl
  · cases h

theorem upsertEntry_error {entry : SubaddressDict} {count : Nat} {out : List SubaddressDict} {ranges : SubaddressRanges}
    {indexes : SubaddressIndexes}
    (h : (upsertEntry env id address viewKey maxSubaddr entry count out ranges indexes).result = .error e) :
    e ∈ upsertErrors := by
  unfold upsertEntry at h
  split at h
  · cases h
    simp [upsertErrors]
  · split at h
    · split at h
      · cases h
        simp [upsertErrors]
      · simp [upsertErrors, storeEntry_error h]
    · dsimp only at h
      split at h
      · cases h
        simp [upsertErrors]
      · simp [upsertErrors, storeEntry_error h]

theorem doUpsertLoop_error : ∀ (entries : List SubaddressDict) {count : Nat} {out : List SubaddressDict}
    {ranges : SubaddressRanges} {indexes : SubaddressIndexes},
    (doUpsertLoop env id address viewKey maxSubaddr count out ranges indexes entries).result = .error e →
      e ∈ upsertErrors := by
  intro entries
  induction entries with
  | nil => intro count out ranges indexes h; cases h
  | cons entry entries ih =>
    intro count out ranges indexes h
    unfold doUpsertLoop at h
    dsimp only at h
    split at h
    · rename_i e' he
      cases h
      exact upsertEntry_error he
    · exact ih h

theorem doUpsert_error {subaddrs : List SubaddressDict} {ranges : SubaddressRanges} {indexes : SubaddressIndexes}
    (h : (doUpsert env id address viewKey subaddrs maxSubaddr ranges indexes).result = .error e) : e ∈ upsertErrors := by
  unfold doUpsert at h
  dsimp only at h
  split at h
  · cases h
    simp [upsertErrors]
  · exact doUpsertLoop_error _ h

theorem lookaheadOutputs_error {major minor : Nat} : ∀ (outputs : List Output) {initial : List SubaddressDict},
    lookaheadOutputs major minor maxSubaddr initial outputs = .error e → e ∈ upsertErrors := by
  intro outputs
  induction outputs with
  | nil => intro initial h; cases h
  | cons output outputs ih =>
    intro initial h
    unfold lookaheadOutputs at h
    split at h
    · exact ih h
    · dsimp only at h
      split at h
      · cases h
        simp [upsertErrors]
      · split at h
        · cases h
          simp [upsertErrors]
        · split at h
          · cases h
            simp [upsertErrors]
          · exact ih h

theorem bind_error {α β : Type} {x : Except Error α} {f : α → Except Error β} (h : (x >>= f) = .error e) :
    x = .error e ∨ ∃ a, x = .ok a ∧ f a = .error e := by
  rcases x with e' | a
  · cases h
    exact Or.inl rfl
  · exact Or.inr ⟨a, rfl, h⟩

theorem lookaheadFill_error {minor : Nat} : ∀ (entries : List SubaddressDict) {i total : Nat},
    lookaheadFill minor maxSubaddr i total entries = .error e → e ∈ upsertErrors := by
  intro entries
  induction entries with
  | nil => intro i total h; cases h
  | cons elem entries ih =>
    intro i total h
    unfold lookaheadFill at h
    have key : ∀ (ranges : List IndexRange) (thisMinor : Nat),
        (if maxSubaddr - total < thisMinor then .error .maxSubaddresses
          else lookaheadFill minor maxSubaddr (i + 1) (total + thisMinor) entries >>= fun rest =>
            .ok ((i, ranges) :: rest) : Except Error (List SubaddressDict)) = .error e → e ∈ upsertErrors := by
      intro ranges thisMinor h
      split at h
      · cases h
        simp [upsertErrors]
      · rcases bind_error h with h | ⟨rest, -, h⟩
        · exact ih h
        · cases h
    exact key _ _ h

theorem lookaheadEntries_error {outputs : List Output} {lookahead : AddressIndex}
    (h : lookaheadEntries outputs lookahead maxSubaddr = .error e) : e ∈ upsertErrors := by
  unfold lookaheadEntries at h
  dsimp only at h
  split at h
  · cases h
  · split at h
    · cases h
      simp [upsertErrors]
    · split at h
      · cases h
        simp [upsertErrors]
      · rcases bind_error h with h | ⟨initial, -, h⟩
        · exact lookaheadOutputs_error _ h
        · rcases bind_error h with h | ⟨entries, -, h⟩
          · exact lookaheadFill_error _ h
          · cases h

theorem doLookahead_error {lookahead : AddressIndex} {outputs : Outputs} {ranges : SubaddressRanges}
    {indexes : SubaddressIndexes}
    (h : (doLookahead env id address viewKey lookahead maxSubaddr outputs ranges indexes).result = .error e) :
    e ∈ upsertErrors := by
  unfold doLookahead at h
  split at h
  · rename_i he
    cases h
    exact lookaheadEntries_error he
  · cases h
  · rename_i entries _
    dsimp only at h
    rcases hr : (doUpsert env id address viewKey entries maxSubaddr ranges indexes).result with e' | out
    · rw [hr] at h
      cases h
      exact doUpsert_error hr
    · rw [hr] at h
      cases h

theorem applyLookahead_error {limit : Option Nat} {user : Account} {lookahead : AddressIndex} {outputs : Outputs}
    {ranges : SubaddressRanges} {indexes : SubaddressIndexes}
    (h : applyLookahead env limit user lookahead outputs ranges indexes = .error e) : e ∈ upsertErrors := by
  unfold applyLookahead at h
  split at h
  · cases h
  · split at h
    · cases h
    · dsimp only at h
      split at h
      · cases h
      · rename_i e' he
        cases h
        unfold doLookaheadFor at he
        dsimp only at he
        split at he
        · cases he
        · rename_i hne hatt
          cases he
          exact doLookahead_error hatt
        · cases he

end Errors

/-! ## Merging ranges -/

def Covers (ranges : List IndexRange) (minor : Nat) : Prop := ∃ r ∈ ranges, r.1 ≤ minor ∧ minor ≤ r.2

section Covers

variable {r : IndexRange} {rs rs' : List IndexRange} {m : Nat}

@[simp] theorem covers_nil : ¬ Covers [] m := fun ⟨_, hr, _⟩ => nomatch hr

@[simp] theorem covers_cons : Covers (r :: rs) m ↔ (r.1 ≤ m ∧ m ≤ r.2) ∨ Covers rs m := by
  unfold Covers
  simp only [List.mem_cons, exists_eq_or_imp]

@[simp] theorem covers_append : Covers (rs ++ rs') m ↔ Covers rs m ∨ Covers rs' m := by
  unfold Covers
  simp only [List.mem_append, or_and_right, exists_or]

theorem mem_minors : m ∈ minors r ↔ r.1 ≤ m ∧ m ≤ r.2 := by
  simp only [minors, List.mem_range'_1]
  omega

theorem mem_flatMap_minors : m ∈ rs.flatMap minors ↔ Covers rs m := by
  simp only [List.mem_flatMap, mem_minors]
  rfl

end Covers

section Merge

variable {maxSubaddr count count' : Nat}

/-- A range within the limit is counted whole. -/
theorem checkMaxRange_some {range : IndexRange} (hle : count ≤ maxSubaddr)
    (h : checkMaxRange maxSubaddr count range = some count') :
    count + (minors range).length ≤ count' ∧ count' ≤ maxSubaddr := by
  unfold checkMaxRange at h
  dsimp only at h
  split at h
  · cases h
  · cases h
    simp only [minors, List.length_range']
    omega

theorem checkMaxRanges_some : ∀ (ranges : List IndexRange) {count : Nat}, count ≤ maxSubaddr →
    checkMaxRanges maxSubaddr count ranges = some count' →
      count + (ranges.flatMap minors).length ≤ count' ∧ count' ≤ maxSubaddr := by
  intro ranges
  induction ranges with
  | nil =>
    intro count hle h
    cases h
    exact ⟨Nat.le_refl _, hle⟩
  | cons range ranges ih =>
    intro count hle h
    unfold checkMaxRanges at h
    obtain ⟨mid, h1, h2⟩ := Option.bind_eq_some_iff.mp h
    have hone := checkMaxRange_some hle h1
    have hrest := ih hone.2 h2
    rw [List.flatMap_cons, List.length_append]
    omega

/-- What a merge of ranges gives: the ranges to store cover the old and the new ones, and
    beyond the old only what was added, all of which was counted. -/
structure Merged (maxSubaddr count : Nat) (old new : List IndexRange) (count' : Nat) (dict added : List IndexRange) :
    Prop where
  covers : ∀ m, Covers dict m ↔ Covers old m ∨ Covers new m
  fresh : ∀ m, Covers dict m → Covers old m ∨ Covers added m
  counted : count + (added.flatMap minors).length ≤ count'
  limit : count' ≤ maxSubaddr

theorem Merged.keep_old {old : IndexRange} {olds news dict added : List IndexRange}
    (h : Merged maxSubaddr count olds news count' dict added) :
    Merged maxSubaddr count (old :: olds) news count' (old :: dict) added := by
  refine ⟨fun m => ?_, fun m hm => ?_, h.counted, h.limit⟩
  · rw [covers_cons, covers_cons, h.covers, or_assoc]
  · rw [covers_cons] at hm ⊢
    rcases hm with hm | hm
    · exact Or.inl (Or.inl hm)
    · exact (h.fresh m hm).imp_left Or.inr

theorem Merged.keep_new {mid : Nat} {new : IndexRange} {olds news dict added : List IndexRange}
    (hmid : count + (minors new).length ≤ mid) (h : Merged maxSubaddr mid olds news count' dict added) :
    Merged maxSubaddr count olds (new :: news) count' (new :: dict) (new :: added) := by
  refine ⟨fun m => ?_, fun m hm => ?_, ?_, h.limit⟩
  · rw [covers_cons, covers_cons, h.covers]
    exact or_left_comm
  · rw [covers_cons] at hm ⊢
    rcases hm with hm | hm
    · exact Or.inr (Or.inl hm)
    · exact (h.fresh m hm).imp_right Or.inr
  · have := h.counted
    rw [List.flatMap_cons, List.length_append]
    omega

/-- An old range that took in a new one: `parts` is what the new one adds to it. -/
theorem Merged.widen {mid : Nat} {old new wide : IndexRange} {parts olds news dict added : List IndexRange}
    (hwide : ∀ m, wide.1 ≤ m ∧ m ≤ wide.2 ↔ (old.1 ≤ m ∧ m ≤ old.2) ∨ (new.1 ≤ m ∧ m ≤ new.2))
    (hparts : ∀ m, wide.1 ≤ m ∧ m ≤ wide.2 → (old.1 ≤ m ∧ m ≤ old.2) ∨ Covers parts m)
    (hmid : count + (parts.flatMap minors).length ≤ mid) (h : Merged maxSubaddr mid (wide :: olds) news count' dict added) :
    Merged maxSubaddr count (old :: olds) (new :: news) count' dict (parts ++ added) := by
  refine ⟨fun m => ?_, fun m hm => ?_, ?_, h.limit⟩
  · rw [h.covers, covers_cons, covers_cons, covers_cons, hwide]
    tauto
  · have hadd := h.fresh m hm
    have hp := hparts m
    rw [covers_cons] at hadd ⊢
    rw [covers_append]
    tauto
  · have := h.counted
    rw [List.flatMap_append, List.length_append]
    omega

/-- What one end of a new range adds to an old one. -/
theorem widenBegin_some {old new old' : IndexRange} {parts : List IndexRange} (hle : count ≤ maxSubaddr)
    (h : widenBegin maxSubaddr count old new = some (count', old', parts)) :
    old' = (min new.1 old.1, old.2) ∧ (∀ m, Covers parts m ↔ new.1 ≤ m ∧ m < old.1) ∧
      count + (parts.flatMap minors).length ≤ count' ∧ count' ≤ maxSubaddr := by
  unfold widenBegin at h
  split at h
  · rename_i hlt
    obtain ⟨c, hc, h⟩ := Option.bind_eq_some_iff.mp h
    cases h
    have hcount := checkMaxRange_some hle hc
    refine ⟨by rw [Nat.min_eq_left hlt.le], fun m => ?_, by simpa using hcount.1, hcount.2⟩
    simp only [covers_cons, covers_nil, or_false]
    omega
  · cases h
    refine ⟨by rw [Nat.min_eq_right (by omega)], fun m => ?_, Nat.le_refl _, hle⟩
    simp only [covers_nil, false_iff]
    omega

theorem widenEnd_some {old new old' : IndexRange} {parts : List IndexRange} (hle : count ≤ maxSubaddr)
    (h : widenEnd maxSubaddr count old new = some (count', old', parts)) :
    old' = (old.1, max old.2 new.2) ∧ (∀ m, Covers parts m ↔ old.2 < m ∧ m ≤ new.2) ∧
      count + (parts.flatMap minors).length ≤ count' ∧ count' ≤ maxSubaddr := by
  unfold widenEnd at h
  split at h
  · rename_i hlt
    obtain ⟨c, hc, h⟩ := Option.bind_eq_some_iff.mp h
    cases h
    have hcount := checkMaxRange_some hle hc
    refine ⟨by rw [Nat.max_eq_right hlt.le], fun m => ?_, by simpa using hcount.1, hcount.2⟩
    simp only [covers_cons, covers_nil, or_false]
    omega
  · cases h
    refine ⟨by rw [Nat.max_eq_left (by omega)], fun m => ?_, Nat.le_refl _, hle⟩
    simp only [covers_nil, false_iff]
    omega

theorem mergeRanges_some (n : Nat) {count : Nat} {old new dict added : List IndexRange} (hle : count ≤ maxSubaddr)
    (h : mergeRanges maxSubaddr n count old new = some (count', dict, added)) :
    Merged maxSubaddr count old new count' dict added := by
  fun_induction mergeRanges maxSubaddr n count old new generalizing dict added with
  | case1 n count old =>
    cases h
    exact ⟨fun m => by simp, fun m hm => Or.inl hm, Nat.le_refl _, hle⟩
  | case2 n count new hne =>
    obtain ⟨c, hc, h⟩ := Option.bind_eq_some_iff.mp h
    cases h
    have hcount := checkMaxRanges_some _ hle hc
    exact ⟨fun m => by simp, fun m hm => Or.inr hm, hcount.1, hcount.2⟩
  | case3 => cases h
  | case4 n count old olds new news hlt ih =>
    obtain ⟨mid, hmid, h⟩ := Option.bind_eq_some_iff.mp h
    obtain ⟨⟨c, d, a⟩, hrec, h⟩ := Option.bind_eq_some_iff.mp h
    cases h
    have hcount := checkMaxRange_some hle hmid
    exact (ih mid hcount.2 hrec).keep_new hcount.1
  | case5 n count old olds new news _ hlt ih =>
    obtain ⟨⟨c, d, a⟩, hrec, h⟩ := Option.bind_eq_some_iff.mp h
    cases h
    exact (ih hle hrec).keep_old
  | case6 n count old olds new news _ _ hin ih =>
    have hm := ih hle h
    refine @Merged.widen _ _ _ _ _ _ _ [] _ _ _ _ (fun m => ?_) (fun m hm => Or.inl hm) (Nat.le_refl _) hm
    omega
  | case7 n count old olds new news hbefore hafter hin ih =>
    obtain ⟨⟨c₁, old₁, p₁⟩, h1, h⟩ := Option.bind_eq_some_iff.mp h
    obtain ⟨⟨c₂, old₂, p₂⟩, h2, h⟩ := Option.bind_eq_some_iff.mp h
    obtain ⟨⟨c, d, a⟩, hrec, h⟩ := Option.bind_eq_some_iff.mp h
    cases h
    obtain ⟨rfl, hp₁, hc₁, hle₁⟩ := widenBegin_some hle h1
    obtain ⟨rfl, hp₂, hc₂, hle₂⟩ := widenEnd_some hle₁ h2
    refine Merged.widen (fun m => ?_) (fun m hm => ?_) ?_ (ih _ _ hle₂ hrec)
    · simp only
      omega
    · simp only at hm
      rw [covers_append, hp₁, hp₂]
      omega
    · rw [List.flatMap_append, List.length_append]
      omega

end Merge

/-! ## Upserting -/

def Ranged (ranges : SubaddressRanges) (id : Nat) (i : AddressIndex) : Prop :=
  ∃ dict, (id, (i.majI, dict)) ∈ ranges ∧ Covers dict i.minI

def Listed (indexes : SubaddressIndexes) (id : Nat) (i : AddressIndex) : Prop := ∃ v, (id, v) ∈ indexes ∧ v.index = i

section Upsert

variable {env : Env} {id : Nat} {address : AccountAddress} {viewKey : SecretKey} {maxSubaddr : Nat}

theorem mem_indexRows {major : Nat} {dict : List IndexRange} {v : SubaddressMap} :
    v ∈ indexRows env address viewKey major dict ↔
      v.index.majI = major ∧ Covers dict v.index.minI ∧ v.subaddress = env.getSpendPublic address viewKey v.index := by
  simp only [indexRows, List.mem_map, mem_flatMap_minors]
  constructor
  · rintro ⟨m, hm, rfl⟩
    exact ⟨rfl, hm, rfl⟩
  · rintro ⟨rfl, hm, hkey⟩
    refine ⟨v.index.minI, hm, ?_⟩
    rw [← hkey]

def entryTotal (maxSubaddr id : Nat) (ranges : SubaddressRanges) (count : Nat) (entry : SubaddressDict) : Option Nat :=
  match ranges.get? id entry.1 with
  | none => checkMaxRanges maxSubaddr count entry.2
  | some old => (mergeRanges maxSubaddr (old.2.length + entry.2.length) count old.2 entry.2).map (·.1)

/-- What an entry that is stored leaves: its row of ranges with the merged ranges, and a
    row for each index of them that had none. -/
structure Stored (env : Env) (id : Nat) (address : AccountAddress) (viewKey : SecretKey) (maxSubaddr : Nat)
    (entry : SubaddressDict) (count count' : Nat) (dict : List IndexRange) (ranges ranges' : SubaddressRanges)
    (indexes indexes' : SubaddressIndexes) : Prop where
  row : ∀ r, r ∈ ranges' ↔ r = (id, (entry.1, dict)) ∨ (r ∈ ranges ∧ ¬ (r.1 = id ∧ r.2.1 = entry.1))
  rows : indexes' = indexes.putAllAbsent id (indexRows env address viewKey entry.1 dict)
  covers : ∀ m, Covers dict m ↔ Ranged ranges id ⟨entry.1, m⟩ ∨ Covers entry.2 m
  counted : ∃ added : List Nat, (∀ m, Covers dict m → Ranged ranges id ⟨entry.1, m⟩ ∨ m ∈ added) ∧
    count + added.length ≤ count'
  limit : count' ≤ maxSubaddr

variable {entry : SubaddressDict} {count : Nat} {out : List SubaddressDict} {ranges : SubaddressRanges}
  {indexes : SubaddressIndexes}

theorem storeEntry_eq {major count : Nat} {dict : List IndexRange} (hfree : ∀ w, (id, w) ∈ ranges → w.1 ≠ major) :
    storeEntry env id address viewKey major dict count out ranges indexes =
      ⟨ranges.put id (major, dict), indexes.putAllAbsent id (indexRows env address viewKey major dict), .ok (count, out)⟩ := by
  unfold storeEntry
  rw [Table.putNew_eq_some.mpr ⟨hfree, rfl⟩]

/-- An entry is stored, or nothing is; past the limit of a merge its row is gone. -/
theorem upsertEntry_cases (hle : count ≤ maxSubaddr) :
    let one := upsertEntry env id address viewKey maxSubaddr entry count out ranges indexes
    (∃ count' out' dict, one.result = .ok (count', out') ∧ entryTotal maxSubaddr id ranges count entry = some count' ∧
      Stored env id address viewKey maxSubaddr entry count count' dict ranges one.ranges indexes one.indexes) ∨
    ∃ e, one.result = .error e ∧ one.indexes = indexes ∧
      (one.ranges = ranges ∨ ∃ old, ranges.get? id entry.1 = some old ∧
        entryTotal maxSubaddr id ranges count entry = none ∧ one.ranges = ranges.erase id entry.1) := by
  intro one
  have hone : one = upsertEntry env id address viewKey maxSubaddr entry count out ranges indexes := rfl
  clear_value one
  unfold upsertEntry at hone
  by_cases hcheck : (!checkSubaddressDict entry) = true
  · rw [if_pos hcheck] at hone
    exact Or.inr ⟨_, by rw [hone], by rw [hone], Or.inl (by rw [hone])⟩
  · rw [if_neg hcheck] at hone
    rcases hget : ranges.get? id entry.1 with _ | old
    · have hfree := Table.get?_eq_none.mp hget
      rcases hmax : checkMaxRanges maxSubaddr count entry.2 with _ | count'
      · simp only [hget, hmax] at hone
        exact Or.inr ⟨_, by rw [hone], by rw [hone], Or.inl (by rw [hone])⟩
      · simp only [hget, hmax, storeEntry_eq hfree] at hone
        have hcount := checkMaxRanges_some _ hle hmax
        have hno : ∀ m, ¬ Ranged ranges id ⟨entry.1, m⟩ := fun m ⟨dict, hd, _⟩ => hfree _ hd rfl
        refine Or.inl ⟨count', out ++ [entry], entry.2, by rw [hone], by simp only [entryTotal, hget, hmax], ?_⟩
        rw [hone]
        refine ⟨fun r => Table.mem_put, rfl, fun m => ?_, ⟨entry.2.flatMap minors, fun m hm => ?_, hcount.1⟩, hcount.2⟩
        · exact ⟨Or.inr, fun h => h.resolve_left (hno m)⟩
        · exact Or.inr (mem_flatMap_minors.mpr hm)
    · obtain ⟨hold, hmajor⟩ := Table.get?_eq_some.mp hget
      rcases hmerge : mergeRanges maxSubaddr (old.2.length + entry.2.length) count old.2 entry.2 with _ | ⟨count', dict, added⟩
      · have htotal : entryTotal maxSubaddr id ranges count entry = none := by simp only [entryTotal, hget, hmerge]; rfl
        simp only [hget, hmerge] at hone
        exact Or.inr ⟨_, by rw [hone], by rw [hone], Or.inr ⟨old, rfl, htotal, by rw [hone]⟩⟩
      · have hfree : ∀ w, (id, w) ∈ ranges.erase id entry.1 → w.1 ≠ entry.1 :=
          fun w hw he => (Table.mem_erase.mp hw).2 ⟨rfl, he⟩
        simp only [hget, hmerge, storeEntry_eq hfree] at hone
        have hm := mergeRanges_some _ hle hmerge
        have hranged : ∀ m, Ranged ranges id ⟨entry.1, m⟩ ↔ Covers old.2 m := by
          intro m
          constructor
          · rintro ⟨d, hd, hc⟩
            have he := Table.unique_val hd hold hmajor.symm
            rw [← he]
            exact hc
          · intro hc
            refine ⟨old.2, ?_, hc⟩
            rw [← hmajor]
            exact hold
        refine Or.inl ⟨count', _, dict, by rw [hone], by simp only [entryTotal, hget, hmerge]; rfl, ?_⟩
        rw [hone]
        refine ⟨fun r => ?_, rfl, fun m => ?_, ⟨added.flatMap minors, fun m hm' => ?_, hm.counted⟩, hm.limit⟩
        · rw [Table.mem_put, Table.mem_erase]
          tauto
        · rw [hm.covers, hranged]
        · rw [hranged, mem_flatMap_minors]
          exact hm.fresh m hm'

/-- The index rows of an id are derived from its address and view key, and every index
    its ranges cover has its key stored. -/
structure OwnRows (env : Env) (id : Nat) (address : AccountAddress) (viewKey : SecretKey) (ranges : SubaddressRanges)
    (indexes : SubaddressIndexes) : Prop where
  derived : ∀ v, (id, v) ∈ indexes → v.subaddress = env.getSpendPublic address viewKey v.index
  stored : ∀ i, Ranged ranges id i → ∃ v, (id, v) ∈ indexes ∧ v.subaddress = env.getSpendPublic address viewKey i

/-- Every index of the id that has a row is covered by its ranges. -/
def Backed (id : Nat) (ranges : SubaddressRanges) (indexes : SubaddressIndexes) : Prop :=
  ∀ v, (id, v) ∈ indexes → Ranged ranges id v.index

section Stored

variable {count' : Nat} {dict : List IndexRange} {ranges' : SubaddressRanges} {indexes' : SubaddressIndexes}
  (h : Stored env id address viewKey maxSubaddr entry count count' dict ranges ranges' indexes indexes')

include h

theorem Stored.ranged_iff {i : AddressIndex} :
    Ranged ranges' id i ↔ Ranged ranges id i ∨ (i.majI = entry.1 ∧ Covers entry.2 i.minI) := by
  by_cases e : i.majI = entry.1
  · have hi : Ranged ranges' id i ↔ Covers dict i.minI := by
      constructor
      · rintro ⟨d, hd, hc⟩
        rcases (h.row _).mp hd with he | ⟨-, hn⟩
        · rwa [show d = dict from congrArg (fun r => r.2.2) he] at hc
        · exact absurd ⟨rfl, e⟩ hn
      · intro hc
        refine ⟨dict, (h.row _).mpr (Or.inl ?_), hc⟩
        rw [e]
    rw [hi, h.covers, ← e]
    exact or_congr_right (and_iff_right rfl).symm
  · constructor
    · rintro ⟨d, hd, hc⟩
      rcases (h.row _).mp hd with he | ⟨hd, -⟩
      · exact absurd (congrArg (fun r => r.2.1) he) e
      · exact Or.inl ⟨d, hd, hc⟩
    · rintro (⟨d, hd, hc⟩ | ⟨he, -⟩)
      · exact ⟨d, (h.row _).mpr (Or.inr ⟨hd, fun hn => e hn.2⟩), hc⟩
      · exact absurd he e

theorem Stored.ownRows (hown : OwnRows env id address viewKey ranges indexes) :
    OwnRows env id address viewKey ranges' indexes' := by
  rw [h.rows]
  refine ⟨fun v hv => ?_, fun i hi => ?_⟩
  · rcases Table.mem_putAllAbsent hv with hv | ⟨-, hv⟩
    · exact hown.derived v hv
    · exact (mem_indexRows.mp hv).2.2
  · by_cases e : i.majI = entry.1 ∧ Covers dict i.minI
    · have hin : (⟨env.getSpendPublic address viewKey i, i⟩ : SubaddressMap) ∈
          indexRows env address viewKey entry.1 dict := mem_indexRows.mpr ⟨e.1, e.2, rfl⟩
      exact Table.putAllAbsent_stores hin
    · rcases h.ranged_iff.mp hi with hi | ⟨he, hc⟩
      · obtain ⟨v, hv, hkey⟩ := hown.stored i hi
        exact ⟨v, Table.mem_putAllAbsent_of_mem hv, hkey⟩
      · exact absurd ⟨he, (h.covers _).mpr (Or.inr hc)⟩ e

/-- An index that was covered had its key stored, so only what was added is new. -/
theorem Stored.count_le (hown : OwnRows env id address viewKey ranges indexes) (hcount : indexes.count id ≤ count) :
    indexes'.count id ≤ count' := by
  obtain ⟨added, hadded, hle⟩ := h.counted
  let more : List SubaddressMap := added.map fun m => ⟨env.getSpendPublic address viewKey ⟨entry.1, m⟩, ⟨entry.1, m⟩⟩
  have hnew : (indexes.putAllAbsent id (indexRows env address viewKey entry.1 dict)).count id ≤
      indexes.count id + more.length := by
    refine Table.count_putAllAbsent_le fun v hv => ?_
    obtain ⟨hmajor, hc, hkey⟩ := mem_indexRows.mp hv
    rcases hadded _ hc with hr | hm
    · obtain ⟨w, hw, hwkey⟩ := hown.stored _ hr
      refine Or.inl ⟨w, hw, hwkey.trans ?_⟩
      rw [hkey, ← hmajor]
    · refine Or.inr (List.mem_map.mpr ⟨v.index.minI, hm, ?_⟩)
      rw [← hmajor, ← hkey]
  rw [h.rows]
  rw [List.length_map] at hnew
  omega

theorem Stored.backed (hback : Backed id ranges indexes) : Backed id ranges' indexes' := by
  intro v hv
  rw [h.rows] at hv
  rcases Table.mem_putAllAbsent hv with hv | ⟨-, hv⟩
  · exact h.ranged_iff.mpr (Or.inl (hback v hv))
  · obtain ⟨hmajor, hc, -⟩ := mem_indexRows.mp hv
    refine h.ranged_iff.mpr (((h.covers _).mp hc).imp (fun hr => ?_) fun hc => ⟨hmajor, hc⟩)
    rw [← hmajor] at hr
    exact hr

end Stored

/-- What `do_upsert` does to the tables, whatever it returns. -/
structure Upserted (env : Env) (id : Nat) (address : AccountAddress) (viewKey : SecretKey)
    (ranges ranges' : SubaddressRanges) (indexes indexes' : SubaddressIndexes) : Prop where
  otherRanges : ∀ r, r.1 ≠ id → (r ∈ ranges' ↔ r ∈ ranges)
  otherIndexes : ∀ r, r.1 ≠ id → (r ∈ indexes' ↔ r ∈ indexes)
  grows : ∀ r ∈ indexes, r ∈ indexes'
  ownRows : OwnRows env id address viewKey ranges indexes → OwnRows env id address viewKey ranges' indexes'

theorem Upserted.refl (ranges : SubaddressRanges) (indexes : SubaddressIndexes) :
    Upserted env id address viewKey ranges ranges indexes indexes :=
  ⟨fun _ _ => Iff.rfl, fun _ _ => Iff.rfl, fun _ h => h, fun h => h⟩

theorem Upserted.trans {ranges₁ ranges₂ : SubaddressRanges} {indexes₁ indexes₂ : SubaddressIndexes}
    (h : Upserted env id address viewKey ranges ranges₁ indexes indexes₁)
    (h' : Upserted env id address viewKey ranges₁ ranges₂ indexes₁ indexes₂) :
    Upserted env id address viewKey ranges ranges₂ indexes indexes₂ :=
  ⟨fun r hr => (h'.otherRanges r hr).trans (h.otherRanges r hr),
    fun r hr => (h'.otherIndexes r hr).trans (h.otherIndexes r hr), fun r hr => h'.grows r (h.grows r hr),
    fun hown => h'.ownRows (h.ownRows hown)⟩

theorem Ranged.of_erase {major : Nat} {i : AddressIndex} (h : Ranged (ranges.erase id major) id i) :
    Ranged ranges id i := by
  obtain ⟨dict, hd, hc⟩ := h
  exact ⟨dict, (Table.mem_erase.mp hd).1, hc⟩

theorem upsertEntry_upserted (hle : count ≤ maxSubaddr) :
    let one := upsertEntry env id address viewKey maxSubaddr entry count out ranges indexes
    Upserted env id address viewKey ranges one.ranges indexes one.indexes := by
  intro one
  rcases @upsertEntry_cases env id address viewKey maxSubaddr entry count out ranges indexes hle with
    ⟨count', out', dict, -, -, h⟩ | ⟨e, -, hind, hr⟩
  · refine ⟨fun r hr => (h.row r).trans ?_, fun r hr => ?_, fun r hr => ?_, h.ownRows⟩
    · exact ⟨fun hd => hd.elim (fun he => absurd (congrArg Prod.fst he) hr) And.left, fun hd => Or.inr ⟨hd, fun hn => hr hn.1⟩⟩
    · rw [h.rows]
      exact ⟨fun hd => (Table.mem_putAllAbsent hd).resolve_right fun hn => hr hn.1, Table.mem_putAllAbsent_of_mem⟩
    · rw [h.rows]
      exact Table.mem_putAllAbsent_of_mem hr
  · rcases hr with hr | ⟨old, -, -, hr⟩
    · show Upserted _ _ _ _ _ one.ranges _ one.indexes
      rw [hr, hind]
      exact Upserted.refl _ _
    · show Upserted _ _ _ _ _ one.ranges _ one.indexes
      rw [hr, hind]
      refine ⟨fun r hr => ?_, fun _ _ => Iff.rfl, fun _ h => h, fun hown => ⟨hown.derived, fun i hi => ?_⟩⟩
      · rw [Table.mem_erase]
        exact and_iff_left fun hn => hr hn.1
      · exact hown.stored i hi.of_erase

/-- The entries whose row is there fit the limit, up to the first that is past it. -/
def mergesFit (maxSubaddr id : Nat) (ranges : SubaddressRanges) : Nat → List SubaddressDict → Bool
  | _, [] => true
  | count, entry :: rest =>
    match entryTotal maxSubaddr id ranges count entry with
    | none => (ranges.get? id entry.1).all fun old => old.2.isEmpty
    | some count => mergesFit maxSubaddr id ranges count rest

theorem mergesFit_congr {ranges' : SubaddressRanges} : ∀ (entries : List SubaddressDict) {count : Nat},
    (∀ e ∈ entries, ranges'.get? id e.1 = ranges.get? id e.1) →
      mergesFit maxSubaddr id ranges' count entries = mergesFit maxSubaddr id ranges count entries := by
  intro entries
  induction entries with
  | nil => intro count _; rfl
  | cons entry entries ih =>
    intro count h
    rw [List.forall_mem_cons] at h
    unfold mergesFit entryTotal
    rw [h.1]
    split
    · rfl
    · exact ih h.2

theorem doUpsertLoop_upserted : ∀ (entries : List SubaddressDict) {count : Nat} {out : List SubaddressDict}
    {ranges : SubaddressRanges} {indexes : SubaddressIndexes}, count ≤ maxSubaddr →
    let done := doUpsertLoop env id address viewKey maxSubaddr count out ranges indexes entries
    Upserted env id address viewKey ranges done.ranges indexes done.indexes ∧
      (OwnRows env id address viewKey ranges indexes → indexes.count id ≤ count → done.indexes.count id ≤ maxSubaddr) := by
  intro entries
  induction entries with
  | nil =>
    intro count out ranges indexes hle
    exact ⟨Upserted.refl _ _, fun _ hcount => hcount.trans hle⟩
  | cons entry entries ih =>
    intro count out ranges indexes hle
    have hup := @upsertEntry_upserted env id address viewKey maxSubaddr entry count out ranges indexes hle
    unfold doUpsertLoop
    rcases @upsertEntry_cases env id address viewKey maxSubaddr entry count out ranges indexes hle with
      ⟨count', out', dict, hok, -, h⟩ | ⟨e, herr, hind, -⟩
    · simp only [hok]
      obtain ⟨hrest, hcount⟩ := @ih count' out' _ _ h.limit
      exact ⟨hup.trans hrest, fun hown hc => hcount (h.ownRows hown) (h.count_le hown hc)⟩
    · simp only [herr]
      refine ⟨hup, fun _ hc => ?_⟩
      rw [hind]
      exact hc.trans hle

/-- With merges that fit, or a success, no index that was covered is lost. -/
theorem doUpsertLoop_exact : ∀ (entries : List SubaddressDict) {count : Nat} {out : List SubaddressDict}
    {ranges : SubaddressRanges} {indexes : SubaddressIndexes}, count ≤ maxSubaddr →
    let done := doUpsertLoop env id address viewKey maxSubaddr count out ranges indexes entries
    ((entries.map (·.1)).Nodup ∧ mergesFit maxSubaddr id ranges count entries = true ∨ ∃ out', done.result = .ok out') →
      (Backed id ranges indexes → Backed id done.ranges done.indexes) ∧
        ∀ i, Ranged ranges id i → Ranged done.ranges id i := by
  intro entries
  induction entries with
  | nil =>
    intro count out ranges indexes _ _ _
    exact ⟨fun h => h, fun _ h => h⟩
  | cons entry entries ih =>
    intro count out ranges indexes hle
    unfold doUpsertLoop
    intro done hfit
    rcases @upsertEntry_cases env id address viewKey maxSubaddr entry count out ranges indexes hle with
      ⟨count', out', dict, hok, htotal, h⟩ | ⟨e, herr, hind, hr⟩
    · simp only [done, hok] at hfit ⊢
      obtain ⟨hback, hranged⟩ := @ih count' out' _ _ h.limit <| by
        refine hfit.imp_left fun ⟨hnd, hm⟩ => ?_
        rw [List.map_cons, List.nodup_cons] at hnd
        refine ⟨hnd.2, ?_⟩
        unfold mergesFit at hm
        rw [htotal] at hm
        rw [mergesFit_congr entries fun x hx => ?_]
        · exact hm
        · have hne : x.1 ≠ entry.1 := fun he => hnd.1 (List.mem_map.mpr ⟨x, hx, he⟩)
          refine Option.ext fun v => ?_
          rw [Table.get?_eq_some, Table.get?_eq_some, h.row]
          constructor
          · rintro ⟨hv | hv, hs⟩
            · exact absurd ((congrArg (fun r => r.2.1) hv).symm.trans hs).symm hne
            · exact ⟨hv.1, hs⟩
          · rintro ⟨hv, hs⟩
            exact ⟨Or.inr ⟨hv, fun hn => hne (hs.symm.trans hn.2)⟩, hs⟩
      exact ⟨fun hb => hback (h.backed hb), fun i hi => hranged i (h.ranged_iff.mpr (Or.inl hi))⟩
    · simp only [done, herr] at hfit ⊢
      rw [hind]
      rcases hr with hr | ⟨old, hget, htotal, hr⟩
      · rw [hr]
        exact ⟨fun h => h, fun _ h => h⟩
      · rcases hfit with ⟨-, hm⟩ | ⟨_, hfit⟩
        · unfold mergesFit at hm
          rw [htotal, hget] at hm
          have hkeeps : ∀ i, Ranged ranges id i → Ranged (ranges.erase id entry.1) id i := by
            rintro i ⟨d, hd, hc⟩
            by_cases e : i.majI = entry.1
            · obtain ⟨hold, hs⟩ := Table.get?_eq_some.mp hget
              have he := Table.unique_val hd hold (e.trans hs.symm)
              rw [← he] at hm
              have hnil : d = [] := List.isEmpty_iff.mp hm
              rw [hnil] at hc
              exact absurd hc covers_nil
            · exact ⟨d, Table.mem_erase.mpr ⟨hd, fun hn => e hn.2⟩, hc⟩
          rw [hr]
          exact ⟨fun hb v hv => hkeeps _ (hb v hv), hkeeps⟩
        · cases hfit

/-- The merges of an upsert fit the limit. -/
def upsertFits (maxSubaddr id : Nat) (ranges : SubaddressRanges) (indexes : SubaddressIndexes)
    (entries : List SubaddressDict) : Bool :=
  decide (maxSubaddr < indexes.count id) || mergesFit maxSubaddr id ranges (indexes.count id) entries

theorem doUpsert_upserted (entries : List SubaddressDict) :
    let done := doUpsert env id address viewKey entries maxSubaddr ranges indexes
    Upserted env id address viewKey ranges done.ranges indexes done.indexes ∧
      (OwnRows env id address viewKey ranges indexes → indexes.count id ≤ maxSubaddr →
        done.indexes.count id ≤ maxSubaddr) := by
  unfold doUpsert
  dsimp only
  split
  · exact ⟨Upserted.refl _ _, fun _ hc => hc⟩
  · rename_i hle
    obtain ⟨hup, hcount⟩ := @doUpsertLoop_upserted env id address viewKey maxSubaddr entries _ [] ranges indexes (not_lt.mp hle)
    exact ⟨hup, fun hown _ => hcount hown (Nat.le_refl _)⟩

theorem doUpsert_exact {entries : List SubaddressDict}
    (h : (entries.map (·.1)).Nodup ∧ upsertFits maxSubaddr id ranges indexes entries = true ∨
      ∃ out, (doUpsert env id address viewKey entries maxSubaddr ranges indexes).result = .ok out) :
    let done := doUpsert env id address viewKey entries maxSubaddr ranges indexes
    (Backed id ranges indexes → Backed id done.ranges done.indexes) ∧
      ∀ i, Ranged ranges id i → Ranged done.ranges id i := by
  unfold doUpsert at h ⊢
  dsimp only at h ⊢
  split at h
  · rename_i hlt
    rw [if_pos hlt]
    exact ⟨fun h => h, fun _ h => h⟩
  · rename_i hle
    rw [if_neg hle]
    refine doUpsertLoop_exact entries (not_lt.mp hle) (h.imp_left fun ⟨hnd, hfit⟩ => ⟨hnd, ?_⟩)
    unfold upsertFits at hfit
    rwa [decide_eq_false hle, Bool.false_or] at hfit

end Upsert

/-! ## Lookahead -/

section Lookahead

variable {env : Env} {maxSubaddresses : Nat} {lookahead : AddressIndex}

theorem lookaheadFill_majors {minor : Nat} :
    ∀ (elems : List SubaddressDict) {i total : Nat} {entries : List SubaddressDict},
    lookaheadFill minor maxSubaddresses i total elems = .ok entries → entries.map (·.1) = List.range' i elems.length := by
  intro elems
  induction elems with
  | nil =>
    intro i total entries h
    cases h
    rfl
  | cons elem elems ih =>
    intro i total entries h
    unfold lookaheadFill at h
    have key : ∀ (ranges : List IndexRange) (thisMinor : Nat),
        (if maxSubaddresses - total < thisMinor then .error .maxSubaddresses
          else lookaheadFill minor maxSubaddresses (i + 1) (total + thisMinor) elems >>= fun rest =>
            .ok ((i, ranges) :: rest) : Except Error (List SubaddressDict)) = .ok entries →
          entries.map (·.1) = List.range' i (elems.length + 1) := by
      intro ranges thisMinor h
      split at h
      · cases h
      · obtain ⟨rest, hrest, h⟩ := bind_ok.mp h
        cases h
        rw [List.map_cons, ih hrest, List.range'_succ]
    exact key _ _ h

/-- A lookahead that is asked for and fits the limit by itself. -/
def looks (maxSubaddresses : Nat) (lookahead : AddressIndex) : Bool :=
  decide (lookahead.majI ≠ 0 ∧ lookahead.minI ≠ 0 ∧ lookahead.majI ≤ uint32Max / lookahead.minI ∧
    lookahead.majI * lookahead.minI ≤ maxSubaddresses)

/-- Entries are made of the outputs and then filled, where the lookahead fits the limit. -/
theorem lookaheadEntries_some {outputs : List Output} {entries : List SubaddressDict}
    (h : lookaheadEntries outputs lookahead maxSubaddresses = .ok (some entries)) :
    looks maxSubaddresses lookahead = true ∧
      ∃ initial, lookaheadOutputs lookahead.majI lookahead.minI maxSubaddresses (List.replicate lookahead.majI (0, []))
          outputs = .ok initial ∧
        lookaheadFill lookahead.minI maxSubaddresses 0 0 initial = .ok entries := by
  unfold lookaheadEntries at h
  dsimp only at h
  split at h
  · cases h
  · rename_i hzero
    split at h
    · cases h
    · rename_i hwide
      split at h
      · cases h
      · rename_i hmax
        obtain ⟨initial, hout, h⟩ := bind_ok.mp h
        obtain ⟨entries', hfill, h⟩ := bind_ok.mp h
        cases h
        refine ⟨decide_eq_true ⟨fun h => hzero (Or.inl h), fun h => hzero (Or.inr h), not_lt.mp hwide, not_lt.mp hmax⟩, ?_⟩
        exact ⟨initial, hout, hfill⟩

theorem lookaheadEntries_ok {outputs : List Output} {entries : List SubaddressDict}
    (h : lookaheadEntries outputs lookahead maxSubaddresses = .ok (some entries)) :
    looks maxSubaddresses lookahead = true ∧ (entries.map (·.1)).Nodup := by
  obtain ⟨hlooks, initial, -, hfill⟩ := lookaheadEntries_some h
  refine ⟨hlooks, ?_⟩
  rw [lookaheadFill_majors _ hfill]
  exact List.nodup_range'

theorem lookaheadUpsertions_majors (fresh : AddressIndex) (major minor : Nat) :
    ((lookaheadUpsertions fresh major minor).map (·.1)).Nodup := by
  have h : (lookaheadUpsertions fresh major minor).map (·.1) = List.range (addAndClamp fresh.majI major) := by
    unfold lookaheadUpsertions
    rw [List.map_map]
    refine List.map_id'' (fun i => ?_) _
    dsimp only [Function.comp]
    split <;> rfl
  rw [h]
  exact List.nodup_range

/-- A lookahead leaves the tables as they were, or as one upsert leaves them. -/
theorem applyLookahead_tables {limit : Option Nat} {user user' : Account} {outputs : Outputs}
    {ranges ranges' : SubaddressRanges} {indexes indexes' : SubaddressIndexes}
    (h : applyLookahead env limit user lookahead outputs ranges indexes = .ok (user', ranges', indexes')) :
    (ranges' = ranges ∧ indexes' = indexes) ∨
      ∃ maxSubaddresses entries, limit = some maxSubaddresses ∧
        lookaheadEntries (outputs.dups user.id) lookahead maxSubaddresses = .ok (some entries) ∧
        ranges' = (doUpsert env user.id user.address user.key entries maxSubaddresses ranges indexes).ranges ∧
        indexes' = (doUpsert env user.id user.address user.key entries maxSubaddresses ranges indexes).indexes := by
  rcases applyLookahead_ok h with ⟨-, hr, hi⟩ | ⟨maxSubaddresses, hlimit, -, hfor⟩
  · exact Or.inl ⟨hr, hi⟩
  · -- whatever the result, the tables are those of the attempt
    have htables : ranges' = (doLookahead env user.id user.address user.key lookahead maxSubaddresses outputs ranges
        indexes).ranges ∧ indexes' = (doLookahead env user.id user.address user.key lookahead maxSubaddresses outputs
        ranges indexes).indexes := by
      unfold doLookaheadFor at hfor
      dsimp only at hfor
      split at hfor <;> cases hfor <;> exact ⟨rfl, rfl⟩
    unfold doLookahead at htables
    split at htables
    · exact Or.inl htables
    · exact Or.inl htables
    · rename_i entries hentries
      exact Or.inr ⟨maxSubaddresses, entries, hlimit, hentries, htables⟩

end Lookahead

end Lws.Db
