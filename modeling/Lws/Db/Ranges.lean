/-
  Lws.Db.Ranges — `do_upsert` as a union of index sets.

  A list of ranges that passes `check_subaddress_dict` is the list of the runs of the
  set it covers: no two of its ranges touch. The merge of `do_upsert` widens the first
  stored range a new one touches and never looks at the next stored range again, so a
  new range that also touches that one (it bridges the gap between the two) leaves both
  in the list, now touching or overlapping, and the part of the new range that the
  second one covers is counted and returned as added. `upsert_exact_iff` says that this
  is the only way to miss: an upsert stores the runs of the union and returns the
  indexes that are new exactly when no range of it bridges two runs of what is tracked
  when its entry is reached.
-/

import Lws.Db.Operations
import Lws.Db.SubaddressProofs

namespace Lws.Db

open Lws.Lmdb

/-! ## Runs -/

/-- The ranges pass `check_subaddress_dict`: none is empty, and each starts past the
    index after the end of the one before. -/
structure Runs (ranges : List IndexRange) : Prop where
  filled : ∀ r ∈ ranges, r.1 ≤ r.2
  apart : ranges.Pairwise fun a b => a.2 + 1 < b.1

theorem Runs.nil : Runs [] := ⟨by simp, List.Pairwise.nil⟩

theorem checkRanges_iff : ∀ (ranges : List IndexRange) (last : Option Nat),
    checkRanges last ranges = true ↔ Runs ranges ∧ ∀ l ∈ last, ∀ r ∈ ranges, l + 1 < r.1 := by
  intro ranges
  induction ranges with
  | nil =>
    intro last
    refine ⟨fun _ => ⟨Runs.nil, fun l _ r hr => ?_⟩, fun _ => rfl⟩
    cases hr
  | cons elem ranges ih =>
    intro last
    unfold checkRanges
    split
    · rename_i hempty
      simp only [Bool.false_eq_true, false_iff]
      exact fun h => absurd (h.1.filled elem List.mem_cons_self) (by omega)
    · rename_i hfilled
      split
      · rename_i hnear
        simp only [Bool.false_eq_true, false_iff]
        rintro ⟨-, h⟩
        obtain ⟨l, hl, hle⟩ := (Option.any_eq_true _ _).mp hnear
        have := h l hl elem List.mem_cons_self
        have := of_decide_eq_true hle
        omega
      · rename_i hfar
        rw [ih]
        constructor
        · rintro ⟨hruns, hlast⟩
          have hafter := hlast elem.2 rfl
          refine ⟨⟨List.forall_mem_cons.mpr ⟨by omega, hruns.filled⟩, List.pairwise_cons.mpr ⟨hafter, hruns.apart⟩⟩, ?_⟩
          rintro l rfl
          have hhead : l + 1 < elem.1 := by
            simp only [Option.any_some, decide_eq_true_eq] at hfar
            omega
          refine List.forall_mem_cons.mpr ⟨hhead, fun r hr => ?_⟩
          have := hafter r hr
          omega
        · rintro ⟨hruns, -⟩
          have hp := List.pairwise_cons.mp hruns.apart
          refine ⟨⟨fun r hr => hruns.filled r (List.mem_cons_of_mem _ hr), hp.2⟩, ?_⟩
          intro l hl
          cases hl
          exact hp.1

theorem checkSubaddressDict_iff {self : SubaddressDict} : checkSubaddressDict self = true ↔ Runs self.2 := by
  unfold checkSubaddressDict
  rw [checkRanges_iff]
  exact and_iff_left fun l hl => nomatch hl

section Runs

variable {r : IndexRange} {rs : List IndexRange} {m : Nat}

theorem Runs.head (h : Runs (r :: rs)) : r.1 ≤ r.2 := h.filled r List.mem_cons_self

theorem Runs.tail (h : Runs (r :: rs)) : Runs rs :=
  ⟨fun x hx => h.filled x (List.mem_cons_of_mem _ hx), (List.pairwise_cons.mp h.apart).2⟩

theorem Runs.after (h : Runs (r :: rs)) : ∀ x ∈ rs, r.2 + 1 < x.1 := (List.pairwise_cons.mp h.apart).1

theorem Runs.covers_after (h : Runs (r :: rs)) (hm : Covers rs m) : r.2 + 1 < m := by
  obtain ⟨x, hx, hle, -⟩ := hm
  have := h.after x hx
  omega

theorem Runs.separate {a b : IndexRange} (h : Runs rs) (ha : a ∈ rs) (hb : b ∈ rs) (hne : a ≠ b) :
    a.2 + 1 < b.1 ∨ b.2 + 1 < a.1 := by
  have : Std.Symm fun a b : IndexRange => a.2 + 1 < b.1 ∨ b.2 + 1 < a.1 := ⟨fun _ _ h => h.symm⟩
  have hp : rs.Pairwise fun a b => a.2 + 1 < b.1 ∨ b.2 + 1 < a.1 := h.apart.imp fun h => Or.inl h
  exact List.Pairwise.forall hp ha hb hne

/-- What begins past an index covers nothing up to it. -/
theorem Runs.past {last : Nat} (h : Runs (r :: rs)) (hlast : last + 1 < r.1) (hm : Covers (r :: rs) m) :
    last + 1 < m := by
  rcases covers_cons.mp hm with hm | hm
  · omega
  · have := h.covers_after hm
    have := h.head
    omega

/-- A range in front, when all that follows is past it. -/
theorem Runs.cons (hr : r.1 ≤ r.2) (h : Runs rs) (hpast : ∀ m, Covers rs m → r.2 + 1 < m) : Runs (r :: rs) := by
  refine ⟨List.forall_mem_cons.mpr ⟨hr, h.filled⟩, List.pairwise_cons.mpr ⟨fun x hx => ?_, h.apart⟩⟩
  exact hpast x.1 ⟨x, hx, Nat.le_refl _, h.filled x hx⟩

end Runs

/-- The ranges overlap or are next to each other. -/
def Touches (a b : IndexRange) : Prop := a.1 ≤ b.2 + 1 ∧ b.1 ≤ a.2 + 1

/-- The range touches one of the stored ranges at most. -/
def TouchesOne (olds : List IndexRange) (new : IndexRange) : Prop :=
  olds.Pairwise fun a b => ¬ (Touches a new ∧ Touches b new)

/-- The range joins two runs of what is tracked: it reaches from one to the other. -/
def Bridges (tracked : Nat → Prop) (new : IndexRange) : Prop :=
  ∃ x y z, tracked x ∧ ¬ tracked y ∧ tracked z ∧ x < y ∧ y < z ∧ new.1 ≤ x + 1 ∧ z ≤ new.2 + 1

theorem Runs.touchesOne_iff {olds : List IndexRange} (h : Runs olds) (new : IndexRange) :
    TouchesOne olds new ↔ ¬ Bridges (Covers olds) new := by
  constructor
  · rintro hone ⟨x, y, z, ⟨a, ha, hxa⟩, hy, ⟨b, hb, hzb⟩, hxy, hyz, hx, hz⟩
    have hab : a ≠ b := by
      rintro rfl
      exact hy ⟨a, ha, by omega, by omega⟩
    have : Std.Symm fun a b : IndexRange => ¬ (Touches a new ∧ Touches b new) := ⟨fun _ _ h h' => h ⟨h'.2, h'.1⟩⟩
    exact List.Pairwise.forall hone ha hb hab ⟨⟨by omega, by omega⟩, ⟨by omega, by omega⟩⟩
  · intro hb
    refine h.apart.imp_of_mem fun {a b} ha hbm hlt => ?_
    rintro ⟨hta, htb⟩
    have hfa := h.filled a ha
    have hfb := h.filled b hbm
    refine hb ⟨a.2, a.2 + 1, b.1, ⟨a, ha, hfa, Nat.le_refl _⟩, ?_, ⟨b, hbm, Nat.le_refl _, hfb⟩, by omega, by omega,
        hta.2, htb.1⟩
    -- the index after a run is in no run: another one ends before it or starts past it
    rintro ⟨c, hc, hc1, hc2⟩
    have hca : c ≠ a := by
      rintro rfl
      omega
    have hfc := h.filled c hc
    rcases h.separate hc ha hca with hlt' | hlt' <;> omega

/-! ## The merge -/

section Merge

variable {maxSubaddr count count' : Nat}

/-- A merge that gives runs had runs to start from and no new range that touches two of them. -/
theorem mergeRanges_needs (n : Nat) {count : Nat} {old new dict added : List IndexRange} (hle : count ≤ maxSubaddr)
    (hfilled : ∀ r ∈ old, r.1 ≤ r.2) (hnew : Runs new) (hdict : Runs dict)
    (h : mergeRanges maxSubaddr n count old new = some (count', dict, added)) :
    Runs old ∧ ∀ r ∈ new, TouchesOne old r := by
  fun_induction mergeRanges maxSubaddr n count old new generalizing dict added with
  | case1 n count old =>
    cases h
    exact ⟨hdict, fun r hr => absurd hr List.not_mem_nil⟩
  | case2 n count new hne => exact ⟨⟨hfilled, List.Pairwise.nil⟩, fun r _ => List.Pairwise.nil⟩
  | case3 => cases h
  | case4 n count old olds new news hlt ih =>
    obtain ⟨mid, hmid, h⟩ := Option.bind_eq_some_iff.mp h
    obtain ⟨⟨c, d, a⟩, hrec, h⟩ := Option.bind_eq_some_iff.mp h
    cases h
    obtain ⟨hruns, hone⟩ := ih mid (checkMaxRange_some hle hmid).2 hfilled hnew.tail hdict.tail hrec
    refine ⟨hruns, List.forall_mem_cons.mpr ⟨List.pairwise_cons.mpr ⟨fun b _ ht => ?_, ?_⟩, hone⟩⟩
    · have := ht.1.1
      omega
    · refine hruns.tail.apart.imp_of_mem fun {a b} ha _ _ ht => ?_
      have := hruns.after a ha
      have := hruns.head
      have := ht.1.1
      omega
  | case5 n count old olds new news _ hlt ih =>
    obtain ⟨⟨c, d, a⟩, hrec, h⟩ := Option.bind_eq_some_iff.mp h
    cases h
    obtain ⟨hruns, hone⟩ := ih hle (fun r hr => hfilled r (List.mem_cons_of_mem _ hr)) hnew hdict.tail hrec
    have hcovers := (mergeRanges_some n hle hrec).covers
    refine ⟨hruns.cons hdict.head fun m hm => hdict.covers_after ((hcovers m).mpr (Or.inl hm)), fun r hr => ?_⟩
    refine List.pairwise_cons.mpr ⟨fun b _ ht => ?_, hone r hr⟩
    have hfirst : new.1 ≤ r.1 := by
      rcases List.mem_cons.mp hr with rfl | hr
      · exact Nat.le_refl _
      · have := hnew.after r hr
        have := hnew.head
        omega
    have := ht.1.2
    omega
  | case6 n count old olds new news _ _ hin ih =>
    obtain ⟨hruns, hone⟩ := ih hle hfilled hnew.tail hdict h
    refine ⟨hruns, List.forall_mem_cons.mpr ⟨?_, hone⟩⟩
    refine List.pairwise_cons.mpr ⟨fun b hb ht => ?_, hruns.tail.apart.imp_of_mem fun {a b} ha _ _ ht => ?_⟩
    · have := hruns.after b hb
      have := ht.2.1
      omega
    · have := hruns.after a ha
      have := ht.1.1
      omega
  | case7 n count old olds new news hbefore hafter hin ih =>
    obtain ⟨⟨c₁, old₁, p₁⟩, h1, h⟩ := Option.bind_eq_some_iff.mp h
    obtain ⟨⟨c₂, old₂, p₂⟩, h2, h⟩ := Option.bind_eq_some_iff.mp h
    obtain ⟨⟨c, d, a⟩, hrec, h⟩ := Option.bind_eq_some_iff.mp h
    cases h
    obtain ⟨rfl, -, -, hle₁⟩ := widenBegin_some hle h1
    obtain ⟨rfl, -, -, hle₂⟩ := widenEnd_some hle₁ h2
    have hhead := hfilled old List.mem_cons_self
    obtain ⟨hruns, hone⟩ := ih _ _ hle₂ (List.forall_mem_cons.mpr ⟨by simp only; omega,
      fun r hr => hfilled r (List.mem_cons_of_mem _ hr)⟩) hnew.tail hdict hrec
    have hpast : ∀ b ∈ olds, max old.2 new.2 + 1 < b.1 := hruns.after
    refine ⟨⟨hfilled, List.pairwise_cons.mpr ⟨fun b hb => ?_, hruns.tail.apart⟩⟩, List.forall_mem_cons.mpr ⟨?_, fun r hr => ?_⟩⟩
    · have := hpast b hb
      omega
    · refine List.pairwise_cons.mpr ⟨fun b hb ht => ?_, hruns.tail.apart.imp_of_mem fun {a b} ha _ _ ht => ?_⟩
      · have := hpast b hb
        have := ht.2.1
        omega
      · have := hpast a ha
        have := ht.1.1
        omega
    · -- the widened range touches what the old one does
      obtain ⟨hwide, hrest⟩ := List.pairwise_cons.mp (hone r hr)
      refine List.pairwise_cons.mpr ⟨fun b hb ht => hwide b hb ⟨⟨?_, ?_⟩, ht.2⟩, hrest⟩
      · have := ht.1.1
        simp only
        omega
      · have := ht.1.2
        simp only
        omega

/-- No range of a merge is empty. -/
theorem mergeRanges_filled (n : Nat) {count : Nat} {old new dict added : List IndexRange} (hle : count ≤ maxSubaddr)
    (hold : ∀ r ∈ old, r.1 ≤ r.2) (hnew : ∀ r ∈ new, r.1 ≤ r.2)
    (h : mergeRanges maxSubaddr n count old new = some (count', dict, added)) : ∀ r ∈ dict, r.1 ≤ r.2 := by
  fun_induction mergeRanges maxSubaddr n count old new generalizing dict added with
  | case1 n count old =>
    cases h
    exact hold
  | case2 n count new hne =>
    obtain ⟨c, hc, h⟩ := Option.bind_eq_some_iff.mp h
    cases h
    exact hnew
  | case3 => cases h
  | case4 n count old olds new news hlt ih =>
    obtain ⟨mid, hmid, h⟩ := Option.bind_eq_some_iff.mp h
    obtain ⟨⟨c, d, a⟩, hrec, h⟩ := Option.bind_eq_some_iff.mp h
    cases h
    rw [List.forall_mem_cons] at hnew
    exact List.forall_mem_cons.mpr ⟨hnew.1, ih mid (checkMaxRange_some hle hmid).2 hold hnew.2 hrec⟩
  | case5 n count old olds new news _ hlt ih =>
    obtain ⟨⟨c, d, a⟩, hrec, h⟩ := Option.bind_eq_some_iff.mp h
    cases h
    rw [List.forall_mem_cons] at hold
    exact List.forall_mem_cons.mpr ⟨hold.1, ih hle hold.2 hnew hrec⟩
  | case6 n count old olds new news _ _ hin ih =>
    rw [List.forall_mem_cons] at hnew
    exact ih hle hold hnew.2 h
  | case7 n count old olds new news hbefore hafter hin ih =>
    obtain ⟨⟨c₁, old₁, p₁⟩, h1, h⟩ := Option.bind_eq_some_iff.mp h
    obtain ⟨⟨c₂, old₂, p₂⟩, h2, h⟩ := Option.bind_eq_some_iff.mp h
    obtain ⟨⟨c, d, a⟩, hrec, h⟩ := Option.bind_eq_some_iff.mp h
    cases h
    obtain ⟨rfl, -, -, hle₁⟩ := widenBegin_some hle h1
    obtain ⟨rfl, -, -, hle₂⟩ := widenEnd_some hle₁ h2
    rw [List.forall_mem_cons] at hold hnew
    exact ih _ _ hle₂ (List.forall_mem_cons.mpr ⟨by simp only; omega, hold.2⟩) hnew.2 hrec

structure AddedOnce (old new added : List IndexRange) : Prop where
  covers : ∀ m, Covers added m ↔ Covers new m ∧ ¬ Covers old m
  once : (added.flatMap minors).Nodup

theorem minors_nodup (r : IndexRange) : (minors r).Nodup := List.nodup_range'

theorem flatMap_minors_nodup_append {rs rs' : List IndexRange} (h : (rs.flatMap minors).Nodup)
    (h' : (rs'.flatMap minors).Nodup) (hsep : ∀ m, Covers rs m → ¬ Covers rs' m) :
    ((rs ++ rs').flatMap minors).Nodup := by
  rw [List.flatMap_append]
  refine List.nodup_append.mpr ⟨h, h', fun m hm m' hm' he => ?_⟩
  rw [mem_flatMap_minors] at hm hm'
  exact hsep m hm (he ▸ hm')

theorem flatMap_minors_nodup_cons {r : IndexRange} {rs : List IndexRange} (h : (rs.flatMap minors).Nodup)
    (hsep : ∀ m, r.1 ≤ m ∧ m ≤ r.2 → ¬ Covers rs m) : ((r :: rs).flatMap minors).Nodup := by
  have hone : ([r].flatMap minors).Nodup := by simpa using minors_nodup r
  refine flatMap_minors_nodup_append hone h fun m hm => hsep m ?_
  simpa using hm

theorem Runs.flatMap_minors_nodup : ∀ {rs : List IndexRange}, Runs rs → (rs.flatMap minors).Nodup := by
  intro rs
  induction rs with
  | nil => exact fun _ => List.nodup_nil
  | cons r rs ih =>
    intro h
    refine flatMap_minors_nodup_cons (ih h.tail) fun m hm hm' => ?_
    have := h.covers_after hm'
    omega

/-- The end of a range that widens an old one. -/
theorem widenBegin_nodup {old new old' : IndexRange} {parts : List IndexRange}
    (h : widenBegin maxSubaddr count old new = some (count', old', parts)) : (parts.flatMap minors).Nodup := by
  unfold widenBegin at h
  split at h
  · obtain ⟨c, -, h⟩ := Option.bind_eq_some_iff.mp h
    cases h
    simpa using minors_nodup _
  · cases h
    exact List.nodup_nil

theorem widenEnd_nodup {old new old' : IndexRange} {parts : List IndexRange}
    (h : widenEnd maxSubaddr count old new = some (count', old', parts)) : (parts.flatMap minors).Nodup := by
  unfold widenEnd at h
  split at h
  · obtain ⟨c, -, h⟩ := Option.bind_eq_some_iff.mp h
    cases h
    simpa using minors_nodup _
  · cases h
    exact List.nodup_nil

section Added

variable {old new : IndexRange} {olds news added : List IndexRange}

/-- A new range in front of all that is stored. -/
theorem AddedOnce.before (h : AddedOnce olds news added) (hnew : Runs (new :: news))
    (hpast : ∀ m, Covers olds m → new.2 + 1 < m) : AddedOnce olds (new :: news) (new :: added) := by
  refine ⟨fun m => ?_, flatMap_minors_nodup_cons h.once fun m hm hm' => ?_⟩
  · rw [covers_cons, covers_cons, h.covers]
    constructor
    · rintro (hm | hm)
      · exact ⟨Or.inl hm, fun ho => by have := hpast m ho; omega⟩
      · exact ⟨Or.inr hm.1, hm.2⟩
    · rintro ⟨hm | hm, ho⟩
      · exact Or.inl hm
      · exact Or.inr ⟨hm, ho⟩
  · have := hnew.covers_after ((h.covers m).mp hm').1
    omega

/-- A stored range in front of all that is new. -/
theorem AddedOnce.after (h : AddedOnce olds news added) (hpast : ∀ m, Covers news m → old.2 + 1 < m) :
    AddedOnce (old :: olds) news added := by
  refine ⟨fun m => ?_, h.once⟩
  rw [h.covers, covers_cons (r := old)]
  refine and_congr_right fun hm => not_congr ⟨Or.inr, fun ho => ho.resolve_left fun ho => ?_⟩
  have := hpast m hm
  omega

/-- A new range inside a stored one. -/
theorem AddedOnce.inside (h : AddedOnce (old :: olds) news added) (hfirst : old.1 ≤ new.1) (hlast : new.2 ≤ old.2) :
    AddedOnce (old :: olds) (new :: news) added := by
  refine ⟨fun m => ?_, h.once⟩
  rw [h.covers, covers_cons (r := new)]
  refine and_congr_left fun ho => ⟨Or.inr, fun hm => hm.resolve_left fun hm => ho ?_⟩
  exact covers_cons.mpr (Or.inl (by omega))

/-- The stored range, widened to a new one that it touches. -/
def widened (old new : IndexRange) : IndexRange := (min new.1 old.1, max old.2 new.2)

/-- The next stored range is past the new one, or the new one would touch both. -/
theorem TouchesOne.past (hone : TouchesOne (old :: olds) new) (hold : Runs (old :: olds)) (ht : Touches old new) :
    ∀ b ∈ olds, (widened old new).2 + 1 < b.1 := by
  intro b hb
  have hafterOld := hold.after b hb
  have hfilled := hold.tail.filled b hb
  have hno : ¬Touches b new := fun htb => (List.pairwise_cons.mp hone).1 b hb ⟨ht, htb⟩
  simp only [Touches, widened] at ht hno ⊢
  omega

theorem Runs.widened (hold : Runs (old :: olds)) (hpast : ∀ b ∈ olds, (widened old new).2 + 1 < b.1) :
    Runs (widened old new :: olds) := by
  have hhead := hold.head
  refine ⟨List.forall_mem_cons.mpr ⟨?_, hold.tail.filled⟩, List.pairwise_cons.mpr ⟨hpast, hold.tail.apart⟩⟩
  simp only [Db.widened]
  omega

theorem TouchesOne.widened {r : IndexRange} (hone : TouchesOne (old :: olds) r) (ht : Touches old new)
    (hafter : new.2 + 1 < r.1) (hr : r.1 ≤ r.2) : TouchesOne (widened old new :: olds) r := by
  obtain ⟨hfirst, hrest⟩ := List.pairwise_cons.mp hone
  refine List.pairwise_cons.mpr ⟨fun b hb htb => hfirst b hb ⟨?_, htb.2⟩, hrest⟩
  obtain ⟨hbegin, hend⟩ := htb.1
  simp only [Touches, Db.widened] at ht hbegin hend ⊢
  omega

/-- A stored range that is widened at its begin and at its end. -/
theorem AddedOnce.widened {first last : List IndexRange} (h : AddedOnce (widened old new :: olds) news added)
    (hnew : Runs (new :: news)) (ht : Touches old new) (hold : old.1 ≤ old.2) (hwide : Runs (Db.widened old new :: olds))
    (hfirst : ∀ m, Covers first m ↔ new.1 ≤ m ∧ m < old.1) (hlast : ∀ m, Covers last m ↔ old.2 < m ∧ m ≤ new.2)
    (hfirstOnce : (first.flatMap minors).Nodup) (hlastOnce : (last.flatMap minors).Nodup) :
    AddedOnce (old :: olds) (new :: news) (first ++ last ++ added) := by
  obtain ⟨htouch, htouch'⟩ := ht
  have hends : ∀ m, Covers (first ++ last) m ↔ (new.1 ≤ m ∧ m ≤ new.2) ∧ ¬(old.1 ≤ m ∧ m ≤ old.2) := by
    intro m
    rw [covers_append, hfirst, hlast]
    have := hnew.head
    omega
  have hin : ∀ m, Covers (first ++ last) m → (Db.widened old new).1 ≤ m ∧ m ≤ (Db.widened old new).2 := by
    intro m hm
    have := (hends m).mp hm
    simp only [Db.widened]
    omega
  refine ⟨fun m => ?_, ?_⟩
  · have hpastOlds : Covers olds m → (Db.widened old new).2 + 1 < m := hwide.covers_after
    have hpastNews : Covers news m → new.2 + 1 < m := hnew.covers_after
    rw [covers_append, hends, h.covers, covers_cons, covers_cons (r := old), covers_cons (r := new)]
    simp only [Db.widened] at hpastOlds ⊢
    by_cases hcn : Covers news m
    · have := hpastNews hcn
      by_cases hco : Covers olds m
      · simp only [hcn, hco, or_true, not_true_eq_false, and_false, or_false, iff_false]
        have := hpastOlds hco
        omega
      · simp only [hcn, hco, or_true, true_and, or_false]
        omega
    · by_cases hco : Covers olds m
      · simp only [hcn, hco, or_true, not_true_eq_false, and_false, or_false, iff_false]
        have := hpastOlds hco
        omega
      · simp only [hcn, hco, false_and, or_false]
  · refine flatMap_minors_nodup_append (flatMap_minors_nodup_append hfirstOnce hlastOnce fun m hm hm' => ?_) h.once
      fun m hm hm' => ((h.covers m).mp hm').2 (covers_cons.mpr (Or.inl (hin m hm)))
    rw [hfirst] at hm
    rw [hlast] at hm'
    omega

end Added

/-- A merge of runs whose new ranges each touch one of the old at most. -/
theorem mergeRanges_runs (n : Nat) {count : Nat} {old new dict added : List IndexRange} (hle : count ≤ maxSubaddr)
    (hold : Runs old) (hnew : Runs new) (hone : ∀ r ∈ new, TouchesOne old r)
    (h : mergeRanges maxSubaddr n count old new = some (count', dict, added)) :
    Runs dict ∧ AddedOnce old new added := by
  fun_induction mergeRanges maxSubaddr n count old new generalizing dict added with
  | case1 n count old =>
    cases h
    exact ⟨hold, fun m => by simp, List.nodup_nil⟩
  | case2 n count new hne =>
    obtain ⟨c, hc, h⟩ := Option.bind_eq_some_iff.mp h
    cases h
    exact ⟨hnew, fun m => by simp, hnew.flatMap_minors_nodup⟩
  | case3 => cases h
  | case4 n count old olds new news hlt ih =>
    obtain ⟨mid, hmid, h⟩ := Option.bind_eq_some_iff.mp h
    obtain ⟨⟨c, d, a⟩, hrec, h⟩ := Option.bind_eq_some_iff.mp h
    cases h
    have hle' := (checkMaxRange_some hle hmid).2
    obtain ⟨hruns, hadd⟩ := ih mid hle' hold hnew.tail (fun r hr => hone r (List.mem_cons_of_mem _ hr)) hrec
    have hpast : ∀ m, Covers (old :: olds) m → new.2 + 1 < m := fun m => hold.past hlt
    refine ⟨hruns.cons hnew.head fun m hm => ?_, hadd.before hnew hpast⟩
    rcases ((mergeRanges_some n hle' hrec).covers m).mp hm with hm | hm
    · exact hpast m hm
    · exact hnew.covers_after hm
  | case5 n count old olds new news _ hlt ih =>
    obtain ⟨⟨c, d, a⟩, hrec, h⟩ := Option.bind_eq_some_iff.mp h
    cases h
    obtain ⟨hruns, hadd⟩ := ih hle hold.tail hnew (fun r hr => (List.pairwise_cons.mp (hone r hr)).2) hrec
    have hpast : ∀ m, Covers (new :: news) m → old.2 + 1 < m := fun m => hnew.past hlt
    refine ⟨hruns.cons hold.head fun m hm => ?_, hadd.after hpast⟩
    rcases ((mergeRanges_some n hle hrec).covers m).mp hm with hm | hm
    · exact hold.covers_after hm
    · exact hpast m hm
  | case6 n count old olds new news _ _ hin ih =>
    obtain ⟨hruns, hadd⟩ := ih hle hold hnew.tail (fun r hr => hone r (List.mem_cons_of_mem _ hr)) h
    exact ⟨hruns, hadd.inside (by omega) (by omega)⟩
  | case7 n count old olds new news hbefore hafter hin ih =>
    obtain ⟨⟨c₁, old₁, p₁⟩, h1, h⟩ := Option.bind_eq_some_iff.mp h
    obtain ⟨⟨c₂, old₂, p₂⟩, h2, h⟩ := Option.bind_eq_some_iff.mp h
    obtain ⟨⟨c, d, a⟩, hrec, h⟩ := Option.bind_eq_some_iff.mp h
    cases h
    have hnd₁ := widenBegin_nodup h1
    have hnd₂ := widenEnd_nodup h2
    obtain ⟨rfl, hp₁, -, hle₁⟩ := widenBegin_some hle h1
    obtain ⟨rfl, hp₂, -, hle₂⟩ := widenEnd_some hle₁ h2
    have htouch : Touches old new := ⟨by omega, by omega⟩
    have hwide := hold.widened ((hone new List.mem_cons_self).past hold htouch)
    have honeWide : ∀ r ∈ news, TouchesOne (widened old new :: olds) r := fun r hr =>
      (hone r (List.mem_cons_of_mem _ hr)).widened htouch (hnew.after r hr) (hnew.tail.filled r hr)
    obtain ⟨hruns, hadd⟩ := ih _ _ hle₂ hwide hnew.tail honeWide hrec
    exact ⟨hruns, hadd.widened hnew htouch hold.head hwide hp₁ hp₂ hnd₁ hnd₂⟩

end Merge

/-! ## Upserting -/

def rangeIndexes (major : Nat) (ranges : List IndexRange) : List AddressIndex :=
  (ranges.flatMap minors).map fun minor => ⟨major, minor⟩

def dictIndexes (dicts : List SubaddressDict) : List AddressIndex := dicts.flatMap fun d => rangeIndexes d.1 d.2

/-- The ranges stored for an account are valid. -/
def ValidRanges (id : Nat) (ranges : SubaddressRanges) : Prop := ∀ d, (id, d) ∈ ranges → checkSubaddressDict d = true

/-- No range of the entries bridges two runs of what is tracked when its entry is reached:
    what was tracked before, and what the entries before it name. -/
def Unbridged : (AddressIndex → Prop) → List SubaddressDict → Prop
  | _, [] => True
  | tracked, entry :: rest =>
    (∀ r ∈ entry.2, ¬ Bridges (fun m => tracked ⟨entry.1, m⟩) r) ∧
      Unbridged (fun i => tracked i ∨ i ∈ rangeIndexes entry.1 entry.2) rest

/-- What an upsert is for: valid ranges that cover the old indexes and the new, and the
    indexes that are new returned, each once. -/
structure UpsertExact (id : Nat) (ranges ranges' : SubaddressRanges) (subaddrs out : List SubaddressDict) : Prop where
  valid : ValidRanges id ranges'
  stored : ∀ i, Ranged ranges' id i ↔ Ranged ranges id i ∨ i ∈ dictIndexes subaddrs
  returned : ∀ i, i ∈ dictIndexes out ↔ i ∈ dictIndexes subaddrs ∧ ¬ Ranged ranges id i
  once : (dictIndexes out).Nodup

section Upsert

variable {env : Env} {id : Nat} {address : AccountAddress} {viewKey : SecretKey} {maxSubaddr : Nat}

theorem mem_rangeIndexes {major : Nat} {ranges : List IndexRange} {i : AddressIndex} :
    i ∈ rangeIndexes major ranges ↔ i.majI = major ∧ Covers ranges i.minI := by
  simp only [rangeIndexes, List.mem_map, mem_flatMap_minors]
  constructor
  · rintro ⟨m, hm, rfl⟩
    exact ⟨rfl, hm⟩
  · rintro ⟨rfl, hm⟩
    exact ⟨i.minI, hm, rfl⟩

theorem rangeIndexes_append (major : Nat) (rs rs' : List IndexRange) :
    rangeIndexes major (rs ++ rs') = rangeIndexes major rs ++ rangeIndexes major rs' := by
  simp only [rangeIndexes, List.flatMap_append, List.map_append]

theorem dictIndexes_append (ds ds' : List SubaddressDict) :
    dictIndexes (ds ++ ds') = dictIndexes ds ++ dictIndexes ds' := List.flatMap_append

theorem dictIndexes_singleton (d : SubaddressDict) : dictIndexes [d] = rangeIndexes d.1 d.2 := by simp [dictIndexes]

theorem dictIndexes_addOut (major : Nat) (out : List SubaddressDict) (minor : IndexRange) :
    dictIndexes (addOut major out minor) = dictIndexes out ++ rangeIndexes major [minor] := by
  unfold addOut
  split
  · rename_i m ranges hlast
    obtain ⟨init, rfl⟩ := List.getLast?_eq_some_iff.mp hlast
    split
    · rename_i he
      rw [List.dropLast_concat, dictIndexes_append, dictIndexes_append, dictIndexes_singleton, dictIndexes_singleton,
        rangeIndexes_append, List.append_assoc, he]
    · rw [dictIndexes_append, dictIndexes_singleton]
  · rename_i hlast
    rw [List.getLast?_eq_none_iff] at hlast
    rw [hlast, dictIndexes_singleton]
    rfl

theorem dictIndexes_foldl_addOut (major : Nat) : ∀ (added : List IndexRange) (out : List SubaddressDict),
    dictIndexes (added.foldl (addOut major) out) = dictIndexes out ++ rangeIndexes major added := by
  intro added
  induction added with
  | nil => intro out; exact (List.append_nil _).symm
  | cons minor added ih =>
    intro out
    rw [List.foldl_cons, ih, dictIndexes_addOut, List.append_assoc, ← rangeIndexes_append]
    rfl

variable {entry : SubaddressDict} {count : Nat} {out : List SubaddressDict} {ranges : SubaddressRanges}
  {indexes : SubaddressIndexes}

/-- An entry that is stored is a merge with the ranges of its major index, none when there is no row. -/
theorem upsertEntry_merge {count' : Nat} {out' : List SubaddressDict}
    (h : (upsertEntry env id address viewKey maxSubaddr entry count out ranges indexes).result = .ok (count', out')) :
    ∃ n old dict added, Runs entry.2 ∧ mergeRanges maxSubaddr n count old entry.2 = some (count', dict, added) ∧
      (∀ m, Ranged ranges id ⟨entry.1, m⟩ ↔ Covers old m) ∧ (old = [] ∨ (id, (entry.1, old)) ∈ ranges) ∧
      (∀ d, (id, (entry.1, d)) ∈ ranges → d = old) ∧
      (∀ r, r ∈ (upsertEntry env id address viewKey maxSubaddr entry count out ranges indexes).ranges ↔
        r = (id, (entry.1, dict)) ∨ (r ∈ ranges ∧ ¬ (r.1 = id ∧ r.2.1 = entry.1))) ∧
      dictIndexes out' = dictIndexes out ++ rangeIndexes entry.1 added := by
  unfold upsertEntry at h ⊢
  by_cases hcheck : (!checkSubaddressDict entry) = true
  · rw [if_pos hcheck] at h
    cases h
  · rw [if_neg hcheck] at h ⊢
    have hruns : Runs entry.2 := checkSubaddressDict_iff.mp (by simpa using hcheck)
    rcases hget : ranges.get? id entry.1 with _ | old
    · have hfree := Table.get?_eq_none.mp hget
      rcases hmax : checkMaxRanges maxSubaddr count entry.2 with _ | total
      · simp only [hget, hmax] at h
        cases h
      · simp only [hget, hmax, storeEntry_eq hfree] at h ⊢
        cases h
        refine ⟨0, [], entry.2, entry.2, hruns, ?_, fun m => ?_, Or.inl rfl, fun d hd => ?_, fun r => Table.mem_put, ?_⟩
        · -- the merge with nothing is the check of the ranges alone
          rcases hnew : entry.2 with _ | ⟨r, rs⟩
          · rw [hnew] at hmax
            cases hmax
            rfl
          · rw [hnew] at hmax
            unfold mergeRanges
            rw [hmax]
            rfl
        · simp only [covers_nil, iff_false]
          rintro ⟨d, hd, -⟩
          exact hfree _ hd rfl
        · exact absurd rfl (hfree (entry.1, d) hd)
        · rw [dictIndexes_append, dictIndexes_singleton]
    · obtain ⟨hold, hmajor⟩ := Table.get?_eq_some.mp hget
      have hold' : (id, (entry.1, old.2)) ∈ ranges := by
        rw [← hmajor]
        exact hold
      rcases hmerge : mergeRanges maxSubaddr (old.2.length + entry.2.length) count old.2 entry.2 with _ | ⟨total, dict, added⟩
      · simp only [hget, hmerge] at h
        cases h
      · have hfree : ∀ w, (id, w) ∈ ranges.erase id entry.1 → w.1 ≠ entry.1 :=
          fun w hw he => (Table.mem_erase.mp hw).2 ⟨rfl, he⟩
        simp only [hget, hmerge, storeEntry_eq hfree] at h ⊢
        cases h
        have honly : ∀ d, (id, (entry.1, d)) ∈ ranges → d = old.2 := fun d hd =>
          congrArg Prod.snd (Table.unique_val hd hold' rfl)
        refine ⟨_, old.2, dict, added, hruns, hmerge, fun m => ?_, Or.inr hold', honly, fun r => ?_,
            dictIndexes_foldl_addOut _ _ _⟩
        · constructor
          · rintro ⟨d, hd, hc⟩
            rwa [honly d hd] at hc
          · exact fun hc => ⟨old.2, hold', hc⟩
        · rw [Table.mem_put, Table.mem_erase]
          tauto

def FilledRanges (id : Nat) (ranges : SubaddressRanges) : Prop := ∀ d, (id, d) ∈ ranges → ∀ r ∈ d.2, r.1 ≤ r.2

theorem ValidRanges.filled (h : ValidRanges id ranges) : FilledRanges id ranges := fun d hd =>
  (checkSubaddressDict_iff.mp (h d hd)).filled

/-- The rows of an account: the one of the entry, and the others as they were. -/
theorem forall_stored {p : SubaddressDict → Prop} {ranges' : SubaddressRanges} {dict : List IndexRange}
    (hrow : ∀ r, r ∈ ranges' ↔ r = (id, (entry.1, dict)) ∨ (r ∈ ranges ∧ ¬ (r.1 = id ∧ r.2.1 = entry.1))) :
    (∀ d, (id, d) ∈ ranges' → p d) ↔ p (entry.1, dict) ∧ ∀ d, (id, d) ∈ ranges → d.1 ≠ entry.1 → p d := by
  constructor
  · intro h
    exact ⟨h _ ((hrow _).mpr (Or.inl rfl)), fun d hd hne => h d ((hrow _).mpr (Or.inr ⟨hd, fun he => hne he.2⟩))⟩
  · rintro ⟨hp, hothers⟩ d hd
    rcases (hrow _).mp hd with he | ⟨hd, hne⟩
    · rw [show d = (entry.1, dict) from congrArg Prod.snd he]
      exact hp
    · exact hothers d hd fun he => hne ⟨rfl, he⟩

/-- What one entry of an upsert does. -/
structure EntryExact (id : Nat) (entry : SubaddressDict) (ranges ranges' : SubaddressRanges)
    (out out' : List SubaddressDict) : Prop where
  ranged : ∀ i, Ranged ranges' id i ↔ Ranged ranges id i ∨ i ∈ rangeIndexes entry.1 entry.2
  filled : FilledRanges id ranges → FilledRanges id ranges'
  needs : FilledRanges id ranges → ValidRanges id ranges' →
    ValidRanges id ranges ∧ ∀ r ∈ entry.2, ¬ Bridges (fun m => Ranged ranges id ⟨entry.1, m⟩) r
  exact : ValidRanges id ranges → (∀ r ∈ entry.2, ¬ Bridges (fun m => Ranged ranges id ⟨entry.1, m⟩) r) →
    ValidRanges id ranges' ∧ ∃ more, dictIndexes out' = dictIndexes out ++ more ∧ more.Nodup ∧
      ∀ i, i ∈ more ↔ i ∈ rangeIndexes entry.1 entry.2 ∧ ¬ Ranged ranges id i

theorem upsertEntry_exact {count' : Nat} {out' : List SubaddressDict} (hle : count ≤ maxSubaddr)
    (h : (upsertEntry env id address viewKey maxSubaddr entry count out ranges indexes).result = .ok (count', out')) :
    count' ≤ maxSubaddr ∧ EntryExact id entry ranges
      (upsertEntry env id address viewKey maxSubaddr entry count out ranges indexes).ranges out out' := by
  obtain ⟨n, old, dict, added, hnew, hmerge, hranged, hold, honly, hrow, hout⟩ := upsertEntry_merge h
  have hmerged := mergeRanges_some n hle hmerge
  have htracked : (fun m => Ranged ranges id ⟨entry.1, m⟩) = Covers old := funext fun m => propext (hranged m)
  have hself : ∀ {p : SubaddressDict → Prop}, p (entry.1, old) → (∀ d, (id, d) ∈ ranges → d.1 ≠ entry.1 → p d) →
      ∀ d, (id, d) ∈ ranges → p d := by
    intro p hp hothers d hd
    by_cases he : d.1 = entry.1
    · have hd' : (id, (entry.1, d.2)) ∈ ranges := by
        rw [← he]
        exact hd
      rw [show d = (entry.1, old) from Prod.ext he (honly _ hd')]
      exact hp
    · exact hothers d hd he
  have holdFilled : FilledRanges id ranges → ∀ r ∈ old, r.1 ≤ r.2 := by
    intro hf
    rcases hold with rfl | hold
    · exact fun r hr => nomatch hr
    · exact hf _ hold
  refine ⟨hmerged.limit, fun i => ?_, fun hf => ?_, fun hf hvalid => ?_, fun hvalid hbridge => ?_⟩
  · rw [mem_rangeIndexes]
    by_cases he : i.majI = entry.1
    · have hi : Ranged ranges id i ↔ Covers old i.minI := by
        rw [← hranged, ← he]
      rw [hi, and_iff_right he, ← hmerged.covers]
      constructor
      · rintro ⟨d, hd, hc⟩
        rcases (hrow _).mp hd with hd | ⟨-, hn⟩
        · rwa [show d = dict from congrArg (fun r => r.2.2) hd] at hc
        · exact absurd ⟨rfl, he⟩ hn
      · intro hc
        refine ⟨dict, (hrow _).mpr (Or.inl ?_), hc⟩
        rw [he]
    · constructor
      · rintro ⟨d, hd, hc⟩
        rcases (hrow _).mp hd with hd | ⟨hd, -⟩
        · exact absurd (congrArg (fun r => r.2.1) hd) he
        · exact Or.inl ⟨d, hd, hc⟩
      · rintro (⟨d, hd, hc⟩ | ⟨hi, -⟩)
        · exact ⟨d, (hrow _).mpr (Or.inr ⟨hd, fun hn => he hn.2⟩), hc⟩
        · exact absurd hi he
  · exact (forall_stored hrow).mpr
      ⟨mergeRanges_filled n hle (holdFilled hf) hnew.filled hmerge, fun d hd _ => hf d hd⟩
  · obtain ⟨hdict, hothers⟩ := (forall_stored hrow).mp hvalid
    obtain ⟨hruns, hone⟩ := mergeRanges_needs n hle (holdFilled hf) hnew (checkSubaddressDict_iff.mp hdict) hmerge
    refine ⟨hself (checkSubaddressDict_iff.mpr hruns) hothers, fun r hr => ?_⟩
    rw [htracked]
    exact (hruns.touchesOne_iff r).mp (hone r hr)
  · have hruns : Runs old := by
      rcases hold with rfl | hold
      · exact Runs.nil
      · exact checkSubaddressDict_iff.mp (hvalid _ hold)
    rw [htracked] at hbridge
    obtain ⟨hdict, hadd⟩ := mergeRanges_runs n hle hruns hnew (fun r hr => (hruns.touchesOne_iff r).mpr (hbridge r hr)) hmerge
    refine ⟨(forall_stored hrow).mpr ⟨checkSubaddressDict_iff.mpr hdict, fun d hd _ => hvalid d hd⟩, _, hout, ?_, fun i => ?_⟩
    · exact List.Nodup.map (fun a b he => congrArg AddressIndex.minI he) hadd.once
    · rw [mem_rangeIndexes, mem_rangeIndexes, and_assoc]
      refine and_congr_right fun he => ?_
      rw [hadd.covers, ← hranged, ← he]

theorem doUpsertLoop_runs : ∀ (entries : List SubaddressDict) {count : Nat} {out out' : List SubaddressDict}
    {ranges : SubaddressRanges} {indexes : SubaddressIndexes}, count ≤ maxSubaddr →
    (doUpsertLoop env id address viewKey maxSubaddr count out ranges indexes entries).result = .ok out' →
    let ranges' := (doUpsertLoop env id address viewKey maxSubaddr count out ranges indexes entries).ranges
    (∀ i, Ranged ranges' id i ↔ Ranged ranges id i ∨ i ∈ dictIndexes entries) ∧
    (FilledRanges id ranges → ValidRanges id ranges' → ValidRanges id ranges ∧ Unbridged (Ranged ranges id) entries) ∧
    (ValidRanges id ranges → Unbridged (Ranged ranges id) entries →
      ValidRanges id ranges' ∧ ∃ more, dictIndexes out' = dictIndexes out ++ more ∧ more.Nodup ∧
        ∀ i, i ∈ more ↔ i ∈ dictIndexes entries ∧ ¬ Ranged ranges id i) := by
  intro entries
  induction entries with
  | nil =>
    intro count out out' ranges indexes _ h
    cases h
    exact ⟨fun i => by simp [doUpsertLoop, dictIndexes], fun _ hv => ⟨hv, trivial⟩,
      fun hv _ => ⟨hv, [], (List.append_nil _).symm, List.nodup_nil, fun i => by simp [dictIndexes]⟩⟩
  | cons entry entries ih =>
    intro count out out' ranges indexes hle h
    unfold doUpsertLoop at h ⊢
    rcases hone : (upsertEntry env id address viewKey maxSubaddr entry count out ranges indexes).result with e | ⟨count', mid⟩
    · simp only [hone] at h
      cases h
    · simp only [hone] at h ⊢
      obtain ⟨hle', hentry⟩ := upsertEntry_exact hle hone
      obtain ⟨hranged, hneeds, hexact⟩ := ih hle' h
      have htracked := funext fun i => propext (hentry.ranged i)
      have hnames : ∀ i, i ∈ dictIndexes (entry :: entries) ↔ i ∈ rangeIndexes entry.1 entry.2 ∨ i ∈ dictIndexes entries := by
        intro i
        rw [← dictIndexes_singleton, ← List.mem_append, ← dictIndexes_append]
        rfl
      refine ⟨fun i => ?_, fun hf hv => ?_, fun hv hb => ?_⟩
      · rw [hranged, hentry.ranged, hnames, or_assoc]
      · obtain ⟨hv', hb⟩ := hneeds (hentry.filled hf) hv
        obtain ⟨hv, hfirst⟩ := hentry.needs hf hv'
        rw [htracked] at hb
        exact ⟨hv, hfirst, hb⟩
      · obtain ⟨hfirst, hb⟩ := hb
        rw [← htracked] at hb
        obtain ⟨hv', more, hout, hnd, hmore⟩ := hentry.exact hv hfirst
        obtain ⟨hv', rest, hout', hnd', hrest⟩ := hexact hv' hb
        refine ⟨hv', more ++ rest, by rw [hout', hout, List.append_assoc], ?_, fun i => ?_⟩
        · refine List.nodup_append.mpr ⟨hnd, hnd', fun i hi j hj he => ?_⟩
          rw [he] at hi
          exact ((hrest j).mp hj).2 ((hentry.ranged j).mpr (Or.inr ((hmore j).mp hi).1))
        · rw [List.mem_append, hmore, hrest, hentry.ranged, hnames]
          tauto

theorem doUpsert_runs {entries out : List SubaddressDict} (hvalid : ValidRanges id ranges)
    (h : (doUpsert env id address viewKey entries maxSubaddr ranges indexes).result = .ok out) :
    UpsertExact id ranges (doUpsert env id address viewKey entries maxSubaddr ranges indexes).ranges entries out ↔
      Unbridged (Ranged ranges id) entries := by
  unfold doUpsert at h ⊢
  by_cases hlt : maxSubaddr < indexes.count id
  · simp only [if_pos hlt] at h
    cases h
  · simp only [if_neg hlt] at h ⊢
    obtain ⟨hranged, hneeds, hexact⟩ := doUpsertLoop_runs entries (not_lt.mp hlt) h
    constructor
    · exact fun he => (hneeds hvalid.filled he.valid).2
    · intro hb
      obtain ⟨hv, more, hout, hnd, hmore⟩ := hexact hvalid hb
      rw [show dictIndexes [] = [] from rfl, List.nil_append] at hout
      refine ⟨hv, hranged, fun i => ?_, ?_⟩
      · rw [hout, hmore]
      · rw [hout]
        exact hnd

/-- An upsert that succeeds on valid ranges is exact if and only if none of its ranges
    bridges two runs of what is tracked when its entry is reached; `upsert_subaddresses`
    reaches its entries in sorted order. -/
theorem upsert_exact_iff {db : Storage} {subaddrs : List SubaddressDict} (hvalid : ValidRanges id db.subaddressRanges) :
    (∀ out, (doUpsert env id address viewKey subaddrs maxSubaddr db.subaddressRanges db.subaddressIndexes).result = .ok out →
      (UpsertExact id db.subaddressRanges
          (doUpsert env id address viewKey subaddrs maxSubaddr db.subaddressRanges db.subaddressIndexes).ranges subaddrs out ↔
        Unbridged (Ranged db.subaddressRanges id) subaddrs)) ∧
    ∀ db' out, db.upsertSubaddresses env id address viewKey subaddrs maxSubaddr = .ok (db', out) →
      (UpsertExact id db.subaddressRanges db'.subaddressRanges subaddrs out ↔
        Unbridged (Ranged db.subaddressRanges id) (subaddrs.mergeSort dictLe)) := by
  refine ⟨fun out h => doUpsert_runs hvalid h, fun db' out h => ?_⟩
  obtain ⟨hok, rfl⟩ := upsertSubaddresses_ok h
  rw [← doUpsert_runs hvalid hok]
  have hnames : ∀ i, i ∈ dictIndexes (subaddrs.mergeSort dictLe) ↔ i ∈ dictIndexes subaddrs := fun i =>
    ((List.mergeSort_perm subaddrs dictLe).flatMap_right _).mem_iff
  constructor
  · exact fun he => ⟨he.valid, fun i => by rw [he.stored, hnames], fun i => by rw [he.returned, hnames], he.once⟩
  · exact fun he => ⟨he.valid, fun i => by rw [he.stored, hnames], fun i => by rw [he.returned, hnames], he.once⟩

end Upsert

def gapOps : List Op :=
  [.addAccount 5 ⟨1007, 50⟩ 7 0, .upsertSubaddresses 1 ⟨1007, 50⟩ 7 [(0, [(0, 2), (6, 8)])] 20]

theorem gapOps_rows : ∀ r ∈ (Op.runs sampleEnv gapOps).subaddressRanges, r = (1, (0, [(0, 2), (6, 8)])) := by
  decide +kernel

theorem gapOps_valid : ValidRanges 1 (Op.runs sampleEnv gapOps).subaddressRanges := by
  intro d hd
  rw [show d = (0, [(0, 2), (6, 8)]) from congrArg Prod.snd (gapOps_rows _ hd)]
  decide

/-- An upsert to that account leaves these rows of ranges and returns these entries. -/
def gapUpsert (subaddrs : List SubaddressDict) (rows : List (Nat × SubaddressDict)) (out : List SubaddressDict) :
    Bool :=
  match (Op.runs sampleEnv gapOps).upsertSubaddresses sampleEnv 1 ⟨1007, 50⟩ 7 subaddrs 20 with
  | .ok (db', out') => decide (db'.subaddressRanges.rows = rows) && decide (out' = out)
  | .error _ => false

theorem gapUpsert_ok {subaddrs : List SubaddressDict} {rows : List (Nat × SubaddressDict)} {out : List SubaddressDict}
    (h : gapUpsert subaddrs rows out = true) :
    ∃ db', (Op.runs sampleEnv gapOps).upsertSubaddresses sampleEnv 1 ⟨1007, 50⟩ 7 subaddrs 20 = .ok (db', out) ∧
      db'.subaddressRanges.rows = rows := by
  unfold gapUpsert at h
  split at h
  · rename_i db' out' hok
    rw [Bool.and_eq_true, decide_eq_true_eq, decide_eq_true_eq] at h
    obtain ⟨hrows, rfl⟩ := h
    exact ⟨db', hok, hrows⟩
  · cases h

/-- A range that reaches one of the two runs widens it. -/
theorem upsert_exact_widens :
    ∃ db', (Op.runs sampleEnv gapOps).upsertSubaddresses sampleEnv 1 ⟨1007, 50⟩ 7 [(0, [(3, 4)])] 20 =
        .ok (db', [(0, [(3, 4)])]) ∧
      UpsertExact 1 (Op.runs sampleEnv gapOps).subaddressRanges db'.subaddressRanges [(0, [(3, 4)])] [(0, [(3, 4)])] := by
  have hrun : gapUpsert [(0, [(3, 4)])] [(1, (0, [(0, 4), (6, 8)]))] [(0, [(3, 4)])] = true := by decide +kernel
  obtain ⟨db', hok, -⟩ := gapUpsert_ok hrun
  refine ⟨db', hok, ((upsert_exact_iff gapOps_valid).2 db' _ hok).mpr ?_⟩
  rw [show [((0 : Nat), [((3 : Nat), (4 : Nat))])].mergeSort dictLe = [(0, [(3, 4)])] by decide +kernel]
  refine ⟨fun r hr => ?_, trivial⟩
  obtain rfl := List.mem_singleton.mp hr
  rintro ⟨x, y, z, -, -, ⟨d, hd, hc⟩, hxy, hyz, hx, hz⟩
  rw [show d = [(0, 2), (6, 8)] from congrArg (fun r => r.2.2) (gapOps_rows _ hd)] at hc
  simp only [covers_cons, covers_nil, or_false] at hc hx hz
  omega

/-- A range that reaches both leaves them overlapping and returns indexes that were stored. -/
theorem bridging_upsert_overlaps :
    ValidRanges 1 (Op.runs sampleEnv gapOps).subaddressRanges ∧ checkSubaddressDict (0, [(2, 7)]) = true ∧
    ∃ db', (Op.runs sampleEnv gapOps).upsertSubaddresses sampleEnv 1 ⟨1007, 50⟩ 7 [(0, [(2, 7)])] 20 =
        .ok (db', [(0, [(3, 7)])]) ∧
      db'.subaddressRanges.rows = [(1, (0, [(0, 7), (6, 8)]))] ∧ checkSubaddressDict (0, [(0, 7), (6, 8)]) = false ∧
      ¬ UpsertExact 1 (Op.runs sampleEnv gapOps).subaddressRanges db'.subaddressRanges [(0, [(2, 7)])] [(0, [(3, 7)])] := by
  have hrun : gapUpsert [(0, [(2, 7)])] [(1, (0, [(0, 7), (6, 8)]))] [(0, [(3, 7)])] = true := by decide +kernel
  obtain ⟨db', hok, hrows⟩ := gapUpsert_ok hrun
  refine ⟨gapOps_valid, by decide, db', hok, hrows, by decide, fun h => ?_⟩
  have hrow : (1, (0, [(0, 7), (6, 8)])) ∈ db'.subaddressRanges.rows := by
    rw [hrows]
    exact List.mem_singleton.mpr rfl
  exact absurd (h.valid (0, [(0, 7), (6, 8)]) hrow) (by decide)

end Lws.Db
