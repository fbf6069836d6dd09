/-
  Lws.Db.Lookahead — what a lookahead that succeeds leaves in the tables.

  An account with the lookahead `{M, m}` is to have the subaddresses below it, and with an
  output received at `{a, b}` also those of the majors below `a + M` and the minors of `a`
  below `b + m` (`Ahead`, `AheadOf`). `do_lookahead` provides for the account and all
  outputs it has (`doLookahead_tracks`), `update_lookahead` for the one it is called for
  (`lookaheadUpsertions_cover`). An upsert that succeeds tracks every index it is given.

  The list of entries each of them builds before it upserts is another matter: the one of
  `do_lookahead` is checked against the limit before every resize, the one of
  `update_lookahead` has an entry for every major up to that of the output
  (`lookahead_lists_bounded`).
-/

import Lws.Db.Operations
import Lws.Db.Subaddresses

namespace Lws.Db

open Lws.Lmdb

/-- The tables have the index: a range that covers it, and a row with its key. -/
structure Tracks (env : Env) (id : Nat) (address : AccountAddress) (viewKey : SecretKey) (ranges : SubaddressRanges)
    (indexes : SubaddressIndexes) (i : AddressIndex) : Prop where
  ranged : Ranged ranges id i
  keyed : ∃ v, (id, v) ∈ indexes ∧ v.subaddress = env.getSpendPublic address viewKey i

def Ahead (lookahead i : AddressIndex) : Prop := i.majI < lookahead.majI ∧ i.minI < lookahead.minI

/-- The index is in the lookahead of an output received at `recipient`; sums stop at 32 bits. -/
def AheadOf (lookahead recipient i : AddressIndex) : Prop :=
  (i.majI < addAndClamp recipient.majI lookahead.majI ∧ i.minI < lookahead.minI) ∨
    (i.majI = recipient.majI ∧ i.minI < addAndClamp recipient.minI lookahead.minI)

theorem addAndClamp_mono (start : Nat) {count count' : Nat} (h : count ≤ count') :
    addAndClamp start count ≤ addAndClamp start count' := by
  unfold addAndClamp
  split <;> split <;> omega

section Ahead

variable {lookahead lookahead' recipient i : AddressIndex} (hmaj : lookahead'.majI ≤ lookahead.majI)
  (hmin : lookahead'.minI ≤ lookahead.minI)

include hmaj hmin

theorem Ahead.mono (h : Ahead lookahead' i) : Ahead lookahead i := ⟨h.1.trans_le hmaj, h.2.trans_le hmin⟩

theorem AheadOf.mono (h : AheadOf lookahead' recipient i) : AheadOf lookahead recipient i := by
  refine h.imp (fun ⟨h1, h2⟩ => ⟨?_, h2.trans_le hmin⟩) (fun ⟨h1, h2⟩ => ⟨h1, ?_⟩)
  · exact h1.trans_le (addAndClamp_mono _ hmaj)
  · exact h2.trans_le (addAndClamp_mono _ hmin)

end Ahead

/-! ## Upserting -/

section Upsert

variable {env : Env} {id : Nat} {address : AccountAddress} {viewKey : SecretKey} {maxSubaddr : Nat}
  {ranges ranges' : SubaddressRanges} {indexes indexes' : SubaddressIndexes}

theorem Tracks.grow {i : AddressIndex} (h : Tracks env id address viewKey ranges indexes i)
    (hr : ∀ i, Ranged ranges id i → Ranged ranges' id i) (hi : ∀ r ∈ indexes, r ∈ indexes') :
    Tracks env id address viewKey ranges' indexes' i := by
  obtain ⟨v, hv, hkey⟩ := h.keyed
  exact ⟨hr i h.ranged, v, hi _ hv, hkey⟩

theorem Stored.tracks {entry : SubaddressDict} {count count' : Nat} {dict : List IndexRange}
    (h : Stored env id address viewKey maxSubaddr entry count count' dict ranges ranges' indexes indexes') {m : Nat}
    (hm : Covers entry.2 m) : Tracks env id address viewKey ranges' indexes' ⟨entry.1, m⟩ := by
  refine ⟨h.ranged_iff.mpr (Or.inr ⟨rfl, hm⟩), ?_⟩
  have hin : (⟨env.getSpendPublic address viewKey ⟨entry.1, m⟩, ⟨entry.1, m⟩⟩ : SubaddressMap) ∈
      indexRows env address viewKey entry.1 dict := mem_indexRows.mpr ⟨rfl, (h.covers m).mpr (Or.inr hm), rfl⟩
  rw [h.rows]
  exact Table.putAllAbsent_stores hin

/-- Every entry is tracked when the loop is done, as later entries lose nothing. -/
theorem doUpsertLoop_tracks : ∀ (entries : List SubaddressDict) {count : Nat} {out out' : List SubaddressDict}
    {ranges : SubaddressRanges} {indexes : SubaddressIndexes}, count ≤ maxSubaddr →
    let done := doUpsertLoop env id address viewKey maxSubaddr count out ranges indexes entries
    done.result = .ok out' → ∀ e ∈ entries, ∀ m, Covers e.2 m →
      Tracks env id address viewKey done.ranges done.indexes ⟨e.1, m⟩ := by
  intro entries
  induction entries with
  | nil =>
    intro count out out' ranges indexes _ done _ e he
    cases he
  | cons entry entries ih =>
    intro count out out' ranges indexes hle
    unfold doUpsertLoop
    intro done hdone
    rcases @upsertEntry_cases env id address viewKey maxSubaddr entry count out ranges indexes hle with
      ⟨count', out₁, dict, hok, -, h⟩ | ⟨e, herr, -, -⟩
    · simp only [done, hok] at hdone ⊢
      obtain ⟨hup, -⟩ := @doUpsertLoop_upserted env id address viewKey maxSubaddr entries count' out₁ _ _ h.limit
      obtain ⟨-, hranged⟩ := @doUpsertLoop_exact env id address viewKey maxSubaddr entries count' out₁ _ _ h.limit
        (Or.inr ⟨_, hdone⟩)
      intro x hx m hm
      rcases List.mem_cons.mp hx with rfl | hx
      · exact (h.tracks hm).grow hranged hup.grows
      · exact ih h.limit hdone x hx m hm
    · simp only [done, herr] at hdone
      cases hdone

theorem doUpsert_tracks {entries out : List SubaddressDict}
    (h : (doUpsert env id address viewKey entries maxSubaddr ranges indexes).result = .ok out) :
    let done := doUpsert env id address viewKey entries maxSubaddr ranges indexes
    ∀ e ∈ entries, ∀ m, Covers e.2 m → Tracks env id address viewKey done.ranges done.indexes ⟨e.1, m⟩ := by
  unfold doUpsert at h ⊢
  dsimp only at h ⊢
  split at h
  · cases h
  · rename_i hle
    rw [if_neg hle]
    exact doUpsertLoop_tracks entries (not_lt.mp hle) h

end Upsert

/-! ## The entries of `do_lookahead` -/

section Entries

variable {minor maxSubaddresses : Nat}

/-- The highest minor index an entry has once its gap is filled. -/
def reach (minor : Nat) (elem : SubaddressDict) : Nat :=
  match elem.2 with
  | [] => minor - 1
  | range :: _ => range.2

/-- An entry is a gap, or one range from zero that is as long as the lookahead. -/
def FromZero (minor : Nat) (elem : SubaddressDict) : Prop :=
  elem.2 = [] ∨ ∃ top, elem.2 = [(0, top)] ∧ minor - 1 ≤ top

theorem raiseMinor_fromZero {major thisMinor : Nat} {elem : SubaddressDict} (h : FromZero minor elem)
    (hle : minor - 1 ≤ thisMinor) : FromZero minor (raiseMinor major thisMinor elem) ∧
      reach minor elem ≤ reach minor (raiseMinor major thisMinor elem) ∧
      thisMinor ≤ reach minor (raiseMinor major thisMinor elem) := by
  unfold FromZero reach raiseMinor
  rcases h with h | ⟨top, h, htop⟩
  · simp only [h]
    exact ⟨Or.inr ⟨thisMinor, rfl, hle⟩, hle, Nat.le_refl _⟩
  · simp only [h]
    exact ⟨Or.inr ⟨_, rfl, htop.trans (Nat.le_max_left _ _)⟩, Nat.le_max_left _ _, Nat.le_max_right _ _⟩

/-- The first list has the entries of the second, each of which reaches as far. -/
def Reaches (minor : Nat) (final initial : List SubaddressDict) : Prop :=
  ∀ (j : Nat) (e : SubaddressDict), initial[j]? = some e → ∃ e', final[j]? = some e' ∧ reach minor e ≤ reach minor e'

theorem Reaches.trans {final mid initial : List SubaddressDict} (h : Reaches minor final mid)
    (h' : Reaches minor mid initial) :
    Reaches minor final initial := by
  intro j e he
  obtain ⟨e₁, he₁, hle₁⟩ := h' j e he
  obtain ⟨e₂, he₂, hle₂⟩ := h j e₁ he₁
  exact ⟨e₂, he₂, hle₁.trans hle₂⟩

theorem Reaches.length_le {final initial : List SubaddressDict} (h : Reaches minor final initial) :
    initial.length ≤ final.length := by
  rcases Nat.eq_zero_or_pos initial.length with h0 | hpos
  · omega
  · obtain ⟨e', he', -⟩ := h (initial.length - 1) initial[initial.length - 1] (List.getElem?_eq_getElem _)
    have := (List.getElem?_eq_some_iff.mp he').1
    omega

theorem resize_reaches (initial : List SubaddressDict) (size : Nat) : Reaches minor (resize initial size) initial := by
  intro j e he
  refine ⟨e, ?_, Nat.le_refl _⟩
  unfold resize
  rw [List.getElem?_append_left (List.getElem?_eq_some_iff.mp he).1]
  exact he

theorem modify_reaches {initial : List SubaddressDict} {index major thisMinor : Nat}
    (h : ∀ e ∈ initial, FromZero minor e) (hle : minor - 1 ≤ thisMinor) :
    Reaches minor (initial.modify index (raiseMinor major thisMinor)) initial := by
  intro j e he
  rw [List.getElem?_modify, he]
  by_cases hj : index = j
  · refine ⟨raiseMinor major thisMinor e, by simp [hj], ?_⟩
    exact (raiseMinor_fromZero (h e (List.mem_of_getElem? he)) hle).2.1
  · exact ⟨e, by simp [hj], Nat.le_refl _⟩

theorem resize_fromZero {initial : List SubaddressDict} {size : Nat} (h : ∀ e ∈ initial, FromZero minor e) :
    ∀ e ∈ resize initial size, FromZero minor e := by
  intro e he
  rcases List.mem_append.mp he with he | he
  · exact h e he
  · rw [List.eq_of_mem_replicate he]
    exact Or.inl rfl

theorem modify_fromZero {initial : List SubaddressDict} {index major thisMinor : Nat}
    (h : ∀ e ∈ initial, FromZero minor e) (hle : minor - 1 ≤ thisMinor) :
    ∀ e ∈ initial.modify index (raiseMinor major thisMinor), FromZero minor e := by
  intro e he
  obtain ⟨j, hj⟩ := List.getElem?_of_mem he
  rw [List.getElem?_modify] at hj
  obtain ⟨x, hx, rfl⟩ := Option.map_eq_some_iff.mp hj
  have hfrom := h x (List.mem_of_getElem? hx)
  split
  · exact (raiseMinor_fromZero hfrom hle).1
  · exact hfrom

/-- The loop over the outputs provides for each of them and loses no entry. -/
theorem lookaheadOutputs_reaches {major : Nat} (hminor : minor ≤ uint32Max) : ∀ (outputs : List Output)
    {initial final : List SubaddressDict}, (∀ e ∈ initial, FromZero minor e) →
    lookaheadOutputs major minor maxSubaddresses initial outputs = .ok final →
      (∀ e ∈ final, FromZero minor e) ∧ Reaches minor final initial ∧
      ∀ o ∈ outputs, o.recipient.isZero = false → addAndClamp o.recipient.majI major ≤ final.length ∧
        ∃ e, final[o.recipient.majI]? = some e ∧ addAndClamp (minor - 1) o.recipient.minI ≤ reach minor e := by
  intro outputs
  induction outputs with
  | nil =>
    intro initial final hzero h
    cases h
    exact ⟨hzero, fun j e he => ⟨e, he, Nat.le_refl _⟩, fun o ho => absurd ho List.not_mem_nil⟩
  | cons output outputs ih =>
    intro initial final hzero h
    unfold lookaheadOutputs at h
    split at h
    · rename_i hz
      obtain ⟨h1, h2, h3⟩ := ih hzero h
      refine ⟨h1, h2, fun o ho hnz => ?_⟩
      rcases List.mem_cons.mp ho with rfl | ho
      · rw [hz] at hnz
        cases hnz
      · exact h3 o ho hnz
    · dsimp only at h
      split at h
      · cases h
      · split at h
        · cases h
        · split at h
          · cases h
          · rename_i hindex
            have hthis : minor - 1 ≤ addAndClamp (minor - 1) output.recipient.minI := by
              unfold addAndClamp
              split <;> omega
            have hwide := @resize_fromZero minor _ (max initial.length (addAndClamp output.recipient.majI major)) hzero
            obtain ⟨h1, h2, h3⟩ := ih (modify_fromZero hwide hthis) h
            have hreach := h2.trans (@modify_reaches minor _ output.recipient.majI major _ hwide hthis)
            refine ⟨h1, hreach.trans (resize_reaches _ _), fun o ho hnz => ?_⟩
            rcases List.mem_cons.mp ho with rfl | ho
            · refine ⟨?_, ?_⟩
              · have hlen := hreach.length_le
                simp only [resize, List.length_append, List.length_replicate] at hlen
                omega
              · have hget := List.getElem?_eq_getElem (not_le.mp hindex)
                obtain ⟨e, he, hle⟩ := h2 o.recipient.majI _
                  (by rw [List.getElem?_modify, hget, Option.map_eq_map, Option.map_some, if_pos rfl])
                have hfrom := hwide _ (List.getElem_mem (not_le.mp hindex))
                exact ⟨e, he, (raiseMinor_fromZero hfrom hthis).2.2.trans hle⟩
            · exact h3 o ho hnz

/-- Every entry is upserted, and covers what it reaches. -/
theorem lookaheadFill_covers : ∀ (elems : List SubaddressDict) {i total : Nat} {entries : List SubaddressDict},
    (∀ e ∈ elems, FromZero minor e) → lookaheadFill minor maxSubaddresses i total elems = .ok entries →
      ∀ (j : Nat) (e : SubaddressDict), elems[j]? = some e →
        ∃ d ∈ entries, d.1 = i + j ∧ ∀ k ≤ reach minor e, Covers d.2 k := by
  intro elems
  induction elems with
  | nil =>
    intro i total entries _ _ j e he
    simp at he
  | cons elem elems ih =>
    intro i total entries hzero h
    rw [List.forall_mem_cons] at hzero
    unfold lookaheadFill at h
    have key : ∀ (ranges : List IndexRange) (thisMinor : Nat), (∀ k ≤ reach minor elem, Covers ranges k) →
        (if maxSubaddresses - total < thisMinor then .error .maxSubaddresses
          else lookaheadFill minor maxSubaddresses (i + 1) (total + thisMinor) elems >>= fun rest =>
            .ok ((i, ranges) :: rest) : Except Error (List SubaddressDict)) = .ok entries →
          ∀ (j : Nat) (e : SubaddressDict), (elem :: elems)[j]? = some e →
            ∃ d ∈ entries, d.1 = i + j ∧ ∀ k ≤ reach minor e, Covers d.2 k := by
      intro ranges thisMinor hcovers h j e he
      split at h
      · cases h
      · obtain ⟨rest, hrest, h⟩ := bind_ok.mp h
        cases h
        cases j with
        | zero =>
          cases he
          exact ⟨_, List.mem_cons_self, rfl, hcovers⟩
        | succ j =>
          obtain ⟨d, hd, hid, hc⟩ := ih hzero.2 hrest j e he
          exact ⟨d, List.mem_cons_of_mem _ hd, by omega, hc⟩
    rcases hzero.1 with hgap | ⟨top, htop, -⟩
    · simp only [hgap] at h
      refine key _ _ (fun k hk => ?_) h
      simpa [reach, hgap] using hk
    · simp only [htop] at h
      refine key _ _ (fun k hk => ?_) h
      simpa [reach, htop] using hk

/-- The entries `do_lookahead` upserts cover what the account and its outputs need. -/
theorem lookaheadEntries_cover {outputs : List Output} {lookahead : AddressIndex} {entries : List SubaddressDict}
    (h : lookaheadEntries outputs lookahead maxSubaddresses = .ok (some entries)) {i : AddressIndex}
    (hi : Ahead lookahead i ∨ ∃ o ∈ outputs, o.recipient.isZero = false ∧ AheadOf lookahead o.recipient i) :
    ∃ e ∈ entries, e.1 = i.majI ∧ Covers e.2 i.minI := by
  obtain ⟨hlooks, final, hfinal, hfill⟩ := lookaheadEntries_some h
  unfold looks at hlooks
  obtain ⟨hmaj, hmin, hfit, -⟩ := of_decide_eq_true hlooks
  have hminor : lookahead.minI ≤ uint32Max := by
    have := (Nat.le_div_iff_mul_le (Nat.pos_of_ne_zero hmin)).mp hfit
    have := Nat.le_mul_of_pos_left lookahead.minI (Nat.pos_of_ne_zero hmaj)
    omega
  obtain ⟨hzero, hreach, hout⟩ := lookaheadOutputs_reaches hminor outputs
    (fun e he => Or.inl (by rw [List.eq_of_mem_replicate he])) hfinal
  have hlen : lookahead.majI ≤ final.length := by
    have := hreach.length_le
    rwa [List.length_replicate] at this
  have hcover := lookaheadFill_covers final hzero hfill
  have hdefault : i.majI < final.length → i.minI < lookahead.minI → ∃ e ∈ entries, e.1 = i.majI ∧ Covers e.2 i.minI := by
    intro hj hk
    obtain ⟨d, hd, hid, hc⟩ := hcover i.majI _ (List.getElem?_eq_getElem hj)
    refine ⟨d, hd, by omega, hc _ ?_⟩
    unfold reach
    rcases hzero _ (List.getElem_mem hj) with hgap | ⟨top, htop, hle⟩
    · simp only [hgap]
      omega
    · simp only [htop]
      omega
  rcases hi with ⟨hj, hk⟩ | ⟨o, ho, hnz, ⟨hj, hk⟩ | ⟨hj, hk⟩⟩
  · exact hdefault (hj.trans_le hlen) hk
  · exact hdefault (hj.trans_le (hout o ho hnz).1) hk
  · obtain ⟨e, he, hle⟩ := (hout o ho hnz).2
    obtain ⟨d, hd, hid, hc⟩ := hcover o.recipient.majI e he
    refine ⟨d, hd, by omega, hc _ (le_trans ?_ hle)⟩
    unfold addAndClamp at hk ⊢
    split at hk <;> split <;> omega

/-- The entries `update_lookahead` upserts cover what the account and the output need. -/
theorem lookaheadUpsertions_cover {fresh lookahead : AddressIndex} (hlooks : looks maxSubaddresses lookahead = true)
    (hlast : fresh.majI < uint32Max) {i : AddressIndex} (hi : Ahead lookahead i ∨ AheadOf lookahead fresh i) :
    ∃ e ∈ lookaheadUpsertions fresh lookahead.majI lookahead.minI, e.1 = i.majI ∧ Covers e.2 i.minI := by
  unfold looks at hlooks
  obtain ⟨hmaj, hmin, hfit, -⟩ := of_decide_eq_true hlooks
  have hfit := (Nat.le_div_iff_mul_le (Nat.pos_of_ne_zero hmin)).mp hfit
  have hmajor := Nat.le_mul_of_pos_right lookahead.majI (Nat.pos_of_ne_zero hmin)
  have hminor := Nat.le_mul_of_pos_left lookahead.minI (Nat.pos_of_ne_zero hmaj)
  have hlt : i.majI < addAndClamp fresh.majI lookahead.majI := by
    rcases hi with ⟨hj, -⟩ | ⟨hj, -⟩ | ⟨hj, -⟩
    · unfold addAndClamp
      split <;> omega
    · exact hj
    · unfold addAndClamp
      split <;> omega
  refine ⟨_, List.mem_map.mpr ⟨i.majI, List.mem_range.mpr hlt, rfl⟩, ?_⟩
  by_cases e : i.majI = fresh.majI
  · rw [if_pos e]
    refine ⟨rfl, covers_cons.mpr (Or.inl ⟨Nat.zero_le _, ?_⟩)⟩
    have hk : i.minI < lookahead.minI ∨ i.minI < addAndClamp fresh.minI lookahead.minI := by
      rcases hi with ⟨-, hk⟩ | ⟨-, hk⟩ | ⟨-, hk⟩
      · exact Or.inl hk
      · exact Or.inl hk
      · exact Or.inr hk
    show i.minI ≤ addAndClamp fresh.minI (lookahead.minI - 1)
    unfold addAndClamp at hk ⊢
    split at hk <;> split <;> omega
  · rw [if_neg e]
    refine ⟨rfl, covers_cons.mpr (Or.inl ⟨Nat.zero_le _, ?_⟩)⟩
    dsimp only
    rcases hi with ⟨-, hk⟩ | ⟨-, hk⟩ | ⟨hj, -⟩
    · omega
    · omega
    · exact absurd hj e

end Entries

/-! ## Over an account -/

section Account

variable {env : Env} {user user' : Account} {lookahead : AddressIndex} {limit : Option Nat} {outputs : Outputs}
  {ranges ranges' : SubaddressRanges} {indexes indexes' : SubaddressIndexes}

theorem doLookahead_tracks {id : Nat} {address : AccountAddress} {viewKey : SecretKey} {maxSubaddresses : Nat}
    (hmaj : 0 < lookahead.majI) (hmin : 0 < lookahead.minI)
    (h : (doLookahead env id address viewKey lookahead maxSubaddresses outputs ranges indexes).result = .ok ()) :
    let done := doLookahead env id address viewKey lookahead maxSubaddresses outputs ranges indexes
    ∀ i, (Ahead lookahead i ∨ ∃ o ∈ outputs.dups id, o.recipient.isZero = false ∧ AheadOf lookahead o.recipient i) →
      Tracks env id address viewKey done.ranges done.indexes i := by
  unfold doLookahead at h ⊢
  split at h
  · cases h
  · rename_i hnone
    exfalso
    unfold lookaheadEntries at hnone
    dsimp only at hnone
    rw [if_neg (by omega)] at hnone
    split at hnone
    · cases hnone
    · split at hnone
      · cases hnone
      · obtain ⟨initial, -, hnone⟩ := bind_ok.mp hnone
        obtain ⟨entries, -, hnone⟩ := bind_ok.mp hnone
        cases hnone
  · rename_i entries hentries
    intro done i hi
    simp only [done]
    dsimp only at h
    obtain ⟨e, he, hmajor, hc⟩ := lookaheadEntries_cover hentries hi
    rcases hres : (doUpsert env id address viewKey entries maxSubaddresses ranges indexes).result with err | out
    · rw [hres] at h
      cases h
    · have htracks := doUpsert_tracks hres e he i.minI hc
      rw [hmajor] at htracks
      exact htracks

/-- A lookahead is not run, or it runs into the limit and the account is marked, or what
    the account and its outputs need is tracked. -/
theorem applyLookahead_cases
    (h : applyLookahead env limit user lookahead outputs ranges indexes = .ok (user', ranges', indexes')) :
    (user' = user ∧ ranges' = ranges ∧ indexes' = indexes ∧ (limit = none ∨ lookahead.isZero = true)) ∨
    user' = { user with lookahead, lookaheadFail := max 1 user.startHeight } ∨
    (user' = { user with lookahead } ∧ ¬ (limit = none ∨ lookahead.isZero = true) ∧
      (0 < lookahead.majI → 0 < lookahead.minI → ∀ i, (Ahead lookahead i ∨
        ∃ o ∈ outputs.dups user.id, o.recipient.isZero = false ∧ AheadOf lookahead o.recipient i) →
          Tracks env user.id user.address user.key ranges' indexes' i)) := by
  unfold applyLookahead at h
  split at h
  · cases h
    exact Or.inl ⟨rfl, rfl, rfl, Or.inl rfl⟩
  · rename_i maxSubaddresses
    split at h
    · rename_i hz
      cases h
      exact Or.inl ⟨rfl, rfl, rfl, Or.inr hz⟩
    · rename_i hz
      unfold doLookaheadFor at h
      dsimp only at h
      rcases hres : (doLookahead env user.id user.address user.key lookahead maxSubaddresses outputs ranges indexes).result
        with err | done
      · rw [hres] at h
        cases err with
        | maxSubaddresses =>
          cases h
          exact Or.inr (Or.inl rfl)
        | _ => cases h
      · rw [hres] at h
        cases h
        refine Or.inr (Or.inr ⟨rfl, fun hn => hn.elim (fun hn => nomatch hn) hz, fun hmaj hmin => ?_⟩)
        exact doLookahead_tracks hmaj hmin hres

/-- The tables of the other accounts stay as they were. -/
theorem applyLookahead_others
    (h : applyLookahead env limit user lookahead outputs ranges indexes = .ok (user', ranges', indexes')) :
    (∀ r, r.1 ≠ user.id → (r ∈ ranges' ↔ r ∈ ranges)) ∧ ∀ r, r.1 ≠ user.id → (r ∈ indexes' ↔ r ∈ indexes) := by
  rcases applyLookahead_tables h with ⟨rfl, rfl⟩ | ⟨m, entries, -, -, rfl, rfl⟩
  · exact ⟨fun _ _ => Iff.rfl, fun _ _ => Iff.rfl⟩
  · obtain ⟨hup, -⟩ := @doUpsert_upserted env user.id user.address user.key m ranges indexes entries
    exact ⟨hup.otherRanges, hup.otherIndexes⟩

end Account

/-! ## How long the lists get -/

/-- The list `update_lookahead` builds for an account, empty where it builds none. -/
def updateLookaheadList (user : Account) (fresh : AddressIndex) (maxSubaddresses : Nat) : List SubaddressDict :=
  if looks maxSubaddresses user.lookahead then lookaheadUpsertions fresh user.lookahead.majI user.lookahead.minI else []

section Lists

variable {env : Env} {db : Storage} {maxSubaddresses : Nat} {fresh : AddressIndex}

theorem updateLookaheadUpsert_list {user : Account} {address : AccountAddress} (hmaj : user.lookahead.majI ≠ 0)
    (hmin : user.lookahead.minI ≠ 0) :
    updateLookaheadUpsert env user address fresh maxSubaddresses db =
      if looks maxSubaddresses user.lookahead then
        doUpsert env user.id address user.key (updateLookaheadList user fresh maxSubaddresses) maxSubaddresses
          db.subaddressRanges db.subaddressIndexes
      else ⟨db.subaddressRanges, db.subaddressIndexes, .error .maxSubaddresses⟩ := by
  have hlooks : looks maxSubaddresses user.lookahead = true ↔
      user.lookahead.majI ≤ uint32Max / user.lookahead.minI ∧
        user.lookahead.majI * user.lookahead.minI ≤ maxSubaddresses := by
    unfold looks
    rw [decide_eq_true_eq]
    exact ⟨fun h => ⟨h.2.2.1, h.2.2.2⟩, fun h => ⟨hmaj, hmin, h.1, h.2⟩⟩
  unfold updateLookaheadUpsert updateLookaheadList
  by_cases h : looks maxSubaddresses user.lookahead = true
  · rw [if_pos h, if_pos h]
    exact if_pos (hlooks.mp h)
  · rw [if_neg h]
    exact if_neg fun hn => h (hlooks.mpr hn)

theorem length_lookaheadUpsertions (major minor : Nat) :
    (lookaheadUpsertions fresh major minor).length = addAndClamp fresh.majI major := by
  unfold lookaheadUpsertions
  rw [List.length_map, List.length_range]

theorem lookaheadOutputs_length {major minor : Nat} (hminor : 0 < minor) : ∀ (outputs : List Output)
    {initial final : List SubaddressDict}, initial.length ≤ maxSubaddresses →
    lookaheadOutputs major minor maxSubaddresses initial outputs = .ok final → final.length ≤ maxSubaddresses := by
  intro outputs
  induction outputs with
  | nil =>
    intro initial final hle h
    cases h
    exact hle
  | cons output outputs ih =>
    intro initial final hle h
    unfold lookaheadOutputs at h
    split at h
    · exact ih hle h
    · dsimp only at h
      split at h
      · cases h
      · split at h
        · cases h
        · rename_i hfits
          split at h
          · cases h
          · refine ih ?_ h
            -- the check before the resize
            have hneeded : addAndClamp output.recipient.majI major ≤ maxSubaddresses :=
              (Nat.le_mul_of_pos_right _ hminor).trans (not_lt.mp hfits)
            simp only [resize, List.length_modify, List.length_append, List.length_replicate]
            omega

/-- The entries of `do_lookahead` are within the limit for all outputs, with `initial` the
    list before its gaps are filled. The list `update_lookahead` gives to `do_upsert` is
    within the limit exactly when the lookahead builds none or the major index of the
    output is low enough. -/
theorem lookahead_lists_bounded (env : Env) (db : Storage) (user : Account) (address : AccountAddress)
    (fresh : AddressIndex) (maxSubaddresses : Nat) :
    (user.lookahead.majI ≠ 0 → user.lookahead.minI ≠ 0 →
      updateLookaheadUpsert env user address fresh maxSubaddresses db =
        if looks maxSubaddresses user.lookahead then
          doUpsert env user.id address user.key (updateLookaheadList user fresh maxSubaddresses) maxSubaddresses
            db.subaddressRanges db.subaddressIndexes
        else ⟨db.subaddressRanges, db.subaddressIndexes, .error .maxSubaddresses⟩) ∧
    (∀ outputs initial, looks maxSubaddresses user.lookahead = true →
      lookaheadOutputs user.lookahead.majI user.lookahead.minI maxSubaddresses
        (List.replicate user.lookahead.majI (0, [])) outputs = .ok initial → initial.length ≤ maxSubaddresses) ∧
    (∀ outputs entries, lookaheadEntries outputs user.lookahead maxSubaddresses = .ok (some entries) →
      entries.length ≤ maxSubaddresses) ∧
    ((updateLookaheadList user fresh maxSubaddresses).length ≤ maxSubaddresses ↔
      (looks maxSubaddresses user.lookahead = true → addAndClamp fresh.majI user.lookahead.majI ≤ maxSubaddresses)) := by
  have hinitial : ∀ outputs initial, looks maxSubaddresses user.lookahead = true →
      lookaheadOutputs user.lookahead.majI user.lookahead.minI maxSubaddresses
        (List.replicate user.lookahead.majI (0, [])) outputs = .ok initial → initial.length ≤ maxSubaddresses := by
    intro outputs initial hlooks h
    unfold looks at hlooks
    rw [decide_eq_true_eq] at hlooks
    obtain ⟨-, hmin, -, hle⟩ := hlooks
    refine lookaheadOutputs_length (Nat.pos_of_ne_zero hmin) outputs ?_ h
    rw [List.length_replicate]
    exact (Nat.le_mul_of_pos_right _ (Nat.pos_of_ne_zero hmin)).trans hle
  refine ⟨updateLookaheadUpsert_list, hinitial, fun outputs entries h => ?_, ?_⟩
  · obtain ⟨hlooks, initial, hout, hfill⟩ := lookaheadEntries_some h
    have hlen := congrArg List.length (lookaheadFill_majors _ hfill)
    rw [List.length_map, List.length_range'] at hlen
    rw [hlen]
    exact hinitial outputs initial hlooks hout
  · unfold updateLookaheadList
    split
    · rename_i hlooks
      rw [length_lookaheadUpsertions]
      exact ⟨fun h _ => h, fun h => h hlooks⟩
    · rename_i hlooks
      exact ⟨fun _ h => absurd h hlooks, fun _ => Nat.zero_le _⟩

end Lists

def highMajorOps : List Op :=
  [.creationRequest 5 ⟨1007, 50⟩ 7 0 ⟨1, 1⟩, .acceptRequests 6 .create [⟨1007, 50⟩] 10,
    .upsertSubaddresses 1 ⟨1007, 50⟩ 7 [(4294967294, [(0, 0)])] 10]

/-- The subaddress is tracked, and an output on it makes a list of 2 ^ 32 - 1 entries under a limit of 10. -/
theorem high_major_list :
    (∃ r ∈ (Op.runs sampleEnv highMajorOps).subaddressIndexes, r.1 = 1 ∧ r.2.index = ⟨4294967294, 0⟩) ∧
    ∃ r ∈ (Op.runs sampleEnv highMajorOps).accounts, r.2.id = 1 ∧
      looks 10 r.2.lookahead = true ∧ (updateLookaheadList r.2 ⟨4294967294, 0⟩ 10).length = 4294967295 := by
  have hrow : ∃ r ∈ (Op.runs sampleEnv highMajorOps).accounts, r.2.id = 1 ∧ r.2.lookahead = ⟨1, 1⟩ := by decide +kernel
  refine ⟨by decide +kernel, ?_⟩
  obtain ⟨r, hr, hid, hlook⟩ := hrow
  have hlooks : looks 10 r.2.lookahead = true := by
    rw [hlook]
    decide
  refine ⟨r, hr, hid, hlooks, ?_⟩
  unfold updateLookaheadList
  rw [if_pos hlooks, length_lookaheadUpsertions, hlook]
  rfl

end Lws.Db
