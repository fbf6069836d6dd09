/-
  Lws.Util.RandomOutputsProofs — what `pick_random_outputs` returns.

  Between two tries every entry of a ring holds unlocked keys of an earlier reply, and the
  indexes of a ring differ. A try adds its proposals behind them, with keys that are not
  unlocked: read ring after ring, these new entries are the proposals in the order they were
  asked for (`selectRings_pending`), and the replies are matched to them by position
  (`receiveRings_spec`).

  `pick_random_outputs_iff`: the rings returned are those asked for, except that without a
  mixin (`mixin` 0) the rings are returned without their amounts.
-/

import Lws.Util.RandomOutputs

namespace Lws.Util

variable {ε : Type}

/-! ## Picks -/

section Picks

variable {pickRct : GammaPicker} {histograms : List Histogram} {amount size : Nat} {draws draws' : List Nat}
  {latest : List OutputRef}

def PickOf (amount size : Nat) (latest : List OutputRef) : Prop :=
  latest.length = size ∧ ∀ ref ∈ latest, ref.amount = amount

theorem pickAll_pick (size amount : Nat) : PickOf amount size (pickAll size amount) := by
  refine ⟨by simp [pickAll], fun ref href => ?_⟩
  simp only [pickAll, List.mem_map] at href
  obtain ⟨index, -, rfl⟩ := href
  rfl

theorem triangularDraws_pick {hist : Histogram} : ∀ (size : Nat) {draws draws' : List Nat} {latest : List OutputRef},
    triangularDraws hist size draws = some (latest, draws') → PickOf hist.amount size latest := by
  intro size
  induction size with
  | zero =>
    intro draws draws' latest h
    cases h
    exact ⟨rfl, by simp⟩
  | succ size ih =>
    intro draws draws' latest h
    simp only [triangularDraws, Option.bind_eq_bind, Option.bind_eq_some_iff] at h
    obtain ⟨⟨index, draws₁⟩, -, ⟨out, draws₂⟩, hout, h⟩ := h
    cases h
    obtain ⟨hlength, hamount⟩ := ih hout
    exact ⟨by simp [hlength], by simpa using hamount⟩

theorem findHistogram_amount {hist : Histogram} (h : findHistogram histograms amount = some hist) :
    hist ∈ histograms ∧ hist.amount = amount := by
  simp only [findHistogram, Option.filter_eq_some_iff, beq_iff_eq] at h
  exact ⟨List.mem_of_find?_eq_some h.1, h.2⟩

theorem pickFor_pick (h : (pickFor pickRct histograms amount size draws : Except (PickError ε) _) = .ok (latest, draws')) :
    PickOf amount size latest := by
  unfold pickFor at h
  split at h
  · rename_i hzero
    subst hzero
    unfold gammaPick at h
    split at h
    · cases h
    · split at h
      · cases h
      · split at h
        · cases h
          exact pickAll_pick size 0
        · split at h
          · cases h
          · rename_i hdraws
            cases h
            refine ⟨by simp; omega, fun ref href => ?_⟩
            obtain ⟨index, -, rfl⟩ := List.mem_map.mp href
            rfl
  · split at h
    · cases h
    · rename_i hist hfind
      obtain ⟨-, rfl⟩ := findHistogram_amount hfind
      unfold triangularPick at h
      split at h
      · cases h
      · split at h
        · cases h
        · split at h
          · cases h
            exact pickAll_pick size _
          · split at h
            · cases h
            · rename_i picked hpicked
              cases h
              exact triangularDraws_pick size hpicked

def available (pickRct : GammaPicker) (histograms : List Histogram) (amount : Nat) : Nat :=
  if amount = 0 then if pickRct.isValid then pickRct.spendableUpperBound else 0
  else ((findHistogram histograms amount).map (·.unlockedCount)).getD 0

/-- A pick that is larger than what is available fails, for lack of outputs or before. -/
theorem pickFor_lacks (hlacks : available pickRct histograms amount < size) :
    (pickFor pickRct histograms amount size draws : Except (PickError ε) _) = .error .notEnoughMixin ∨
      (pickFor pickRct histograms amount size draws : Except (PickError ε) _) = .error .precondition := by
  unfold available at hlacks
  unfold pickFor
  split
  · rename_i hzero
    rw [if_pos hzero] at hlacks
    unfold gammaPick
    by_cases hvalid : pickRct.isValid
    · rw [if_pos hvalid] at hlacks
      simp [hvalid, hlacks]
    · simp [hvalid]
  · rename_i hzero
    rw [if_neg hzero] at hlacks
    split
    · exact Or.inr rfl
    · rename_i hist hfind
      rw [hfind] at hlacks
      unfold triangularPick
      split
      · exact Or.inr rfl
      · exact Or.inl (if_pos hlacks)

theorem pickFor_enough (henough : size ≤ available pickRct histograms amount) (hsize : 0 < size) :
    (pickFor pickRct histograms amount size draws : Except (PickError ε) _) ≠ .error .notEnoughMixin := by
  unfold available at henough
  unfold pickFor
  split
  · rename_i hzero
    rw [if_pos hzero] at henough
    unfold gammaPick
    by_cases hvalid : pickRct.isValid
    · rw [if_pos hvalid] at henough
      simp only [hvalid, Bool.not_true, Bool.false_eq_true, if_false, if_neg (not_lt.mpr henough)]
      split
      · simp
      · split <;> simp
    · rw [if_neg hvalid] at henough
      omega
  · rename_i hzero
    rw [if_neg hzero] at henough
    split
    · simp
    · rename_i hist hfind
      rw [hfind, Option.map_some, Option.getD_some] at henough
      unfold triangularPick
      split
      · simp
      · rw [if_neg (not_lt.mpr henough)]
        split
        · simp
        · split <;> simp

end Picks

/-! ## Proposals -/

section Proposals

theorem uniqueFrom_sublist : ∀ (refs : List OutputRef) (last : OutputRef), (uniqueFrom last refs).Sublist refs := by
  intro refs
  induction refs with
  | nil => exact fun _ => List.Sublist.refl _
  | cons ref refs ih =>
    intro last
    unfold uniqueFrom
    split
    · exact (ih last).cons _
    · exact (ih ref).cons_cons _

/-- In a sorted list, what `std::unique` leaves is strictly increasing. -/
theorem uniqueFrom_lt : ∀ (refs : List OutputRef) (last : OutputRef),
    (last :: refs).Pairwise (fun a b => a.index ≤ b.index) →
      (last :: uniqueFrom last refs).Pairwise fun a b => a.index < b.index := by
  intro refs
  induction refs with
  | nil => exact fun last _ => List.pairwise_singleton _ _
  | cons ref refs ih =>
    intro last h
    obtain ⟨hlast, hrefs⟩ := List.pairwise_cons.mp h
    unfold uniqueFrom
    split
    · exact ih last (h.sublist ((List.sublist_cons_self ref refs).cons_cons last))
    · rename_i hne
      have hrest := ih ref hrefs
      refine List.pairwise_cons.mpr ⟨fun other hother => ?_, hrest⟩
      have hfirst := hlast ref List.mem_cons_self
      rcases List.mem_cons.mp hother with rfl | hother
      · omega
      · have := (List.pairwise_cons.mp hrest).1 other hother
        omega

theorem dropDupes_spec (latest : List OutputRef) :
    ((dropDupes latest).map (·.index)).Nodup ∧ (dropDupes latest).length ≤ latest.length ∧
      ∀ ref ∈ dropDupes latest, ref ∈ latest := by
  unfold dropDupes
  have hsorted := List.pairwise_insertionSort (fun a b : OutputRef => a.index ≤ b.index) latest
  have hlength := List.length_insertionSort (fun a b : OutputRef => a.index ≤ b.index) latest
  have hmem : ∀ ref, ref ∈ latest.insertionSort (fun a b => a.index ≤ b.index) ↔ ref ∈ latest := fun ref =>
    List.mem_insertionSort _
  generalize latest.insertionSort (fun a b => a.index ≤ b.index) = refs at hsorted hlength hmem
  cases refs with
  | nil => simp [uniqueIndex]
  | cons ref refs =>
    have hsub := (uniqueFrom_sublist refs ref).cons_cons ref
    refine ⟨?_, ?_, fun other hother => (hmem other).mp (hsub.subset hother)⟩
    · refine List.pairwise_map.mpr ((uniqueFrom_lt refs ref hsorted).imp fun hlt => ?_)
      exact Nat.ne_of_lt hlt
    · exact hlength ▸ hsub.length_le

theorem inRing_iff {current : List RandomOutput} {index : Nat}
    (hsorted : current.Pairwise fun a b => a.index ≤ b.index) :
    inRing current index = true ↔ ∃ entry ∈ current, entry.index = index := by
  induction current with
  | nil => simp [inRing]
  | cons entry current ih =>
    obtain ⟨hfirst, hrest⟩ := List.pairwise_cons.mp hsorted
    unfold inRing at ih ⊢
    rw [List.find?_cons]
    by_cases hle : index ≤ entry.index
    · simp only [decide_eq_true hle, Option.any_some, beq_iff_eq]
      constructor
      · exact fun he => ⟨entry, List.mem_cons_self, he⟩
      · rintro ⟨other, hother, rfl⟩
        rcases List.mem_cons.mp hother with rfl | hother
        · rfl
        · exact Nat.le_antisymm (hfirst other hother) hle
    · simp only [decide_eq_false hle, ih hrest, List.mem_cons]
      constructor
      · rintro ⟨other, hother, he⟩
        exact ⟨other, Or.inr hother, he⟩
      · rintro ⟨other, rfl | hother, he⟩
        · omega
        · exact ⟨other, hother, he⟩

end Proposals

/-! ## A try -/

/-- The references of a ring's entries whose keys are still to come. -/
def pendingOf (amount : Nat) (entries : List RandomOutput) : List OutputRef :=
  (entries.filter fun entry => !entry.keys.unlocked).map fun entry => ⟨amount, entry.index⟩

def pending (rings : List RandomRing) : List OutputRef := rings.flatMap fun ring => pendingOf ring.amount ring.ring

/-- A ring with at most `mixin` entries of different indexes. -/
structure Fair (mixin : Nat) (ring : RandomRing) : Prop where
  size : ring.ring.length ≤ mixin
  indexes : (ring.ring.map (·.index)).Nodup

/-- A ring between two tries: its keys are unlocked, and `seen` holds of them. -/
structure Settled (mixin : Nat) (seen : Nat → RandomOutput → Prop) (ring : RandomRing) :
    Prop extends Fair mixin ring where
  unlocked : ∀ entry ∈ ring.ring, entry.keys.unlocked = true
  known : ∀ entry ∈ ring.ring, seen ring.amount entry

section Try

variable {mixin : Nat} {seen : Nat → RandomOutput → Prop} {pickRct : GammaPicker} {histograms : List Histogram}

/-- What the first loop makes of a ring: it is fair, and what is unlocked in it was seen. -/
structure Proposed (mixin : Nat) (seen : Nat → RandomOutput → Prop) (ring : RandomRing) :
    Prop extends Fair mixin ring where
  known : ∀ entry ∈ ring.ring, entry.keys.unlocked = true → seen ring.amount entry

theorem Settled.proposed {ring : RandomRing} (h : Settled mixin seen ring) : Proposed mixin seen ring :=
  ⟨h.toFair, fun entry hentry _ => h.known entry hentry⟩

theorem Settled.pending_nil {ring : RandomRing} (h : Settled mixin seen ring) :
    pendingOf ring.amount ring.ring = [] := by
  rw [pendingOf, List.filter_eq_nil_iff.mpr fun entry hentry => by simp [h.unlocked entry hentry], List.map_nil]

theorem addLatest_spec {ring : RandomRing} {latest : List OutputRef} (hring : Settled mixin seen ring)
    (hpick : PickOf ring.amount (mixin - ring.ring.length) latest) :
    (addLatest ring latest).1.amount = ring.amount ∧ Proposed mixin seen (addLatest ring latest).1 ∧
      pendingOf ring.amount (addLatest ring latest).1.ring = (addLatest ring latest).2 := by
  obtain ⟨hnodup, hlength, hmem⟩ := dropDupes_spec latest
  have hperm := List.perm_insertionSort (fun a b : RandomOutput => a.index ≤ b.index) ring.ring
  have hsorted := List.pairwise_insertionSort (fun a b : RandomOutput => a.index ≤ b.index) ring.ring
  unfold addLatest
  dsimp only
  generalize ring.ring.insertionSort (fun a b => a.index ≤ b.index) = current at hperm hsorted
  generalize hfresh : ((dropDupes latest).filter fun ref => !inRing current ref.index) = fresh
  have hsub : fresh.Sublist (dropDupes latest) := hfresh ▸ List.filter_sublist
  have hnew : ∀ ref ∈ fresh, inRing current ref.index = false := by
    intro ref href
    rw [← hfresh, List.mem_filter] at href
    simpa using href.2
  have hindexes : (fresh.map proposedEntry).map (·.index) = fresh.map (·.index) := by
    rw [List.map_map]
    rfl
  refine ⟨rfl, ⟨⟨?_, ?_⟩, fun entry hentry hunlocked => ?_⟩, ?_⟩
  · have hle := hsub.length_le
    have hcurrent := hperm.length_eq
    have hsize := hring.size
    have hpicked := hpick.1
    simp only [List.length_append, List.length_map]
    omega
  · rw [List.map_append, hindexes]
    refine List.nodup_append.mpr ⟨?_, (hsub.map _).nodup hnodup, ?_⟩
    · exact (hperm.map _).nodup_iff.mpr hring.indexes
    · intro i hi j hj he
      obtain ⟨entry, hentry, rfl⟩ := List.mem_map.mp hi
      obtain ⟨ref, href, rfl⟩ := List.mem_map.mp hj
      have hin := (inRing_iff hsorted).mpr ⟨entry, hentry, he⟩
      rw [hnew ref href] at hin
      cases hin
  · rcases List.mem_append.mp hentry with hentry | hentry
    · exact hring.known entry (hperm.mem_iff.mp hentry)
    · obtain ⟨ref, -, rfl⟩ := List.mem_map.mp hentry
      cases hunlocked
  · unfold pendingOf
    rw [List.filter_append, List.map_append]
    have hold : current.filter (fun entry => !entry.keys.unlocked) = [] :=
      List.filter_eq_nil_iff.mpr fun entry hentry => by simp [hring.unlocked entry (hperm.mem_iff.mp hentry)]
    have hall : (fresh.map proposedEntry).filter (fun entry => !entry.keys.unlocked) = fresh.map proposedEntry :=
      List.filter_eq_self.mpr fun entry hentry => by
        obtain ⟨ref, -, rfl⟩ := List.mem_map.mp hentry
        rfl
    rw [hold, hall, List.map_nil, List.nil_append, List.map_map]
    refine (List.map_congr_left fun ref href => ?_).trans (List.map_id fresh)
    have hamount := hpick.2 ref (hmem ref (hsub.subset href))
    simp [proposedEntry, ← hamount]

def enough (mixin : Nat) (pickRct : GammaPicker) (histograms : List Histogram) (amount : Nat) : Bool :=
  decide (mixin ≤ available pickRct histograms amount)

/-- The first loop of a try. A ring whose amount lacks outputs has no entries yet: it was
    never proposed for. -/
theorem selectRings_spec : ∀ (rings : List RandomRing) {draws draws' : List Nat} {rings' : List RandomRing}
    {proposed : List OutputRef}, (∀ ring ∈ rings, Settled mixin seen ring) →
    (∀ ring ∈ rings, enough mixin pickRct histograms ring.amount = false → ring.ring = [] ∧ 0 < mixin) →
    (selectRings mixin pickRct histograms rings draws : Except (PickError ε) _) = .ok (rings', proposed, draws') →
      pending rings' = proposed ∧ (∀ ring ∈ rings', Proposed mixin seen ring) ∧
        rings'.map (·.amount) = (rings.map (·.amount)).filter (enough mixin pickRct histograms) := by
  intro rings
  induction rings with
  | nil =>
    intro draws draws' rings' proposed _ _ h
    cases h
    exact ⟨rfl, by simp, rfl⟩
  | cons ring rings ih =>
    intro draws draws' rings' proposed hsettled hlacks h
    rw [List.forall_mem_cons] at hsettled hlacks
    obtain ⟨hring, hrings⟩ := hsettled
    unfold selectRings at h
    by_cases hshort : ring.ring.length < mixin
    · rw [if_pos hshort] at h
      cases henough : enough mixin pickRct histograms ring.amount with
      | false =>
        obtain ⟨hempty, -⟩ := hlacks.1 henough
        have hfails := @pickFor_lacks ε pickRct histograms ring.amount (mixin - ring.ring.length) draws (by
          simp only [enough, decide_eq_false_iff_not] at henough
          rw [hempty, List.length_nil]
          omega)
        rcases hfails with hfails | hfails
        · rw [hfails] at h
          obtain ⟨hpending, hproposed, hamounts⟩ := ih hrings hlacks.2 h
          refine ⟨hpending, hproposed, ?_⟩
          rw [List.map_cons, List.filter_cons_of_neg (by simp [henough])]
          exact hamounts
        · rw [hfails] at h
          cases h
      | true =>
        have hpicks := @pickFor_enough ε pickRct histograms ring.amount (mixin - ring.ring.length) draws (by
          simp only [enough, decide_eq_true_eq] at henough
          omega) (by omega)
        split at h
        · rename_i hfails
          exact absurd hfails hpicks
        · cases h
        · rename_i latest draws₁ hpick
          rcases hrest : (selectRings mixin pickRct histograms rings draws₁ : Except (PickError ε) _) with e |
              ⟨rest, more, draws₂⟩
          · simp only [hrest, bind, Except.bind] at h
            cases h
          · simp only [hrest, bind, Except.bind] at h
            cases h
            obtain ⟨hpending, hproposed, hamounts⟩ := ih hrings hlacks.2 hrest
            obtain ⟨hamount, hadded, hnew⟩ := addLatest_spec hring (pickFor_pick hpick)
            refine ⟨?_, List.forall_mem_cons.mpr ⟨hadded, hproposed⟩, ?_⟩
            · rw [pending, List.flatMap_cons, hamount, hnew, ← hpending]
              rfl
            · rw [List.map_cons, List.map_cons, List.filter_cons_of_pos henough, hamount, hamounts]
    · rw [if_neg hshort] at h
      rcases hrest : (selectRings mixin pickRct histograms rings draws : Except (PickError ε) _) with e | ⟨rest, more, draws₂⟩
      · simp only [hrest, bind, Except.bind] at h
        cases h
      · simp only [hrest, bind, Except.bind] at h
        cases h
        obtain ⟨hpending, hproposed, hamounts⟩ := ih hrings hlacks.2 hrest
        have henough : enough mixin pickRct histograms ring.amount = true := by
          by_contra hn
          obtain ⟨hempty, hpos⟩ := hlacks.1 (by simpa using hn)
          rw [hempty] at hshort
          exact hshort hpos
        refine ⟨?_, List.forall_mem_cons.mpr ⟨hring.proposed, hproposed⟩, ?_⟩
        · rw [pending, List.flatMap_cons, hring.pending_nil, ← hpending]
          rfl
        · rw [List.map_cons, List.map_cons, List.filter_cons_of_pos henough, hamounts]

end Try

/-! ## The replies -/

section Replies

variable {mixin : Nat} {seen : Nat → RandomOutput → Prop} {result : List OutputKeys}

/-- The keys of an entry are the reply to a reference of `refs`, whose replies start at `offset`. -/
def Replied (result : List OutputKeys) (refs : List OutputRef) (offset amount : Nat) (entry : RandomOutput) : Prop :=
  ∃ j : Nat, refs[j]? = some ⟨amount, entry.index⟩ ∧ result[offset + j]? = some entry.keys

theorem Replied.append_left {refs more : List OutputRef} {offset amount : Nat} {entry : RandomOutput}
    (h : Replied result refs offset amount entry) : Replied result (refs ++ more) offset amount entry := by
  obtain ⟨j, href, hkeys⟩ := h
  have hj : j < refs.length := (List.getElem?_eq_some_iff.mp href).1
  exact ⟨j, by rw [List.getElem?_append_left hj, href], hkeys⟩

theorem Replied.append_right {refs more : List OutputRef} {offset amount : Nat} {entry : RandomOutput}
    (h : Replied result more (offset + refs.length) amount entry) : Replied result (refs ++ more) offset amount entry := by
  obtain ⟨j, href, hkeys⟩ := h
  refine ⟨refs.length + j, ?_, by rw [← Nat.add_assoc, hkeys]⟩
  rw [List.getElem?_append_right (Nat.le_add_right _ _), Nat.add_sub_cancel_left, href]

/-- The inner loop: the entries that stay are unlocked, in order, and each was so before or
    took the reply to its own reference. -/
theorem receiveEntries_spec (amount : Nat) : ∀ (entries : List RandomOutput) (offset : Nat),
    offset + (pendingOf amount entries).length ≤ result.length →
      ∃ entries' kept, receiveEntries result entries offset =
        some (entries', kept, offset + (pendingOf amount entries).length) ∧
        (entries'.map (·.index)).Sublist (entries.map (·.index)) ∧ (kept = true → entries'.length = entries.length) ∧
        ∀ entry ∈ entries', entry.keys.unlocked = true ∧
          (entry ∈ entries ∨ Replied result (pendingOf amount entries) offset amount entry) := by
  intro entries
  induction entries with
  | nil =>
    intro offset _
    exact ⟨[], true, rfl, by simp, by simp, by simp⟩
  | cons entry entries ih =>
    intro offset hlength
    unfold receiveEntries
    cases hunlocked : entry.keys.unlocked with
    | true =>
      have hsame : pendingOf amount (entry :: entries) = pendingOf amount entries := by simp [pendingOf, hunlocked]
      rw [hsame] at hlength ⊢
      obtain ⟨entries', kept, hreceive, hsub, hkept, hall⟩ := ih offset hlength
      refine ⟨entry :: entries', kept, by simp [hreceive], by simpa using hsub, by simpa using hkept, ?_⟩
      intro other hother
      rcases List.mem_cons.mp hother with rfl | hother
      · exact ⟨hunlocked, Or.inl List.mem_cons_self⟩
      · exact ⟨(hall other hother).1, (hall other hother).2.imp_left (List.mem_cons_of_mem _)⟩
    | false =>
      have hfirst : pendingOf amount (entry :: entries) = [⟨amount, entry.index⟩] ++ pendingOf amount entries := by
        simp [pendingOf, hunlocked]
      rw [hfirst, List.length_append, List.length_singleton] at hlength ⊢
      obtain ⟨entries', kept, hreceive, hsub, hkept, hall⟩ := ih (offset + 1) (by omega)
      have hoffset : offset < result.length := by omega
      have hkeys := List.getElem?_eq_getElem hoffset
      generalize result[offset] = keys at hkeys
      have hlater : ∀ other ∈ entries', other.keys.unlocked = true ∧ (other ∈ entry :: entries ∨
          Replied result ([⟨amount, entry.index⟩] ++ pendingOf amount entries) offset amount other) := by
        intro other hother
        refine ⟨(hall other hother).1, (hall other hother).2.imp (List.mem_cons_of_mem _) fun h => ?_⟩
        exact Replied.append_right h
      rw [← Nat.add_assoc]
      cases hopen : keys.unlocked with
      | true =>
        refine ⟨{ entry with keys } :: entries', kept, by simp [hkeys, hreceive, hopen], by simpa using hsub,
          by simpa using hkept, ?_⟩
        intro other hother
        rcases List.mem_cons.mp hother with rfl | hother
        · exact ⟨hopen, Or.inr ⟨0, rfl, hkeys⟩⟩
        · exact hlater other hother
      | false =>
        exact ⟨entries', false, by simp [hkeys, hreceive, hopen], hsub.trans (List.sublist_cons_self _ _), by simp, hlater⟩

theorem Settled.mono {seen' : Nat → RandomOutput → Prop} {ring : RandomRing} (h : Settled mixin seen ring)
    (himp : ∀ amount entry, seen amount entry → seen' amount entry) : Settled mixin seen' ring :=
  ⟨h.toFair, h.unlocked, fun entry hentry => himp _ entry (h.known entry hentry)⟩

/-- The second loop of a try uses one reply for each reference that is pending, and leaves
    the rings settled. -/
theorem receiveRings_spec : ∀ (rings : List RandomRing) (offset : Nat), (∀ ring ∈ rings, Proposed mixin seen ring) →
    offset + (pending rings).length ≤ result.length →
      ∃ rings' done, receiveRings mixin result rings offset = some (rings', done, offset + (pending rings).length) ∧
        rings'.map (·.amount) = rings.map (·.amount) ∧
        (∀ ring ∈ rings', Settled mixin
          (fun amount entry => seen amount entry ∨ Replied result (pending rings) offset amount entry) ring) ∧
        (done = true → ∀ ring ∈ rings', ring.ring.length = mixin) := by
  intro rings
  induction rings with
  | nil =>
    intro offset _ _
    exact ⟨[], true, rfl, rfl, by simp, by simp⟩
  | cons ring rings ih =>
    intro offset hproposed hlength
    obtain ⟨hring, hrings⟩ := List.forall_mem_cons.mp hproposed
    have hpending : pending (ring :: rings) = pendingOf ring.amount ring.ring ++ pending rings := rfl
    rw [hpending, List.length_append] at hlength ⊢
    obtain ⟨entries', kept, hreceive, hsub, hkept, hall⟩ :=
      @receiveEntries_spec result ring.amount ring.ring offset (by omega)
    obtain ⟨rings', done, hrest, hamounts, hsettled, hdone⟩ := ih (offset + (pendingOf ring.amount ring.ring).length) hrings
      (by omega)
    have hshorter : entries'.length ≤ ring.ring.length := by simpa using hsub.length_le
    refine ⟨⟨entries', ring.amount⟩ :: rings', decide (mixin ≤ ring.ring.length) && kept && done, ?_, by simp [hamounts],
      List.forall_mem_cons.mpr ⟨?_, fun other hother => ?_⟩, fun hfull => ?_⟩
    · simp [receiveRings, hreceive, hrest, Nat.add_assoc]
    · refine ⟨⟨hshorter.trans hring.size, hsub.nodup hring.indexes⟩, fun entry hentry => (hall entry hentry).1, ?_⟩
      intro entry hentry
      obtain ⟨hunlocked, hfrom⟩ := hall entry hentry
      exact hfrom.imp (fun hold => hring.known entry hold hunlocked) Replied.append_left
    · exact (hsettled other hother).mono fun amount entry h => h.imp_right Replied.append_right
    · simp only [Bool.and_eq_true, decide_eq_true_eq] at hfull
      refine List.forall_mem_cons.mpr ⟨?_, hdone hfull.2⟩
      have hsame := hkept hfull.1.2
      have hsize := hring.size
      dsimp only
      omega

end Replies

/-! ## The tries -/

/-- The keys of an entry are the reply to its own reference in an exchange. -/
def Answered (log : List Exchange) (amount : Nat) (entry : RandomOutput) : Prop :=
  ∃ x ∈ log, ∃ j : Nat, x.requested[j]? = some ⟨amount, entry.index⟩ ∧ x.replied[j]? = some entry.keys

/-- A ring as it is asked for: `mixin` unlocked outputs of different indexes, each with the
    keys replied for it. -/
structure Complete (mixin : Nat) (log : List Exchange) (ring : RandomRing) : Prop where
  size : ring.ring.length = mixin
  indexes : (ring.ring.map (·.index)).Nodup
  unlocked : ∀ entry ∈ ring.ring, entry.keys.unlocked = true
  answered : ∀ entry ∈ ring.ring, Answered log ring.amount entry

/-- Every reply of the length asked for is used to its end, and no more. -/
def AllConsumed (log : List Exchange) : Prop :=
  ∀ x ∈ log, x.replied.length = x.requested.length → x.consumed = some x.requested.length

theorem Answered.mono {log log' : List Exchange} {amount : Nat} {entry : RandomOutput} (h : Answered log amount entry)
    (hsub : log ⊆ log') : Answered log' amount entry := by
  obtain ⟨x, hx, hreply⟩ := h
  exact ⟨x, hsub hx, hreply⟩

theorem Settled.complete {mixin : Nat} {log : List Exchange} {ring : RandomRing} (h : Settled mixin (Answered log) ring)
    (hsize : ring.ring.length = mixin) : Complete mixin log ring := ⟨hsize, h.indexes, h.unlocked, h.known⟩

section Tries

variable {mixin : Nat} {pickRct : GammaPicker} {histograms : List Histogram}
  {fetch : Nat → List OutputRef → Except ε (List OutputKeys)}

theorem pickTries_spec (hmixin : 0 < mixin) : ∀ (left tries : Nat) (before : List Exchange) {rings : List RandomRing}
    {draws : List Nat}, (∀ ring ∈ rings, Settled mixin (Answered before) ring) →
    (∀ ring ∈ rings, enough mixin pickRct histograms ring.amount = false → ring.ring = []) →
    let done := pickTries mixin pickRct histograms fetch left tries rings draws
    AllConsumed done.2 ∧ ∀ rings', done.1 = .ok rings' →
      (∀ ring ∈ rings', Complete mixin (before ++ done.2) ring) ∧
        rings'.map (·.amount) = (rings.map (·.amount)).filter (enough mixin pickRct histograms) := by
  intro left
  induction left with
  | zero =>
    intro tries before rings draws _ _
    exact ⟨by simp [pickTries, AllConsumed], fun rings' h => by cases h⟩
  | succ left ih =>
    intro tries before rings draws hsettled hlacks
    unfold pickTries
    rcases hselect : (selectRings mixin pickRct histograms rings draws : Except (PickError ε) _) with
      e | ⟨selected, proposed, draws₁⟩
    · exact ⟨by simp [AllConsumed], fun rings' h => by cases h⟩
    · obtain ⟨rfl, hproposed, hamounts⟩ :=
        selectRings_spec rings hsettled (fun ring hring hn => ⟨hlacks ring hring hn, hmixin⟩) hselect
      dsimp only
      split
      · rename_i hempty
        rw [List.isEmpty_iff.mp hempty] at hamounts
        refine ⟨by simp [AllConsumed], fun rings' h => ?_⟩
        cases h
        rw [List.isEmpty_iff.mp hempty]
        exact ⟨by simp, hamounts⟩
      · split
        · exact ⟨by simp [AllConsumed], fun rings' h => by cases h⟩
        · rename_i result hfetch
          split
          · rename_i hlength
            refine ⟨?_, fun rings' h => by cases h⟩
            simp [AllConsumed, Ne.symm hlength]
          · rename_i hlength
            have hlength := not_not.mp hlength
            obtain ⟨received, full, hreceive, hsame, hsettled', hfull⟩ :=
              @receiveRings_spec mixin _ result selected 0 hproposed (by omega)
            rw [hreceive]
            dsimp only
            generalize hx : (⟨pending selected, result, some (0 + (pending selected).length)⟩ : Exchange) = x
            have hconsumed : x.consumed = some x.requested.length := by
              rw [← hx, Nat.zero_add]
            have hknown : ∀ ring ∈ received, Settled mixin (Answered (before ++ [x])) ring := by
              refine fun ring hring => (hsettled' ring hring).mono fun amount entry h => ?_
              rcases h with hbefore | ⟨j, href, hkeys⟩
              · exact hbefore.mono (by simp)
              · exact ⟨x, by simp, j, by rw [← hx, href], by rw [← hx]; simpa using hkeys⟩
            split
            · rename_i hdone
              refine ⟨by simp [AllConsumed, hconsumed], fun rings' h => ?_⟩
              cases h
              exact ⟨fun ring hring => (hknown ring hring).complete (hfull hdone ring hring), hsame.trans hamounts⟩
            · -- every amount that is left has enough outputs
              have hleft : ∀ ring ∈ received, enough mixin pickRct histograms ring.amount = false → ring.ring = [] := by
                intro ring hring hn
                have hmem := List.mem_map_of_mem (f := (·.amount)) hring
                rw [hsame, hamounts, List.mem_filter, hn] at hmem
                exact absurd hmem.2 (by simp)
              obtain ⟨hrest, hok⟩ := @ih (tries + 1) (before ++ [x]) received draws₁ hknown hleft
              refine ⟨List.forall_mem_cons.mpr ⟨fun _ => hconsumed, hrest⟩, fun rings' h => ?_⟩
              obtain ⟨hcomplete, hfiltered⟩ := hok rings' h
              rw [List.append_assoc, List.singleton_append] at hcomplete
              refine ⟨hcomplete, hfiltered.trans ?_⟩
              rw [hsame, hamounts, List.filter_filter]
              simp

/-- How many outputs the daemon offers for an amount. -/
def offered (pickRct : GammaPicker) (histograms : List Histogram) (amount : Nat) : Nat :=
  if amount = 0 then if pickRct.isValid then pickRct.spendableUpperBound else 0
  else ((histograms.find? fun hist => hist.amount == amount).map (·.unlockedCount)).getD 0

/-- Among sorted histograms the lower bound is the first of its amount. -/
theorem findHistogram_eq {amount : Nat} : ∀ {histograms : List Histogram},
    histograms.Pairwise (fun a b => a.amount ≤ b.amount) →
      findHistogram histograms amount = histograms.find? fun hist => hist.amount == amount := by
  intro histograms
  induction histograms with
  | nil => exact fun _ => rfl
  | cons hist histograms ih =>
    intro hsorted
    obtain ⟨hfirst, hrest⟩ := List.pairwise_cons.mp hsorted
    have hih := ih hrest
    unfold findHistogram at hih ⊢
    rw [List.find?_cons, List.find?_cons]
    by_cases heq : hist.amount = amount
    · simp [heq]
    · rw [beq_eq_false_iff_ne.mpr heq]
      by_cases hle : amount ≤ hist.amount
      · have hnone : (histograms.find? fun hist => hist.amount == amount) = none := by
          refine List.find?_eq_none.mpr fun other hother => ?_
          have := hfirst other hother
          simp only [beq_iff_eq]
          omega
        simp [hle, heq, hnone]
      · simpa [hle] using hih

/-- Sorting by amount keeps the order of the histograms of one amount. -/
theorem find_sorted (histograms : List Histogram) (amount : Nat) :
    ((histograms.insertionSort fun a b => a.amount ≤ b.amount).find? fun hist => hist.amount == amount) =
      histograms.find? fun hist => hist.amount == amount := by
  have hequal : (histograms.filter fun hist => hist.amount == amount).Pairwise fun a b => a.amount ≤ b.amount := by
    refine List.pairwise_of_forall_mem_list fun a ha b hb => ?_
    simp only [List.mem_filter, beq_iff_eq] at ha hb
    omega
  have hsub := (List.sublist_insertionSort hequal List.filter_sublist).filter fun hist => hist.amount == amount
  have hperm := (List.perm_insertionSort (fun a b : Histogram => a.amount ≤ b.amount) histograms).filter
    fun hist => hist.amount == amount
  rw [List.filter_filter] at hsub
  simp only [Bool.and_self] at hsub
  rw [← List.head?_filter, ← List.head?_filter, hsub.eq_of_length hperm.length_eq.symm]

theorem available_sorted (pickRct : GammaPicker) (histograms : List Histogram) (amount : Nat) :
    available pickRct (histograms.insertionSort fun a b => a.amount ≤ b.amount) amount =
      offered pickRct histograms amount := by
  unfold available offered
  rw [findHistogram_eq (List.pairwise_insertionSort _ _), find_sorted]

/-- The rings that were asked for: complete, and of the amounts asked for that have enough
    outputs, in order. -/
structure Picked (mixin : Nat) (amounts : List Nat) (pickRct : GammaPicker) (histograms : List Histogram)
    (log : List Exchange) (rings : List RandomRing) : Prop where
  complete : ∀ ring ∈ rings, Complete mixin log ring
  amounts : rings.map (·.amount) = amounts.filter fun amount => decide (mixin ≤ offered pickRct histograms amount)

/-- Every reply of the requested length is used up, and the rings of a success are those
    that were asked for if and only if decoys were asked for at all or every amount is 0. -/
theorem pick_random_outputs_iff (mixin : Nat) (amounts : List Nat) (pickRct : GammaPicker) (histograms : List Histogram)
    (fetch : Nat → List OutputRef → Except ε (List OutputKeys)) (draws : List Nat) :
    let done := pickRandomOutputs mixin amounts pickRct histograms fetch draws
    AllConsumed done.2 ∧ ∀ rings, done.1 = .ok rings →
      (Picked mixin amounts pickRct histograms done.2 rings ↔ (mixin ≠ 0 ∨ ∀ amount ∈ amounts, amount = 0)) := by
  unfold pickRandomOutputs
  split
  · rename_i hnone
    refine ⟨by simp [AllConsumed], fun rings h => ?_⟩
    cases h
    rcases Nat.eq_zero_or_pos mixin with rfl | hpos
    · -- the rings have no entries, and the amount 0
      constructor
      · intro hp
        refine Or.inr fun amount hamount => ?_
        have heq := hp.amounts
        simp only [List.map_replicate, Nat.zero_le, decide_true, List.filter_true] at heq
        rw [← heq] at hamount
        exact List.eq_of_mem_replicate hamount
      · intro hz
        have hz := hz.resolve_left (by simp)
        refine ⟨fun ring hring => ?_, ?_⟩
        · rw [List.eq_of_mem_replicate hring]
          exact ⟨rfl, by simp, by simp, by simp⟩
        · simp only [List.map_replicate, Nat.zero_le, decide_true, List.filter_true]
          exact (List.eq_replicate_iff.mpr ⟨rfl, hz⟩).symm
    · have hempty : amounts = [] := by simpa using hnone.resolve_left (by omega)
      subst hempty
      exact iff_of_true ⟨by simp, by simp⟩ (Or.inr (by simp))
  · rename_i hsome
    obtain ⟨hmixin, -⟩ := not_or.mp hsome
    split
    · exact ⟨by simp [AllConsumed], fun rings h => by cases h⟩
    · obtain ⟨hconsumed, hok⟩ := @pickTries_spec ε mixin pickRct
        (histograms.insertionSort fun a b => a.amount ≤ b.amount) fetch (Nat.pos_of_ne_zero hmixin) 64 0 []
        (amounts.map fun amount => ⟨[], amount⟩) draws
        (by simp only [List.forall_mem_map]; exact fun amount _ => ⟨⟨by simp, by simp⟩, by simp, by simp⟩)
        (by simp)
      refine ⟨hconsumed, fun rings h => iff_of_true ?_ (Or.inl hmixin)⟩
      obtain ⟨hcomplete, hamounts⟩ := hok rings h
      have henough : enough mixin pickRct (histograms.insertionSort fun a b => a.amount ≤ b.amount) =
          fun amount => decide (mixin ≤ offered pickRct histograms amount) :=
        funext fun amount => by rw [enough, available_sorted]
      refine ⟨hcomplete, hamounts.trans ?_⟩
      rw [henough, List.map_map]
      simp [Function.comp_def]

end Tries

/-- A daemon for which the output of index 7 is locked. -/
def sampleFetch (_ : Nat) (refs : List OutputRef) : Except Unit (List OutputKeys) :=
  .ok (refs.map fun ref => ⟨100 * ref.amount + ref.index, 1, ref.index != 7⟩)

def sampleRings : List RandomRing :=
  [⟨[⟨⟨503, 1, true⟩, 3⟩, ⟨⟨506, 1, true⟩, 6⟩], 5⟩, ⟨[⟨⟨4, 1, true⟩, 4⟩, ⟨⟨8, 1, true⟩, 8⟩], 0⟩]

/-- Two rings in two tries: the first draws one index twice, the second a locked output; the
    amount 9 has one output only. -/
theorem pick_random_outputs_two_tries :
    let done := pickRandomOutputs 2 [5, 9, 0] ⟨true, 100⟩ [⟨9, 3, 1⟩, ⟨5, 10, 9⟩] sampleFetch [3, 3, 4, 7, 6, 8]
    done.1 = .ok sampleRings ∧ done.2.map (·.consumed) = [some 3, some 2] ∧
      Picked 2 [5, 9, 0] ⟨true, 100⟩ [⟨9, 3, 1⟩, ⟨5, 10, 9⟩] done.2 sampleRings := by
  have hrun : (pickRandomOutputs 2 [5, 9, 0] ⟨true, 100⟩ [⟨9, 3, 1⟩, ⟨5, 10, 9⟩] sampleFetch [3, 3, 4, 7, 6, 8]).1 =
      .ok sampleRings := by decide +kernel
  refine ⟨hrun, by decide +kernel, ?_⟩
  exact ((pick_random_outputs_iff 2 [5, 9, 0] ⟨true, 100⟩ [⟨9, 3, 1⟩, ⟨5, 10, 9⟩] sampleFetch [3, 3, 4, 7, 6, 8]).2
    sampleRings hrun).mpr (Or.inl (by decide))

/-- Without decoys the ring of the amount 5 is returned with the amount 0. -/
theorem no_mixin_no_amounts :
    let done := pickRandomOutputs 0 [5] ⟨true, 100⟩ [⟨5, 10, 9⟩] sampleFetch []
    done.1 = .ok [⟨[], 0⟩] ∧ ¬ Picked 0 [5] ⟨true, 100⟩ [⟨5, 10, 9⟩] done.2 [⟨[], 0⟩] := by
  refine ⟨by decide, fun hp => ?_⟩
  have hamounts := hp.amounts
  revert hamounts
  decide

end Lws.Util
