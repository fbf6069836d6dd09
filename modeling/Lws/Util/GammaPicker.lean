/-
  Lws.Util.GammaPicker — which indexes are proposed as decoys (`src/util/gamma_picker.cpp`,
  and `triangular_pick` and `gamma_pick` of `src/util/random_outputs.cpp`).

  The picker has the number of outputs of the chain up to each block. A drawn age is turned
  into a number of outputs (`outputAge`, the product of the seconds and the outputs of a
  second, which may be any), counted back from the last output that may be spent, and an
  output of the block it falls in is taken. The search is over the blocks old enough. With
  offsets that do not decrease the picker stays below its bound, and the search finds a
  block (`attempt_spendable`). A try proposes nothing only when the age is before the chain,
  or is that of the first output of a chain whose first block has none (`Passed`).

  The amounts from before are picked by a triangle: what is drawn is thrown back while it is
  above the number of unlocked outputs. That number itself is kept, and is the index of the
  first output that is locked or not there at all (`locked_proposed`).
-/

import Lws.Search
import Lws.Util.RandomOutputs

namespace Lws.Util

open Lws.Search

namespace Gamma

/-- `CRYPTONOTE_DEFAULT_TX_SPENDABLE_AGE`. -/
def defaultTxSpendableAge : Nat := 10

/-- `DIFFICULTY_TARGET_V2`, in seconds. -/
def difficultyTarget : Nat := 120

def blocksInAYear : Nat := 86400 * 365 / difficultyTarget

inductive GammaError where
  /-- "blockchain height too small". -/
  | heightTooSmall
  /-- "output not found in range (should never happen)". -/
  | notFound
  /-- "after 100 attempts". -/
  | attempts
  deriving DecidableEq, Repr

/-- The random choices of one try. -/
structure Draw where
  /-- The outputs that come in the age that was drawn. -/
  outputAge : UInt64
  /-- What `crypto::rand_idx` takes the remainder of. -/
  index : UInt64
  deriving DecidableEq, Repr

/-- The outputs of the last year, which `outputs_per_second` is proportional to. -/
def outputsToConsider (rctOffsets : List UInt64) : UInt64 :=
  let blocksToConsider := min rctOffsets.length blocksInAYear
  let initial :=
    if blocksToConsider < rctOffsets.length then rctOffsets.getD (rctOffsets.length - blocksToConsider - 1) 0 else 0
  rctOffsets.getLastD 0 - initial

/-- `is_valid`: `outputs_per_second` is positive where any output is considered. -/
def isValid (rctOffsets : List UInt64) : Bool :=
  decide (defaultTxSpendableAge - 1 < rctOffsets.length) && decide (0 < outputsToConsider rctOffsets)

def spendableUpperBound (rctOffsets : List UInt64) : UInt64 :=
  if isValid rctOffsets then rctOffsets.getD (rctOffsets.length - defaultTxSpendableAge) 0 else 0

/-- The body of the loop: the index, none where it goes on. -/
def attempt (rctOffsets : List UInt64) (draw : Draw) : Except GammaError (Option UInt64) :=
  let spendable := rctOffsets.take (rctOffsets.length - defaultTxSpendableAge + 1)
  let numRctOutputs := spendableUpperBound rctOffsets
  -- gamma selected older than blockchain height (rare)
  if numRctOutputs ≤ draw.outputAge then .ok none
  else
    let outputIndex := numRctOutputs - 1 - draw.outputAge
    let selection := lowerBound (fun offset => decide (offset < outputIndex)) spendable
    match spendable[selection]? with
    | none => .error .notFound
    | some offset =>
      let firstRct := if selection = 0 then 0 else spendable.getD (selection - 1) 0
      let nRct := offset - firstRct
      -- block had zero outputs
      if nRct = 0 then .ok none else .ok (some (firstRct + draw.index % nRct))

def attempts (rctOffsets : List UInt64) (draws : Nat → Draw) : Nat → Nat → Except GammaError UInt64
  | 0, _ => .error .attempts
  | left + 1, tries => do
    match ← attempt rctOffsets (draws tries) with
    | some index => .ok index
    | none => attempts rctOffsets draws left (tries + 1)

/-- `gamma_picker::operator()`. -/
def pick (rctOffsets : List UInt64) (draws : Nat → Draw) : Except GammaError UInt64 :=
  if !isValid rctOffsets then .error .heightTooSmall else attempts rctOffsets draws 100 0

/-- What `pick_random_outputs` sees of the picker. -/
def picker (rctOffsets : List UInt64) : GammaPicker := ⟨isValid rctOffsets, (spendableUpperBound rctOffsets).toNat⟩

/-- What the calls of the picker return, up to the first that throws. -/
def returned (rctOffsets : List UInt64) : List (Nat → Draw) → List Nat
  | [] => []
  | draws :: calls =>
    match pick rctOffsets draws with
    | .ok index => index.toNat :: returned rctOffsets calls
    | .error _ => []

/-! ## The picker stays below its bound -/

variable {rctOffsets : List UInt64}

theorem isValid_length (hvalid : isValid rctOffsets = true) : defaultTxSpendableAge ≤ rctOffsets.length := by
  have hlength := of_decide_eq_true (Bool.and_eq_true_iff.mp hvalid).1
  exact Nat.le_of_pred_lt hlength

/-- The blocks that are searched end with the one that the bound is the offset of. -/
theorem spendable_last (hvalid : isValid rctOffsets = true) :
    ∃ front, rctOffsets.take (rctOffsets.length - defaultTxSpendableAge + 1) =
      front ++ [spendableUpperBound rctOffsets] := by
  have hlength := isValid_length hvalid
  have hlt : rctOffsets.length - defaultTxSpendableAge < rctOffsets.length := by
    apply Nat.sub_lt
    · exact lt_of_lt_of_le (by decide) hlength
    · decide
  refine ⟨rctOffsets.take (rctOffsets.length - defaultTxSpendableAge), ?_⟩
  rw [List.take_succ_eq_append_getElem hlt]
  rw [spendableUpperBound, if_pos hvalid, List.getD_eq_getElem _ _ hlt]

structure Found (spendable : List UInt64) (bound outputIndex offset firstRct : UInt64) : Prop where
  index : outputIndex ≤ offset
  bound : offset ≤ bound
  first : firstRct ≤ offset
  /-- The block before ends in front of the output that is looked for. -/
  before : firstRct < outputIndex ∨ firstRct = 0 ∧ spendable.head? = some offset

/-- What the search finds: the block, and the one before it where there is one. -/
theorem selection_found {spendable : List UInt64} {bound outputIndex : UInt64} (hsorted : spendable.Pairwise (· ≤ ·))
    (hlast : ∃ front, spendable = front ++ [bound]) (hlt : outputIndex < bound) :
    let selection := lowerBound (fun offset => decide (offset < outputIndex)) spendable
    ∃ offset, spendable[selection]? = some offset ∧
      Found spendable bound outputIndex offset (if selection = 0 then 0 else spendable.getD (selection - 1) 0) := by
  intro selection
  have hsplit : Split (fun offset => decide (offset < outputIndex)) spendable :=
    .of_sorted (fun a b hab hb => decide_eq_true (UInt64.lt_of_le_of_lt hab (of_decide_eq_true hb))) hsorted
  obtain ⟨front, hfront⟩ := hlast
  have hget := getElem?_lowerBound hsplit
  cases hfind : spendable.find? fun offset => !decide (offset < outputIndex) with
  | none =>
    have hnone := List.find?_eq_none.mp hfind bound (by simp [hfront])
    simp [UInt64.le_of_lt hlt] at hnone
  | some offset =>
    rw [hfind] at hget
    have hnot : outputIndex ≤ offset := by simpa using List.find?_some hfind
    have hbound : offset ≤ bound := by
      have hmem := List.mem_of_find?_eq_some hfind
      rw [hfront] at hmem hsorted
      rcases List.mem_append.mp hmem with hmem | hmem
      · exact (List.pairwise_append.mp hsorted).2.2 offset hmem bound (by simp)
      · exact UInt64.le_of_eq (by simpa using hmem)
    by_cases hzero : selection = 0
    · have hhead : spendable.head? = some offset := by
        rw [← hget, List.head?_eq_getElem?]
        exact congrArg (spendable[·]?) hzero.symm
      rw [if_pos hzero]
      exact ⟨offset, hget, hnot, hbound, UInt64.zero_le, .inr ⟨rfl, hhead⟩⟩
    · have hsel : selection < spendable.length := (List.getElem?_eq_some_iff.mp hget).1
      have hprev : selection - 1 < spendable.length := by omega
      have hbefore : spendable[selection - 1] < outputIndex :=
        of_decide_eq_true (before_of_lt_lowerBound hsplit hprev (Nat.sub_one_lt hzero))
      rw [if_neg hzero, List.getD_eq_getElem _ _ hprev]
      exact ⟨offset, hget, hnot, hbound, UInt64.le_of_lt (UInt64.lt_of_lt_of_le hbefore hnot), .inl hbefore⟩

theorem first_add_lt {first offset index : UInt64} (h : first < offset) :
    first + index % (offset - first) < offset := by
  have hsub := UInt64.toNat_sub_of_le offset first (UInt64.le_of_lt h)
  rw [UInt64.lt_iff_toNat_lt] at h ⊢
  have hmod : (index % (offset - first)).toNat < offset.toNat - first.toNat := by
    rw [UInt64.toNat_mod, hsub]
    exact Nat.mod_lt _ (Nat.sub_pos_of_lt h)
  have hmax := offset.toNat_lt
  rw [UInt64.toNat_add, Nat.mod_eq_of_lt (by omega)]
  omega

theorem head?_spendable : (rctOffsets.take (rctOffsets.length - defaultTxSpendableAge + 1)).head? =
    rctOffsets.head? := by
  cases rctOffsets <;> simp

/-- The age is before the chain, or is that of the first output and the first block has none. -/
def Passed (rctOffsets : List UInt64) (draw : Draw) : Prop :=
  spendableUpperBound rctOffsets ≤ draw.outputAge ∨
    rctOffsets.head? = some 0 ∧ draw.outputAge = spendableUpperBound rctOffsets - 1

/-- One try: the search finds a block, and what is proposed is below the bound. -/
theorem attempt_spendable (hvalid : isValid rctOffsets = true) (hsorted : rctOffsets.Pairwise (· ≤ ·)) (draw : Draw) :
    ∃ proposed, attempt rctOffsets draw = .ok proposed ∧
      (∀ index, proposed = some index → index < spendableUpperBound rctOffsets) ∧
      (proposed = none ↔ Passed rctOffsets draw) := by
  unfold attempt
  simp only
  by_cases hage : spendableUpperBound rctOffsets ≤ draw.outputAge
  · rw [if_pos hage]
    exact ⟨none, rfl, by simp, iff_of_true rfl (.inl hage)⟩
  · have hlt : spendableUpperBound rctOffsets - 1 - draw.outputAge < spendableUpperBound rctOffsets := by
      have := UInt64.not_le.mp hage
      grind
    obtain ⟨offset, hget, hfound⟩ :=
      selection_found (hsorted.sublist (List.take_sublist _ _)) (spendable_last hvalid) hlt
    rw [if_neg hage]
    simp only [hget]
    generalize (if _ = 0 then (0 : UInt64) else _) = firstRct at hfound ⊢
    by_cases hrct : offset - firstRct = 0
    · -- the block is the first, has no outputs, and the first output was looked for
      have hsame : offset = firstRct := by grind
      rw [if_pos hrct]
      refine ⟨none, rfl, by simp, iff_of_true rfl (.inr ?_)⟩
      rcases hfound.before with hbefore | ⟨hzero, hhead⟩
      · exact absurd (UInt64.lt_of_lt_of_le hbefore hfound.index) (by simp [hsame])
      · rw [head?_spendable] at hhead
        have hindex := hfound.index
        rw [hsame, hzero] at hhead hindex
        refine ⟨hhead, ?_⟩
        have hnone : spendableUpperBound rctOffsets - 1 - draw.outputAge = 0 := UInt64.le_antisymm hindex UInt64.zero_le
        grind
    · have hfirst : firstRct < offset := UInt64.lt_of_le_of_ne hfound.first (by grind)
      rw [if_neg hrct]
      refine ⟨_, rfl, fun index hindex => ?_, iff_of_false (by simp) ?_⟩
      · rw [← Option.some.inj hindex]
        exact UInt64.lt_of_lt_of_le (first_add_lt hfirst) hfound.bound
      · rintro (hold | ⟨hhead, hlast⟩)
        · exact hage hold
        · rcases hfound.before with hbefore | ⟨-, hsame⟩
          · rw [hlast] at hbefore
            grind
          · rw [head?_spendable, hhead] at hsame
            rw [← Option.some.inj hsame] at hfirst
            exact UInt64.not_lt_zero hfirst

theorem attempts_spendable (hvalid : isValid rctOffsets = true) (hsorted : rctOffsets.Pairwise (· ≤ ·))
    (draws : Nat → Draw) (left tries : Nat) :
    (∃ index, attempts rctOffsets draws left tries = .ok index ∧ index < spendableUpperBound rctOffsets) ∨
      attempts rctOffsets draws left tries = .error .attempts ∧ ∀ i < left, Passed rctOffsets (draws (tries + i)) := by
  induction left generalizing tries with
  | zero => exact .inr ⟨rfl, by simp⟩
  | succ left ih =>
    obtain ⟨proposed, hattempt, hbound, hnone⟩ := attempt_spendable hvalid hsorted (draws tries)
    unfold attempts
    rw [hattempt]
    cases proposed with
    | some index => exact .inl ⟨index, rfl, hbound index rfl⟩
    | none =>
      rcases ih (tries + 1) with hfound | ⟨herror, hpassed⟩
      · exact .inl hfound
      · refine .inr ⟨herror, fun i hi => ?_⟩
        cases i with
        | zero => exact hnone.mp rfl
        | succ i =>
          rw [← Nat.add_assoc, Nat.add_right_comm]
          exact hpassed i (by omega)

/-- The picker proposes what may be spent, or has tried as often as it does. -/
theorem pick_spendable (hvalid : isValid rctOffsets = true) (hsorted : rctOffsets.Pairwise (· ≤ ·))
    (draws : Nat → Draw) :
    (∃ index, pick rctOffsets draws = .ok index ∧ index < spendableUpperBound rctOffsets) ∨
      pick rctOffsets draws = .error .attempts ∧ ∀ i < 100, Passed rctOffsets (draws i) := by
  rw [pick, hvalid]
  simpa using attempts_spendable hvalid hsorted draws 100 0

theorem returned_lt (hvalid : isValid rctOffsets = true) (hsorted : rctOffsets.Pairwise (· ≤ ·))
    (calls : List (Nat → Draw)) :
    ∀ index ∈ returned rctOffsets calls, index < (picker rctOffsets).spendableUpperBound := by
  induction calls with
  | nil => simp [returned]
  | cons draws calls ih =>
    rcases pick_spendable hvalid hsorted draws with ⟨index, hpick, hlt⟩ | ⟨hpick, -⟩
    · simpa [returned, hpick] using ⟨UInt64.lt_iff_toNat_lt.mp hlt, ih⟩
    · simp [returned, hpick]

end Gamma

/-! ## What is proposed -/

theorem pickAll_lt {size amount : Nat} : ∀ ref ∈ pickAll size amount, ref.index < size := by
  intro ref href
  simp only [pickAll, List.mem_map, List.mem_range] at href
  obtain ⟨index, hindex, rfl⟩ := href
  exact hindex

/-- `gamma_pick`, with each index that the picker returns below its bound. -/
theorem gammaPick_lt {ε : Type} {size : Nat} {pickRct : GammaPicker} {draws rest : List Nat} {out : List OutputRef}
    (hdraws : ∀ index ∈ draws, index < pickRct.spendableUpperBound)
    (h : (gammaPick size pickRct draws : Except (PickError ε) _) = .ok (out, rest)) :
    ∀ ref ∈ out, ref.index < pickRct.spendableUpperBound := by
  unfold gammaPick at h
  split at h
  · cases h
  split at h
  · cases h
  split at h
  · rename_i hall
    cases h
    rw [hall]
    exact pickAll_lt
  split at h
  · cases h
  · cases h
    intro ref href
    obtain ⟨index, hindex, rfl⟩ := List.mem_map.mp href
    exact hdraws index (List.mem_of_mem_take hindex)

/-- The draws that `triangular_pick` does not throw back. -/
def kept (hist : Histogram) (draws : List Nat) : List Nat := draws.filter fun draw => decide (draw ≤ hist.unlockedCount)

theorem triangularDraw_kept (hist : Histogram) (draws : List Nat) :
    match triangularDraw hist.unlockedCount draws with
    | none => kept hist draws = []
    | some (index, rest) => kept hist draws = index :: kept hist rest := by
  induction draws with
  | nil => rfl
  | cons draw draws ih =>
    unfold triangularDraw
    by_cases hdraw : hist.unlockedCount < draw
    · rw [if_pos hdraw]
      simpa [kept, hdraw] using ih
    · rw [if_neg hdraw]
      simp [kept, not_lt.mp hdraw]

theorem triangularDraws_kept {hist : Histogram} (size : Nat) (draws : List Nat) :
    match triangularDraws hist size draws with
    | none => (kept hist draws).length < size
    | some (out, _) => size ≤ (kept hist draws).length ∧ out.map (·.index) = (kept hist draws).take size := by
  induction size generalizing draws with
  | zero => exact ⟨Nat.zero_le _, rfl⟩
  | succ size ih =>
    have hdraw := triangularDraw_kept hist draws
    unfold triangularDraws
    cases hone : triangularDraw hist.unlockedCount draws with
    | none =>
      rw [hone] at hdraw
      simp [hdraw]
    | some drawn =>
      obtain ⟨index, rest⟩ := drawn
      rw [hone] at hdraw
      simp only at hdraw
      have hrest := ih rest
      cases hmore : triangularDraws hist size rest with
      | none =>
        rw [hmore] at hrest
        simpa [hmore, hdraw] using hrest
      | some picked =>
        rw [hmore] at hrest
        simpa [hmore, hdraw] using hrest

/-- A draw is kept that is the number of unlocked outputs. -/
def HitsLocked (hist : Histogram) (size : Nat) (draws : List Nat) : Prop :=
  size < hist.unlockedCount ∧ size ≤ (kept hist draws).length ∧ hist.unlockedCount ∈ (kept hist draws).take size

instance (hist : Histogram) (size : Nat) (draws : List Nat) : Decidable (HitsLocked hist size draws) :=
  inferInstanceAs (Decidable (_ ∧ _ ∧ _))

theorem triangularPick_lt_iff {ε : Type} {hist : Histogram} (hcount : hist.unlockedCount ≤ hist.totalCount) (size : Nat)
    (draws : List Nat) :
    (∀ out rest, (triangularPick size hist draws : Except (PickError ε) _) = .ok (out, rest) →
      ∀ ref ∈ out, ref.index < hist.unlockedCount) ↔ ¬HitsLocked hist size draws := by
  have hkept := @triangularDraws_kept hist size draws
  unfold triangularPick
  rw [if_neg (not_lt.mpr hcount)]
  by_cases hfew : hist.unlockedCount < size
  · rw [if_pos hfew]
    exact iff_of_true (fun _ _ h => by cases h) fun h => absurd h.1 (by omega)
  by_cases hall : hist.unlockedCount = size
  · rw [if_neg hfew, if_pos hall]
    refine iff_of_true (fun out rest h => ?_) fun h => absurd h.1 (by omega)
    cases h
    rw [hall]
    exact pickAll_lt
  rw [if_neg hfew, if_neg hall]
  cases hdraws : triangularDraws hist size draws with
  | none =>
    rw [hdraws] at hkept
    exact iff_of_true (fun _ _ h => by cases h) fun h => absurd h.2.1 (not_le.mpr hkept)
  | some picked =>
    obtain ⟨out, rest⟩ := picked
    rw [hdraws] at hkept
    obtain ⟨hlength, hindexes⟩ := hkept
    constructor
    · intro h hhits
      rw [HitsLocked, ← hindexes] at hhits
      obtain ⟨ref, href, hindex⟩ := List.mem_map.mp hhits.2.2
      exact absurd (h out rest rfl ref href) (by omega)
    · intro hhits out' rest' hok ref href
      cases hok
      have hmem : ref.index ∈ (kept hist draws).take size := hindexes ▸ List.mem_map_of_mem href
      have hle : ref.index ≤ hist.unlockedCount := by
        simpa [kept] using (List.mem_filter.mp (List.mem_of_mem_take hmem)).2
      apply lt_of_le_of_ne hle
      intro heq
      exact hhits ⟨by omega, hlength, heq ▸ hmem⟩

/-- All that is proposed may be spent exactly when `triangular_pick` keeps no draw that is the
    number of unlocked outputs: the picker never proposes another, and never fails to find. -/
theorem proposed_spendable_iff {ε : Type} (hist : Histogram) (size : Nat) (draws : List Nat) (rctOffsets : List UInt64)
    (hcount : hist.unlockedCount ≤ hist.totalCount) (hvalid : Gamma.isValid rctOffsets = true)
    (hsorted : rctOffsets.Pairwise (· ≤ ·)) :
    ((∀ out rest, (triangularPick size hist draws : Except (PickError ε) _) = .ok (out, rest) →
        ∀ ref ∈ out, ref.index < hist.unlockedCount) ∧
      (∀ draws : Nat → Gamma.Draw,
        (∃ index, Gamma.pick rctOffsets draws = .ok index ∧ index < Gamma.spendableUpperBound rctOffsets) ∨
        Gamma.pick rctOffsets draws = .error .attempts ∧ ∀ i < 100, Gamma.Passed rctOffsets (draws i)) ∧
      ∀ (size : Nat) (calls : List (Nat → Gamma.Draw)) (out : List OutputRef) (rest : List Nat),
        (gammaPick size (Gamma.picker rctOffsets) (Gamma.returned rctOffsets calls) :
            Except (PickError ε) _) = .ok (out, rest) →
          ∀ ref ∈ out, ref.index < (Gamma.spendableUpperBound rctOffsets).toNat) ↔
    ¬HitsLocked hist size draws := by
  rw [triangularPick_lt_iff hcount]
  constructor
  · exact fun h => h.1
  · refine fun h => ⟨h, Gamma.pick_spendable hvalid hsorted, fun size calls out rest hpick => ?_⟩
    exact gammaPick_lt (Gamma.returned_lt hvalid hsorted calls) hpick

def twelveBlocks : List UInt64 := [0, 0, 2, 2, 5, 6, 6, 6, 9, 9, 9, 12]

/-- Two of three outputs that are unlocked are proposed, of four in all, and the picker is one
    for a chain of twelve blocks. -/
theorem proposed_spendable_below :
    ¬HitsLocked ⟨5, 4, 3⟩ 2 [4, 2, 0] ∧
    (∀ out rest, (triangularPick 2 ⟨5, 4, 3⟩ [4, 2, 0] : Except (PickError Unit) _) = .ok (out, rest) →
      ∀ ref ∈ out, ref.index < 3) ∧
    (∀ draws : Nat → Gamma.Draw,
      (∃ index, Gamma.pick twelveBlocks draws = .ok index ∧ index < Gamma.spendableUpperBound twelveBlocks) ∨
      Gamma.pick twelveBlocks draws = .error .attempts ∧ ∀ i < 100, Gamma.Passed twelveBlocks (draws i)) ∧
    ∀ (size : Nat) (calls : List (Nat → Gamma.Draw)) (out : List OutputRef) (rest : List Nat),
      (gammaPick size (Gamma.picker twelveBlocks) (Gamma.returned twelveBlocks calls) :
          Except (PickError Unit) _) = .ok (out, rest) →
        ∀ ref ∈ out, ref.index < (Gamma.spendableUpperBound twelveBlocks).toNat := by
  have hkept : ¬HitsLocked ⟨5, 4, 3⟩ 2 [4, 2, 0] := by decide
  exact ⟨hkept, (proposed_spendable_iff ⟨5, 4, 3⟩ 2 [4, 2, 0] twelveBlocks (by decide) (by decide +kernel)
    (by decide)).mpr hkept⟩

/-- The fourth output is locked, and is proposed where three of four are not. -/
theorem locked_proposed :
    ¬∀ (hist : Histogram) (size : Nat) (draws : List Nat), hist.unlockedCount ≤ hist.totalCount →
      (∀ draw ∈ draws, draw ≤ hist.totalCount) →
      ∀ out rest, (triangularPick size hist draws : Except (PickError Unit) _) = .ok (out, rest) →
        ∀ ref ∈ out, ref.index < hist.unlockedCount := by
  intro h
  have hindex := h ⟨5, 4, 3⟩ 1 [3] (by decide) (by decide) [⟨5, 3⟩] [] rfl ⟨5, 3⟩ (by decide)
  exact absurd hindex (by decide)

end Lws.Util
