/-
  Lws.Rpc.FeedLoss — messages of the scanner that a feed connection does not receive.

  A connection notices a loss at the next update of blocks, by the height it begins at
  (`loss_noticed`). An update of the pool is accepted whatever was lost, and so is the first
  update of blocks. A warning is no part of this: one that parses is answered with an error
  that is none (`warning_not_forwarded`).
-/

import Lws.Rpc.FeedRuns

namespace Lws.Rpc.Feed

open Lws.Db

/-- A message published for the account, and when it reached the connection if it did. -/
abbrev Delivery := Published × Option Moment

def missed : Prepared := .message (prepError .missedMessages)

/-- Over what is published after a login: a message that arrives is answered with
    `missed_messages` exactly when one was lost since the last that was accepted, and a
    warning that is not answered so is forwarded. `lost` is whether one was lost before. -/
def LossExact : Bool → ConnectionSync → List Delivery → Prop
  | _, _, [] => True
  | _, sync, (_, none) :: rest => LossExact true sync rest
  | lost, sync, (p, some m) :: rest =>
    ((prepUpdate m p.source sync).1 = missed ↔ lost = true) ∧
      (∀ w, p = .warning w → (prepUpdate m p.source sync).1 ≠ missed →
        (prepUpdate m p.source sync).1 = .message (.warning w)) ∧
      LossExact (lost && decide ((prepUpdate m p.source sync).1 = missed)) (prepUpdate m p.source sync).2 rest

def Published.block? : Published → Option Update
  | .warning _ => none
  | .update _ u => if u.newHeight ≠ txpool then some u else none

def beforeLoss (deliveries : List Delivery) : List Delivery := deliveries.takeWhile (·.2.isSome)

def fromLoss (deliveries : List Delivery) : List Delivery := deliveries.dropWhile (·.2.isSome)

def deliveredBlocks (deliveries : List Delivery) : List Update := deliveries.filterMap fun d => d.1.block?

/-- The messages for which the detection of losses is exact; `earlier` is the update of blocks
    accepted before them, if any. -/
structure Noticed (earlier : Option Update) (deliveries : List Delivery) : Prop where
  noWarning : ∀ d ∈ deliveries, d.2.isSome = true → ∀ w, d.1 ≠ .warning w
  consecutive : (earlier.toList ++ deliveredBlocks (beforeLoss deliveries)).IsChain fun u v => u.newHeight = v.oldHeight
  later : ∀ d ∈ fromLoss deliveries, d.2.isSome = true →
    ∃ u v, d.1.block? = some u ∧ (earlier.toList ++ deliveredBlocks (beforeLoss deliveries)).getLast? = some v ∧
      u.oldHeight ≠ v.newHeight

/-- An update is answered with `missed_messages` exactly when it is one of blocks at another
    height than the last. -/
theorem prepUpdate_eq_missed {m : Moment} {p : Published} {sync : ConnectionSync} :
    (prepUpdate m p.source sync).1 = missed ↔
      ∃ u, p.block? = some u ∧ sync.height ≠ txpool ∧ sync.height ≠ u.oldHeight := by
  cases p with
  | warning w =>
    refine iff_of_false (fun h => ?_) (fun ⟨u, h, _⟩ => by cases h)
    simp only [Published.source, prepUpdate_warning] at h
    split at h
    · cases h
    · cases h
  | update address u =>
    by_cases hn : u.newHeight = txpool
    · refine iff_of_false (fun h => ?_) (fun ⟨v, h, _⟩ => by simp [Published.block?, hn] at h)
      have := prepUpdate_isError (misses_mempool hn) h
      cases this
    · have hb : (Published.update address u).block? = some u := by simp [Published.block?, hn]
      simp only [hb, Option.some.injEq, exists_eq_left', ← misses_blocks hn]
      constructor
      · intro h
        by_contra hm
        have := prepUpdate_isError (Bool.eq_false_iff.mpr hm) h
        cases this
      · intro h
        rw [Published.source, prepUpdate_misses h]
        rfl

theorem prepUpdate_eq_missed_sync {m : Moment} {p : Published} {sync : ConnectionSync}
    (h : (prepUpdate m p.source sync).1 = missed) : (prepUpdate m p.source sync).2 = sync := by
  obtain ⟨u, hb, hh⟩ := prepUpdate_eq_missed.mp h
  cases p with
  | warning w => cases hb
  | update address v =>
    have hn : v.newHeight ≠ txpool := by
      intro hn
      simp [Published.block?, hn] at hb
    obtain rfl : v = u := by simpa [Published.block?, hn] using hb
    rw [Published.source, prepUpdate_misses ((misses_blocks hn).mpr hh)]

/-- After a loss all that arrives must be updates of blocks at another height. -/
theorem lossExact_lost {deliveries : List Delivery} {sync : ConnectionSync} :
    LossExact true sync deliveries ↔ ∀ d ∈ deliveries, d.2.isSome = true →
      ∃ u, d.1.block? = some u ∧ sync.height ≠ txpool ∧ sync.height ≠ u.oldHeight := by
  induction deliveries with
  | nil => simp [LossExact]
  | cons d rest ih =>
    obtain ⟨p, _ | m⟩ := d
    · simp [LossExact, ih]
    · rw [List.forall_mem_cons, ← ih]
      constructor
      · rintro ⟨hm, -, hrest⟩
        have hmiss := hm.mpr rfl
        rw [prepUpdate_eq_missed_sync hmiss, hmiss] at hrest
        exact ⟨fun _ => prepUpdate_eq_missed.mp hmiss, hrest⟩
      · rintro ⟨hd, hrest⟩
        have hmiss : (prepUpdate m p.source sync).1 = missed := prepUpdate_eq_missed.mpr (hd rfl)
        refine ⟨iff_of_true hmiss rfl, fun w _ h => absurd hmiss h, ?_⟩
        rw [prepUpdate_eq_missed_sync hmiss, hmiss]
        exact hrest

/-- Without a loss, a message that arrives must be accepted, and a warning cannot be. -/
theorem lossExact_arrives {m : Moment} {p : Published} {rest : List Delivery} {sync : ConnectionSync} :
    LossExact false sync ((p, some m) :: rest) ↔
      (prepUpdate m p.source sync).1 ≠ missed ∧ (∀ w, p ≠ .warning w) ∧
        LossExact false (prepUpdate m p.source sync).2 rest := by
  simp only [LossExact, Bool.false_eq_true, iff_false, Bool.false_and]
  refine and_congr_right fun hm => and_congr_left fun _ => ?_
  constructor
  · rintro h w rfl
    have hw := h w rfl hm
    simp only [Published.source, prepUpdate_warning] at hw
    split at hw
    · cases hw
    · cases hw
  · intro h w hw
    exact absurd hw (h w)

/-- An update of blocks that is accepted is the last one, also when the database fails. -/
theorem prepUpdate_height {m : Moment} {u : Update} {sync : ConnectionSync} (hn : u.newHeight ≠ txpool)
    (h : sync.misses (.update (.ok u)) = false) :
    (prepUpdate m (.update (.ok u)) sync).2.height = u.newHeight := by
  rw [prepUpdate_blocks hn h]
  split
  · rfl
  · unfold prepBlocks
    split
    · rfl
    · rfl

section Noticed

variable {earlier : Option Update} {p : Published} {m : Moment} {rest : List Delivery}

@[simp] theorem deliveredBlocks_lost : deliveredBlocks (beforeLoss ((p, none) :: rest)) = [] := rfl

@[simp] theorem deliveredBlocks_arrives : deliveredBlocks (beforeLoss ((p, some m) :: rest)) =
    p.block?.toList ++ deliveredBlocks (beforeLoss rest) := by
  cases h : p.block? with
  | none => simp [deliveredBlocks, beforeLoss, h]
  | some u => simp [deliveredBlocks, beforeLoss, h]

@[simp] theorem fromLoss_lost : fromLoss ((p, none) :: rest) = (p, none) :: rest := rfl

@[simp] theorem fromLoss_arrives : fromLoss ((p, some m) :: rest) = fromLoss rest := rfl

@[simp] theorem getLast?_toList (o : Option Update) : o.toList.getLast? = o := by
  cases o <;> rfl

@[simp] theorem isChain_toList {R : Update → Update → Prop} (o : Option Update) : o.toList.IsChain R := by
  cases o <;> simp

theorem noticed_lost : Noticed earlier ((p, none) :: rest) ↔ ∀ d ∈ rest, d.2.isSome = true →
    ∃ u v, d.1.block? = some u ∧ earlier = some v ∧ u.oldHeight ≠ v.newHeight := by
  constructor
  · intro h d hd hs
    simpa using h.later d (List.mem_cons_of_mem _ hd) hs
  · intro h
    refine ⟨?_, by simp, ?_⟩
    · rintro d hd hs w hw
      rcases List.mem_cons.mp hd with rfl | hd
      · cases hs
      · obtain ⟨u, v, hu, -⟩ := h d hd hs
        rw [hw] at hu
        cases hu
    · rintro d hd hs
      rcases List.mem_cons.mp hd with rfl | hd
      · cases hs
      · simpa using h d hd hs

/-- A message of the pool that arrives before a loss makes no difference. -/
theorem noticed_mempool (hb : p.block? = none) (hw : ∀ w, p ≠ .warning w) :
    Noticed earlier ((p, some m) :: rest) ↔ Noticed earlier rest := by
  constructor
  · intro h
    refine ⟨fun d hd => h.noWarning d (List.mem_cons_of_mem _ hd), ?_, ?_⟩
    · simpa [hb] using h.consecutive
    · simpa [hb] using h.later
  · intro h
    refine ⟨fun d hd hs => ?_, ?_, ?_⟩
    · rcases List.mem_cons.mp hd with rfl | hd
      · exact hw
      · exact h.noWarning d hd hs
    · simpa [hb] using h.consecutive
    · simpa [hb] using h.later

/-- An update of blocks has to begin where the last one ended. -/
theorem noticed_block {u : Update} (hb : p.block? = some u) :
    Noticed earlier ((p, some m) :: rest) ↔ (∀ v ∈ earlier, v.newHeight = u.oldHeight) ∧ Noticed (some u) rest := by
  have hchain : (earlier.toList ++ u :: deliveredBlocks (beforeLoss rest)).IsChain (fun u v => u.newHeight = v.oldHeight) ↔
      (∀ v ∈ earlier, v.newHeight = u.oldHeight) ∧
        (u :: deliveredBlocks (beforeLoss rest)).IsChain fun u v => u.newHeight = v.oldHeight := by
    cases earlier with
    | none => simp
    | some v => simp
  have hlast : (earlier.toList ++ u :: deliveredBlocks (beforeLoss rest)).getLast? =
      (u :: deliveredBlocks (beforeLoss rest)).getLast? := by
    rw [List.getLast?_append]
    simp [List.getLast?_cons]
  constructor
  · intro h
    have hc := h.consecutive
    rw [deliveredBlocks_arrives, hb] at hc
    have hl := h.later
    rw [deliveredBlocks_arrives, hb] at hl
    refine ⟨(hchain.mp hc).1, fun d hd => h.noWarning d (List.mem_cons_of_mem _ hd), (hchain.mp hc).2, ?_⟩
    intro d hd hs
    obtain ⟨x, y, hx, hy, hne⟩ := hl d hd hs
    exact ⟨x, y, hx, hlast ▸ hy, hne⟩
  · rintro ⟨he, h⟩
    refine ⟨fun d hd hs w hw => ?_, ?_, ?_⟩
    · rcases List.mem_cons.mp hd with rfl | hd
      · obtain rfl : p = .warning w := hw
        cases hb
      · exact h.noWarning d hd hs w hw
    · rw [deliveredBlocks_arrives, hb]
      exact hchain.mpr ⟨he, h.consecutive⟩
    · rw [deliveredBlocks_arrives, hb]
      intro d hd hs
      obtain ⟨x, y, hx, hy, hne⟩ := h.later d hd hs
      exact ⟨x, y, hx, hlast ▸ hy, hne⟩

end Noticed

/-- From any state of the connection: the detection is exact exactly for the messages that
    `Noticed` describes. -/
theorem lossExact_iff (deliveries : List Delivery) :
    ∀ (earlier : Option Update) (sync : ConnectionSync), (∀ v ∈ earlier, v.newHeight ≠ txpool) →
      sync.height = (earlier.map (·.newHeight)).getD txpool →
        (LossExact false sync deliveries ↔ Noticed earlier deliveries) := by
  induction deliveries with
  | nil =>
    intro earlier sync _ _
    refine iff_of_true trivial ⟨?_, ?_, ?_⟩
    · simp
    · simp [beforeLoss, deliveredBlocks]
    · simp [fromLoss]
  | cons d rest ih =>
    obtain ⟨p, _ | m⟩ := d
    · intro earlier sync hearlier hheight
      rw [noticed_lost]
      refine lossExact_lost.trans (forall₃_congr fun d hd hs => exists_congr fun u => ?_)
      cases earlier with
      | none => simp [hheight]
      | some v =>
        have hv := hearlier v rfl
        simp only [Option.map_some, Option.getD_some] at hheight
        simp [hheight, hv, eq_comm]
    · intro earlier sync hearlier hheight
      rw [lossExact_arrives]
      cases p with
      | warning w =>
        refine iff_of_false (fun h => h.2.1 w rfl) fun h => ?_
        exact h.noWarning _ List.mem_cons_self rfl w rfl
      | update address u =>
        by_cases hn : u.newHeight = txpool
        · have hb : (Published.update address u).block? = none := by simp [Published.block?, hn]
          have hm : (prepUpdate m (.update (.ok u)) sync).1 ≠ missed := by
            intro h
            obtain ⟨v, hv, -⟩ := (prepUpdate_eq_missed (p := .update address u)).mp h
            rw [hb] at hv
            cases hv
          have hsync : (prepUpdate m (.update (.ok u)) sync).2 = sync := by
            rw [prepUpdate_mempool hn]
            split <;> rfl
          rw [noticed_mempool hb (by simp), ← ih earlier sync hearlier hheight]
          simp [Published.source, hsync, hm]
        · have hb : (Published.update address u).block? = some u := by simp [Published.block?, hn]
          rw [noticed_block hb]
          have hmiss : (prepUpdate m (Published.update address u).source sync).1 ≠ missed ↔
              ∀ v ∈ earlier, v.newHeight = u.oldHeight := by
            rw [ne_eq, prepUpdate_eq_missed]
            cases earlier with
            | none => simp [hheight]
            | some v =>
              have hv := hearlier v rfl
              simp only [Option.map_some, Option.getD_some] at hheight
              simp [hb, hheight, hv]
          rw [hmiss]
          refine and_congr_right fun hch => ?_
          have hm : sync.misses (.update (.ok u)) = false := by
            rw [Bool.eq_false_iff, ne_eq, misses_blocks hn]
            have := hmiss.mpr hch
            rw [ne_eq, prepUpdate_eq_missed] at this
            simpa [hb] using this
          rw [← ih (some u) _ (by simpa using hn) (prepUpdate_height (m := m) hn hm)]
          simp [Published.source]

/-- After a login, for every run of the scanner and any of its messages that reach the
    connection: losses are detected exactly, and warnings forwarded, exactly when no warning
    arrives, the updates of blocks that arrive before the first loss follow on each other,
    and all that arrives after it are updates of blocks that begin at another height than
    the last of those ended at. -/
theorem loss_noticed (p : Publisher) (events : List PublishEvent) (address : AccountAddress) (id : Nat)
    (arrivals : List (Option Moment)) :
    LossExact false { ConnectionSync.init with id, warnings := p.warningCount }
        (((p.published events).filter (·.isFor address)).zip arrivals) ↔
      Noticed none (((p.published events).filter (·.isFor address)).zip arrivals) :=
  lossExact_iff _ none _ (by simp) rfl

def feedPublisher : Publisher := ⟨[sampleUser 3 [] []], 0⟩

def syncedEvents : List PublishEvent := [.pushWarning .blockchainReorg 3, .pushUpdates 5]

/-- Both messages arrive, and the warning is not forwarded. -/
theorem warning_not_forwarded :
    (prepUpdate feedMoment (.warning none ⟨ErrorCode.blockchainReorg.message, .blockchainReorg, 0, 3⟩)
        { ConnectionSync.init with id := 1, warnings := 0 }).1 = .failed invalidErrorCode ∧
      ¬ LossExact false { ConnectionSync.init with id := 1, warnings := 0 }
        (((feedPublisher.published syncedEvents).filter (·.isFor ⟨1007, 50⟩)).zip [some feedMoment, some feedMoment]) := by
  refine ⟨rfl, fun h => ?_⟩
  have hw := h.2.1 _ rfl (by decide +kernel)
  exact absurd hw (by decide +kernel)

/-! ## Without a loss -/

/-- The updates of blocks among what the account's connection reads. -/
def blocksFor (address : AccountAddress) (messages : List Published) : List Update :=
  (messages.filter (·.isFor address)).filterMap (·.block?)

def PublishEvent.Scans : PublishEvent → Prop
  | .pushUpdates newHeight => newHeight < txpool
  | .reload _ => False
  | _ => True

theorem blocksFor_append (address : AccountAddress) (xs ys : List Published) :
    blocksFor address (xs ++ ys) = blocksFor address xs ++ blocksFor address ys := by
  simp [blocksFor]

theorem block?_updateOf {address : AccountAddress} {user : Lws.Account} {newHeight : Nat} (hn : newHeight < txpool) :
    (Published.update address (updateOf user newHeight)).block? = some (updateOf user newHeight) := by
  simp [Published.block?, updateOf, hn.ne]

theorem blocksFor_pushUpdates {user : Lws.Account} {newHeight : Nat} (hn : newHeight < txpool)
    (users : List Lws.Account) (hnodup : (users.map (·.address)).Nodup) (hmem : user ∈ users) :
    blocksFor user.address ((users.filter fun u => !decide (newHeight < u.scanHeight)).map fun u =>
        .update u.address (updateOf u newHeight)) =
      if newHeight < user.scanHeight then [] else [updateOf user newHeight] := by
  have hother : ∀ others : List Lws.Account, user.address ∉ others.map (·.address) →
      blocksFor user.address ((others.filter fun u => !decide (newHeight < u.scanHeight)).map fun u =>
        .update u.address (updateOf u newHeight)) = [] := by
    intro others hne
    simp only [blocksFor, List.filterMap_eq_nil_iff, List.mem_filter, List.mem_map]
    rintro x ⟨⟨u, ⟨hu, -⟩, rfl⟩, hx⟩
    exact absurd (List.mem_map.mpr ⟨u, hu, of_decide_eq_true hx⟩) hne
  induction users with
  | nil => cases hmem
  | cons v users ih =>
    rw [List.map_cons, List.nodup_cons] at hnodup
    rcases List.mem_cons.mp hmem with rfl | hmem
    · have hrest := hother users hnodup.1
      by_cases hlt : newHeight < user.scanHeight
      · simpa [hlt] using hrest
      · rw [List.filter_cons_of_pos (by simpa using hlt), List.map_cons, ← List.singleton_append, blocksFor_append, hrest]
        simp [blocksFor, Published.isFor, block?_updateOf hn, hlt]
    · have hne : v.address ≠ user.address := by
        intro h
        exact hnodup.1 (h ▸ List.mem_map.mpr ⟨user, hmem, rfl⟩)
      rw [← ih hnodup.2 hmem]
      by_cases hlt : newHeight < v.scanHeight
      · simp [hlt]
      · rw [List.filter_cons_of_pos (by simpa using hlt), List.map_cons, ← List.singleton_append, blocksFor_append]
        simp [blocksFor, Published.isFor, hne]

/-- A scanner that is not restarted publishes updates that follow on each other, from the
    height of the account on. -/
theorem published_consecutive (events : List PublishEvent) :
    ∀ (p : Publisher) (user : Lws.Account), (∀ e ∈ events, e.Scans) → (p.users.map (·.address)).Nodup → user ∈ p.users →
      (blocksFor user.address (p.published events)).IsChain (fun u v => u.newHeight = v.oldHeight) ∧
        ∀ u ∈ (blocksFor user.address (p.published events)).head?, u.oldHeight = user.scanHeight := by
  induction events with
  | nil =>
    intro p user _ _ _
    simp [Publisher.published, blocksFor]
  | cons e events ih =>
    intro p user hscan hnodup hmem
    have hrest : ∀ e ∈ events, e.Scans := fun x hx => hscan x (List.mem_cons_of_mem _ hx)
    rw [Publisher.published, blocksFor_append]
    cases e with
    | pushUpdates newHeight =>
      have hn : newHeight < txpool := hscan _ List.mem_cons_self
      have hmap : ∀ f : Lws.Account → Lws.Account, (∀ u, (f u).address = u.address) →
          (p.users.map f).map (·.address) = p.users.map (·.address) := by
        intro f hf
        simp [Function.comp_def, hf]
      have hnodup' : ((pushUpdates true newHeight p.users).map (·.address)).Nodup := by
        rw [pushUpdates, hmap]
        · exact hnodup
        · intro u
          split <;> rfl
      have hfirst := blocksFor_pushUpdates hn p.users hnodup hmem
      rw [Publisher.publish, hfirst]
      by_cases hlt : newHeight < user.scanHeight
      · have hmem' : user ∈ pushUpdates true newHeight p.users := List.mem_map.mpr ⟨user, hmem, by simp [hlt]⟩
        simpa [hlt] using ih { p with users := pushUpdates true newHeight p.users } user hrest hnodup' hmem'
      · have hmem' : user.updated newHeight ∈ pushUpdates true newHeight p.users :=
          List.mem_map.mpr ⟨user, hmem, by simp [hlt]⟩
        obtain ⟨hchain, hhead⟩ := ih { p with users := pushUpdates true newHeight p.users } (user.updated newHeight) hrest
          hnodup' hmem'
        have hmax : max user.scanHeight newHeight = newHeight := max_eq_right (Nat.not_lt.mp hlt)
        simp only [hlt, if_false, List.singleton_append, List.isChain_cons]
        refine ⟨⟨fun v hv => ?_, hchain⟩, by simp [updateOf]⟩
        have := hhead v hv
        rw [Account.updated, hmax] at this
        exact this.symm
    | pushUpdate address receive =>
      have hfirst : blocksFor user.address (p.publish (.pushUpdate address receive)).1 = [] := by
        simp [Publisher.publish, blocksFor, Published.block?, mempoolReceive]
      rw [hfirst, List.nil_append]
      exact ih p user hrest hnodup hmem
    | pushWarning error height =>
      have hfirst : blocksFor user.address (p.publish (.pushWarning error height)).1 = [] := by
        simp [Publisher.publish, blocksFor, Published.block?]
      rw [hfirst, List.nil_append]
      exact ih { p with warningCount := p.warningCount + 1 } user hrest hnodup hmem
    | reload users => exact (hscan _ List.mem_cons_self).elim

theorem beforeLoss_zip (messages : List Published) :
    ∀ moments : List Moment, beforeLoss (messages.zip (moments.map some)) = messages.zip (moments.map some) ∧
      fromLoss (messages.zip (moments.map some)) = [] ∧
      deliveredBlocks (messages.zip (moments.map some)) <+: messages.filterMap (·.block?) := by
  induction messages with
  | nil => simp [beforeLoss, fromLoss, deliveredBlocks]
  | cons p messages ih =>
    intro moments
    cases moments with
    | nil => simp [beforeLoss, fromLoss, deliveredBlocks]
    | cons m moments =>
      obtain ⟨hbefore, hfrom, hblocks⟩ := ih moments
      rw [List.map_cons, List.zip_cons_cons]
      refine ⟨?_, hfrom, ?_⟩
      · simpa [beforeLoss] using hbefore
      · cases hb : p.block? with
        | none => simpa [deliveredBlocks, hb] using hblocks
        | some u => simpa [deliveredBlocks, hb] using hblocks

/-- There is no false alarm while the scanner runs: without a loss, a restart or a warning,
    nothing is reported as missed. -/
theorem no_false_alarm (p : Publisher) (events : List PublishEvent) (user : Lws.Account) (sync : ConnectionSync)
    (moments : List Moment) (hsync : sync.height = txpool) (hscan : ∀ e ∈ events, e.Scans)
    (hnodup : (p.users.map (·.address)).Nodup) (hmem : user ∈ p.users)
    (hwarn : ∀ w, .warning w ∉ p.published events) :
    LossExact false sync (((p.published events).filter (·.isFor user.address)).zip (moments.map some)) := by
  obtain ⟨hbefore, hfrom, hblocks⟩ := beforeLoss_zip ((p.published events).filter (·.isFor user.address)) moments
  refine (lossExact_iff _ none sync (by simp) hsync).mpr ⟨?_, ?_, ?_⟩
  · intro d hd _ w hw
    have := (List.mem_filter.mp (List.of_mem_zip hd).1).1
    rw [hw] at this
    exact hwarn w this
  · rw [hbefore, Option.toList_none, List.nil_append]
    obtain ⟨_, ht⟩ := hblocks
    have hchain := (published_consecutive events p user hscan hnodup hmem).1
    rw [blocksFor, ← ht] at hchain
    exact hchain.left_of_append
  · rw [hfrom]
    simp

end Lws.Rpc.Feed
