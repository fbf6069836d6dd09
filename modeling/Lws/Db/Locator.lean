/-
  Lws.Db.Locator — the stored chain has no gap from the last checkpoint on, and the hashes
  sent to a daemon are found in it.

  `Rooted` holds in every reached state: genesis is stored, and every block above the last
  checkpoint follows a stored one. The heights `get_blocks_tail` looks up are then stored,
  whatever block it starts from (`getBlocksTail_ok`). `get_pow_sync` starts from the last
  proof of work, whose block is stored unless a rollback kept the proof of work of a block
  that it dropped (`CutsPows`, `dropped_pow_block`).
-/

import Lws.Db.Reorg
import Lws.Db.Pows

namespace Lws.Db

open Lws.Lmdb Lws.Transition

/-! ## The stored chain -/

structure Rooted (env : Env) (db : Storage) : Prop where
  genesis : ∀ hash, env.checkpoints.head? = some (0, hash) → ((), ⟨0, hash⟩) ∈ db.blocks
  contiguous : Contiguous env.maxHeight db.blocks

/-- Below a stored block there is no gap down to the last checkpoint. -/
theorem contiguous_stored {m : Nat} {blocks : Blocks} (hc : Contiguous m blocks) : ∀ {top height : Nat},
    HasBlock blocks top → m ≤ height → height ≤ top → HasBlock blocks height := by
  intro top
  induction top with
  | zero =>
    intro height htop _ hle
    rwa [Nat.le_zero.mp hle]
  | succ top ih =>
    intro height htop hm hle
    rcases Nat.eq_or_lt_of_le hle with rfl | hlt
    · exact htop
    · obtain ⟨b, hb, hid⟩ := htop
      obtain ⟨q, hq, hqid⟩ := hc _ hb (by dsimp only; omega)
      dsimp only at hqid
      exact ih ⟨q.2, hq, by omega⟩ hm (by omega)

theorem contiguous_filter {m n : Nat} {blocks : Blocks} (hc : Contiguous m blocks) :
    Contiguous m (blocks.filter fun x => decide (x.2.id < n)) := by
  intro b hb hlt
  obtain ⟨hb, hn⟩ := Table.mem_filter.mp hb
  obtain ⟨q, hq, hid⟩ := hc b hb hlt
  have := of_decide_eq_true hn
  exact ⟨q, Table.mem_filter.mpr ⟨hq, decide_eq_true (by omega)⟩, hid⟩

/-- Appending right after a stored block, or among stored ones, leaves no gap. -/
theorem contiguous_append {m first : Nat} {chain : List Hash} {blocks : Blocks} {last : Version × BlockInfo}
    (hc : Contiguous m blocks) (hlast : last ∈ blocks) (hfirst : first ≤ last.2.id + 1) :
    Contiguous m (appendBlockHashes first chain blocks) := by
  intro b hb hlt
  have hstored : HasBlock (appendBlockHashes first chain blocks) (b.2.id - 1) → _ := fun ⟨q, hq, hid⟩ =>
    (⟨((), q), hq, by dsimp only; omega⟩ : ∃ p ∈ appendBlockHashes first chain blocks, p.2.id + 1 = b.2.id)
  refine hstored (hasBlock_append.mpr ?_)
  rcases mem_appendBlockHashes_over.mp hb with ⟨hb, -⟩ | ⟨i, hi, hx⟩
  · obtain ⟨q, hq, hid⟩ := hc b hb hlt
    exact Or.inl ⟨q.2, hq, by omega⟩
  · have hlen := (List.getElem?_eq_some_iff.mp hx).1
    by_cases e : i = 0
    · exact Or.inl (contiguous_stored hc ⟨last.2, hlast, rfl⟩ (by omega) (by omega))
    · exact Or.inr ⟨by omega, by omega⟩

section Steps

variable {env : Env} {db db' : Storage}

theorem rooted_kept {height : Nat} {hashes : List Hash} {pow : List PowSync} {fork : Option Nat} {gap : Bool}
    {current : Nat}
    {kept : Blocks} (h : Rooted env db) (hext : Extends height hashes pow fork gap current kept db db') :
    Rooted env { db with blocks := kept } := by
  rcases hext.cut with ⟨-, rfl⟩ | ⟨-, n, hn, rfl⟩
  · exact h
  · refine ⟨fun hash hhead => Table.mem_filter.mpr ⟨h.genesis hash hhead, decide_eq_true ?_⟩, contiguous_filter h.contiguous⟩
    have := hext.above
    show 0 < n
    omega

theorem rooted_extends {height : Nat} {hashes : List Hash} {pow : List PowSync} {fork : Option Nat} {gap : Bool}
    {current : Nat} {kept : Blocks} (h : Rooted env db)
    (hext : Extends height hashes pow fork gap current kept db db') : Rooted env db' := by
  have hkept := rooted_kept h hext
  obtain ⟨b, hb, hreach, -, -, -⟩ := hext.last
  refine ⟨fun hash hhead => ?_, ?_⟩
  · rw [hext.blocks]
    refine mem_appendBlockHashes_over.mpr (Or.inl ⟨hkept.genesis hash hhead, fun e => ?_⟩)
    have := hext.above
    have := e.1
    dsimp only at this
    omega
  · rw [hext.blocks]
    exact contiguous_append hkept.contiguous hb hreach

/-- The block of every proof of work is stored, and that of genesis is there. -/
structure PowsRooted (db : Storage) : Prop where
  blocks : ∀ height, HasPow db.pows height → HasBlock db.blocks height
  genesis : HasPow db.pows 0

/-- A rollback drops the proofs of work of the blocks it drops, and not genesis. -/
structure CutsPows (db : Storage) (op : Op) : Prop where
  reach : ∀ fork ∈ op.forkAt db, PowsReach db.pows fork
  rolls : ∀ height ∈ op.rollsTo, 0 < height

theorem hasPow_cut {fork height : Nat} {pows : Pows} (hreach : PowsReach pows fork)
    (h : HasPow (rolledBackPows fork pows) height) : HasPow pows height ∧ height < fork := by
  refine ⟨(hasPow_rolledBack.mp h).1, ?_⟩
  obtain ⟨q, hq, rfl⟩ := h
  exact rolledBackPows_below.mpr hreach _ hq

theorem powsRooted_extends {height : Nat} {hashes : List Hash} {pow : List PowSync} {fork : Option Nat} {gap : Bool}
    {current : Nat} {kept : Blocks} (h : PowsRooted db) (hcut : ∀ f ∈ fork, PowsReach db.pows f)
    (hext : Extends height hashes pow fork gap current kept db db') : PowsRooted db' := by
  have habove := hext.above
  refine ⟨fun m hm => ?_, ?_⟩
  · rw [hext.pows] at hm
    rw [hext.blocks]
    refine hasBlock_append.mpr ?_
    rcases hasPow_appendPow.mp hm with hm | ⟨h1, h2⟩
    · refine Or.inl ?_
      rcases hext.cut with ⟨rfl, rfl⟩ | ⟨rfl, n, hn, rfl⟩
      · exact h.blocks m hm
      · obtain ⟨hm, hlt⟩ := hasPow_cut (hcut current rfl) hm
        obtain ⟨b, hb, hid⟩ := h.blocks m hm
        exact ⟨b, Table.mem_filter.mpr ⟨hb, decide_eq_true (by show b.id < n; omega)⟩, hid⟩
    · refine Or.inr ⟨h1, ?_⟩
      rw [List.length_drop] at h2 ⊢
      rcases hext.count with rfl | hc
      · simp at h2
        omega
      · omega
  · rw [hext.pows]
    refine hasPow_appendPow.mpr (Or.inl ?_)
    rcases hext.cut with ⟨rfl, -⟩ | ⟨rfl, -⟩
    · exact h.genesis
    · exact hasPow_rolledBack.mpr ⟨h.genesis, fun _ => by omega⟩

theorem rooted_run {op : Op} (h : Rooted env db) (hpos : ∀ height ∈ op.rollsTo, 0 < height)
    (hrun : op.run env db = .ok db') : Rooted env db' := by
  cases run_chainStep hrun with
  | kept hb hp => exact ⟨fun hash hhead => by rw [hb]; exact h.genesis hash hhead, by rw [hb]; exact h.contiguous⟩
  | @rolled height hrolls hfork hb hp =>
    refine ⟨fun hash hhead => ?_, by rw [hb]; exact contiguous_filter h.contiguous⟩
    rw [hb]
    exact Table.mem_filter.mpr ⟨h.genesis hash hhead, decide_eq_true (hpos height hrolls)⟩
  | extended hseg hpow hext => exact rooted_extends h hext

theorem powsRooted_run {op : Op} (h : PowsRooted db) (hok : CutsPows db op) (hrun : op.run env db = .ok db') :
    PowsRooted db' := by
  cases run_chainStep hrun with
  | kept hb hp => exact ⟨fun m hm => by rw [hb]; exact h.blocks m (hp ▸ hm), hp ▸ h.genesis⟩
  | @rolled height hrolls hfork hb hp =>
    refine ⟨fun m hm => ?_, ?_⟩
    · rw [hp] at hm
      obtain ⟨hm, hlt⟩ := hasPow_cut (hok.reach height hfork) hm
      obtain ⟨b, hmem, hid⟩ := h.blocks m hm
      rw [hb]
      exact ⟨b, Table.mem_filter.mpr ⟨hmem, decide_eq_true (by show b.id < height; omega)⟩, hid⟩
    · rw [hp]
      exact hasPow_rolledBack.mpr ⟨h.genesis, fun _ => hok.rolls height hrolls⟩
  | extended hseg hpow hext => exact powsRooted_extends h hok.reach hext

/-- The blocks of a new database: genesis and the last checkpoint. -/
theorem mem_fresh (hcp : env.Checked) {r : Version × BlockInfo} : r ∈ (fresh env).blocks ↔
    (∃ hash, env.checkpoints.head? = some (0, hash) ∧ r.2 = ⟨0, hash⟩) ∨
      ∃ c, env.checkpoints.getLast? = some c ∧ r.2 = ⟨c.1, c.2⟩ := by
  obtain ⟨hash, hhead⟩ := hcp.genesis
  have hasc := hcp.ascending
  unfold fresh
  rcases hpoints : env.checkpoints with _ | ⟨c, rest⟩
  · rw [hpoints] at hhead
    cases hhead
  · rw [hpoints] at hhead hasc
    cases hhead
    obtain ⟨u, b⟩ := r
    have hone : (u, b) ∈ (Table.empty : Blocks).put () ⟨0, hash⟩ ↔ b = ⟨0, hash⟩ := by
      rw [Table.mem_put]
      refine ⟨fun h => ?_, fun h => Or.inl (by rw [h])⟩
      rcases h with h | h
      · exact congrArg Prod.snd h
      · exact absurd h.1 (Table.not_mem_empty _)
    rcases hlast : rest.getLast? with _ | ⟨height, x⟩
    · rw [List.getLast?_eq_none_iff] at hlast
      subst hlast
      refine hone.trans ⟨fun h => Or.inl ⟨hash, rfl, h⟩, fun h => ?_⟩
      rcases h with ⟨y, hy, h⟩ | ⟨c, hc, h⟩
      · cases hy
        exact h
      · cases hc
        exact h
    · have hpos : 0 < height := (List.pairwise_cons.mp hasc).1 _ (List.mem_of_getLast? hlast)
      have hget : ((0, hash) :: rest).getLast? = some (height, x) := by
        rw [List.getLast?_cons, hlast]; rfl
      rw [hget]
      simp only [hlast]
      rw [Table.mem_put, hone]
      refine ⟨fun h => ?_, fun h => ?_⟩
      · rcases h with h | h
        · exact Or.inr ⟨_, rfl, congrArg Prod.snd h⟩
        · exact Or.inl ⟨hash, rfl, h.1⟩
      · rcases h with ⟨y, hy, h⟩ | ⟨c, hc, h⟩
        · cases hy
          refine Or.inr ⟨h, fun e => ?_⟩
          rw [show b = ⟨0, hash⟩ from h] at e
          exact absurd e.2 hpos.ne
        · cases hc
          exact Or.inl (by rw [show b = ⟨height, x⟩ from h])

theorem rooted_fresh (hcp : env.Checked) : Rooted env (fresh env) := by
  refine ⟨fun hash hhead => (mem_fresh hcp).mpr (Or.inl ⟨hash, hhead, rfl⟩), fun b hb hlt => ?_⟩
  rcases (mem_fresh hcp).mp hb with ⟨hash, -, he⟩ | ⟨c, hc, he⟩
  · rw [he] at hlt
    exact absurd hlt (Nat.not_lt_zero _)
  · unfold Env.maxHeight at hlt
    rw [he, hc] at hlt
    exact absurd hlt (lt_irrefl _)

theorem powsRooted_fresh (hcp : env.Checked) : PowsRooted (fresh env) :=
  have h := caughtUp_fresh hcp
  ⟨fun m hm => h.blocks m ((h.pows m).mp hm), (h.pows 0).mpr (Nat.le_refl _)⟩

theorem rooted_reached {ok : Storage → Op → Prop} (hcp : env.Checked)
    (hpos : ∀ db op, ok db op → ∀ height ∈ op.rollsTo, 0 < height) (h : Reached env ok db) : Rooted env db :=
  h.invariant (Rooted env) (rooted_fresh hcp) fun _ _ _ hu hok hrun => rooted_run hu (hpos _ _ hok) hrun

end Steps

/-! ## The hashes sent to a daemon -/

/-- Stored blocks of descending heights, from `start` down to genesis. -/
structure Locator (blocks : Blocks) (start : Nat) (out : List BlockInfo) : Prop where
  stored : ∀ b ∈ out, ((), b) ∈ blocks
  descending : out.Pairwise fun a b => b.id < a.id
  first : out.head?.map (·.id) = some start
  genesis : out.getLast?.map (·.id) = some 0
  length : out.length ≤ 76

/-- A part of it, not yet down to genesis. -/
structure Tail (blocks : Blocks) (start : Nat) (out : List BlockInfo) : Prop where
  stored : ∀ b ∈ out, ((), b) ∈ blocks
  descending : out.Pairwise fun a b => b.id < a.id
  first : out.head?.map (·.id) = some start

section Tail

variable {env : Env} {blocks : Blocks} {start : Nat} {out : List BlockInfo}

theorem Tail.ne_nil (h : Tail blocks start out) : out ≠ [] := by
  intro e
  have := h.first
  rw [e] at this
  cases this

@[simp] theorem backId_snoc (out : List BlockInfo) (b : BlockInfo) : backId (out ++ [b]) = b.id := by
  simp [backId]

theorem Tail.back_le (h : Tail blocks start out) : ∀ b ∈ out, backId out ≤ b.id := by
  obtain ⟨init, last, rfl⟩ := (List.eq_nil_or_concat' out).resolve_left h.ne_nil
  intro b hb
  rw [backId_snoc]
  rcases List.mem_append.mp hb with hb | hb
  · exact ((List.pairwise_append.mp h.descending).2.2 b hb last (List.mem_singleton_self _)).le
  · rw [List.mem_singleton.mp hb]

theorem Tail.snoc (h : Tail blocks start out) {b : BlockInfo} (hb : ((), b) ∈ blocks) (hlt : b.id < backId out) :
    Tail blocks start (out ++ [b]) := by
  refine ⟨fun x hx => ?_, ?_, ?_⟩
  · rcases List.mem_append.mp hx with hx | hx
    · exact h.stored x hx
    · rw [List.mem_singleton.mp hx]
      exact hb
  · refine List.pairwise_append.mpr ⟨h.descending, List.pairwise_singleton _ _, fun x hx y hy => ?_⟩
    rw [List.mem_singleton.mp hy]
    exact hlt.trans_le (h.back_le x hx)
  · rw [List.head?_append_of_ne_nil _ h.ne_nil]
    exact h.first

theorem Tail.back_mem (h : Tail blocks start out) : ∃ b ∈ out, b.id = backId out := by
  obtain ⟨init, last, rfl⟩ := (List.eq_nil_or_concat' out).resolve_left h.ne_nil
  exact ⟨last, List.mem_append_right _ (List.mem_singleton_self _), (backId_snoc _ _).symm⟩

theorem Tail.back_le_start (h : Tail blocks start out) : backId out ≤ start := by
  obtain ⟨b, hb, hid⟩ := Option.map_eq_some_iff.mp h.first
  rw [← hid]
  exact h.back_le b (List.mem_of_mem_head? hb)

theorem Tail.locator (h : Tail blocks start out) (hzero : backId out = 0) (hlen : out.length ≤ 76) :
    Locator blocks start out := by
  refine ⟨h.stored, h.descending, h.first, ?_, hlen⟩
  obtain ⟨init, last, rfl⟩ := (List.eq_nil_or_concat' out).resolve_left h.ne_nil
  rw [backId_snoc] at hzero
  simp [hzero]

theorem addBlock_ok {id : Nat} (hid : HasBlock blocks id) :
    ∃ b, addBlock blocks id out = .ok (out ++ [b]) ∧ b.id = id ∧ ((), b) ∈ blocks := by
  obtain ⟨b, hb, rfl⟩ := hid
  refine ⟨b, ?_, rfl, hb⟩
  unfold addBlock getBlockHash
  rw [require_ok.mpr ⟨hb, rfl⟩]
  rfl

theorem addIfBelow_ok {id : Nat} (h : Tail blocks start out) (hid : id < backId out → HasBlock blocks id) :
    ∃ out', addIfBelow blocks id out = .ok out' ∧ Tail blocks start out' ∧ out'.length ≤ out.length + 1 ∧
      (∀ b ∈ out, b ∈ out') ∧ (id ≤ backId out → backId out' = id) := by
  unfold addIfBelow
  by_cases e : id < backId out
  · obtain ⟨b, hadd, rfl, hb⟩ := @addBlock_ok blocks out _ (hid e)
    exact ⟨out ++ [b], by rw [if_pos e]; exact hadd, h.snoc hb e, by simp, fun x hx => List.mem_append_left _ hx,
      fun _ => backId_snoc _ _⟩
  · exact ⟨out, if_neg e, h, by omega, fun _ hb => hb, fun hle => by omega⟩

/-- The blocks stored from the last one listed up to `start` are all listed. -/
def Lists (blocks : Blocks) (start : Nat) (out : List BlockInfo) : Prop :=
  ∀ b, ((), b) ∈ blocks → backId out ≤ b.id → b.id ≤ start → b ∈ out

/-- The first row is genesis, and the walk ends there. -/
theorem tailWalk_first (hgen : HasBlock blocks 0) (n : Nat) {cur : Cursor Version BlockInfo.id}
    {r : Version × BlockInfo} (ht : cur.table = blocks) (hr : cur.row? = some r) (hnone : cur.prevDup = none)
    (hmin : ∀ x ∈ cur.table, r.2.id ≤ x.2.id) : tailWalk (n + 1) cur out = .ok (out ++ [r.2], true) ∧ r.2.id = 0 := by
  obtain ⟨g, hmem, hid⟩ := hgen
  have hle : r.2.id ≤ g.id := hmin _ (ht ▸ hmem)
  have hzero : r.2.id = 0 := by omega
  unfold tailWalk
  exact ⟨by simp [hr, hnone, hzero], hzero⟩

/-- The walk lists the blocks below the cursor, with no gap, and ends early at genesis. -/
theorem tailWalk_ok (hgen : HasBlock blocks 0) :
    ∀ (n : Nat) {cur : Cursor Version BlockInfo.id} {r : Version × BlockInfo}
    {out : List BlockInfo}, cur.table = blocks → cur.gone = none → cur.row? = some r → Tail blocks start (out ++ [r.2]) →
    Lists blocks start (out ++ [r.2]) → ∃ out' done, tailWalk (n + 1) cur out = .ok (out', done) ∧ Tail blocks start out' ∧
      Lists blocks start out' ∧ out'.length ≤ out.length + n + 1 ∧ (done = true → backId out' = 0) := by
  intro n
  induction n with
  | zero =>
    intro cur r out ht hg hr htail hlists
    rcases prevDup_row hg hr with ⟨hnone, hmin⟩ | ⟨cur', m, hsome, -⟩
    · obtain ⟨hwalk, hzero⟩ := tailWalk_first hgen 0 ht hr hnone hmin
      exact ⟨_, _, hwalk, htail, hlists, by simp, fun _ => by rw [backId_snoc, hzero]⟩
    · exact ⟨out ++ [r.2], false, by simp [hr, hsome, tailWalk], htail, hlists, by simp, fun e => by cases e⟩
  | succ n ih =>
    intro cur r out ht hg hr htail hlists
    rcases prevDup_row hg hr with ⟨hnone, hmin⟩ | ⟨cur', m, hsome, ht', hg', hr', hm, hlt, hgap⟩
    · obtain ⟨hwalk, hzero⟩ := tailWalk_first hgen (n + 1) ht hr hnone hmin
      exact ⟨_, _, hwalk, htail, hlists, by simp, fun _ => by rw [backId_snoc, hzero]⟩
    · have htail' : Tail blocks start (out ++ [r.2] ++ [m.2]) :=
        htail.snoc (ht ▸ hm) (by rw [backId_snoc]; exact hlt)
      have hlists' : Lists blocks start (out ++ [r.2] ++ [m.2]) := by
        intro b hb hle hstart
        rw [backId_snoc] at hle
        rcases hgap _ (ht ▸ hb) with h | h
        · have he : b = m.2 := Table.unique_val hb (ht ▸ hm : m ∈ blocks) (Nat.le_antisymm h hle)
          rw [he]
          exact List.mem_append_right _ (List.mem_singleton_self _)
        · exact List.mem_append_left _ (hlists b hb (by rw [backId_snoc]; exact h) hstart)
      obtain ⟨out', done, hwalk, hrest⟩ := ih (ht'.trans ht) hg' hr' htail' hlists'
      refine ⟨out', done, ?_, hrest.1, hrest.2.1, ?_, hrest.2.2.2⟩
      · unfold tailWalk
        simp only [hr, hsome]
        exact hwalk
      · have := hrest.2.2.1
        simp only [List.length_append, List.length_singleton] at this
        omega

theorem tailOffset_pow : ∀ i < 30, tailOffset i = 2 ^ (i + 1) := by decide

theorem tailOffset_wraps : tailOffset 30 = 2 ^ 64 - 2 ^ 31 := by decide

/-- The jumps below `anchor` double, and end before the shift overflows. -/
theorem tailJumps_ok {m anchor : Nat} (hc : Contiguous m blocks) (hanchor : HasBlock blocks anchor)
    (hlow : anchor < 2 ^ 64 - 2 ^ 31) : ∀ (n i : Nat) {out : List BlockInfo}, 1 ≤ i → i ≤ 30 → Tail blocks start out →
    anchor < backId out + 2 ^ (i + 1) → (m ≤ anchor → m ≤ backId out) → ∃ out', tailJumps blocks m anchor n i out = .ok out' ∧
      Tail blocks start out' ∧ out'.length ≤ out.length + n ∧ (∀ b ∈ out, b ∈ out') ∧ (m ≤ anchor → m ≤ backId out') := by
  intro n
  induction n with
  | zero =>
    intro i out _ _ htail _ hback
    exact ⟨out, rfl, htail, Nat.le_refl _, fun _ hb => hb, hback⟩
  | succ n ih =>
    intro i out hone hi htail hlt hback
    unfold tailJumps
    by_cases hstop : anchor < tailOffset i ∨ anchor - tailOffset i < m
    · exact ⟨out, if_pos hstop, htail, by omega, fun _ hb => hb, hback⟩
    · rw [not_or, Nat.not_lt, Nat.not_lt] at hstop
      obtain ⟨hoff, hm⟩ := hstop
      rcases Nat.eq_or_lt_of_le hi with rfl | hi
      · rw [tailOffset_wraps] at hoff
        omega
      · rw [tailOffset_pow i hi] at hoff hm ⊢
        have hstored := contiguous_stored hc hanchor hm (Nat.sub_le _ _)
        obtain ⟨b, hadd, hid, hb⟩ := @addBlock_ok blocks out _ hstored
        have hpos := Nat.two_pow_pos i
        have hdouble : 2 ^ (i + 1 + 1) = 2 * 2 ^ (i + 1) := by rw [Nat.pow_succ]; omega
        have htail' := htail.snoc hb (by omega)
        obtain ⟨out', hrest, htail'', hlen, hsub, hback'⟩ := ih (i + 1) (by omega) (by omega) htail'
          (by rw [backId_snoc]; omega) (fun _ => by rw [backId_snoc]; omega)
        refine ⟨out', ?_, htail'', ?_, fun x hx => hsub x (List.mem_append_left _ hx), hback'⟩
        · rw [if_neg (by omega)]
          simp only [hadd, bind, Except.bind]
          exact hrest
        · simp only [List.length_append, List.length_singleton] at hlen
          omega

/-- `get_blocks_tail` succeeds from any stored block, and its list has the last checkpoint
    unless it starts below. -/
theorem getBlocksTail_ok (hgen : HasBlock blocks 0) (hc : Contiguous env.maxHeight blocks)
    {cur : Cursor Version BlockInfo.id} {r : Version × BlockInfo} (ht : cur.table = blocks) (hg : cur.gone = none)
    (hr : cur.row? = some r) (hlow : r.2.id < 2 ^ 64 - 2 ^ 31) :
    ∃ out, getBlocksTail env cur 64 = .ok out ∧ Locator blocks r.2.id out ∧
      (env.maxHeight ≤ r.2.id → ∃ b ∈ out, b.id = env.maxHeight) := by
  have hrmem : r ∈ blocks := ht ▸ List.mem_of_getElem? hr
  have hstart : Tail blocks r.2.id ([] ++ [r.2]) :=
    ⟨fun b hb => by rw [List.mem_singleton.mp hb]; exact hrmem, List.pairwise_singleton _ _, rfl⟩
  have hlists : Lists blocks r.2.id ([] ++ [r.2]) := by
    intro b hb hle hge
    rw [backId_snoc] at hle
    rw [Table.unique_val hb (show ((), r.2) ∈ blocks from hrmem) (Nat.le_antisymm hge hle)]
    exact List.mem_singleton_self _
  obtain ⟨out, done, hwalk, htail, hall, hlen, hdone⟩ := tailWalk_ok hgen 9 ht hg hr hstart hlists
  have hpassed : env.maxHeight ≤ r.2.id → backId out ≤ env.maxHeight → ∃ b ∈ out, b.id = env.maxHeight := by
    intro habove hback
    obtain ⟨b, hb, hid⟩ := contiguous_stored hc ⟨r.2, hrmem, rfl⟩ (Nat.le_refl _) habove
    exact ⟨b, hall b hb (by omega) (by omega), hid⟩
  unfold getBlocksTail
  simp only [show tailWalk 10 cur [] = _ from hwalk, bind, Except.bind]
  simp only [List.length_nil, Nat.zero_add] at hlen
  cases done with
  | true =>
    have hzero := hdone rfl
    exact ⟨out, rfl, htail.locator hzero (by omega), fun habove => hpassed habove (by omega)⟩
  | false =>
    obtain ⟨last, hlast, hback⟩ := htail.back_mem
    have hanchor : HasBlock blocks (backId out) := ⟨last, htail.stored last hlast, hback⟩
    have hle := htail.back_le_start
    obtain ⟨out₁, hjumps, htail₁, hlen₁, hsub₁, hback₁⟩ :=
      tailJumps_ok hc hanchor (by omega) 64 1 (Nat.le_refl _) (by omega) htail (by omega) fun h => h
    obtain ⟨out₂, hcheck, htail₂, hlen₂, hsub₂, hback₂⟩ := addIfBelow_ok htail₁ fun hlt => by
      obtain ⟨b, hb, hid⟩ := htail₁.back_mem
      exact contiguous_stored hc ⟨b, htail₁.stored b hb, hid⟩ (Nat.le_refl _) hlt.le
    obtain ⟨out₃, hzero, htail₃, hlen₃, hsub₃, hback₃⟩ := addIfBelow_ok htail₂ fun _ => hgen
    simp only [Bool.false_eq_true, if_false, ht, hjumps, hcheck]
    refine ⟨out₃, hzero, htail₃.locator (hback₃ (Nat.zero_le _)) (by omega), fun habove => ?_⟩
    by_cases e : env.maxHeight ≤ backId out
    · obtain ⟨b, hb, hid⟩ := htail₂.back_mem
      exact ⟨b, hsub₃ b hb, hid.trans (hback₂ (hback₁ e))⟩
    · obtain ⟨b, hb, hid⟩ := hpassed habove (by omega)
      exact ⟨b, hsub₃ b (hsub₂ b (hsub₁ b hb)), hid⟩

end Tail

/-! ## Over whole runs -/

variable {env : Env} {db : Storage}

theorem Rooted.hasGenesis (h : Rooted env db) (hcp : env.Checked) : HasBlock db.blocks 0 := by
  obtain ⟨hash, hhead⟩ := hcp.genesis
  exact ⟨_, h.genesis hash hhead, rfl⟩

theorem getBlocks_ok (hcp : env.Checked) (h : Rooted env db) (hlow : ∀ b ∈ db.blocks, b.2.id < 2 ^ 64 - 2 ^ 31) :
    ∃ tip out, (∃ b ∈ db.blocks, b.2.id = tip) ∧ (∀ b ∈ db.blocks, b.2.id ≤ tip) ∧
      getBlocks env db.blocks 64 = .ok out ∧ Locator db.blocks tip out ∧
      (env.maxHeight ≤ tip → ∃ b ∈ out, b.id = env.maxHeight) := by
  have hgen := h.hasGenesis hcp
  obtain ⟨g, hg, -⟩ := id hgen
  obtain ⟨cur, hc⟩ := set_of_mem hg
  obtain ⟨ht, hgone, last, hrow, hmem, hmax⟩ := lastDup_row hc
  obtain ⟨out, hout, hloc, hcheck⟩ := getBlocksTail_ok hgen h.contiguous ht hgone hrow (hlow last hmem)
  refine ⟨last.2.id, out, ⟨last, hmem, rfl⟩, hmax, ?_, hloc, hcheck⟩
  unfold getBlocks
  rw [hc]
  exact hout

/-- In every reached state genesis is stored and so is every height from the last
    checkpoint to the last block, and `get_chain_sync` and `get_pow_sync` succeed. -/
theorem chain_rooted (hcp : env.Checked) (h : Reached env CutsPows db)
    (hlow : ∀ b ∈ db.blocks, b.2.id < 2 ^ 64 - 2 ^ 31) :
    (∀ hash, env.checkpoints.head? = some (0, hash) → ((), ⟨0, hash⟩) ∈ db.blocks) ∧
    (∀ b ∈ db.blocks, ∀ height, env.maxHeight ≤ height → height ≤ b.2.id → HasBlock db.blocks height) ∧
    (∃ tip out, (∃ b ∈ db.blocks, b.2.id = tip) ∧ (∀ b ∈ db.blocks, b.2.id ≤ tip) ∧
      db.getChainSync env = .ok (out.map (·.hash)) ∧ Locator db.blocks tip out) ∧
    ∃ last out, HasPow db.pows last ∧ (∀ height, HasPow db.pows height → height ≤ last) ∧
      db.getPowSync env = .ok (out.map (·.hash)) ∧ Locator db.blocks last out := by
  have hrooted := rooted_reached hcp (fun _ _ hok => hok.rolls) h
  have hpows : PowsRooted db :=
    h.invariant PowsRooted (powsRooted_fresh hcp) fun _ _ _ hu hok hrun => powsRooted_run hu hok hrun
  have hgen := hrooted.hasGenesis hcp
  refine ⟨hrooted.genesis, fun b hb height hm hle => contiguous_stored hrooted.contiguous ⟨b.2, hb, rfl⟩ hm hle, ?_, ?_⟩
  · obtain ⟨tip, out, hstored, hmax, hout, hloc, -⟩ := getBlocks_ok hcp hrooted hlow
    refine ⟨tip, out, hstored, hmax, ?_, hloc⟩
    unfold Storage.getChainSync
    rw [hout]
    rfl
  · obtain ⟨q, hq, -⟩ := id hpows.genesis
    obtain ⟨cur, hc⟩ := set_of_mem hq
    obtain ⟨-, -, last, hrow, hmem, hmax⟩ := lastDup_row hc
    have hlast : lastPowHeight db.pows = .ok last.2.id := by
      unfold lastPowHeight
      rw [hc]
      simp only [hrow]
    obtain ⟨b, hb, hid⟩ := hpows.blocks last.2.id ⟨last.2, hmem, rfl⟩
    rcases hboth : db.blocks.getBoth () last.2.id with _ | bcur
    · have hnone := getBoth_none hboth
      rw [Table.get?_eq_some.mpr ⟨hb, hid⟩] at hnone
      cases hnone
    · obtain ⟨ht, hg, v, hv, hvmem, hvid⟩ := getBoth_some hboth
      obtain ⟨out, hout, hloc, -⟩ := getBlocksTail_ok hgen hrooted.contiguous ht hg hv (hlow _ hvmem)
      refine ⟨last.2.id, out, ⟨last.2, hmem, rfl⟩, fun m ⟨p, hp, hpid⟩ => hpid ▸ hmax _ hp, ?_, ?_⟩
      · unfold Storage.getPowSync getBlocksFromHeight
        simp only [hlast, bind, Except.bind, hboth]
        rw [show min 64 64 = 64 from rfl, hout]
      · rwa [show ((), v).2.id = last.2.id from hvid] at hloc

instance (pows : Pows) (fork : Nat) : Decidable (PowsReach pows fork) :=
  inferInstanceAs (Decidable ((∃ r ∈ pows, r.2.id = fork) ∨ ∀ r ∈ pows, r.2.id < fork))

instance (db : Storage) (op : Op) : Decidable (CutsPows db op) :=
  decidable_of_iff ((∀ fork ∈ op.forkAt db, PowsReach db.pows fork) ∧ ∀ height ∈ op.rollsTo, 0 < height)
    ⟨fun h => ⟨h.1, h.2⟩, fun h => ⟨h.reach, h.rolls⟩⟩

/-- Block 3 is synced from the checkpoint, then everything with proofs of work, and then
    it is replaced. -/
def rootedOps : List Op :=
  [.syncChain 2 [102, 103] false, .syncPow 0 [100, 101, 102, 103] (samplePow 4), .syncChain 2 [102, 203, 204] false]

theorem chain_rooted_sample : ∃ out, (Op.runs checkpointEnv rootedOps).getPowSync checkpointEnv =
    .ok (out.map (·.hash)) ∧
    Locator (Op.runs checkpointEnv rootedOps).blocks 2 out := by
  have hcp : checkpointEnv.Checked := ⟨⟨100, rfl⟩, by decide⟩
  have hlow : ∀ b ∈ (Op.runs checkpointEnv rootedOps).blocks, b.2.id < 2 ^ 64 - 2 ^ 31 := by decide
  obtain ⟨-, -, -, last, out, hlast, hmax, hout, hloc⟩ := chain_rooted hcp (reached_runs (by decide)) hlow
  have htwo : last = 2 := by
    have hle : 2 ≤ last := hmax 2 (by decide)
    have hnot : ∀ r ∈ (Op.runs checkpointEnv rootedOps).pows, r.2.id ≤ 2 := by decide
    obtain ⟨p, hp, rfl⟩ := hlast
    exact Nat.le_antisymm (hnot _ hp) hle
  exact ⟨out, hout, htwo ▸ hloc⟩

/-- The proof of work of block 4 is left when blocks 2 to 4 are dropped, and there is no
    block to start from. -/
theorem dropped_pow_block :
    Reached sampleEnv (fun _ op => ∀ height ∈ op.rollsTo, 0 < height) (Op.runs sampleEnv (powGapOps ++ [.rollback 2])) ∧
      ((Op.runs sampleEnv (powGapOps ++ [.rollback 2])).getPowSync sampleEnv).isOk = false :=
  ⟨reached_runs (by decide), by decide⟩

end Lws.Db
