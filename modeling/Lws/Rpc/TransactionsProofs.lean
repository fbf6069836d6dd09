/-
  Lws.Rpc.TransactionsProofs — what `merge_into_txes` gathers.

  Through the merge, `out` holds one transaction for each link passed so far, in order
  (`Gathered`): what a transaction is made of the rows passed is `txOf`. The rows still to
  come are not before the last link; those of one transaction come one after the other, its
  outputs first.

  `merge_into_txes_correct` takes the rows of a chain: the ids of the outputs differ and a
  transaction is at one height (`Coherent`). Without that, and with a mempool, the
  transactions are not one to one with the links (`merged_otherwise`).
-/

import Lws.Db.Operations
import Lws.Rpc.Transactions

namespace Lws.Rpc

open Lws.Db Lws.Lmdb Lws.Rpc.Feed

/-! ## Sums at 64 bits -/

theorem foldl_add64 : ∀ (amounts : List Nat) (start : Nat), amounts.foldl add64 start % 2 ^ 64 =
    (start + amounts.sum) % 2 ^ 64 := by
  intro amounts
  induction amounts with
  | nil => simp
  | cons amount amounts ih =>
    intro start
    rw [List.foldl_cons, ih, add64, List.sum_cons]
    omega

theorem foldl_add64_lt (amounts : List Nat) {start : Nat} (h : start < 2 ^ 64) :
    amounts.foldl add64 start < 2 ^ 64 := by
  induction amounts generalizing start with
  | nil => exact h
  | cons amount amounts ih => exact ih (Nat.mod_lt _ (by decide))

theorem sum64 (amounts : List Nat) : amounts.foldl add64 0 = amounts.sum % 2 ^ 64 := by
  have h := foldl_add64 amounts 0
  rwa [Nat.mod_eq_of_lt (foldl_add64_lt amounts (by decide)), Nat.zero_add] at h

/-! ## Metadata -/

section Metas

/-- The metadata of the outputs passed, in the order of their ids. -/
structure Metas (outputs : List Output) (metas : List SpendMeta) : Prop where
  sorted : metas.Pairwise fun a b => a.id < b.id
  mem : ∀ m, m ∈ metas ↔ ∃ o ∈ outputs, o.spendMeta = m

variable {metas : List SpendMeta} {m : SpendMeta} {id : OutputId}

theorem sourceMeta_of_mem (hsorted : metas.Pairwise fun a b => a.id < b.id) (hm : m ∈ metas) :
    sourceMeta metas m.id = some m := by
  unfold sourceMeta findMetadata
  induction metas with
  | nil => cases hm
  | cons first metas ih =>
    obtain ⟨hfirst, hrest⟩ := List.pairwise_cons.mp hsorted
    rcases List.mem_cons.mp hm with rfl | hm
    · simp
    · simpa [hfirst m hm] using ih hrest hm

theorem insertIdx_takeWhile {α : Type} (p : α → Bool) (a : α) : ∀ (xs : List α),
    xs.insertIdx (xs.takeWhile p).length a = xs.takeWhile p ++ a :: xs.dropWhile p := by
  intro xs
  induction xs with
  | nil => rfl
  | cons x xs ih =>
    cases hp : p x with
    | true => simp [hp, ih]
    | false => simp [hp]

theorem mem_addMeta {x : SpendMeta} : x ∈ addMeta metas m ↔ x ∈ metas ∨ x = m := by
  unfold addMeta
  split
  · simp
  · unfold findMetadata
    rw [insertIdx_takeWhile]
    have hsplit := List.mem_append (a := x) (s := metas.takeWhile fun y => decide (y.id < m.id))
      (t := metas.dropWhile fun y => decide (y.id < m.id))
    rw [List.takeWhile_append_dropWhile] at hsplit
    rw [List.mem_append, List.mem_cons, hsplit]
    tauto

theorem addMeta_sorted (hsorted : metas.Pairwise fun a b => a.id < b.id) (hnew : ∀ x ∈ metas, x.id ≠ m.id) :
    (addMeta metas m).Pairwise fun a b => a.id < b.id := by
  unfold addMeta
  split
  · rename_i hlast
    refine List.pairwise_append.mpr ⟨hsorted, List.pairwise_singleton _ _, fun x hx y hy => ?_⟩
    rw [List.mem_singleton.mp hy]
    rcases List.eq_nil_or_concat metas with rfl | ⟨init, last, rfl⟩
    · cases hx
    · rw [List.concat_eq_append] at hx hsorted hlast
      simp only [List.getLast?_append, List.getLast?_singleton, Option.some_or, Option.all_some,
        decide_eq_true_eq] at hlast
      rcases List.mem_append.mp hx with hx | hx
      · exact lt_trans ((List.pairwise_append.mp hsorted).2.2 x hx last (List.mem_singleton.mpr rfl)) hlast
      · rw [List.mem_singleton.mp hx]
        exact hlast
  · unfold findMetadata
    rw [insertIdx_takeWhile]
    have hparts := hsorted
    rw [← List.takeWhile_append_dropWhile (p := fun y : SpendMeta => decide (y.id < m.id)) (l := metas)] at hparts
    obtain ⟨hbelow, habove, hacross⟩ := List.pairwise_append.mp hparts
    have hunder : ∀ x ∈ metas.takeWhile (fun y => decide (y.id < m.id)), x.id < m.id := fun x hx => by
      simpa using List.mem_takeWhile_imp hx
    have hover : ∀ x ∈ metas.dropWhile (fun y => decide (y.id < m.id)), m.id < x.id := by
      intro x hx
      have hne := hnew x (List.dropWhile_sublist _ |>.subset hx)
      rcases hdrop : metas.dropWhile (fun y => decide (y.id < m.id)) with _ | ⟨first, rest⟩
      · rw [hdrop] at hx
        cases hx
      · have hfirst : ¬ first.id < m.id := by
          have := List.head_dropWhile_not (fun y : SpendMeta => decide (y.id < m.id)) (l := metas) (by rw [hdrop]; simp)
          simpa [hdrop] using this
        rw [hdrop] at hx habove
        rcases List.mem_cons.mp hx with rfl | hx
        · exact lt_of_le_of_ne (not_lt.mp hfirst) hne.symm
        · exact lt_of_le_of_lt (not_lt.mp hfirst) ((List.pairwise_cons.mp habove).1 x hx)
    refine List.pairwise_append.mpr ⟨hbelow, List.pairwise_cons.mpr ⟨hover, habove⟩, fun x hx y hy => ?_⟩
    rcases List.mem_cons.mp hy with rfl | hy
    · exact hunder x hx
    · exact lt_trans (hunder x hx) (hover y hy)

/-- The next output, of another id than those passed. -/
theorem Metas.add {outputs : List Output} {output : Output} (h : Metas outputs metas)
    (hnew : ∀ o ∈ outputs, o.spendMeta.id ≠ output.spendMeta.id) :
    Metas (outputs ++ [output]) (addMeta metas output.spendMeta) := by
  refine ⟨addMeta_sorted h.sorted fun x hx => ?_, fun x => ?_⟩
  · obtain ⟨o, ho, rfl⟩ := (h.mem x).mp hx
    exact hnew o ho
  · rw [mem_addMeta, h.mem]
    simp only [List.mem_append, List.mem_singleton, or_and_right, exists_or, exists_eq_left]
    exact or_congr Iff.rfl eq_comm

end Metas

/-! ## A transaction -/

def metaOf (outputs : List Output) (id : OutputId) : SpendMeta :=
  ((outputs.find? fun o => o.spendMeta.id == id).map (·.spendMeta)).getD default

def shown (skip : Bool) (all : List Output) (s : Spend) : TransactionSpend :=
  ⟨if skip then default else metaOf all s.source, s⟩

def outputsAt (outputs : List Output) (l : TransactionLink) : List Output := outputs.filter fun o => o.link = l

def spendsAt (spends : List Spend) (l : TransactionLink) : List Spend := spends.filter fun s => s.link = l

/-- The information of a transaction: its first output with the amounts of all, or its first spend. -/
def infoOf : List Output → List Spend → Output
  | o :: os, _ =>
    { o with spendMeta := { o.spendMeta with amount := (os.map (·.spendMeta.amount)).foldl add64 o.spendMeta.amount } }
  | [], s :: _ => spendInfo s
  | [], [] => default

/-- The transaction of a link, of the rows passed; `all` are all the outputs. -/
def txOf (o : MergeOptions) (all outputs : List Output) (spends : List Spend) (l : TransactionLink) : GetTransaction :=
  let spent := (spendsAt spends l).map (shown o.skipSpendMeta all)
  { info := infoOf (outputsAt outputs l) (spendsAt spends l)
    receives := if o.allOutputs then outputsAt outputs l else []
    spends := spent
    spent := (spent.map (·.spendMeta.amount)).foldl add64 0 }

section Tx

variable {o : MergeOptions} {all outputs : List Output} {spends : List Spend} {l : TransactionLink} {output : Output}
  {spend : Spend}

theorem modifyBack_concat {α : Type} (f : α → α) (xs : List α) (x : α) : modifyBack f (xs ++ [x]) = xs ++ [f x] := by
  simp [modifyBack]

theorem outputsAt_concat : outputsAt (outputs ++ [output]) l = outputsAt outputs l ++ if output.link =
    l then [output] else [] := by
  unfold outputsAt
  rw [List.filter_append]
  split <;> simp [*]

theorem spendsAt_concat : spendsAt (spends ++ [spend]) l = spendsAt spends l ++ if spend.link =
    l then [spend] else [] := by
  unfold spendsAt
  rw [List.filter_append]
  split <;> simp [*]

/-- A row passed has the link. -/
def Passed (outputs : List Output) (spends : List Spend) (l : TransactionLink) : Prop :=
  (∃ x ∈ outputs, x.link = l) ∨ ∃ s ∈ spends, s.link = l

theorem passed_output : Passed (outputs ++ [output]) spends l ↔ Passed outputs spends l ∨ l = output.link := by
  unfold Passed
  simp only [List.mem_append, List.mem_singleton, or_and_right, exists_or, exists_eq_left, eq_comm (a := l)]
  exact or_right_comm

theorem passed_spend : Passed outputs (spends ++ [spend]) l ↔ Passed outputs spends l ∨ l = spend.link := by
  unfold Passed
  simp only [List.mem_append, List.mem_singleton, or_and_right, exists_or, exists_eq_left, eq_comm (a := l)]
  exact or_assoc.symm

/-- The link of a transaction is the one its rows have. -/
theorem txOf_link (h : Passed outputs spends l) : (txOf o all outputs spends l).info.link = l := by
  unfold txOf
  dsimp only
  rcases hos : outputsAt outputs l with _ | ⟨first, rest⟩
  · rcases hss : spendsAt spends l with _ | ⟨first, rest⟩
    · rcases h with ⟨x, hx, he⟩ | ⟨s, hs, he⟩
      · have : x ∈ outputsAt outputs l := List.mem_filter.mpr ⟨hx, decide_eq_true he⟩
        rw [hos] at this
        cases this
      · have : s ∈ spendsAt spends l := List.mem_filter.mpr ⟨hs, decide_eq_true he⟩
        rw [hss] at this
        cases this
    · have : first ∈ spendsAt spends l := hss ▸ List.mem_cons_self
      exact of_decide_eq_true (List.mem_filter.mp this).2
  · have : first ∈ outputsAt outputs l := hos ▸ List.mem_cons_self
    exact of_decide_eq_true (List.mem_filter.mp this).2

/-- A row of another transaction does not show. -/
theorem txOf_other_output (h : output.link ≠ l) :
    txOf o all (outputs ++ [output]) spends l = txOf o all outputs spends l := by
  simp only [txOf, outputsAt_concat, if_neg h, List.append_nil]

theorem txOf_other_spend (h : spend.link ≠ l) :
    txOf o all outputs (spends ++ [spend]) l = txOf o all outputs spends l := by
  simp only [txOf, spendsAt_concat, if_neg h, List.append_nil]

def receiveIf (o : MergeOptions) (output : Output) (tx : GetTransaction) : GetTransaction :=
  if o.allOutputs then tx.receive output else tx

theorem txOf_first_output (hos : outputsAt outputs output.link = []) (hss : spendsAt spends output.link = []) :
    txOf o all (outputs ++ [output]) spends output.link = receiveIf o output (.ofOutput output) := by
  simp only [txOf, outputsAt_concat, if_true, hos, hss, receiveIf, GetTransaction.receive, GetTransaction.ofOutput]
  split <;> rfl

theorem txOf_next_output (hos : outputsAt outputs output.link ≠ []) (hss : spendsAt spends output.link = []) :
    txOf o all (outputs ++ [output]) spends output.link =
      receiveIf o output ((txOf o all outputs spends output.link).addAmount output.spendMeta.amount) := by
  simp only [txOf, outputsAt_concat, if_true, hss, receiveIf, GetTransaction.receive, GetTransaction.addAmount]
  rcases hrows : outputsAt outputs output.link with _ | ⟨first, rest⟩
  · exact absurd hrows hos
  · split <;> simp [infoOf]

theorem txOf_first_spend (hos : outputsAt outputs spend.link = []) (hss : spendsAt spends spend.link = []) :
    txOf o all outputs (spends ++ [spend]) spend.link =
      (GetTransaction.ofSpend spend).addSpend (shown o.skipSpendMeta all spend)
        (shown o.skipSpendMeta all spend).spendMeta.amount := by
  simp only [txOf, spendsAt_concat, if_true, hos, hss, GetTransaction.addSpend, GetTransaction.ofSpend]
  simp [infoOf]

theorem txOf_next_spend (h : outputsAt outputs spend.link ≠ [] ∨ spendsAt spends spend.link ≠ []) :
    txOf o all outputs (spends ++ [spend]) spend.link =
      (txOf o all outputs spends spend.link).addSpend (shown o.skipSpendMeta all spend)
        (shown o.skipSpendMeta all spend).spendMeta.amount := by
  have hinfo : infoOf (outputsAt outputs spend.link) (spendsAt spends spend.link ++ [spend]) =
      infoOf (outputsAt outputs spend.link) (spendsAt spends spend.link) := by
    rcases hos : outputsAt outputs spend.link with _ | ⟨first, rest⟩
    · rcases hss : spendsAt spends spend.link with _ | ⟨first, rest⟩
      · simp [hos, hss] at h
      · rfl
    · rfl
  simp only [txOf, spendsAt_concat, if_true, hinfo, GetTransaction.addSpend]
  simp

end Tx

/-! ## The merge -/

/-- The rows of a chain: the ids of the outputs differ, a transaction is at one height, and
    the source of a spend, where it is shown, is an output of a lower height. -/
structure Chained (skip : Bool) (outputs : List Output) (spends : List Spend) : Prop where
  ids : (outputs.map (·.spendMeta.id)).Nodup
  oneHeight : ∀ a ∈ outputs.map (·.link) ++ spends.map (·.link), ∀ b ∈ outputs.map (·.link) ++ spends.map (·.link),
    a.txHash = b.txHash → a = b
  sources : skip = false → ∀ s ∈ spends, ∃ o ∈ outputs, o.spendMeta.id = s.source ∧ o.link.height < s.link.height

/-- Such rows, both lists ordered by link. -/
structure Coherent (skip : Bool) (outputs : List Output) (spends : List Spend) :
    Prop extends Chained skip outputs spends where
  outputsOrdered : outputs.Pairwise fun a b => a.link ≤ b.link
  spendsOrdered : spends.Pairwise fun a b => a.link ≤ b.link

/-- What the merge has gathered of the rows it passed. -/
structure Gathered (o : MergeOptions) (outputs : List Output) (spends : List Spend) (links : List TransactionLink)
    (doneOutputs : List Output) (doneSpends : List Spend) (m : Merge) : Prop where
  splitOutputs : doneOutputs ++ m.outputs = outputs
  splitSpends : doneSpends ++ m.spends = spends
  sorted : links.Pairwise fun a b => a < b
  passed : ∀ l, l ∈ links ↔ Passed doneOutputs doneSpends l
  out : m.out = links.map (txOf o outputs doneOutputs doneSpends)
  metas : Metas doneOutputs m.metas
  total : m.total = (doneOutputs.map (·.spendMeta.amount)).foldl add64 0
  notBefore : ∀ l ∈ links, (∀ x ∈ m.outputs, l ≤ x.link) ∧ ∀ s ∈ m.spends, l ≤ s.link
  outputsFirst : ∀ s ∈ doneSpends, ∀ x ∈ m.outputs, s.link < x.link

section Gather

variable {o : MergeOptions} {outputs doneOutputs rest : List Output} {spends doneSpends restSpends : List Spend}
  {links : List TransactionLink} {m : Merge} {output : Output} {spend : Spend}

theorem Gathered.link_mem (h : Gathered o outputs spends links doneOutputs doneSpends m) {l : TransactionLink}
    (hl : l ∈ links) :
    l ∈ outputs.map (·.link) ++ spends.map (·.link) := by
  rw [← h.splitOutputs, ← h.splitSpends]
  rcases (h.passed l).mp hl with ⟨x, hx, rfl⟩ | ⟨s, hs, rfl⟩
  · exact List.mem_append_left _ (List.mem_map_of_mem (List.mem_append_left _ hx))
  · exact List.mem_append_right _ (List.mem_map_of_mem (List.mem_append_left _ hs))

/-- The next row is of the last transaction, or its link is after all links. -/
theorem Gathered.next (hc : Coherent o.skipSpendMeta outputs spends)
    (h : Gathered o outputs spends links doneOutputs doneSpends m) {l : TransactionLink}
    (hl : l ∈ outputs.map (·.link) ++ spends.map (·.link)) (hnext : ∀ k ∈ links, k ≤ l) :
    (m.isNew l.txHash = true ∧ ∀ k ∈ links, k < l) ∨ (m.isNew l.txHash = false ∧ ∃ before, links = before ++ [l]) := by
  unfold Merge.isNew
  rw [h.out]
  rcases List.eq_nil_or_concat links with rfl | ⟨before, last, hlinks⟩
  · exact Or.inl ⟨rfl, by simp⟩
  · rw [List.concat_eq_append] at hlinks
    have hlast : last ∈ links := by simp [hlinks]
    have hlink := @txOf_link o outputs doneOutputs doneSpends last ((h.passed last).mp hlast)
    rw [hlinks, List.map_append, List.map_singleton, List.getLast?_append]
    simp only [List.getLast?_singleton, Option.some_or, Option.all_some, hlink]
    by_cases he : last = l
    · exact Or.inr ⟨by simp [he], before, by rw [he]⟩
    · have hhash : last.txHash ≠ l.txHash := fun hh => he (hc.oneHeight last (h.link_mem hlast) l hl hh)
      refine Or.inl ⟨by simpa using hhash, fun k hk => ?_⟩
      have hll : last < l := lt_of_le_of_ne (hnext last hlast) he
      rcases List.mem_append.mp hk with hk | hk
      · have hsorted := h.sorted
        rw [hlinks] at hsorted
        exact lt_trans ((List.pairwise_append.mp hsorted).2.2 k hk last (List.mem_singleton.mpr rfl)) hll
      · rw [List.mem_singleton.mp hk]
        exact hll

theorem Gathered.no_rows (h : Gathered o outputs spends links doneOutputs doneSpends m) {l : TransactionLink}
    (hl : ∀ k ∈ links, k < l) : outputsAt doneOutputs l = [] ∧ spendsAt doneSpends l = [] := by
  constructor
  · refine List.filter_eq_nil_iff.mpr fun x hx he => ?_
    exact lt_irrefl l (hl l ((h.passed l).mpr (Or.inl ⟨x, hx, of_decide_eq_true he⟩)))
  · refine List.filter_eq_nil_iff.mpr fun s hs he => ?_
    exact lt_irrefl l (hl l ((h.passed l).mpr (Or.inr ⟨s, hs, of_decide_eq_true he⟩)))

theorem map_txOf_output {ls : List TransactionLink} (hls : ∀ l ∈ ls, l < output.link) :
    ls.map (txOf o outputs (doneOutputs ++ [output]) doneSpends) = ls.map (txOf o outputs doneOutputs doneSpends) :=
  List.map_congr_left fun l hl => txOf_other_output (ne_of_gt (hls l hl))

theorem map_txOf_spend {ls : List TransactionLink} (hls : ∀ l ∈ ls, l < spend.link) :
    ls.map (txOf o outputs doneOutputs (doneSpends ++ [spend])) = ls.map (txOf o outputs doneOutputs doneSpends) :=
  List.map_congr_left fun l hl => txOf_other_spend (ne_of_gt (hls l hl))

theorem takeOutput_new (hnew : m.isNew output.link.txHash = true) :
    (m.takeOutput o output rest).out = m.out ++ [receiveIf o output (.ofOutput output)] := by
  unfold Merge.takeOutput receiveIf
  simp only [hnew, if_true]
  split
  · exact modifyBack_concat _ _ _
  · rfl

theorem takeOutput_old {before : List GetTransaction} {tx : GetTransaction} (hnew : m.isNew output.link.txHash = false)
    (hout : m.out = before ++ [tx]) :
    (m.takeOutput o output rest).out = before ++ [receiveIf o output (tx.addAmount output.spendMeta.amount)] := by
  unfold Merge.takeOutput receiveIf
  simp only [hnew, Bool.false_eq_true, if_false, hout, modifyBack_concat]
  split <;> rfl

/-- A link that is added after all others. -/
theorem concat_sorted {l : TransactionLink} (hsorted : links.Pairwise fun a b => a < b) (hl : ∀ k ∈ links, k < l) :
    (links ++ [l]).Pairwise fun a b => a < b :=
  List.pairwise_append.mpr ⟨hsorted, List.pairwise_singleton _ _, fun k hk _ hlast => List.mem_singleton.mp hlast ▸ hl k hk⟩

/-- The round that takes an output. -/
theorem takeOutput_gathered (hc : Coherent o.skipSpendMeta outputs spends)
    (h : Gathered o outputs spends links doneOutputs doneSpends m) (hm : m.outputs = output :: rest)
    (hle : ∀ s ∈ m.spends, output.link ≤ s.link) :
    ∃ links', Gathered o outputs spends links' (doneOutputs ++ [output]) doneSpends (m.takeOutput o output rest) := by
  have hsplit : doneOutputs ++ output :: rest = outputs := hm ▸ h.splitOutputs
  have hordered := hc.outputsOrdered
  have hids := hc.ids
  rw [← hsplit] at hordered hids
  rw [List.map_append, List.map_cons] at hids
  have hafter : ∀ x ∈ rest, output.link ≤ x.link :=
    (List.pairwise_cons.mp (List.pairwise_append.mp hordered).2.1).1
  have hother : ∀ x ∈ doneOutputs, x.spendMeta.id ≠ output.spendMeta.id := fun x hx =>
    (List.nodup_append.mp hids).2.2 _ (List.mem_map_of_mem hx) _ List.mem_cons_self
  have hmem : output.link ∈ outputs.map (·.link) ++ spends.map (·.link) := by
    rw [← hsplit]
    exact List.mem_append_left _ (List.mem_map_of_mem (List.mem_append_right _ List.mem_cons_self))
  have hnext : ∀ k ∈ links, k ≤ output.link := fun k hk => (h.notBefore k hk).1 output (hm ▸ List.mem_cons_self)
  have hss : spendsAt doneSpends output.link = [] := List.filter_eq_nil_iff.mpr fun s hs he =>
    ne_of_lt (h.outputsFirst s hs output (hm ▸ List.mem_cons_self)) (of_decide_eq_true he)
  have hfirst : ∀ s ∈ doneSpends, ∀ x ∈ (m.takeOutput o output rest).outputs, s.link < x.link := fun s hs x hx =>
    h.outputsFirst s hs x (hm ▸ List.mem_cons_of_mem _ hx)
  have hmetas : Metas (doneOutputs ++ [output]) (m.takeOutput o output rest).metas := h.metas.add hother
  have htotal : (m.takeOutput o output rest).total =
      ((doneOutputs ++ [output]).map (·.spendMeta.amount)).foldl add64 0 := by
    simp [Merge.takeOutput, h.total]
  have hlater : ∀ k, k ≤ output.link → (∀ x ∈ (m.takeOutput o output rest).outputs, k ≤ x.link) ∧
      ∀ s ∈ (m.takeOutput o output rest).spends, k ≤ s.link := fun k hk =>
    ⟨fun x hx => le_trans hk (hafter x hx), fun s hs => le_trans hk (hle s hs)⟩
  rcases h.next hc hmem hnext with ⟨hnew, hlt⟩ | ⟨hold, before, hlinks⟩
  · obtain ⟨hos, -⟩ := h.no_rows hlt
    refine ⟨links ++ [output.link], ?_, h.splitSpends, concat_sorted h.sorted hlt, fun l => ?_, ?_, hmetas, htotal, ?_, hfirst⟩
    · rw [List.append_assoc]
      exact hsplit
    · rw [List.mem_append, List.mem_singleton, h.passed, passed_output]
    · rw [takeOutput_new hnew, h.out, List.map_append, List.map_singleton, map_txOf_output hlt, txOf_first_output hos hss]
    · intro k hk
      rcases List.mem_append.mp hk with hk | hk
      · exact hlater k (hnext k hk)
      · exact hlater k (le_of_eq (List.mem_singleton.mp hk))
  · have hlast : output.link ∈ links := by simp [hlinks]
    have hos : outputsAt doneOutputs output.link ≠ [] := by
      rcases (h.passed _).mp hlast with ⟨x, hx, he⟩ | ⟨s, hs, he⟩
      · exact List.ne_nil_of_mem (List.mem_filter.mpr ⟨hx, decide_eq_true he⟩)
      · exact absurd he (ne_of_lt (h.outputsFirst s hs output (hm ▸ List.mem_cons_self)))
    have hsorted := h.sorted
    rw [hlinks] at hsorted
    have hbefore : ∀ k ∈ before, k < output.link := fun k hk =>
      (List.pairwise_append.mp hsorted).2.2 k hk _ (List.mem_singleton.mpr rfl)
    have hout := h.out
    rw [hlinks, List.map_append, List.map_singleton] at hout
    refine ⟨links, ?_, h.splitSpends, h.sorted, fun l => ?_, ?_, hmetas, htotal, fun k hk => hlater k (hnext k hk), hfirst⟩
    · rw [List.append_assoc]
      exact hsplit
    · rw [passed_output, ← h.passed]
      exact (or_iff_left_of_imp fun he => he ▸ hlast).symm
    · rw [takeOutput_old hold hout, hlinks, List.map_append, List.map_singleton, map_txOf_output hbefore,
        txOf_next_output hos hss]

theorem metaOf_eq {x : Output} (hids : (outputs.map (·.spendMeta.id)).Nodup) (hx : x ∈ outputs) :
    metaOf outputs x.spendMeta.id = x.spendMeta := by
  unfold metaOf
  rcases hfind : outputs.find? (fun o => o.spendMeta.id == x.spendMeta.id) with _ | found
  · exact absurd (List.find?_eq_none.mp hfind x hx) (by simp)
  · have hid : found.spendMeta.id = x.spendMeta.id := by simpa using List.find?_some hfind
    have hsame : found = x := List.inj_on_of_nodup_map hids (List.mem_of_find?_eq_some hfind) hx hid
    rw [hfind, hsame]
    rfl

/-- The source of the next spend was passed: its metadata is found. -/
theorem Gathered.spendMeta (hc : Coherent o.skipSpendMeta outputs spends)
    (h : Gathered o outputs spends links doneOutputs doneSpends m) (hs : spend ∈ spends)
    (hlt : ∀ x ∈ m.outputs, spend.link < x.link) :
    m.spendMeta o spend = some (shown o.skipSpendMeta outputs spend).spendMeta := by
  unfold Merge.spendMeta shown
  cases hskip : o.skipSpendMeta with
  | true => rfl
  | false =>
    obtain ⟨x, hx, hid, hheight⟩ := hc.sources hskip spend hs
    have hdone : x ∈ doneOutputs := by
      have hmem := hx
      rw [← h.splitOutputs] at hmem
      refine (List.mem_append.mp hmem).resolve_right fun hleft => ?_
      have := link_lt_height (hlt x hleft)
      omega
    simp only [Bool.false_eq_true, if_false, ← hid, metaOf_eq hc.ids hx]
    exact sourceMeta_of_mem h.metas.sorted ((h.metas.mem _).mpr ⟨x, hdone, rfl⟩)

theorem takeSpend_ok {source : SpendMeta} (hmeta : m.spendMeta o spend = some source) :
    ∃ m', m.takeSpend o spend restSpends = .ok m' ∧ m'.outputs = m.outputs ∧ m'.spends = restSpends ∧
      m'.metas = m.metas ∧ m'.total = m.total ∧
      (m.isNew spend.link.txHash = true →
        m'.out = m.out ++ [(GetTransaction.ofSpend spend).addSpend ⟨source, spend⟩ source.amount]) ∧
      (m.isNew spend.link.txHash = false → ∀ before tx, m.out = before ++ [tx] →
        m'.out = before ++ [tx.addSpend ⟨source, spend⟩ source.amount]) := by
  unfold Merge.takeSpend
  rw [hmeta]
  refine ⟨_, rfl, rfl, rfl, rfl, rfl, fun hnew => ?_, fun hold before tx hout => ?_⟩
  · simp [hnew, modifyBack_concat]
  · simp [hold, hout, modifyBack_concat]

/-- The round that takes a spend. -/
theorem takeSpend_gathered (hc : Coherent o.skipSpendMeta outputs spends)
    (h : Gathered o outputs spends links doneOutputs doneSpends m) (hm : m.spends = spend :: restSpends)
    (hlt : ∀ x ∈ m.outputs, spend.link < x.link) :
    ∃ links' m', m.takeSpend o spend restSpends = .ok m' ∧ m'.outputs = m.outputs ∧ m'.spends = restSpends ∧
      Gathered o outputs spends links' doneOutputs (doneSpends ++ [spend]) m' := by
  have hsplit : doneSpends ++ spend :: restSpends = spends := hm ▸ h.splitSpends
  have hs : spend ∈ spends := hsplit ▸ List.mem_append_right _ List.mem_cons_self
  have hordered := hc.spendsOrdered
  rw [← hsplit] at hordered
  have hafter : ∀ s ∈ restSpends, spend.link ≤ s.link :=
    (List.pairwise_cons.mp (List.pairwise_append.mp hordered).2.1).1
  have hmem : spend.link ∈ outputs.map (·.link) ++ spends.map (·.link) := List.mem_append_right _ (List.mem_map_of_mem hs)
  have hnext : ∀ k ∈ links, k ≤ spend.link := fun k hk => (h.notBefore k hk).2 spend (hm ▸ List.mem_cons_self)
  obtain ⟨m', hok, houtputs, hspends, hmetas, htotal, hfresh, hback⟩ :=
    @takeSpend_ok o restSpends m spend _ (h.spendMeta hc hs hlt)
  have hlater : ∀ k, k ≤ spend.link → (∀ x ∈ m'.outputs, k ≤ x.link) ∧ ∀ s ∈ m'.spends, k ≤ s.link := fun k hk =>
    ⟨fun x hx => le_trans hk (le_of_lt (hlt x (houtputs ▸ hx))), fun s hs => le_trans hk (hafter s (hspends ▸ hs))⟩
  have hfirst : ∀ s ∈ doneSpends ++ [spend], ∀ x ∈ m'.outputs, s.link < x.link := by
    intro s hs x hx
    rw [houtputs] at hx
    rcases List.mem_append.mp hs with hs | hs
    · exact h.outputsFirst s hs x hx
    · exact List.mem_singleton.mp hs ▸ hlt x hx
  have hdone : doneOutputs ++ m'.outputs = outputs := houtputs ▸ h.splitOutputs
  have hdone' : (doneSpends ++ [spend]) ++ m'.spends = spends := by
    rw [hspends, List.append_assoc]
    exact hsplit
  have hmetas' : Metas doneOutputs m'.metas := hmetas ▸ h.metas
  rcases h.next hc hmem hnext with ⟨hnew, hbelow⟩ | ⟨hold, before, hlinks⟩
  · obtain ⟨hos, hss⟩ := h.no_rows hbelow
    refine ⟨links ++ [spend.link], m', hok, houtputs, hspends, hdone, hdone', concat_sorted h.sorted hbelow, fun l => ?_, ?_,
      hmetas', htotal.trans h.total, ?_, hfirst⟩
    · rw [List.mem_append, List.mem_singleton, h.passed, passed_spend]
    · rw [hfresh hnew, h.out, List.map_append, List.map_singleton, map_txOf_spend hbelow, txOf_first_spend hos hss]
      rfl
    · intro k hk
      rcases List.mem_append.mp hk with hk | hk
      · exact hlater k (hnext k hk)
      · exact hlater k (le_of_eq (List.mem_singleton.mp hk))
  · have hlast : spend.link ∈ links := by simp [hlinks]
    have hrows : outputsAt doneOutputs spend.link ≠ [] ∨ spendsAt doneSpends spend.link ≠ [] := by
      rcases (h.passed _).mp hlast with ⟨x, hx, he⟩ | ⟨s, hs, he⟩
      · exact Or.inl (List.ne_nil_of_mem (List.mem_filter.mpr ⟨hx, decide_eq_true he⟩))
      · exact Or.inr (List.ne_nil_of_mem (List.mem_filter.mpr ⟨hs, decide_eq_true he⟩))
    have hsorted := h.sorted
    rw [hlinks] at hsorted
    have hbefore : ∀ k ∈ before, k < spend.link := fun k hk =>
      (List.pairwise_append.mp hsorted).2.2 k hk _ (List.mem_singleton.mpr rfl)
    have hout := h.out
    rw [hlinks, List.map_append, List.map_singleton] at hout
    refine ⟨links, m', hok, houtputs, hspends, hdone, hdone', h.sorted, fun l => ?_, ?_, hmetas', htotal.trans h.total,
      fun k hk => hlater k (hnext k hk), hfirst⟩
    · rw [passed_spend, ← h.passed]
      exact (or_iff_left_of_imp fun he => he ▸ hlast).symm
    · rw [hback hold _ _ hout, hlinks, List.map_append, List.map_singleton, map_txOf_spend hbefore, txOf_next_spend hrows]
      rfl

/-- The check of a round never fires. -/
theorem Gathered.ordered (h : Gathered o outputs spends links doneOutputs doneSpends m) : m.ordered = true := by
  unfold Merge.ordered
  rw [h.out]
  rcases List.eq_nil_or_concat links with rfl | ⟨before, last, hlinks⟩
  · rfl
  · rw [List.concat_eq_append] at hlinks
    have hlast : last ∈ links := by simp [hlinks]
    have hlink := @txOf_link o outputs doneOutputs doneSpends last ((h.passed last).mp hlast)
    obtain ⟨houtputs, hspends⟩ := h.notBefore last hlast
    rw [hlinks, List.map_append, List.map_singleton, List.getLast?_append]
    simp only [List.getLast?_singleton, Option.some_or, Option.all_some, hlink, Bool.and_eq_true]
    constructor
    · rcases hm : m.outputs with _ | ⟨output, rest⟩
      · rfl
      · simpa using houtputs output (hm ▸ List.mem_cons_self)
    · rcases hm : m.spends with _ | ⟨spend, rest⟩
      · rfl
      · simpa using hspends spend (hm ▸ List.mem_cons_self)

/-- A round takes one row. -/
theorem step_gathered (hc : Coherent o.skipSpendMeta outputs spends)
    (h : Gathered o outputs spends links doneOutputs doneSpends m) (hmore : 0 < m.outputs.length + m.spends.length) :
    ∃ links' doneOutputs' doneSpends' m', m.step o = .ok m' ∧
      Gathered o outputs spends links' doneOutputs' doneSpends' m' ∧
      m'.outputs.length + m'.spends.length + 1 = m.outputs.length + m.spends.length := by
  have houtputs : m.outputs.Pairwise fun a b => a.link ≤ b.link := by
    have := hc.outputsOrdered
    rw [← h.splitOutputs] at this
    exact (List.pairwise_append.mp this).2.1
  have hspends : m.spends.Pairwise fun a b => a.link ≤ b.link := by
    have := hc.spendsOrdered
    rw [← h.splitSpends] at this
    exact (List.pairwise_append.mp this).2.1
  unfold Merge.step
  rw [h.ordered]
  simp only [Bool.not_true, Bool.false_eq_true, if_false]
  rcases hm : m.outputs with _ | ⟨output, rest⟩
  · rcases hm' : m.spends with _ | ⟨spend, restSpends⟩
    · rw [hm, hm'] at hmore
      simp at hmore
    · obtain ⟨links', m', hok, ho', hs', hg⟩ := takeSpend_gathered hc h hm' (by simp [hm])
      exact ⟨links', _, _, m', hok, hg, by simp [ho', hs', hm]⟩
  · rcases hm' : m.spends with _ | ⟨spend, restSpends⟩
    · obtain ⟨links', hg⟩ := takeOutput_gathered hc h hm (by simp [hm'])
      exact ⟨links', _, _, _, rfl, hg, by simp [Merge.takeOutput, hm']⟩
    · rw [hm] at houtputs
      rw [hm'] at hspends
      dsimp only
      by_cases hle : output.link ≤ spend.link
      · rw [if_pos hle]
        obtain ⟨links', hg⟩ := takeOutput_gathered hc h hm (fun s hs => by
          rw [hm'] at hs
          rcases List.mem_cons.mp hs with rfl | hs
          · exact hle
          · exact le_trans hle ((List.pairwise_cons.mp hspends).1 s hs))
        refine ⟨links', _, _, _, rfl, hg, ?_⟩
        simp only [Merge.takeOutput, hm', List.length_cons]
        omega
      · rw [if_neg hle, if_pos (not_le.mp hle)]
        obtain ⟨links', m', hok, ho', hs', hg⟩ := takeSpend_gathered hc h hm' (fun x hx => by
          rw [hm] at hx
          rcases List.mem_cons.mp hx with rfl | hx
          · exact not_le.mp hle
          · exact lt_of_lt_of_le (not_le.mp hle) ((List.pairwise_cons.mp houtputs).1 x hx))
        refine ⟨links', _, _, m', hok, hg, ?_⟩
        simp only [ho', hs', hm, List.length_cons]
        omega

theorem Gathered.finished (h : Gathered o outputs spends links doneOutputs doneSpends m)
    (hempty : m.outputs.length + m.spends.length = 0) :
    (m.outputs = [] ∧ m.spends = []) ∧ Gathered o outputs spends links outputs spends m := by
  have houtputs : m.outputs = [] := List.eq_nil_of_length_eq_zero (by omega)
  have hspends : m.spends = [] := List.eq_nil_of_length_eq_zero (by omega)
  have hdone := h.splitOutputs
  have hdone' := h.splitSpends
  rw [houtputs, List.append_nil] at hdone
  rw [hspends, List.append_nil] at hdone'
  subst hdone hdone'
  exact ⟨⟨houtputs, hspends⟩, h⟩

/-- The loop ends, with every row gathered. -/
theorem loop_gathered (hc : Coherent o.skipSpendMeta outputs spends) : ∀ (rounds : Nat) {links : List TransactionLink}
    {doneOutputs : List Output} {doneSpends : List Spend} {m : Merge},
    Gathered o outputs spends links doneOutputs doneSpends m → m.outputs.length + m.spends.length ≤ rounds →
      ∃ links' m', m.loop o rounds = .ok m' ∧ Gathered o outputs spends links' outputs spends m' := by
  intro rounds
  induction rounds with
  | zero =>
    intro links doneOutputs doneSpends m h hrounds
    obtain ⟨hempty, hg⟩ := h.finished (by omega)
    exact ⟨links, m, by simp [Merge.loop, hempty], hg⟩
  | succ rounds ih =>
    intro links doneOutputs doneSpends m h hrounds
    unfold Merge.loop
    by_cases hmore : 0 < m.outputs.length + m.spends.length
    · have hsome : (m.outputs.isEmpty && m.spends.isEmpty) = false := by
        rw [Bool.eq_false_iff]
        intro hempty
        simp only [Bool.and_eq_true, List.isEmpty_iff] at hempty
        simp [hempty] at hmore
      rw [hsome]
      obtain ⟨links₁, doneOutputs₁, doneSpends₁, m₁, hstep, hg, hlength⟩ := step_gathered hc h hmore
      simp only [Bool.false_eq_true, if_false, hstep, bind, Except.bind]
      exact ih hg (by omega)
    · obtain ⟨hempty, hg⟩ := h.finished (by omega)
      exact ⟨links, m, by simp [hempty], hg⟩

end Gather

/-! ## What is returned -/

/-- One transaction for each link, in order, with what belongs to it. -/
structure Merged (allOutputs skip : Bool) (outputs : List Output) (spends : List Spend) (out : List GetTransaction)
    (total : Nat) : Prop where
  ordered : (out.map (·.info.link)).Pairwise fun a b => a < b
  each : ∀ l, l ∈ out.map (·.info.link) ↔ (∃ o ∈ outputs, o.link = l) ∨ ∃ s ∈ spends, s.link = l
  spends : ∀ tx ∈ out, tx.spends = (spendsAt spends tx.info.link).map (shown skip outputs)
  receives : ∀ tx ∈ out, tx.receives = if allOutputs then outputsAt outputs tx.info.link else []
  amount : ∀ tx ∈ out, tx.info.spendMeta.amount % 2 ^ 64 =
    ((outputsAt outputs tx.info.link).map (·.spendMeta.amount)).sum % 2 ^ 64
  spent : ∀ tx ∈ out, tx.spent = (tx.spends.map (·.spendMeta.amount)).sum % 2 ^ 64
  total : total = (outputs.map (·.spendMeta.amount)).sum % 2 ^ 64

section Result

variable {outputs : List Output} {spends : List Spend}

theorem infoOf_amount (os : List Output) (ss : List Spend) :
    (infoOf os ss).spendMeta.amount % 2 ^ 64 = (os.map (·.spendMeta.amount)).sum % 2 ^ 64 := by
  rcases os with _ | ⟨first, rest⟩
  · rcases ss with _ | ⟨s, ss⟩ <;> rfl
  · rw [infoOf, foldl_add64, List.map_cons, List.sum_cons]

theorem Gathered.merged {o : MergeOptions} {links : List TransactionLink} {m : Merge}
    (h : Gathered o outputs spends links outputs spends m) :
    Merged o.allOutputs o.skipSpendMeta outputs spends m.out m.total := by
  have hlinks : m.out.map (·.info.link) = links := by
    rw [h.out, List.map_map]
    exact (List.map_congr_left fun l hl => txOf_link ((h.passed l).mp hl)).trans (List.map_id links)
  have htxs : ∀ tx ∈ m.out, tx = txOf o outputs outputs spends tx.info.link := by
    intro tx htx
    rw [h.out] at htx
    obtain ⟨l, hl, rfl⟩ := List.mem_map.mp htx
    rw [txOf_link ((h.passed l).mp hl)]
  refine ⟨hlinks ▸ h.sorted, fun l => hlinks ▸ h.passed l, fun tx htx => ?_, fun tx htx => ?_, fun tx htx => ?_,
    fun tx htx => ?_, ?_⟩
  · exact congrArg GetTransaction.spends (htxs tx htx)
  · exact congrArg GetTransaction.receives (htxs tx htx)
  · exact (congrArg (fun t => t.info.spendMeta.amount % 2 ^ 64) (htxs tx htx)).trans (infoOf_amount _ _)
  · rw [← sum64, htxs tx htx]
    rfl
  · rw [h.total, sum64]

theorem mergeIntoTxes_merged {skip : Bool} (allOutputs : Bool) (hc : Coherent skip outputs spends) {rounds : Nat}
    (hrounds : outputs.length + spends.length ≤ rounds) :
    ∃ out total, mergeIntoTxes rounds none allOutputs skip outputs spends = .ok (out, total) ∧
      Merged allOutputs skip outputs spends out total := by
  obtain ⟨links, m, hok, hg⟩ := @loop_gathered ⟨false, allOutputs, skip⟩ outputs spends hc rounds [] [] []
    ⟨outputs, spends, [], [], [], [], 0⟩
    ⟨rfl, rfl, List.Pairwise.nil, fun l => by simp [Passed], rfl, ⟨List.Pairwise.nil, fun x => by simp⟩, rfl,
      fun l hl => by simp at hl, fun s hs => by simp at hs⟩ hrounds
  refine ⟨m.out, m.total, ?_, hg.merged⟩
  unfold mergeIntoTxes
  simp only [Option.isSome_none, hok, bind, Except.bind]

/-! ## The balance -/

theorem foldl_receive (locked : Output → Bool) : ∀ (outputs done : List Output) (r : Received), Metas done r.metas →
    ((done ++ outputs).map (·.spendMeta.id)).Nodup →
      Metas (done ++ outputs) (outputs.foldl (receiveOutput locked) r).metas ∧
        (outputs.foldl (receiveOutput locked) r).totalReceived =
          (outputs.map (·.spendMeta.amount)).foldl add64 r.totalReceived := by
  intro outputs
  induction outputs with
  | nil =>
    intro done r h _
    exact ⟨by simpa using h, rfl⟩
  | cons output outputs ih =>
    intro done r h hids
    have hother : ∀ x ∈ done, x.spendMeta.id ≠ output.spendMeta.id := by
      rw [List.map_append, List.map_cons] at hids
      exact fun x hx => (List.nodup_append.mp hids).2.2 _ (List.mem_map_of_mem hx) _ List.mem_cons_self
    have hnext := ih (done ++ [output]) (receiveOutput locked r output) (h.add hother) (by simpa using hids)
    simpa [receiveOutput] using hnext

theorem spentOutputs_ok {metas : List SpendMeta} (hmetas : Metas outputs metas)
    (hids : (outputs.map (·.spendMeta.id)).Nodup) : ∀ (spends : List Spend),
    (∀ s ∈ spends, ∃ o ∈ outputs, o.spendMeta.id = s.source) →
      spentOutputs metas spends = .ok (spends.map (shown false outputs)) := by
  intro spends
  induction spends with
  | nil => exact fun _ => rfl
  | cons s spends ih =>
    intro hsources
    obtain ⟨⟨x, hx, hid⟩, hrest⟩ := List.forall_mem_cons.mp hsources
    have hfound : sourceMeta metas s.source = some x.spendMeta :=
      hid ▸ sourceMeta_of_mem hmetas.sorted ((hmetas.mem _).mpr ⟨x, hx, rfl⟩)
    have hshown : shown false outputs s = ⟨x.spendMeta, s⟩ := by
      rw [shown, ← hid, metaOf_eq hids hx]
      rfl
    simp [spentOutputs, hfound, ih hrest, bind, Except.bind, hshown]

theorem sum_spendsAt (f : Spend → Nat) {links : List TransactionLink} (hlinks : links.Nodup) : ∀ (spends : List Spend),
    (∀ s ∈ spends, s.link ∈ links) → (links.map fun l => ((spendsAt spends l).map f).sum).sum = (spends.map f).sum := by
  have hone : ∀ (ls : List TransactionLink) (a : TransactionLink) (n : Nat), ls.Nodup →
      (ls.map fun l => if a = l then n else 0).sum = if a ∈ ls then n else 0 := by
    intro ls a n
    induction ls with
    | nil => simp
    | cons l ls ih =>
      intro hnodup
      obtain ⟨hl, hnodup⟩ := List.nodup_cons.mp hnodup
      rw [List.map_cons, List.sum_cons, ih hnodup]
      by_cases he : a = l
      · simp [he, hl]
      · simp [he]
  intro spends
  induction spends with
  | nil => simp [spendsAt]
  | cons s spends ih =>
    intro hmem
    obtain ⟨hs, hrest⟩ := List.forall_mem_cons.mp hmem
    have hsplit : ∀ l, ((spendsAt (s :: spends) l).map f).sum =
        (if s.link = l then f s else 0) + ((spendsAt spends l).map f).sum := by
      intro l
      unfold spendsAt
      by_cases he : s.link = l <;> simp [he]
    simp only [hsplit]
    rw [List.sum_map_add, hone links s.link (f s) hlinks, if_pos hs, ih hrest, List.map_cons, List.sum_cons]

theorem Merged.sum_spent {allOutputs skip : Bool} {out : List GetTransaction} {total : Nat}
    (h : Merged allOutputs skip outputs spends out total) :
    (out.map (·.spent)).foldl add64 0 = ((spends.map (shown skip outputs)).map (·.spendMeta.amount)).foldl add64 0 := by
  have hspent : out.map (·.spent) = (out.map (·.info.link)).map fun l =>
      ((spendsAt spends l).map fun s => (shown skip outputs s).spendMeta.amount).sum % 2 ^ 64 := by
    rw [List.map_map]
    refine List.map_congr_left fun tx htx => ?_
    rw [h.spent tx htx, h.spends tx htx, List.map_map]
    rfl
  have hnodup : (out.map (·.info.link)).Nodup := h.ordered.imp fun hlt => ne_of_lt hlt
  have hsum := sum_spendsAt (fun s => (shown skip outputs s).spendMeta.amount) hnodup spends
    (fun s hs => (h.each s.link).mpr (Or.inr ⟨s, hs, rfl⟩))
  rw [sum64, sum64, hspent, List.map_map (l := spends)]
  rw [show (spends.map ((·.spendMeta.amount) ∘ shown skip outputs)) =
    spends.map fun s => (shown skip outputs s).spendMeta.amount from rfl, ← hsum,
    List.sum_nat_mod (List.map _ (List.map _ out)), List.sum_nat_mod (List.map _ (List.map _ out)), List.map_map, List.map_map]
  simp [Function.comp_def]

/-- The rows of an account are stored in the order of their links. -/
theorem dups_coherent {db : Storage} {id : Nat} (h : Chained false (db.outputs.dups id) (db.spends.dups id)) :
    Coherent false (db.outputs.dups id) (db.spends.dups id) := by
  refine ⟨h, (db.outputs.dups_sorted id).imp fun hlt => ?_, (db.spends.dups_sorted id).imp fun hlt => ?_⟩
  · rw [Output.sort, Output.sort, Prod.Lex.toLex_lt_toLex] at hlt
    exact hlt.elim le_of_lt fun he => le_of_eq he.1
  · rw [Spend.sort, Spend.sort, Prod.Lex.toLex_lt_toLex] at hlt
    exact hlt.elim le_of_lt fun he => le_of_eq he.1

/-- Without a mempool the merge ends on all rows of a chain, with one transaction for each
    link; and on the rows of an account its totals are those of `get_address_info`. -/
theorem merge_into_txes_correct :
    (∀ (allOutputs skip : Bool) (outputs : List Output) (spends : List Spend) (rounds : Nat),
      Coherent skip outputs spends → outputs.length + spends.length ≤ rounds →
        ∃ out total, mergeIntoTxes rounds none allOutputs skip outputs spends = .ok (out, total) ∧
          Merged allOutputs skip outputs spends out total) ∧
    ∀ (c : LockConstants) (now : Int) (db : Storage) (acct : Db.Account) (allOutputs : Bool) (last : BlockInfo),
      getLastBlock db = .ok last → Chained false (db.outputs.dups acct.id) (db.spends.dups acct.id) →
        ∃ resp info, loadTxs db acct none allOutputs = .ok resp ∧ getAddressInfo c now db acct = .ok info ∧
          Merged allOutputs false (db.outputs.dups acct.id) (db.spends.dups acct.id) resp.transactions resp.totalReceived ∧
          resp.totalReceived = info.totalReceived ∧ (resp.transactions.map (·.spent)).foldl add64 0 = info.totalSent := by
  refine ⟨fun allOutputs skip outputs spends rounds hc hrounds => mergeIntoTxes_merged allOutputs hc hrounds, ?_⟩
  intro c now db acct allOutputs last hlast hchained
  have hc := dups_coherent hchained
  obtain ⟨out, total, hmerge, hmerged⟩ := mergeIntoTxes_merged allOutputs hc (Nat.le_refl _)
  obtain ⟨hmetas, htotal⟩ := foldl_receive
    (fun output => isLocked c now output.unlockTime last.id output.link.height) (db.outputs.dups acct.id) [] ⟨[], 0, 0⟩
    ⟨List.Pairwise.nil, by simp⟩ hchained.ids
  have hspent := spentOutputs_ok hmetas hchained.ids (db.spends.dups acct.id) fun s hs => by
    obtain ⟨o, ho, hid, -⟩ := hchained.sources rfl s hs
    exact ⟨o, ho, hid⟩
  unfold loadTxs getAddressInfo
  simp only [hlast, hmerge, hspent, ResponseError.ofCode, ResponseError.ofThrown, bind, Except.bind]
  refine ⟨_, _, rfl, rfl, hmerged, ?_, hmerged.sum_spent⟩
  rw [htotal, sum64]
  exact hmerged.total

end Result

def rowOutput (height hash id amount : Nat) : Output :=
  { (default : Output) with
    link := ⟨height, hash⟩
    spendMeta := { (default : SpendMeta) with id := ⟨0, id⟩, amount } }

def rowSpend (height hash source : Nat) : Spend :=
  { (default : Spend) with link := ⟨height, hash⟩, image := source, source := ⟨0, source⟩ }

def rowsDb (outputs : List Output) (spends : List Spend) : Storage :=
  { fresh sampleEnv with outputs := Table.empty.putAll 1 outputs, spends := Table.empty.putAll 1 spends }

def rowsAccount : Db.Account := { (default : Db.Account) with id := 1 }

def noLocks : LockConstants := ⟨500000000, 120, 1, 10⟩

/-- Three transactions: two outputs, an output and a spend, and a spend. -/
theorem merge_into_txes_three :
    let outputs := [rowOutput 1 900 1 10, rowOutput 1 900 2 20, rowOutput 2 901 3 5]
    let spends := [rowSpend 2 901 1, rowSpend 3 902 2]
    (∃ out total, mergeIntoTxes 5 none true false outputs spends = .ok (out, total) ∧
      out.map (fun tx => (tx.info.link.txHash, tx.info.spendMeta.amount, tx.spent)) =
        [(900, 30, 0), (901, 5, 10), (902, 0, 20)] ∧
      Merged true false outputs spends out total) ∧
    ∃ resp info, loadTxs (rowsDb outputs spends) rowsAccount none true = .ok resp ∧
      getAddressInfo noLocks 0 (rowsDb outputs spends) rowsAccount = .ok info ∧ resp.totalReceived = info.totalReceived ∧
      (resp.transactions.map (·.spent)).foldl add64 0 = info.totalSent := by
  intro outputs spends
  have hchained : Chained false outputs spends := ⟨by decide, by decide, by decide⟩
  have hcoherent : Coherent false outputs spends := ⟨hchained, by decide, by decide⟩
  obtain ⟨hmerge, hinfo⟩ := merge_into_txes_correct
  constructor
  · obtain ⟨out, total, hok, hmerged⟩ := hmerge true false outputs spends 5 hcoherent (by decide)
    refine ⟨out, total, hok, ?_, hmerged⟩
    have hrun : (mergeIntoTxes 5 none true false outputs spends).toOption.map (fun r => r.1.map
        fun tx => (tx.info.link.txHash, tx.info.spendMeta.amount, tx.spent)) =
          some [(900, 30, 0), (901, 5, 10), (902, 0, 20)] := by decide +kernel
    rw [hok] at hrun
    exact Option.some.inj hrun
  · have hrows : (rowsDb outputs spends).outputs.dups rowsAccount.id = outputs := by decide +kernel
    have hrows' : (rowsDb outputs spends).spends.dups rowsAccount.id = spends := by decide +kernel
    obtain ⟨resp, info, hresp, hinfo, -, htotal, hspent⟩ := hinfo noLocks 0 (rowsDb outputs spends) rowsAccount true ⟨0, 100⟩
      (by rfl) (hrows.symm ▸ hrows'.symm ▸ hchained)
    exact ⟨resp, info, hresp, hinfo, htotal, hspent⟩

def rowsTotals (outputs : List Output) (spends : List Spend) : Option (Nat × Nat) :=
  match loadTxs (rowsDb outputs spends) rowsAccount none false,
      getAddressInfo noLocks 0 (rowsDb outputs spends) rowsAccount with
  | .ok resp, .ok info => some ((resp.transactions.map (·.spent)).foldl add64 0, info.totalSent)
  | _, _ => none

def rowsMerged (pool : Option (List (OutputId × AddressIndex) → List FoundPoolTx)) (outputs : List Output)
    (spends : List Spend) : Option (List (Nat × Nat × Nat) × Nat) :=
  (mergeIntoTxes 10 pool true false outputs spends).toOption.map fun r =>
    (r.1.map fun tx => (tx.info.link.height, tx.info.link.txHash, tx.info.spendMeta.amount), r.2)

/-- Ordered rows with the sources of the spends below them, and nothing more. -/
def Sourced (outputs : List Output) (spends : List Spend) : Prop :=
  outputs.Pairwise (fun a b => a.link ≤ b.link) ∧ spends.Pairwise (fun a b => a.link ≤ b.link) ∧
    ∀ s ∈ spends, ∃ o ∈ outputs, o.spendMeta.id = s.source ∧ o.link.height < s.link.height

/-- Two outputs of one id, with a spend of it between them: the balance takes the metadata of
    the later one. A hash at three heights: the first two are one transaction, and the third
    comes again after another. A pool transaction: it is added, and its outputs to the total. -/
theorem merged_otherwise :
    (Sourced [rowOutput 1 900 5 10, rowOutput 3 902 5 20] [rowSpend 2 901 5] ∧
      rowsTotals [rowOutput 1 900 5 10, rowOutput 3 902 5 20] [rowSpend 2 901 5] = some (10, 20)) ∧
    (Sourced [rowOutput 1 900 1 10, rowOutput 2 900 2 20, rowOutput 3 901 3 5, rowOutput 4 900 4 1] [] ∧
      rowsMerged none [rowOutput 1 900 1 10, rowOutput 2 900 2 20, rowOutput 3 901 3 5, rowOutput 4 900 4 1] [] =
        some ([(1, 900, 30), (3, 901, 5), (4, 900, 1)], 36)) ∧
    Sourced [rowOutput 1 900 1 10] [] ∧
      rowsMerged (some fun _ => [⟨905, [], [rowOutput txpool 905 9 7]⟩]) [rowOutput 1 900 1 10] [] =
        some ([(1, 900, 10), (txpool, 905, 7)], 17) := by
  unfold Sourced
  refine ⟨⟨by decide, by decide +kernel⟩, ⟨by decide, by decide +kernel⟩, by decide, by decide +kernel⟩

end Lws.Rpc
