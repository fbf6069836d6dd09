/-
  Lws.Scanner.Traced — where the outputs and spends of an account come from
  (`src/util/ownership_test.cpp`, `src/scanner.cpp`).

  A report names the block and the transaction it was found in. An output has the index
  that the daemon sent for it, and a spend the image of the input. So on a chain where
  hashes, indices and images repeat as little as they do by consensus (`Sound`), the rows
  that a pass finds for an account have keys of their own (`pass_keyed`).
-/

import Lws.Scanner.Blocks

namespace Lws.Scanner

open Lws.Db

/-! ## One transaction -/

def linkOf : Report → TransactionLink
  | .spend spend => spend.link
  | .output out => out.link

def hashOf (lib : Monero) (t : BlockTx) : Hash := t.hash.getD (lib.transactionHash t.tx)

def imageOf : TxIn → Option KeyImage
  | .toKey _ _ image => some image
  | _ => none

def imagesOf (tx : Transaction) : List KeyImage := tx.vin.filterMap imageOf

/-- An input with this image, in a list with no image twice, is the only one. -/
theorem images_inj {inputs : List TxIn} (hnodup : (inputs.filterMap imageOf).Nodup) {amount amount' : Nat}
    {offsets offsets' : List Nat} {image : KeyImage} (h : TxIn.toKey amount offsets image ∈ inputs)
    (h' : TxIn.toKey amount' offsets' image ∈ inputs) : offsets = offsets' := by
  induction inputs with
  | nil => cases h
  | cons input rest ih =>
    have hrest : ((rest.filterMap imageOf).Nodup) := by
      rw [List.filterMap_cons] at hnodup
      split at hnodup
      · exact hnodup
      · exact (List.nodup_cons.mp hnodup).2
    have honce : ∀ {amount offsets}, input = TxIn.toKey amount offsets image →
        ∀ {amount' offsets'}, TxIn.toKey amount' offsets' image ∉ rest := by
      rintro amount offsets rfl amount' offsets' hin
      rw [List.filterMap_cons] at hnodup
      exact (List.nodup_cons.mp hnodup).1 (List.mem_filterMap.mpr ⟨_, hin, rfl⟩)
    rcases List.mem_cons.mp h with he | hin
    · rcases List.mem_cons.mp h' with he' | hin'
      · rw [← he] at he'
        cases he'
        rfl
      · exact absurd hin' (honce he.symm)
    · rcases List.mem_cons.mp h' with he' | hin'
      · exact absurd hin (honce he'.symm)
      · exact ih hrest hin hin'

/-- Two outputs of the transaction. -/
def OtherIndex (r r' : Report) : Prop :=
  ∀ o o', r = .output o → r' = .output o' → o.spendMeta.index ≠ o'.spendMeta.index

instance : Std.Symm OtherIndex := ⟨fun _ _ h o o' he he' => (h o' o he' he).symm⟩

/-- Reports of one transaction: each with its link, a spend with its input, and an output with its index. -/
structure Backed (p : Pass) (link : TransactionLink) (user : Account) (reports : List Report) : Prop where
  links : ∀ r ∈ reports, linkOf r = link
  spends : ∀ s, .spend s ∈ reports → ∃ amount offsets index, .toKey amount offsets s.image ∈ p.tx.vin ∧
    user.getSpendable s.source = some index ∧ s = ⟨link, s.image, s.source, p.timestamp, p.tx.unlockTime,
      max 1 offsets.length - 1, p.unencryptedId.1, p.unencryptedId.2, index⟩
  outputs : ∀ o, .output o ∈ reports → p.outIds[o.spendMeta.index]? = some o.spendMeta.id.low
  order : reports.Pairwise OtherIndex

section Reports

variable {p : Pass}

theorem scanOffsets_traced (user : Account) (amount : Nat) (image : KeyImage) (mixin : Nat) (offsets : List Nat) :
    ∀ (goffset : Nat) (c : Carry), ∀ r ∈ (p.scanOffsets user amount image mixin goffset offsets c).1,
      ∃ source index, user.getSpendable source = some index ∧
        r = .spend ⟨⟨p.height, (p.view c).1⟩, image, source, p.timestamp, p.tx.unlockTime, mixin, p.unencryptedId.1,
          p.unencryptedId.2, index⟩ := by
  induction offsets with
  | nil =>
    intro goffset c r hr
    cases hr
  | cons offset rest ih =>
    intro goffset c r hr
    unfold Pass.scanOffsets at hr
    dsimp only at hr
    split at hr
    · exact ih _ c r hr
    · rename_i index hindex
      rcases List.mem_cons.mp hr with rfl | hr
      · exact ⟨_, index, hindex, rfl⟩
      · exact ih _ (p.getTxHash c).2 r hr

theorem scanOffsets_view (user : Account) (amount : Nat) (image : KeyImage) (mixin goffset : Nat) (offsets : List Nat)
    (c : Carry) : p.view (p.scanOffsets user amount image mixin goffset offsets c).2 = p.view c := by
  obtain ⟨reports, hspec⟩ := @scanOffsets_spec p (p.view c) user amount image mixin offsets goffset
  obtain ⟨c', hrun, hc'⟩ := hspec c rfl
  rw [hrun]
  exact hc'

theorem scanInputs_traced (user : Account) (inputs : List TxIn) : ∀ (mixin ext : Nat) (c : Carry),
    (∀ r ∈ (p.scanInputs user inputs mixin ext c).1, ∃ amount offsets image source index,
      .toKey amount offsets image ∈ inputs ∧ user.getSpendable source = some index ∧
        r = .spend ⟨⟨p.height, (p.view c).1⟩, image, source, p.timestamp, p.tx.unlockTime, max 1 offsets.length - 1,
          p.unencryptedId.1, p.unencryptedId.2, index⟩) ∧
      p.view (p.scanInputs user inputs mixin ext c).2.2.2 = p.view c := by
  induction inputs with
  | nil => exact fun mixin ext c => ⟨fun r hr => (by cases hr), rfl⟩
  | cons input rest ih =>
    intro mixin ext c
    have hlater : ∀ (mixin ext : Nat) (c' : Carry), p.view c' = p.view c →
        (∀ r ∈ (p.scanInputs user rest mixin ext c').1, ∃ amount offsets image source index,
          .toKey amount offsets image ∈ input :: rest ∧ user.getSpendable source = some index ∧
            r = .spend ⟨⟨p.height, (p.view c).1⟩, image, source, p.timestamp, p.tx.unlockTime,
              max 1 offsets.length - 1, p.unencryptedId.1, p.unencryptedId.2, index⟩) ∧
          p.view (p.scanInputs user rest mixin ext c').2.2.2 = p.view c := by
      intro mixin ext c' hc'
      obtain ⟨hreports, hview⟩ := ih mixin ext c'
      rw [hc'] at hreports hview
      refine ⟨fun r hr => ?_, hview⟩
      obtain ⟨amount, offsets, image, source, index, hin, hfound, he⟩ := hreports r hr
      exact ⟨amount, offsets, image, source, index, List.mem_cons_of_mem _ hin, hfound, he⟩
    cases input with
    | toKey amount keyOffsets image =>
      obtain ⟨hreports, hview⟩ := hlater (max 1 keyOffsets.length - 1) ext _
        (scanOffsets_view user amount image (max 1 keyOffsets.length - 1) 0 keyOffsets c)
      refine ⟨fun r hr => ?_, hview⟩
      rcases List.mem_append.mp hr with hr | hr
      · obtain ⟨source, index, hfound, he⟩ := scanOffsets_traced user amount image _ keyOffsets 0 c r hr
        exact ⟨amount, keyOffsets, image, source, index, List.mem_cons_self, hfound, he⟩
      · exact hreports r hr
    | gen => exact hlater mixin (ext ||| coinbaseOutput) c rfl
    | other => exact hlater mixin ext c rfl

theorem at?_some {α : Type} {values : List α} {index : Nat} {value : α} (h : at? values index = .ok value) :
    values[index]? = some value := by
  unfold at? at h
  split at h
  · rename_i found hfound
    cases h
    exact hfound
  · cases h

def FromIndex (p : Pass) (hash : Hash) (index : Nat) (r : Report) : Prop :=
  ∃ o, r = .output o ∧ o.link = ⟨p.height, hash⟩ ∧ index ≤ o.spendMeta.index ∧
    p.outIds[o.spendMeta.index]? = some o.spendMeta.id.low

theorem FromIndex.mono {hash : Hash} {index index' : Nat} {r : Report} (h : FromIndex p hash index' r)
    (hle : index ≤ index') : FromIndex p hash index r := by
  obtain ⟨o, he, hlink, hindex, hid⟩ := h
  exact ⟨o, he, hlink, hle.trans hindex, hid⟩

theorem scanOutputs_traced (user : Account) (derived : Derivation) (mixin : Nat) (outs : List TxOut) :
    ∀ (index ext : Nat) (id : Nat × Nat) (c c₁ : Carry) (reports : List Report),
      p.scanOutputs user derived mixin index outs ext id c = .ok (reports, c₁) →
        (∀ r ∈ reports, FromIndex p (p.view c).1 index r) ∧ reports.Pairwise OtherIndex := by
  induction outs with
  | nil =>
    intro index ext id c c₁ reports h
    cases h
    exact ⟨fun r hr => (by cases hr), List.Pairwise.nil⟩
  | cons out rest ih =>
    intro index ext id c c₁ reports h
    have hskip : ∀ {ext : Nat} {id : Nat × Nat} {c' c₁ : Carry} {reports : List Report}, p.view c' = p.view c →
        p.scanOutputs user derived mixin (index + 1) rest ext id c' = .ok (reports, c₁) →
          (∀ r ∈ reports, FromIndex p (p.view c).1 (index + 1) r) ∧ reports.Pairwise OtherIndex := by
      intro ext id c' c₁ reports hc' h
      have hrest := ih (index + 1) ext id c' c₁ reports h
      rwa [hc'] at hrest
    have hweaken : ∀ {reports : List Report}, ((∀ r ∈ reports, FromIndex p (p.view c).1 (index + 1) r) ∧
        reports.Pairwise OtherIndex) → (∀ r ∈ reports, FromIndex p (p.view c).1 index r) ∧ reports.Pairwise OtherIndex :=
      fun h => ⟨fun r hr => (h.1 r hr).mono (Nat.le_succ _), h.2⟩
    unfold Pass.scanOutputs at h
    split at h
    · exact hweaken (hskip rfl h)
    · rename_i outPub _
      obtain ⟨tagged, -, h⟩ := bind_ok.mp h
      split at h
      · exact hweaken (hskip rfl h)
      · obtain ⟨owner?, -, h⟩ := bind_ok.mp h
        rcases owner? with _ | owner
        · exact hweaken (hskip rfl h)
        · obtain ⟨decoded?, -, h⟩ := bind_ok.mp h
          rcases decoded? with _ | decoded
          · exact hweaken (hskip (getPrefixHash_view c) h)
          · obtain ⟨outId, hid, h⟩ := bind_ok.mp h
            obtain ⟨⟨more, c₂⟩, hmore, h⟩ := bind_ok.mp h
            cases h
            have hrest := hskip (show p.view (p.getTxHash (p.getPrefixHash c).2).2 = p.view c from rfl) hmore
            refine ⟨fun r hr => ?_, List.pairwise_cons.mpr ⟨fun r hr o o' he he' hindex => ?_, hrest.2⟩⟩
            · rcases List.mem_cons.mp hr with rfl | hr
              · exact ⟨_, rfl, rfl, Nat.le_refl index, at?_some hid⟩
              · exact (hrest.1 r hr).mono (Nat.le_succ _)
            · obtain ⟨found, hfound, -, hlow, -⟩ := hrest.1 r hr
              cases hfound.symm.trans he'
              cases he
              rw [← hindex] at hlow
              exact absurd hlow (Nat.not_succ_le_self index)

theorem scanUser_traced {user : Account} {c c₁ : Carry} {reports : List Report}
    (h : p.scanUser user c = .ok (reports, c₁)) : Backed p ⟨p.height, (p.view c).1⟩ user reports := by
  have hnone : Backed p ⟨p.height, (p.view c).1⟩ user [] :=
    ⟨fun r hr => (by cases hr), fun s hs => (by cases hs), fun o ho => (by cases ho), List.Pairwise.nil⟩
  unfold Pass.scanUser at h
  split at h
  · cases h
    exact hnone
  · split at h
    · cases h
      exact hnone
    · rename_i derived _
      obtain ⟨⟨outputs, c₂⟩, houtputs, h⟩ := bind_ok.mp h
      cases h
      obtain ⟨hspends, hview⟩ := @scanInputs_traced p user p.tx.vin 0 0 { c with additional := p.additional user c }
      obtain ⟨houts, horder⟩ := scanOutputs_traced user derived _ p.tx.vout _ _ _ _ _ _ houtputs
      rw [hview] at houts
      refine ⟨fun r hr => ?_, fun s hs => ?_, fun o ho => ?_, List.pairwise_append.mpr ⟨?_, horder, ?_⟩⟩
      · rcases List.mem_append.mp hr with hr | hr
        · obtain ⟨amount, offsets, image, source, index, -, -, rfl⟩ := hspends r hr
          rfl
        · obtain ⟨o, rfl, hlink, -⟩ := houts r hr
          exact hlink
      · rcases List.mem_append.mp hs with hs | hs
        · obtain ⟨amount, offsets, image, source, index, hin, hfound, he⟩ := hspends _ hs
          cases he
          exact ⟨amount, offsets, index, hin, hfound, rfl⟩
        · obtain ⟨o, ho, -⟩ := houts _ hs
          cases ho
      · rcases List.mem_append.mp ho with ho | ho
        · obtain ⟨amount, offsets, image, source, index, -, -, he⟩ := hspends _ ho
          cases he
        · obtain ⟨found, he, -, -, hid⟩ := houts _ ho
          cases he
          exact hid
      · refine List.pairwise_of_forall_mem_list fun r hr r' hr' o o' he => ?_
        obtain ⟨amount, offsets, image, source, index, -, -, hspend⟩ := hspends r hr
        cases hspend.symm.trans he
      · intro r hr r' hr' o o' he
        obtain ⟨amount, offsets, image, source, index, -, -, hspend⟩ := hspends r hr
        cases hspend.symm.trans he

end Reports

/-! ## Keys -/

/-- The rows of two reports have one key. -/
def SameKey : Report → Report → Prop
  | .output o, .output o' => o.sort = o'.sort
  | .spend s, .spend s' => s.sort = s'.sort
  | _, _ => False

/-- The transaction repeats no index of an output and no image. -/
structure SoundTx (t : BlockTx) : Prop where
  ids : t.outIds.Nodup
  images : (imagesOf t.tx).Nodup

theorem SameKey.link {r r' : Report} (h : SameKey r r') : linkOf r = linkOf r' := by
  cases r with
  | spend s =>
    cases r' with
    | spend s' => exact congrArg Prod.fst (toLex.injective h)
    | output o' => exact h.elim
  | output o =>
    cases r' with
    | spend s' => exact h.elim
    | output o' => exact congrArg Prod.fst (toLex.injective h)

theorem Backed.key {p : Pass} {link : TransactionLink} {user : Account} {reports : List Report}
    (h : Backed p link user reports) (hids : p.outIds.Nodup) (himages : (imagesOf p.tx).Nodup) {r r' : Report}
    (hr : r ∈ reports) (hr' : r' ∈ reports) (hkey : SameKey r r') : r = r' := by
  cases r with
  | spend s =>
    cases r' with
    | output o' => exact hkey.elim
    | spend s' =>
      obtain ⟨amount, offsets, index, hin, hindex, he⟩ := h.spends s hr
      obtain ⟨amount', offsets', index', hin', hindex', he'⟩ := h.spends s' hr'
      have hpair := toLex.injective (congrArg Prod.snd (toLex.injective hkey))
      have himage : s.image = s'.image := congrArg Prod.fst hpair
      have hsource : s.source = s'.source := congrArg Prod.snd hpair
      rw [himage] at hin
      rw [hsource, hindex'] at hindex
      cases hindex
      rw [he, he', himage, hsource, images_inj himages hin hin']
  | output o =>
    cases r' with
    | spend s' => exact hkey.elim
    | output o' =>
      by_contra hne
      have hid : o.spendMeta.id = o'.spendMeta.id := congrArg Prod.snd (toLex.injective hkey)
      have hat := h.outputs o hr
      have hat' := h.outputs o' hr'
      rw [← hid, ← hat] at hat'
      have hlt : o'.spendMeta.index < p.outIds.length := by
        by_contra hge
        rw [List.getElem?_eq_none (Nat.not_lt.mp hge), hat] at hat'
        cases hat'
      have hindex : o'.spendMeta.index = o.spendMeta.index := (List.getElem?_inj hlt hids).mp hat'
      exact h.order.forall hr hr' hne o o' rfl rfl hindex.symm

/-- What is reported of a transaction for an account is traced to it. -/
theorem reportsOf_traced {monero : Monero} {height timestamp : Nat} {t : BlockTx} {user : Account} :
    reportsOf monero height timestamp t user = [] ∨ ∃ p : Pass, p.tx = t.tx ∧ p.outIds = t.outIds ∧
      Backed p ⟨height, hashOf monero t⟩ user (reportsOf monero height timestamp t user) := by
  unfold reportsOf ownershipTest
  split
  · rename_i reports hreports
    split at hreports
    · cases hreports
    · split at hreports
      · cases hreports
        exact Or.inl rfl
      · rename_i key hkey
        obtain ⟨⟨found, c₁⟩, huser, hreports⟩ := bind_ok.mp hreports
        obtain ⟨more, hmore, hreports⟩ := bind_ok.mp hreports
        cases hreports
        exact Or.inr ⟨_, rfl, rfl, scanUser_traced huser⟩
  · exact Or.inl rfl

theorem reportsOf_link {monero : Monero} {height timestamp : Nat} {t : BlockTx} {user : Account} {r : Report}
    (hr : r ∈ reportsOf monero height timestamp t user) : linkOf r = ⟨height, hashOf monero t⟩ := by
  rcases @reportsOf_traced monero height timestamp t user with he | ⟨p, -, -, htraced⟩
  · rw [he] at hr
    cases hr
  · exact htraced.links r hr

theorem reportsOf_image {monero : Monero} {height timestamp : Nat} {t : BlockTx} {user : Account} {s : Spend}
    (hs : .spend s ∈ reportsOf monero height timestamp t user) : s.image ∈ imagesOf t.tx := by
  rcases @reportsOf_traced monero height timestamp t user with he | ⟨p, htx, -, htraced⟩
  · rw [he] at hs
    cases hs
  · obtain ⟨amount, offsets, index, hin, -⟩ := htraced.spends s hs
    rw [htx] at hin
    exact List.mem_filterMap.mpr ⟨_, hin, rfl⟩

theorem reportsOf_key {monero : Monero} {height timestamp : Nat} {t : BlockTx} {user : Account} (ht : SoundTx t)
    {r r' : Report} (hr : r ∈ reportsOf monero height timestamp t user)
    (hr' : r' ∈ reportsOf monero height timestamp t user) (hkey : SameKey r r') : r = r' := by
  rcases @reportsOf_traced monero height timestamp t user with he | ⟨p, htx, hids, htraced⟩
  · rw [he] at hr
    cases hr
  · refine htraced.key ?_ ?_ hr hr' hkey
    · rw [hids]
      exact ht.ids
    · rw [htx]
      exact ht.images

/-! ## Passes -/

/-- The account was found to have received, or spent, this. -/
def Has (v : Account) : Report → Prop
  | .spend s => s ∈ v.spends
  | .output o => o ∈ v.outputs

/-- No two rows of the account have one key. -/
def Keyed (v : Account) : Prop := ∀ r r', Has v r → Has v r' → SameKey r r' → r = r'

/-- The report is of a transaction of the block. -/
def OfBlock (lib : Monero) (height : Nat) (txes : List BlockTx) (r : Report) : Prop :=
  ∃ t ∈ txes, linkOf r = ⟨height, hashOf lib t⟩ ∧ ∀ s, r = .spend s → s.image ∈ imagesOf t.tx

structure SoundBlock (lib : Monero) (block : BlockData) : Prop where
  hashes : (block.txes.map (hashOf lib)).Nodup
  txes : ∀ t ∈ block.txes, SoundTx t

section Keys

variable {lib : Monero} {lookup : Lookup}

theorem deliver_has (reports : List Report) : ∀ (v : Account) (r : Report), Has (deliver v reports) r →
    Has v r ∨ r ∈ reports := by
  induction reports with
  | nil => exact fun v r hr => Or.inl hr
  | cons first rest ih =>
    intro v r hr
    rcases ih _ r hr with hr | hr
    · have hstep : Has v r ∨ r = first := by
        cases first with
        | spend spend =>
          cases r with
          | output o => exact Or.inl hr
          | spend s =>
            rcases List.mem_append.mp hr with hr | hr
            · exact Or.inl hr
            · exact Or.inr (by rw [List.mem_singleton.mp hr])
        | output out =>
          have hstep : v.scanStep (stepOf (.output out)) = v ∨
              ((v.scanStep (stepOf (.output out))).outputs = v.outputs ++ [out] ∧
                (v.scanStep (stepOf (.output out))).spends = v.spends) := by
            simp only [stepOf, Account.scanStep, Account.addOut]
            by_cases hdup : v.pubs.find? (fun pub => out.pub ≤ pub) = some out.pub
            · exact Or.inl (by simp [hdup])
            · exact Or.inr (by simp [hdup])
          rcases hstep with he | ⟨houtputs, hspends⟩
          · rw [he] at hr
            exact Or.inl hr
          · cases r with
            | spend s =>
              unfold Has at hr ⊢
              rw [hspends] at hr
              exact Or.inl hr
            | output o =>
              unfold Has at hr ⊢
              rw [houtputs] at hr
              rcases List.mem_append.mp hr with hr | hr
              · exact Or.inl hr
              · exact Or.inr (by rw [List.mem_singleton.mp hr])
      rcases hstep with hr | rfl
      · exact Or.inl hr
      · exact Or.inr List.mem_cons_self
    · exact Or.inr (List.mem_cons_of_mem _ hr)

theorem hashOf_testWith (height i : Nat) (t : BlockTx) : hashOf (testWith lib lookup height i) t = hashOf lib t := rfl

theorem passTxes_has {height timestamp : Nat} (txes : List BlockTx) : ∀ (i : Nat) (v : Account) (r : Report),
    Has (passTxes lib lookup height timestamp i txes v) r → Has v r ∨ OfBlock lib height txes r := by
  induction txes with
  | nil => exact fun i v r hr => Or.inl hr
  | cons t rest ih =>
    intro i v r hr
    rcases ih _ _ r hr with hr | ⟨t', ht', hof⟩
    · rcases deliver_has _ v r hr with hr | hr
      · exact Or.inl hr
      · refine Or.inr ⟨t, List.mem_cons_self, (reportsOf_link hr).trans (by rw [hashOf_testWith]), ?_⟩
        rintro s rfl
        exact reportsOf_image hr
    · exact Or.inr ⟨t', List.mem_cons_of_mem _ ht', hof⟩

/-- What a pass finds is of a transaction of one of its blocks. -/
theorem pass_has (blocks : List BlockData) : ∀ (start : Nat) (v : Account) (r : Report),
    Has (pass lib lookup start blocks v) r →
      Has v r ∨ ∃ k block, blocks[k]? = some block ∧ OfBlock lib (start + 1 + k) block.txes r := by
  induction blocks with
  | nil => exact fun start v r hr => Or.inl hr
  | cons block rest ih =>
    intro start v r hr
    rcases ih _ _ r hr with hr | ⟨k, block', hblock', hof⟩
    · rcases passTxes_has _ 0 v r hr with hr | hof
      · exact Or.inl hr
      · exact Or.inr ⟨0, block, rfl, hof⟩
    · refine Or.inr ⟨k + 1, block', hblock', ?_⟩
      rwa [show start + 1 + (k + 1) = start + 1 + 1 + k by omega]

theorem passTxes_keyed {height timestamp : Nat} (txes : List BlockTx) : ∀ (i : Nat) (v : Account),
    (txes.map (hashOf lib)).Nodup → (∀ t ∈ txes, SoundTx t) → Keyed v →
      (∀ r, Has v r → ∀ t ∈ txes, linkOf r ≠ ⟨height, hashOf lib t⟩) →
        Keyed (passTxes lib lookup height timestamp i txes v) := by
  induction txes with
  | nil => exact fun i v _ _ hv _ => hv
  | cons t rest ih =>
    intro i v hhashes htxes hv hold
    obtain ⟨hnew, hrest⟩ := List.nodup_cons.mp hhashes
    have hlink : ∀ r ∈ reportsOf (testWith lib lookup height i) height timestamp t v,
        linkOf r = ⟨height, hashOf lib t⟩ := fun r hr => (reportsOf_link hr).trans (by rw [hashOf_testWith])
    refine ih (i + 1) _ hrest (fun t' ht' => htxes t' (List.mem_cons_of_mem _ ht')) (fun r r' hr hr' hkey => ?_)
      fun r hr t' ht' => ?_
    · -- the rows that were there are of other transactions
      rcases deliver_has _ v r hr with hr | hr
      · rcases deliver_has _ v r' hr' with hr' | hr'
        · exact hv r r' hr hr' hkey
        · exact absurd (hkey.link.trans (hlink r' hr')) (hold r hr t List.mem_cons_self)
      · rcases deliver_has _ v r' hr' with hr' | hr'
        · exact absurd (hkey.link.symm.trans (hlink r hr)) (hold r' hr' t List.mem_cons_self)
        · exact reportsOf_key (htxes t List.mem_cons_self) hr hr' hkey
    · rcases deliver_has _ v r hr with hr | hr
      · exact hold r hr t' (List.mem_cons_of_mem _ ht')
      · rw [hlink r hr]
        intro he
        have hhash : hashOf lib t = hashOf lib t' := congrArg TransactionLink.txHash he
        exact hnew (List.mem_map.mpr ⟨t', ht', hhash.symm⟩)

/-- On sound blocks a pass finds rows with keys of their own. -/
theorem pass_keyed (blocks : List BlockData) : ∀ (start : Nat) (v : Account), (∀ b ∈ blocks, SoundBlock lib b) →
    Keyed v → (∀ r, Has v r → (linkOf r).height ≤ start) → Keyed (pass lib lookup start blocks v) := by
  induction blocks with
  | nil => exact fun start v _ hv _ => hv
  | cons block rest ih =>
    intro start v hsound hv hold
    have hblock := hsound block List.mem_cons_self
    refine ih (start + 1) _ (fun b hb => hsound b (List.mem_cons_of_mem _ hb))
      (passTxes_keyed _ 0 v hblock.hashes hblock.txes hv fun r hr t _ he => ?_) fun r hr => ?_
    · have hle := hold r hr
      rw [he] at hle
      exact absurd hle (Nat.not_succ_le_self start)
    · rcases passTxes_has _ 0 v r hr with hr | ⟨t, -, he, -⟩
      · exact (hold r hr).trans (Nat.le_succ start)
      · rw [he]

def outputOf : Report → Option Output
  | .spend _ => none
  | .output out => some out

theorem deliver_outputs (reports : List Report) : ∀ v : Account, ∃ accepted,
    accepted.Sublist (reports.filterMap outputOf) ∧ (deliver v reports).outputs = v.outputs ++ accepted := by
  induction reports with
  | nil => exact fun v => ⟨[], List.Sublist.refl _, (List.append_nil _).symm⟩
  | cons first rest ih =>
    intro v
    obtain ⟨accepted, hsub, houtputs⟩ := ih (v.scanStep (stepOf first))
    cases first with
    | spend spend => exact ⟨accepted, hsub, houtputs⟩
    | output out =>
      have hcons : ((Report.output out :: rest).filterMap outputOf) = out :: rest.filterMap outputOf := rfl
      by_cases hdup : v.pubs.find? (fun pub => out.pub ≤ pub) = some out.pub
      · refine ⟨accepted, hsub.trans (hcons ▸ List.sublist_cons_self _ _), houtputs.trans ?_⟩
        simp [stepOf, Account.scanStep, Account.addOut, hdup]
      · refine ⟨out :: accepted, hcons ▸ hsub.cons_cons out, houtputs.trans ?_⟩
        simp [stepOf, Account.scanStep, Account.addOut, hdup]

theorem reportsOf_nodup {monero : Monero} {height timestamp : Nat} {t : BlockTx} {user : Account} :
    ((reportsOf monero height timestamp t user).filterMap outputOf).Nodup := by
  rcases @reportsOf_traced monero height timestamp t user with he | ⟨p, -, -, htraced⟩
  · rw [he]
    exact List.nodup_nil
  · refine List.Pairwise.filterMap outputOf (R := OtherIndex) (fun r r' hrr o ho o' ho' he => ?_) htraced.order
    cases r with
    | spend s => cases ho
    | output found =>
      cases r' with
      | spend s => cases ho'
      | output found' =>
        cases ho
        cases ho'
        exact hrr o o' rfl rfl (congrArg (fun x => x.spendMeta.index) he)

theorem passTxes_nodup {height timestamp : Nat} (txes : List BlockTx) : ∀ (i : Nat) (v : Account),
    (txes.map (hashOf lib)).Nodup → v.outputs.Nodup →
      (∀ o ∈ v.outputs, ∀ t ∈ txes, o.link ≠ ⟨height, hashOf lib t⟩) →
        (passTxes lib lookup height timestamp i txes v).outputs.Nodup := by
  induction txes with
  | nil => exact fun i v _ hv _ => hv
  | cons t rest ih =>
    intro i v hhashes hv hold
    obtain ⟨hnew, hrest⟩ := List.nodup_cons.mp hhashes
    obtain ⟨accepted, hsub, houtputs⟩ := deliver_outputs (reportsOf (testWith lib lookup height i) height timestamp t v) v
    have hlink : ∀ o ∈ accepted, o.link = ⟨height, hashOf lib t⟩ := by
      intro o ho
      obtain ⟨r, hr, he⟩ := List.mem_filterMap.mp (hsub.subset ho)
      have hlink := reportsOf_link hr
      cases r with
      | spend s => cases he
      | output found =>
        cases he
        exact hlink
    refine ih (i + 1) _ hrest ?_ ?_
    · rw [houtputs]
      refine List.nodup_append.mpr ⟨hv, hsub.nodup reportsOf_nodup, fun o ho o' ho' he => ?_⟩
      exact hold o ho t List.mem_cons_self (he ▸ hlink o' ho')
    · rw [houtputs]
      intro o ho t' ht'
      rcases List.mem_append.mp ho with ho | ho
      · exact hold o ho t' (List.mem_cons_of_mem _ ht')
      · rw [hlink o ho]
        intro he
        have hhash : hashOf lib t = hashOf lib t' := congrArg TransactionLink.txHash he
        exact hnew (List.mem_map.mpr ⟨t', ht', hhash.symm⟩)

/-- No output is found twice. -/
theorem pass_nodup (blocks : List BlockData) : ∀ (start : Nat) (v : Account), (∀ b ∈ blocks, SoundBlock lib b) →
    v.outputs.Nodup → (∀ o ∈ v.outputs, o.link.height ≤ start) → (pass lib lookup start blocks v).outputs.Nodup := by
  induction blocks with
  | nil => exact fun start v _ hv _ => hv
  | cons block rest ih =>
    intro start v hsound hv hold
    refine ih (start + 1) _ (fun b hb => hsound b (List.mem_cons_of_mem _ hb))
      (passTxes_nodup _ 0 v (hsound block List.mem_cons_self).hashes hv fun o ho t _ he => ?_) fun o ho => ?_
    · have hle := hold o ho
      rw [he] at hle
      exact absurd hle (Nat.not_succ_le_self start)
    · rcases passTxes_has _ 0 v (.output o) ho with ho | ⟨t, -, he, -⟩
      · exact (hold o ho).trans (Nat.le_succ start)
      · exact le_of_eq (congrArg TransactionLink.height he)

end Keys

end Lws.Scanner
