/-
  Lws.Db.Seek — looking for outputs and spends by the bytes of a key (`output_compare`,
  `spend_compare`, `rollback_outputs` and `rollback_spends` in `src/db/storage.cpp`;
  `operator<` of `transaction_link` in `src/db/data.cpp`).

  A rollback looks for the eight bytes of a height, an event for the link and the id of its
  output. The comparators take any such key; what they compare is their reading
  (`output_compares`, `spend_compares`), in which a key that ends early is below every row it
  is the front of. So the first row not below a height is the first at or above it, and what
  is deleted from there on is every row at or above it (`compare_seek_rollback`).

  The rows here are bytes. What the rest of `Lws.Db` says of rolled back tables is said of
  the records these are read as, and it makes no difference when they are read
  (`rollbackOutputRows_read`, `rollbackSpendRows_read`).
-/

import Lws.Lmdb.Truncated
import Lws.Lmdb.Recode
import Lws.Db.Migration
import Lws.Db.ChainProofs

namespace Lws.Db

open Lws.Lmdb

def heightOf (bytes : Bytes) : Nat := uint (bytes.take 8)

/-- `operator<(transaction_link, transaction_link)`. -/
def linkLess (left right : Bytes) : Bool :=
  if heightOf left = heightOf right then memcmp ((left.drop 8).take 32) ((right.drop 8).take 32) == .lt
  else decide (heightOf left < heightOf right)

def heightKey (height : UInt64) : Bytes := (BigEndian.toBytes 8 height.toNat).reverse

/-- `MONERO_FIELD(spend, image)`. -/
def imageOf (bytes : Bytes) : KeyImage := BigEndian.ofBytes ((bytes.drop 40).take 32)

def sourceOf (bytes : Bytes) : OutputId := outputIdOf (bytes.drop 72)

abbrev OutputRows := outputOrder.Sized outputLayout.size

abbrev SpendRows := spendOrder.Sized spendLayout.size

def rollbackOutputRows (user : Nat) (height : UInt64) (outputs : OutputRows) : Except Error OutputRows := do
  let (_, outputs) ← outputs.eachFrom user (fun row => outputCompare (heightKey height) row.1 != .gt)
    (fun _ _ => .ok ((), true)) ()
  .ok outputs

/-- One row of the walk: its image is deleted, then the row. -/
def dropRowImage (images : Images) (r : Nat × Row spendLayout.size) : Except Error (Images × Bool) := do
  let _ ← require images (sourceOf r.2.1) (imageOf r.2.1)
  .ok (images.erase (sourceOf r.2.1) (imageOf r.2.1), true)

def rollbackSpendRows (user : Nat) (height : UInt64) (spends : SpendRows) (images : Images) :
    Except Error (SpendRows × Images) := do
  let (images, spends) ←
      spends.eachFrom user (fun row => spendCompare (heightKey height) row.1 != .gt) dropRowImage images
  .ok (spends, images)

/-! ## What the comparators read -/

theorem length_heightKey (height : UInt64) : (heightKey height).length = 8 := by simp [heightKey]

theorem uint_heightKey (height : UInt64) : uint (heightKey height) = height.toNat := by
  rw [uint, heightKey, List.reverse_reverse]
  exact BigEndian.ofBytes_toBytes_of_lt height.toNat_lt

def idReading : Bytes → WithBot (OutputId ×ₗ Unit) := readThen 16 outputIdOf fun _ => ()

def outputTail : Bytes → WithBot (Hash ×ₗ WithBot (OutputId ×ₗ Unit)) := readThen 32 BigEndian.ofBytes idReading

def spendTail : Bytes → WithBot (Hash ×ₗ WithBot (KeyImage ×ₗ WithBot (OutputId ×ₗ Unit))) :=
  readThen 32 BigEndian.ofBytes (readThen 32 BigEndian.ofBytes idReading)

theorem output_compares : Compares 56 outputCompare (readThen 8 uint outputTail) := by
  have h := ((compares_nil.step 16 outputIdOf).step 32 BigEndian.ofBytes).step 8 uint
  intro left right
  refine Eq.trans ?_ (h left right)
  simp only [outputCompare, compare32bytes, compareBytes_eq, Ordering.then_eq]

theorem spend_compares : Compares 88 spendCompare (readThen 8 uint spendTail) := by
  have h := (((compares_nil.step 16 outputIdOf).step 32 BigEndian.ofBytes).step 32 BigEndian.ofBytes).step 8 uint
  intro left right
  refine Eq.trans ?_ (h left right)
  simp only [spendCompare, compare32bytes, compareBytes_eq, Ordering.then_eq]

/-! ## The order of the links -/

theorem linkLess_iff {a b : Bytes} (ha : 40 ≤ a.length) (hb : 40 ≤ b.length) :
    linkLess a b = true ↔ linkOf a < linkOf b := by
  have hmem : memcmp ((a.drop 8).take 32) ((b.drop 8).take 32) = compare (linkOf a).txHash (linkOf b).txHash := by
    apply memcmp_eq
    simp only [List.length_take, List.length_drop]
    omega
  rw [← compare_lt_iff_lt, compare_link, Ordering.then_eq_lt, compare_lt_iff_lt, compare_eq_iff_eq, linkLess, hmem]
  have ha : heightOf a = (linkOf a).height := rfl
  have hb : heightOf b = (linkOf b).height := rfl
  rw [ha, hb]
  by_cases heq : (linkOf a).height = (linkOf b).height
  · simp [heq]
  · simp [heq]

/-- A comparator puts one row before another if its link is the lesser, and never if it is the greater. -/
structure AgreesWithLink {S : Type} [LinearOrder S] (order : RowOrder S) : Prop where
  lesser : ∀ a b, order.Full a → order.Full b → linkLess a b = true → order.compare a b = .lt
  greater : ∀ a b, order.Full a → order.Full b → linkLess b a = true → order.compare a b ≠ .lt

theorem agreesWithLink {T : Type} [LinearOrder T] (order : RowOrder (TransactionLink ×ₗ T))
    (hextent : 40 ≤ order.extent)
    (hsort : ∀ bytes, (ofLex (order.sort bytes)).1 = linkOf bytes) : AgreesWithLink order := by
  have hlt : ∀ a b, order.Full a → order.Full b → linkLess a b = true → order.sort a < order.sort b := by
    intro a b ha hb h
    rw [linkLess_iff (hextent.trans ha) (hextent.trans hb), ← hsort, ← hsort] at h
    exact Prod.Lex.lt_iff.mpr (Or.inl h)
  constructor
  · intro a b ha hb h
    exact (order.lt_iff ha hb).mpr (hlt a b ha hb h)
  · intro a b ha hb h
    rw [Ne, order.lt_iff ha hb, not_lt]
    exact (hlt b a hb ha h).le

/-! ## Searches -/

/-- A search stops at the first row its key is not above, wherever the key ends; for a height that is
    the first row at or above it, and for all the sort fields the row that has them, if one does. -/
structure Seeks {S : Type} [LinearOrder S] (order : RowOrder S) : Prop where
  lower : ∀ rows, order.DupSorted rows → ∀ (key : Bytes) (i : Nat),
    StopsAt (order.compare key) rows i ↔ i = rows.findIdx fun row => order.compare key row != .gt
  height : ∀ rows, order.DupSorted rows → ∀ (height : UInt64) (i : Nat),
    StopsAt (order.compare (heightKey height)) rows i ↔ i = rows.findIdx fun row => decide (height.toNat ≤ heightOf row)
  exact : ∀ rows, order.DupSorted rows → ∀ key, order.Full key → ∀ i, StopsAt (order.compare key) rows i → ∀ row,
    rows[i]? = some row ∧ order.compare key row = .eq ↔ row ∈ rows ∧ order.sort row = order.sort key

section Seeks

variable {C : Type} [LinearOrder C] {tail : Bytes → WithBot C}

/-- A row is not below a height exactly when it is at or above it. -/
theorem notBelow_height {extent : Nat} {compare : Bytes → Bytes → Ordering}
    (h : Compares extent compare (readThen 8 uint tail)) (htail : tail [] = ⊥) (height : UInt64) {row : Bytes}
    (hrow : 8 ≤ row.length) : (compare (heightKey height) row != .gt) = decide (height.toNat ≤ heightOf row) := by
  have hgt := h.gt_field_iff htail (length_heightKey height) hrow
  rw [uint_heightKey] at hgt
  by_cases hle : height.toNat ≤ heightOf row
  · rw [decide_eq_true hle, bne_iff_ne, Ne, hgt]
    exact not_lt.mpr hle
  · rw [decide_eq_false hle, bne_eq_false_iff_eq, hgt]
    exact not_le.mp hle

variable {S : Type} [LinearOrder S] {order : RowOrder S}

theorem seeks (h : Compares order.extent order.compare (readThen 8 uint tail)) (htail : tail [] = ⊥)
    (hextent : 8 ≤ order.extent) : Seeks order := by
  constructor
  · intro rows hrows key i
    exact h.stopsAt_iff key hrows.full hrows.sorted i
  · intro rows hrows height i
    have hnotBelow : ∀ row ∈ rows,
          (order.compare (heightKey height) row != .gt) = decide (height.toNat ≤ heightOf row) :=
      fun row hrow => notBelow_height h htail height (hextent.trans (hrows.full row hrow))
    rw [h.stopsAt_iff _ hrows.full hrows.sorted, findIdx_congr hnotBelow]
  · intro rows hrows key hkey i hlands row
    constructor
    · rintro ⟨hrow, heq⟩
      have hmem := List.mem_of_getElem? hrow
      exact ⟨hmem, ((order.strictTotal.eq_iff key row hkey (hrows.full row hmem)).mp heq).symm⟩
    · rintro ⟨hmem, hsort⟩
      have heq := (order.strictTotal.eq_iff key row hkey (hrows.full row hmem)).mpr hsort.symm
      obtain ⟨j, hj⟩ := List.getElem?_of_mem hmem
      -- a search may stop at a row that is equal, and there is one place where it stops
      have hi := (h.stopsAt_iff key hrows.full hrows.sorted i).mp hlands
      have hj' := (h.stopsAt_iff key hrows.full hrows.sorted j).mp (Or.inl ⟨row, hj, heq⟩)
      rw [hi, ← hj']
      exact ⟨hj, heq⟩

end Seeks

/-! ## Rows as records -/

def outputOf (row : Row outputLayout.size) : Output :=
  let number field := uint (outputLayout.read field row.1)
  let bytes field := BigEndian.ofBytes (outputLayout.read field row.1)
  { link := ⟨number .height, bytes .txHash⟩
    spendMeta := ⟨⟨number .idHigh, number .idLow⟩, number .amount, number .mixinCount, number .index, bytes .txPublic⟩
    timestamp := number .timestamp
    unlockTime := number .unlockTime
    txPrefixHash := bytes .txPrefixHash
    pub := bytes .pub
    ringctMask := bytes .ringctMask
    extra := number .extra
    paymentId := number .paymentId
    fee := number .fee
    recipient := ⟨number .recipientMajor, number .recipientMinor⟩ }

def spendOf (row : Row spendLayout.size) : Spend :=
  let number field := uint (spendLayout.read field row.1)
  let bytes field := BigEndian.ofBytes (spendLayout.read field row.1)
  { link := ⟨number .height, bytes .txHash⟩
    image := bytes .image
    source := ⟨number .sourceHigh, number .sourceLow⟩
    timestamp := number .timestamp
    unlockTime := number .unlockTime
    mixinCount := number .mixinCount
    length := number .length
    paymentId := number .paymentId
    sender := ⟨number .senderMajor, number .senderMinor⟩ }

theorem outputOf_sort (row : Row outputLayout.size) :
    (outputOf row).sort = outputOrder.rowSort outputLayout.size row := by
  simp [outputOf, Output.sort, RowOrder.rowSort, outputOrder, outputSort, linkOf, outputIdOf, outputLayout, Layout.read]

theorem spendOf_sort (row : Row spendLayout.size) : (spendOf row).sort = spendOrder.rowSort spendLayout.size row := by
  simp [spendOf, Spend.sort, RowOrder.rowSort, spendOrder, spendSort, linkOf, outputIdOf, spendLayout, Layout.read]

theorem spendOf_source (row : Row spendLayout.size) : (spendOf row).source = sourceOf row.1 := by
  simp [spendOf, sourceOf, outputIdOf, spendLayout, Layout.read]

theorem spendOf_image (row : Row spendLayout.size) : (spendOf row).image = imageOf row.1 := by
  simp [spendOf, imageOf, spendLayout, Layout.read]

def readOutputs (outputs : OutputRows) : Outputs := outputs.reread outputOf outputOf_sort

def readSpends (spends : SpendRows) : Spends := spends.reread spendOf spendOf_sort

/-! ## Rolling back -/

/-- The rows of a user at or above a height are gone, and no others. -/
def RowsRolledBack {S : Type} [LinearOrder S] {order : RowOrder S} {n : Nat} (user : Nat) (height : UInt64)
    (t t' : order.Sized n) : Prop :=
  ∀ r, r ∈ t' ↔ r ∈ t ∧ ¬(r.1 = user ∧ height.toNat ≤ heightOf r.2.1)

section Walk

variable {S C σ ε : Type} [LinearOrder S] [LinearOrder C] {order : RowOrder S} {tail : Bytes → WithBot C} {n : Nat}

/-- Heights only grow along the rows of a key. -/
theorem height_upClosed (h : Compares order.extent order.compare (readThen 8 uint tail)) (hextent : 8 ≤ order.extent)
    (hn : order.extent ≤ n) (height : Nat) :
    Table.UpClosed (order.rowSort n) fun row => decide (height ≤ heightOf row.1) := by
  intro a b hlt ha
  have hfull : ∀ row : Row n, order.Full row.1 := fun row => by
    rw [RowOrder.Full, row.2]
    exact hn
  have hread := (h.lt_iff (hfull a)).mp ((order.lt_iff (hfull a) (hfull b)).mpr hlt)
  rw [readThen_of_le (hextent.trans (hfull a)), readThen_of_le (hextent.trans (hfull b)), WithBot.coe_lt_coe,
    Prod.Lex.toLex_lt_toLex] at hread
  have hle : heightOf a.1 ≤ heightOf b.1 := by
    rcases hread with hlt | ⟨heq, -⟩
    · exact le_of_lt hlt
    · exact heq.le
  exact decide_eq_true ((of_decide_eq_true ha).trans hle)

/-- A walk from a height that deletes visits the rows of the user at or above it. -/
theorem eachFrom_height (h : Compares order.extent order.compare (readThen 8 uint tail)) (htail : tail [] = ⊥)
    (hextent : 8 ≤ order.extent) (hn : order.extent ≤ n) {body : σ → Nat × Row n → Except ε (σ × Bool)}
    (hd : Deletes body fun _ => true) (t : order.Sized n) (user : Nat) (height : UInt64) (s : σ) :
    t.eachFrom user (fun row => order.compare (heightKey height) row.1 != .gt) body s =
      visit body s (t.rows.filter fun r => decide (r.1 = user) && decide (height.toNat ≤ heightOf r.2.1)) >>= fun s' =>
        .ok (s', t.filter fun r => !(decide (r.1 = user) && decide (height.toNat ≤ heightOf r.2.1) && true)) := by
  have hnotBelow : (fun row : Row n => order.compare (heightKey height) row.1 != .gt)
      = fun row => decide (height.toNat ≤ heightOf row.1) := by
    funext row
    apply notBelow_height h htail
    rw [row.2]
    exact hextent.trans hn
  rw [hnotBelow, Table.eachFrom_eq t user (height_upClosed h hextent hn height.toNat) hd]

theorem rowsRolledBack_filter (t : order.Sized n) (user : Nat) (height : UInt64) :
    RowsRolledBack user height t
      (t.filter fun r => !(decide (r.1 = user) && decide (height.toNat ≤ heightOf r.2.1) && true)) := by
  intro r
  rw [Table.mem_filter, Bool.and_true, Bool.not_eq_true', ← Bool.not_eq_true, Bool.and_eq_true, decide_eq_true_eq,
    decide_eq_true_eq]

end Walk

theorem rollbackOutputRows_exact (user : Nat) (height : UInt64) (outputs : OutputRows) :
    ∃ outputs', rollbackOutputRows user height outputs = .ok outputs' ∧
      RowsRolledBack user height outputs outputs' := by
  refine ⟨_, ?_, rowsRolledBack_filter outputs user height⟩
  have hwalk := eachFrom_height output_compares rfl (by decide) (by decide) deletes_true outputs user height ()
  rw [visit_true] at hwalk
  exact congrArg (· >>= fun x : Unit × OutputRows => Except.ok x.2) hwalk

theorem dropRowImage_eq (images : Images) (r : Nat × Row spendLayout.size) :
    dropRowImage images r = dropImage images (rereadRow spendOf r) := by
  simp only [dropRowImage, dropImage, rereadRow, spendOf_source, spendOf_image]

theorem deletes_dropRowImage : Deletes dropRowImage fun _ => true := by
  intro images r images' b h
  rw [dropRowImage_eq] at h
  exact (dropImage_ok h).1

/-- Rolling back the rows, read as records, is rolling back the records. -/
theorem rollbackOutputRows_read (user : Nat) (height : UInt64) (outputs : OutputRows) :
    rollbackOutputs user height.toNat (readOutputs outputs) =
      (rollbackOutputRows user height outputs).map readOutputs := by
  have hnotBelow : (fun row : Row outputLayout.size => outputCompare (heightKey height) row.1 != .gt)
      = fun row => decide (height.toNat ≤ (outputOf row).link.height) := by
    funext row
    have hlen : 8 ≤ row.1.length := by
      rw [row.2]
      decide
    exact notBelow_height output_compares rfl height hlen
  have hup : Table.UpClosed Output.sort fun o => decide (height.toNat ≤ o.link.height) := by
    intro o p hlt ho
    exact decide_eq_true ((of_decide_eq_true ho).trans (output_sort_height hlt))
  have hwalk := Table.eachFrom_reread outputOf outputOf_sort outputs user hup deletes_true ()
  unfold rollbackOutputs rollbackOutputRows
  rw [hnotBelow, readOutputs, hwalk]
  rcases outputs.eachFrom user _ _ () with e | ⟨_, outputs'⟩ <;> rfl

theorem rollbackSpendRows_read (user : Nat) (height : UInt64) (spends : SpendRows) (images : Images) :
    rollbackSpends user height.toNat (readSpends spends) images =
      (rollbackSpendRows user height spends images).map fun x => (readSpends x.1, x.2) := by
  have hnotBelow : (fun row : Row spendLayout.size => spendCompare (heightKey height) row.1 != .gt)
      = fun row => decide (height.toNat ≤ (spendOf row).link.height) := by
    funext row
    have hlen : 8 ≤ row.1.length := by
      rw [row.2]
      decide
    exact notBelow_height spend_compares rfl height hlen
  have hbody : dropRowImage = fun images r => dropImage images (rereadRow spendOf r) := by
    funext images r
    exact dropRowImage_eq images r
  have hwalk :=
    Table.eachFrom_reread spendOf spendOf_sort spends user (spend_upClosed height.toNat) deletes_dropImage images
  unfold rollbackSpends rollbackSpendRows
  rw [hnotBelow, hbody]
  change (readSpends spends).eachFrom user _ dropImage images >>= _ = _
  rw [readSpends, hwalk]
  rcases spends.eachFrom user _ _ images with e | ⟨images', spends'⟩ <;> rfl

structure OwnImages (user : Nat) (height : UInt64) (spends : SpendRows) (images : Images) : Prop where
  found : ∀ r ∈ spends, r.1 = user → height.toNat ≤ heightOf r.2.1 →
    ∃ x ∈ images, x.1 = sourceOf r.2.1 ∧ x.2.value = imageOf r.2.1
  own : ∀ r ∈ spends, ∀ q ∈ spends, r.1 = user → q.1 = user →
    sourceOf r.2.1 = sourceOf q.2.1 → imageOf r.2.1 = imageOf q.2.1 → r = q

/-- The images of the spends of a user at or above a height are gone, and no others. -/
def ImagesRolledBack (user : Nat) (height : UInt64) (spends : SpendRows) (images images' : Images) : Prop :=
  ∀ x, x ∈ images' ↔ x ∈ images ∧
    ∀ r ∈ spends, r.1 = user → height.toNat ≤ heightOf r.2.1 → ¬(x.1 = sourceOf r.2.1 ∧ x.2.value = imageOf r.2.1)

theorem isImageOf_spendOf {row : Row spendLayout.size} {x : OutputId × ImageRow} :
    isImageOf (spendOf row) x ↔ x.1 = sourceOf row.1 ∧ x.2.value = imageOf row.1 := by
  rw [isImageOf, spendOf_source, spendOf_image]

theorem mem_readSpends {spends : SpendRows} {user : Nat} {s : Spend} :
    (user, s) ∈ readSpends spends ↔ ∃ r ∈ spends, r.1 = user ∧ spendOf r.2 = s := by
  show (user, s) ∈ spends.rows.map (rereadRow spendOf) ↔ _
  simp only [List.mem_map, rereadRow, Prod.mk.injEq, Table.mem_rows]

theorem rollbackSpendRows_exact {user : Nat} {height : UInt64} {spends spends' : SpendRows} {images images' : Images}
    (h : rollbackSpendRows user height spends images = .ok (spends', images')) :
    RowsRolledBack user height spends spends' ∧ ImagesRolledBack user height spends images images' := by
  constructor
  · obtain ⟨⟨im, sp⟩, hw, hout⟩ := bind_ok.mp h
    cases hout
    have hwalk :=
      eachFrom_height spend_compares rfl (by decide) (by decide) deletes_dropRowImage spends user height images
    obtain ⟨im', -, hw⟩ := bind_ok.mp (hwalk.symm.trans hw)
    cases hw
    exact rowsRolledBack_filter spends user height
  · have hread := rollbackSpendRows_read user height spends images
    rw [h] at hread
    intro x
    rw [(rollbackSpends_ok hread).2 x]
    refine and_congr_right fun _ => ⟨fun hx r hr huser hle => ?_, fun hx s hs hle => ?_⟩
    · rw [← isImageOf_spendOf]
      exact hx _ (mem_readSpends.mpr ⟨r, hr, huser, rfl⟩) hle
    · obtain ⟨r, hr, huser, rfl⟩ := mem_readSpends.mp hs
      rw [isImageOf_spendOf]
      exact hx r hr huser hle

theorem rollbackSpendRows_succeeds {user : Nat} {height : UInt64} {spends : SpendRows} {images : Images}
    (h : OwnImages user height spends images) : ∃ out, rollbackSpendRows user height spends images = .ok out := by
  have himg : ∀ s, (user, s) ∈ readSpends spends → height.toNat ≤ s.link.height → ∃ x ∈ images, isImageOf s x := by
    intro s hs hle
    obtain ⟨r, hr, huser, rfl⟩ := mem_readSpends.mp hs
    obtain ⟨x, hx, himage⟩ := h.found r hr huser hle
    exact ⟨x, hx, isImageOf_spendOf.mpr himage⟩
  have hone : ∀ s t, (user, s) ∈ readSpends spends → (user, t) ∈ readSpends spends →
      s.source = t.source → s.image = t.image → s = t := by
    intro s t hs ht hsource himage
    obtain ⟨r, hr, hruser, rfl⟩ := mem_readSpends.mp hs
    obtain ⟨q, hq, hquser, rfl⟩ := mem_readSpends.mp ht
    rw [spendOf_source, spendOf_source] at hsource
    rw [spendOf_image, spendOf_image] at himage
    rw [h.own r hr q hq hruser hquser hsource himage]
  obtain ⟨out, hout⟩ := rollbackSpends_succeeds himg hone
  rw [rollbackSpendRows_read] at hout
  rcases hrun : rollbackSpendRows user height spends images with e | out
  · rw [hrun] at hout
    cases hout
  · exact ⟨out, rfl⟩

/-- The comparators are strict total orders of the sort fields that agree with that of the links, keys
    of a height or of all the sort fields find what they stand for, and a rollback deletes the rows
    at or above its height. -/
theorem compare_seek_rollback (user : Nat) (height : UInt64) (outputs : OutputRows) (spends : SpendRows)
    (images : Images) :
    (outputOrder.StrictTotal ∧ spendOrder.StrictTotal) ∧ (AgreesWithLink outputOrder ∧ AgreesWithLink spendOrder) ∧
    (Seeks outputOrder ∧ Seeks spendOrder) ∧
    (∃ outputs', rollbackOutputRows user height outputs = .ok outputs' ∧ RowsRolledBack user height outputs outputs') ∧
    (∀ spends' images', rollbackSpendRows user height spends images = .ok (spends', images') →
      RowsRolledBack user height spends spends' ∧ ImagesRolledBack user height spends images images') ∧
    (OwnImages user height spends images → ∃ out, rollbackSpendRows user height spends images = .ok out) := by
  have hlinks : AgreesWithLink outputOrder ∧ AgreesWithLink spendOrder :=
    ⟨agreesWithLink outputOrder (by decide) fun _ => rfl, agreesWithLink spendOrder (by decide) fun _ => rfl⟩
  have hseeks : Seeks outputOrder ∧ Seeks spendOrder :=
    ⟨seeks output_compares rfl (by decide), seeks spend_compares rfl (by decide)⟩
  exact ⟨⟨outputOrder.strictTotal, spendOrder.strictTotal⟩, hlinks, hseeks,
      rollbackOutputRows_exact user height outputs,
    fun _ _ => rollbackSpendRows_exact, rollbackSpendRows_succeeds⟩

end Lws.Db
