/-
  Lws.Db.Compare — `output_compare` and `spend_compare` (`src/db/storage.cpp`), and the
  comparators of the accounts and the requests, on the bytes of the rows.

  The results of a comparator are the signs of the code's, all that the store looks at. On
  rows that hold the fields it reads, each is the order of the sort fields of
  `Lws.Db.Data` (`outputOrder`, `spendOrder`, `accountOrder`, `requestOrder`).

  The comparators of `MONERO_SORT_BY` and `MONERO_COMPARE` are outside the repository: an
  integer or the bytes at the offset of a field, and an operand too short for it is taken
  for a smaller left one.
-/

import Lws.Db.Data
import Lws.Lmdb.Bytes

namespace Lws.Db

open Lws.Lmdb

def outputIdOf (bytes : Bytes) : OutputId := ⟨uint (bytes.take 8), uint ((bytes.drop 8).take 8)⟩

def linkOf (bytes : Bytes) : TransactionLink := ⟨uint (bytes.take 8), BigEndian.ofBytes ((bytes.drop 8).take 32)⟩

def compare32bytes (left right : Bytes) : Ordering := compareBytes 32 left right

def outputCompare (left right : Bytes) : Ordering :=
  (less 8 uint left right).then <|
  (compare32bytes (left.drop 8) (right.drop 8)).then <|
  less 16 outputIdOf ((left.drop 8).drop 32) ((right.drop 8).drop 32)

def spendCompare (left right : Bytes) : Ordering :=
  (less 8 uint left right).then <|
  (compare32bytes (left.drop 8) (right.drop 8)).then <|
  (compare32bytes ((left.drop 8).drop 32) ((right.drop 8).drop 32)).then <|
  less 16 outputIdOf (((left.drop 8).drop 32).drop 32) (((right.drop 8).drop 32).drop 32)

/-- `MONERO_SORT_BY(account, id)`. -/
def accountCompare (left right : Bytes) : Ordering :=
  if left.length < 4 ∨ right.length < 4 then .lt else compare (uint (left.take 4)) (uint (right.take 4))

/-- `MONERO_COMPARE(request_info, address.spend_public)`. -/
def requestCompare (left right : Bytes) : Ordering :=
  if left.length < 64 ∨ right.length < 64 then .lt else memcmp ((left.drop 32).take 32) ((right.drop 32).take 32)

/-! ## The orders -/

/-- The sort fields of an output's bytes. -/
def outputSort (bytes : Bytes) : TransactionLink ×ₗ OutputId := toLex (linkOf bytes, outputIdOf (bytes.drop 40))

def spendSort (bytes : Bytes) : TransactionLink ×ₗ (KeyImage ×ₗ OutputId) :=
  toLex (linkOf bytes, toLex (BigEndian.ofBytes ((bytes.drop 40).take 32), outputIdOf (bytes.drop 72)))

def accountSort (bytes : Bytes) : Nat := uint (bytes.take 4)

def requestSort (bytes : Bytes) : PublicKey := BigEndian.ofBytes ((bytes.drop 32).take 32)

theorem compare_link (a b : TransactionLink) :
    compare a b = (compare a.height b.height).then (compare a.txHash b.txHash) :=
  compare_orderBy (fun l : TransactionLink => toLex (l.height, l.txHash))
    (by rintro ⟨_, _⟩ ⟨_, _⟩ h; simpa using h) a b

theorem outputIdOf_take (bytes : Bytes) : outputIdOf (bytes.take 16) = outputIdOf bytes := by
  simp [outputIdOf, List.take_take, List.drop_take]

theorem less_outputId {left right : Bytes} (hl : 16 ≤ left.length) (hr : 16 ≤ right.length) :
    less 16 outputIdOf left right = compare (outputIdOf left) (outputIdOf right) := by
  rw [less_of_le hl hr, outputIdOf_take, outputIdOf_take]

/-- The first two steps compare the links. -/
theorem compare_linkOf {left right : Bytes} (hl : 40 ≤ left.length) (hr : 40 ≤ right.length) :
    (less 8 uint left right).then (compare32bytes (left.drop 8) (right.drop 8))
      = compare (linkOf left) (linkOf right) := by
  have hl' : 32 ≤ (left.drop 8).length := by rw [List.length_drop]; omega
  have hr' : 32 ≤ (right.drop 8).length := by rw [List.length_drop]; omega
  rw [less_of_le (by omega) (by omega), compare32bytes, compareBytes_of_le hl' hr', compare_link]
  rfl

theorem outputCompare_eq {left right : Bytes} (hl : 56 ≤ left.length) (hr : 56 ≤ right.length) :
    outputCompare left right = compare (outputSort left) (outputSort right) := by
  have hid : less 16 outputIdOf ((left.drop 8).drop 32) ((right.drop 8).drop 32)
      = compare (outputIdOf (left.drop 40)) (outputIdOf (right.drop 40)) := by
    rw [List.drop_drop, List.drop_drop]
    apply less_outputId
    · rw [List.length_drop]; omega
    · rw [List.length_drop]; omega
  rw [outputCompare, outputSort, outputSort, compare_toLex, ← compare_linkOf (by omega) (by omega), hid,
    Ordering.then_assoc]

theorem spendCompare_eq {left right : Bytes} (hl : 88 ≤ left.length) (hr : 88 ≤ right.length) :
    spendCompare left right = compare (spendSort left) (spendSort right) := by
  have himage : compare32bytes ((left.drop 8).drop 32) ((right.drop 8).drop 32)
      = compare (BigEndian.ofBytes ((left.drop 40).take 32)) (BigEndian.ofBytes ((right.drop 40).take 32)) := by
    rw [List.drop_drop, List.drop_drop, compare32bytes]
    apply compareBytes_of_le
    · rw [List.length_drop]; omega
    · rw [List.length_drop]; omega
  have hid : less 16 outputIdOf (((left.drop 8).drop 32).drop 32) (((right.drop 8).drop 32).drop 32)
      = compare (outputIdOf (left.drop 72)) (outputIdOf (right.drop 72)) := by
    rw [List.drop_drop, List.drop_drop, List.drop_drop, List.drop_drop]
    apply less_outputId
    · rw [List.length_drop]; omega
    · rw [List.length_drop]; omega
  rw [spendCompare, spendSort, spendSort, compare_toLex, compare_toLex, ← compare_linkOf (by omega) (by omega), himage,
    hid, Ordering.then_assoc]

/-- Fields in the first `n` bytes are those of every longer row. -/
theorem take_drop_append {m k n : Nat} {bytes : Bytes} (tail : Bytes) (h : n ≤ bytes.length) (hn : m + k ≤ n) :
    ((bytes ++ tail).drop m).take k = (bytes.drop m).take k := by
  rw [List.drop_append_of_le_length (by omega), List.take_append_of_le_length (by rw [List.length_drop]; omega)]

theorem linkOf_append {bytes : Bytes} (tail : Bytes) (h : 40 ≤ bytes.length) :
    linkOf (bytes ++ tail) = linkOf bytes := by
  rw [linkOf, linkOf, take_drop_append tail h (by omega), List.take_append_of_le_length (by omega)]

theorem outputIdOf_append {n : Nat} {bytes : Bytes} (tail : Bytes) (h : n + 16 ≤ bytes.length) :
    outputIdOf ((bytes ++ tail).drop n) = outputIdOf (bytes.drop n) := by
  rw [outputIdOf, outputIdOf, List.drop_drop, List.drop_drop, take_drop_append tail h (by omega),
    take_drop_append tail h (by omega)]

def outputOrder : RowOrder (TransactionLink ×ₗ OutputId) where
  compare := outputCompare
  sort := outputSort
  extent := 56
  compare_eq _ _ := outputCompare_eq
  sort_append a tail h := by
    rw [outputSort, outputSort, linkOf_append tail (by omega), outputIdOf_append tail (by omega)]

def spendOrder : RowOrder (TransactionLink ×ₗ (KeyImage ×ₗ OutputId)) where
  compare := spendCompare
  sort := spendSort
  extent := 88
  compare_eq _ _ := spendCompare_eq
  sort_append a tail h := by
    rw [spendSort, spendSort, linkOf_append tail (by omega), outputIdOf_append tail (by omega),
      take_drop_append tail h (by omega)]

def accountOrder : RowOrder Nat where
  compare := accountCompare
  sort := accountSort
  extent := 4
  compare_eq a b ha hb := by
    rw [accountCompare, if_neg (by omega)]
    rfl
  sort_append a tail h := by
    rw [accountSort, accountSort, List.take_append_of_le_length h]

def requestOrder : RowOrder PublicKey where
  compare := requestCompare
  sort := requestSort
  extent := 64
  compare_eq a b ha hb := by
    rw [requestCompare, if_neg (by omega)]
    apply memcmp_eq
    simp only [List.length_take, List.length_drop]
    omega
  sort_append a tail h := by
    rw [requestSort, requestSort, take_drop_append tail h (by omega)]

end Lws.Db
