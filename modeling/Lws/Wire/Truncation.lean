/-
  Lws.Wire.Truncation — what the msgpack reader accepts.

  `Values n bytes rest`: `bytes` begin with `n` complete values, every length, count and
  payload with the bytes it announces. `Cut n bytes`: they are `n` values but for the end of
  the last one, a number or extension with too few bytes for its width.

  `skip_value` takes the fixed widths off what remains without a look at how much there is.
  A cut value at the very end of an unknown field is then accepted, and that is the only way
  (`accepted_complete`).
-/

import Lws.Wire.Msgpack

namespace Lws.Wire

theorem bind_eq_ok {ε α β : Type} {x : Except ε α} {f : α → Except ε β} {b : β} :
    (x >>= f) = .ok b ↔ ∃ a, x = .ok a ∧ f a = .ok b := by
  cases x with
  | error e => simp [bind, Except.bind]
  | ok a => simp [bind, Except.bind]

theorem map_eq_ok {ε α β : Type} {x : Except ε α} {f : α → β} {b : β} : x.map f = .ok b ↔ ∃ a, x = .ok a ∧ f a = b := by
  cases x with
  | error e => simp [Except.map]
  | ok a => simp [Except.map]

/-! ## Complete values -/

/-- The number in front of what follows. -/
def announced (w : Width) (rest : List UInt8) : Option Nat :=
  if rest.length < w.bytes then none else some (BigEndian.ofBytes (rest.take w.bytes))

/-- How many bytes follow a tag, and how many values are inside it after those. -/
def Tag.extent (rest : List UInt8) : Tag → Option (Nat × Nat)
  | .fixedUnsigned _ | .fixedSigned _ | .nil | .unused | .bool _ => some (0, 0)
  | .fixedObject n => some (0, 2 * n)
  | .fixedArray n => some (0, n)
  | .fixedString n => some (n, 0)
  | .float w | .uint w | .int w => some (w.bytes, 0)
  | .fixedExtension n => some (1 + n, 0)
  | .binary w | .string w => (announced w rest).map fun n => (w.bytes + n, 0)
  | .extension w => (announced w rest).map fun n => (w.bytes + n + 1, 0)
  | .array w => (announced w rest).map fun n => (w.bytes, n)
  | .object w => (announced w rest).map fun n => (w.bytes, 2 * n)

/-- `n` complete values, one after the other, and what is left. -/
inductive Values : Nat → List UInt8 → List UInt8 → Prop where
  | nil (bytes : List UInt8) : Values 0 bytes bytes
  | cons {b : UInt8} {rest mid tail : List UInt8} {size inner n : Nat}
      (extent : (Tag.ofByte b).extent rest = some (size, inner))
      (backed : size ≤ rest.length) (inside : Values inner (rest.drop size) mid) (after : Values n mid tail) :
      Values (n + 1) (b :: rest) tail

/-- A tag whose fixed width is not there: any part of a number or fixed extension, the last
    byte of another extension. -/
def Tag.Clipped (rest : List UInt8) : Tag → Prop
  | .float w | .uint w | .int w => rest.length < w.bytes
  | .fixedExtension n => rest.length < 1 + n
  | .extension w => ∃ n, announced w rest = some n ∧ rest.length = w.bytes + n
  | _ => False

/-- `n` values of which the last is clipped. -/
inductive Cut : Nat → List UInt8 → Prop where
  | last {b : UInt8} {rest : List UInt8} (clipped : (Tag.ofByte b).Clipped rest) : Cut 1 (b :: rest)
  | cons {b : UInt8} {rest : List UInt8} {size inner n : Nat} (extent : (Tag.ofByte b).extent rest = some (size, inner))
      (backed : size ≤ rest.length) (later : Cut (inner + n) (rest.drop size)) : Cut (n + 1) (b :: rest)

theorem Values.append {m n : Nat} {a b c : List UInt8} (h : Values m a b) (h' : Values n b c) : Values (m + n) a c := by
  induction h with
  | nil bytes => simpa using h'
  | @cons _ _ _ _ _ _ k extent backed inside _ _ ih =>
    rw [show k + 1 + n = k + n + 1 by omega]
    exact .cons extent backed inside (ih h')

theorem Values.split {m n : Nat} : ∀ {a c : List UInt8}, Values (m + n) a c → ∃ b, Values m a b ∧ Values n b c := by
  induction m with
  | zero =>
    intro a c h
    exact ⟨a, .nil a, by simpa using h⟩
  | succ m ih =>
    intro a c h
    rw [show m + 1 + n = m + n + 1 by omega] at h
    cases h with
    | cons extent backed inside after =>
      obtain ⟨b, hm, hn⟩ := ih after
      exact ⟨b, .cons extent backed inside hm, hn⟩

theorem Values.cut {m : Nat} {a b : List UInt8} (h : Values m a b) : ∀ {n : Nat}, Cut n b → Cut (m + n) a := by
  induction h with
  | nil bytes =>
    intro n h
    simpa using h
  | @cons _ _ _ _ _ inner k extent backed _ _ ih ih' =>
    intro n h
    rw [show k + 1 + n = k + n + 1 by omega]
    exact .cons extent backed (ih (ih' h))

/-- A clipped tag announces more than there is. -/
theorem Tag.Clipped.extent {tag : Tag} {rest : List UInt8} (h : tag.Clipped rest) :
    ∃ size, tag.extent rest = some (size, 0) ∧ rest.length < size := by
  cases tag with
  | float w => exact ⟨_, rfl, h⟩
  | uint w => exact ⟨_, rfl, h⟩
  | int w => exact ⟨_, rfl, h⟩
  | fixedExtension n => exact ⟨_, rfl, h⟩
  | extension w =>
    obtain ⟨n, hn, hl⟩ := h
    exact ⟨w.bytes + n + 1, by simp [Tag.extent, hn], by omega⟩
  | _ => exact h.elim

/-- Complete values are not cut. -/
theorem Cut.not_values {n : Nat} {bytes : List UInt8} (h : Cut n bytes) :
    ∀ {rest : List UInt8}, ¬Values n bytes rest := by
  induction h with
  | last clipped =>
    obtain ⟨size, hsize, hlt⟩ := clipped.extent
    intro rest h
    cases h with
    | cons extent backed _ _ =>
      rw [hsize] at extent
      cases extent
      omega
  | cons hextent _ _ ih =>
    intro rest h
    cases h with
    | cons extent backed inside after =>
      rw [hextent] at extent
      cases extent
      exact ih (inside.append after)

/-! ## What is consumed -/

/-- The reader has gone through `n` values: they were complete, or all was taken and the last
    one was cut. -/
def Consumed (n : Nat) (bytes rest : List UInt8) : Prop := Values n bytes rest ∨ rest = [] ∧ Cut n bytes

theorem consumed_nil_pos {n : Nat} {rest : List UInt8} : ¬Consumed (n + 1) [] rest := by
  rintro (h | ⟨-, h⟩)
  · cases h
  · cases h

theorem Consumed.append {m n : Nat} {a b c : List UInt8} (h : Consumed m a b) (h' : Consumed n b c) :
    Consumed (m + n) a c := by
  rcases h with h | ⟨rfl, h⟩
  · rcases h' with h' | ⟨rfl, h'⟩
    · exact .inl (h.append h')
    · exact .inr ⟨rfl, h.cut h'⟩
  · -- nothing is left after a cut value, so nothing more was read
    cases n with
    | zero =>
      rcases h' with h' | ⟨-, h'⟩
      · cases h'
        exact .inr ⟨rfl, h⟩
      · cases h'
    | succ n => exact (consumed_nil_pos h').elim

/-- A tag with its bytes, and the values inside and after it. -/
theorem Consumed.cons {b : UInt8} {rest tail : List UInt8} {size inner n : Nat}
    (extent : (Tag.ofByte b).extent rest = some (size, inner)) (backed : size ≤ rest.length)
    (h : Consumed (inner + n) (rest.drop size) tail) : Consumed (n + 1) (b :: rest) tail := by
  rcases h with h | ⟨rfl, h⟩
  · obtain ⟨mid, hin, hafter⟩ := h.split
    exact .inl (.cons extent backed hin hafter)
  · exact .inr ⟨rfl, .cons extent backed h⟩

/-- Between two states of the reader: `n` values fewer to come, and gone through. -/
def Took (n : Nat) (r r' : Reader) : Prop := r.tags = r'.tags + n ∧ Consumed n r.remaining r'.remaining

/-! ## The reader's operations -/

theorem updateTagsRemaining_ok {r r' : Reader} (h : r.updateTagsRemaining = .ok r') :
    r.tags = r'.tags + 1 ∧ r'.remaining = r.remaining := by
  unfold Reader.updateTagsRemaining at h
  split at h
  · cases h
  · cases h
    exact ⟨by simp only; omega, rfl⟩

theorem incrementDepth_ok {r r' : Reader} (h : r.incrementDepth = .ok r') :
    r'.tags = r.tags ∧ r'.remaining = r.remaining := by
  unfold Reader.incrementDepth at h
  split at h
  · cases h
  · cases h
    exact ⟨rfl, rfl⟩

theorem decrementDepth_ok {r r' : Reader} (h : r.decrementDepth = .ok r') :
    r'.tags = r.tags ∧ r'.remaining = r.remaining := by
  unfold Reader.decrementDepth at h
  split at h
  · cases h
  · cases h
    exact ⟨rfl, rfl⟩

theorem getTag_ok {r r' : Reader} {tag : Tag} (h : r.getTag = .ok (tag, r')) :
    ∃ b, r.remaining = b :: r'.remaining ∧ tag = .ofByte b ∧ r'.tags = r.tags := by
  unfold Reader.getTag at h
  split at h
  · cases h
  · rename_i b rest hrest
    cases h
    exact ⟨b, hrest, rfl, rfl⟩

theorem readRaw_ok {r r' : Reader} {n : Nat} {bytes : List UInt8} (h : r.readRaw n = .ok (bytes, r')) :
    n ≤ r.remaining.length ∧ bytes = r.remaining.take n ∧ r' = r.removePrefix n := by
  unfold Reader.readRaw at h
  split at h
  · cases h
  · rename_i hn
    cases h
    exact ⟨Nat.not_lt.mp hn, rfl, rfl⟩

theorem readEndian_ok {r r' : Reader} {w : Width} {n : Nat} (h : r.readEndian w = .ok (n, r')) :
    announced w r.remaining = some n ∧ w.bytes ≤ r.remaining.length ∧ r' = r.removePrefix w.bytes := by
  obtain ⟨⟨bytes, r₁⟩, hraw, heq⟩ := map_eq_ok.mp h
  obtain ⟨hlen, rfl, rfl⟩ := readRaw_ok hraw
  cases heq
  exact ⟨by simp [announced, Nat.not_lt.mpr hlen], hlen, rfl⟩

theorem removePrefix_removePrefix (r : Reader) (m n : Nat) :
    (r.removePrefix m).removePrefix n = r.removePrefix (m + n) := by
  simp [Reader.removePrefix, List.drop_drop]

theorem readCounted_ok {r r' : Reader} {w : Width} {bytes : List UInt8} (h : r.readCounted w = .ok (bytes, r')) :
    ∃ n, announced w r.remaining = some n ∧ w.bytes + n ≤ r.remaining.length ∧ r' = r.removePrefix (w.bytes + n) := by
  obtain ⟨⟨n, r₁⟩, hend, hraw⟩ := bind_eq_ok.mp h
  obtain ⟨hann, hw, rfl⟩ := readEndian_ok hend
  obtain ⟨hn, -, rfl⟩ := readRaw_ok hraw
  refine ⟨n, hann, ?_, removePrefix_removePrefix ..⟩
  simp only [Reader.removePrefix, List.length_drop] at hn
  omega

/-- After a tag its bytes were read, all of them, and it holds no values. -/
def Payload (tag : Tag) (r r' : Reader) : Prop :=
  ∃ size, tag.extent r.remaining = some (size, 0) ∧ size ≤ r.remaining.length ∧ r' = r.removePrefix size

theorem readInteger_payload {r r' : Reader} {lower upper i : Int} {tag : Tag}
    (h : r.readInteger lower upper tag = .ok (i, r')) : Payload tag r r' := by
  unfold Reader.readInteger at h
  split at h
  · rename_i w
    obtain ⟨⟨n, r₁⟩, hend, h⟩ := bind_eq_ok.mp h
    obtain ⟨_, _, h⟩ := bind_eq_ok.mp h
    obtain ⟨-, hw, rfl⟩ := readEndian_ok hend
    cases h
    exact ⟨w.bytes, rfl, hw, rfl⟩
  · rename_i w
    obtain ⟨⟨n, r₁⟩, hend, h⟩ := bind_eq_ok.mp h
    obtain ⟨_, _, h⟩ := bind_eq_ok.mp h
    obtain ⟨-, hw, rfl⟩ := readEndian_ok hend
    cases h
    exact ⟨w.bytes, rfl, hw, rfl⟩
  · cases h

theorem readString_payload {r r' : Reader} {tag : Tag} {bytes : List UInt8} (h : r.readString tag = .ok (bytes, r')) :
    Payload tag r r' := by
  unfold Reader.readString at h
  split at h
  · rename_i n
    obtain ⟨hn, -, rfl⟩ := readRaw_ok h
    exact ⟨n, rfl, hn, rfl⟩
  · rename_i w
    obtain ⟨n, hann, hn, rfl⟩ := readCounted_ok h
    exact ⟨w.bytes + n, by simp [Tag.extent, hann], hn, rfl⟩
  · cases h

theorem readBinary_payload {r r' : Reader} {tag : Tag} {bytes : List UInt8} (h : r.readBinary tag = .ok (bytes, r')) :
    Payload tag r r' := by
  unfold Reader.readBinary at h
  split at h
  · rename_i w
    obtain ⟨n, hann, hn, rfl⟩ := readCounted_ok h
    exact ⟨w.bytes + n, by simp [Tag.extent, hann], hn, rfl⟩
  · cases h

theorem payload_refl {tag : Tag} {r : Reader} (h : tag.extent r.remaining = some (0, 0)) : Payload tag r r :=
  ⟨0, h, Nat.zero_le _, by simp [Reader.removePrefix]⟩

/-- One element that holds no others was read: a tag, and what follows it. -/
def ReadLeaf (r r' : Reader) : Prop :=
  ∃ r₁ r₂ tag, r.updateTagsRemaining = .ok r₁ ∧ r₁.getTag = .ok (tag, r₂) ∧ Payload tag r₂ r'

theorem ReadLeaf.took {r r' : Reader} (h : ReadLeaf r r') : Took 1 r r' := by
  obtain ⟨r₁, r₂, tag, hup, htag, size, hsize, hle, rfl⟩ := h
  obtain ⟨htags, hrem⟩ := updateTagsRemaining_ok hup
  obtain ⟨b, hb, rfl, htags'⟩ := getTag_ok htag
  refine ⟨by simp only [Reader.removePrefix]; omega, .inl ?_⟩
  rw [← hrem, hb]
  exact .cons hsize hle (.nil _) (.nil _)

theorem integer_readLeaf {r r' : Reader} {i : Int} (h : r.integer = .ok (i, r')) : ReadLeaf r r' := by
  obtain ⟨r₁, hup, h⟩ := bind_eq_ok.mp h
  obtain ⟨⟨tag, r₂⟩, htag, h⟩ := bind_eq_ok.mp h
  refine ⟨r₁, r₂, tag, hup, htag, ?_⟩
  simp only at h
  split at h
  · cases h
    exact payload_refl rfl
  · cases h
    exact payload_refl rfl
  · exact readInteger_payload h

theorem unsignedInteger_readLeaf {r r' : Reader} {i : Int} (h : r.unsignedInteger = .ok (i, r')) : ReadLeaf r r' := by
  obtain ⟨r₁, hup, h⟩ := bind_eq_ok.mp h
  obtain ⟨⟨tag, r₂⟩, htag, h⟩ := bind_eq_ok.mp h
  refine ⟨r₁, r₂, tag, hup, htag, ?_⟩
  simp only at h
  split at h
  · cases h
    exact payload_refl rfl
  · exact readInteger_payload h

theorem boolean_readLeaf {r r' : Reader} {b : Bool} (h : r.boolean = .ok (b, r')) : ReadLeaf r r' := by
  obtain ⟨r₁, hup, h⟩ := bind_eq_ok.mp h
  obtain ⟨⟨tag, r₂⟩, htag, h⟩ := bind_eq_ok.mp h
  refine ⟨r₁, r₂, tag, hup, htag, ?_⟩
  simp only at h
  split at h
  · cases h
    exact payload_refl rfl
  · cases h

theorem string_readLeaf {r r' : Reader} {bytes : List UInt8} (h : r.string = .ok (bytes, r')) : ReadLeaf r r' := by
  obtain ⟨r₁, hup, h⟩ := bind_eq_ok.mp h
  obtain ⟨⟨tag, r₂⟩, htag, h⟩ := bind_eq_ok.mp h
  exact ⟨r₁, r₂, tag, hup, htag, readString_payload h⟩

theorem binary_readLeaf {r r' : Reader} {bytes : List UInt8} (h : r.binary = .ok (bytes, r')) : ReadLeaf r r' := by
  obtain ⟨r₁, hup, h⟩ := bind_eq_ok.mp h
  obtain ⟨⟨tag, r₂⟩, htag, h⟩ := bind_eq_ok.mp h
  exact ⟨r₁, r₂, tag, hup, htag, readBinary_payload h⟩

theorem readKey_readLeaf {r r' : Reader} {map : KeyMap} {found : Option Nat} (h : r.readKey map = .ok (found, r')) :
    ReadLeaf r r' := by
  obtain ⟨r₁, hup, h⟩ := bind_eq_ok.mp h
  obtain ⟨⟨tag, r₂⟩, htag, h⟩ := bind_eq_ok.mp h
  refine ⟨r₁, r₂, tag, hup, htag, ?_⟩
  simp only at h
  split at h
  · cases h
    exact payload_refl rfl
  · obtain ⟨⟨_, r₃⟩, hread, h⟩ := bind_eq_ok.mp h
    cases h
    exact readInteger_payload hread
  · obtain ⟨⟨_, r₃⟩, hread, h⟩ := bind_eq_ok.mp h
    cases h
    exact readString_payload hread
  · obtain ⟨⟨_, r₃⟩, hread, h⟩ := bind_eq_ok.mp h
    cases h
    exact readString_payload hread
  · cases h

/-- The start of an array or object with `inner` values in it. -/
def Opened (inner : Nat) (r r' : Reader) : Prop :=
  r'.tags = r.tags + inner ∧ ∃ b rest size, r.remaining = b :: rest ∧ (Tag.ofByte b).extent rest = some (size, inner) ∧
    size ≤ rest.length ∧ r'.remaining = rest.drop size

theorem startArray_opened {r r' : Reader} {minElementSize count : Nat}
    (h : r.startArray minElementSize = .ok (count, r')) :
    Opened count r r' := by
  obtain ⟨⟨n, r₁⟩, hcount, h⟩ := bind_eq_ok.mp h
  simp only at h
  split at h
  · cases h
  · split at h
    · cases h
    · obtain ⟨r₂, hinc, h⟩ := bind_eq_ok.mp h
      cases h
      obtain ⟨htags, hrem⟩ := incrementDepth_ok hinc
      obtain ⟨⟨tag, r₃⟩, htag, hcount⟩ := bind_eq_ok.mp hcount
      obtain ⟨b, hb, rfl, htags'⟩ := getTag_ok htag
      simp only at hcount
      split at hcount
      · rename_i hof
        cases hcount
        exact ⟨by simp only at htags; omega, b, _, 0, hb, by rw [hof]; rfl, Nat.zero_le _, by simpa using hrem⟩
      · rename_i w hof
        obtain ⟨hann, hw, rfl⟩ := readEndian_ok hcount
        refine ⟨?_, b, r₃.remaining, w.bytes, hb, by rw [hof]; simp [Tag.extent, hann], hw, hrem⟩
        simp only [Reader.removePrefix] at htags
        omega
      · cases hcount

theorem startObject_opened {r r' : Reader} {count : Nat} (h : r.startObject = .ok (count, r')) :
    Opened (2 * count) r r' := by
  obtain ⟨⟨n, r₁⟩, hcount, h⟩ := bind_eq_ok.mp h
  simp only at h
  split at h
  · cases h
  · split at h
    · cases h
    · obtain ⟨r₂, hinc, h⟩ := bind_eq_ok.mp h
      cases h
      obtain ⟨htags, hrem⟩ := incrementDepth_ok hinc
      obtain ⟨⟨tag, r₃⟩, htag, hcount⟩ := bind_eq_ok.mp hcount
      obtain ⟨b, hb, rfl, htags'⟩ := getTag_ok htag
      simp only at hcount
      split at hcount
      · rename_i hof
        cases hcount
        exact ⟨by simp only at htags; omega, b, _, 0, hb, by rw [hof]; rfl, Nat.zero_le _, by simpa using hrem⟩
      · rename_i w hof
        obtain ⟨hann, hw, rfl⟩ := readEndian_ok hcount
        refine ⟨?_, b, r₃.remaining, w.bytes, hb, by rw [hof]; simp [Tag.extent, hann], hw, hrem⟩
        simp only [Reader.removePrefix] at htags
        omega
      · cases hcount

/-- What is inside an array or object makes it one value. -/
theorem Opened.consumed {inner n : Nat} {r r₁ : Reader} {tail : List UInt8} (h : Opened inner r r₁)
    (hin : Consumed (inner + n) r₁.remaining tail) : Consumed (n + 1) r.remaining tail := by
  obtain ⟨-, b, rest, size, hb, hsize, hle, hrem⟩ := h
  rw [hrem] at hin
  rw [hb]
  exact .cons hsize hle hin

/-! ## Skipping -/

/-- A tag with fewer bytes than its width can only be the last thing that is read. -/
theorem Tag.Clipped.consumed {b : UInt8} {rest tail : List UInt8} {n : Nat} (h : (Tag.ofByte b).Clipped rest)
    (hin : Consumed (0 + n) [] tail) : Consumed (n + 1) (b :: rest) tail := by
  cases n with
  | zero =>
    rcases hin with hin | ⟨rfl, hin⟩
    · cases hin
      exact .inr ⟨rfl, .last h⟩
    · cases hin
  | succ n => exact (consumed_nil_pos (by simpa using hin)).elim

/-- What was removed for a tag, and the values that are now to be skipped instead. -/
def Removed (b : UInt8) (rest : List UInt8) (r r' : Reader) : Prop :=
  ∃ inner, r'.tags = r.tags + inner ∧ r'.remaining.length ≤ rest.length ∧
    ∀ n tail, Consumed (inner + n) r'.remaining tail → Consumed (n + 1) (b :: rest) tail

theorem removed_whole {b : UInt8} {rest : List UInt8} {r r' : Reader} {size : Nat}
    (hsize : (Tag.ofByte b).extent rest = some (size, 0)) (hle : size ≤ rest.length) (htags : r'.tags = r.tags)
    (hrem : r'.remaining = rest.drop size) : Removed b rest r r' := by
  refine ⟨0, by omega, by simp [hrem], fun n tail h => ?_⟩
  rw [hrem] at h
  exact .cons hsize hle h

/-- A fixed width: what is there of it is removed. -/
theorem removed_fixed {b : UInt8} {rest : List UInt8} {r r' : Reader} {size : Nat}
    (hsize : (Tag.ofByte b).extent rest = some (size, 0)) (hclip : rest.length < size → (Tag.ofByte b).Clipped rest)
    (htags : r'.tags = r.tags) (hrem : r'.remaining = rest.drop size) : Removed b rest r r' := by
  by_cases hle : size ≤ rest.length
  · exact removed_whole hsize hle htags hrem
  · refine ⟨0, by omega, by simp [hrem], fun n tail h => ?_⟩
    rw [hrem, List.drop_eq_nil_of_le (by omega)] at h
    exact (hclip (Nat.not_le.mp hle)).consumed h

theorem Payload.removed {b : UInt8} {rest : List UInt8} {r r' : Reader} (hb : r.remaining = b :: rest)
    (h : Payload (.ofByte b) (r.removePrefix 1) r') : Removed b rest r r' := by
  obtain ⟨size, hsize, hle, rfl⟩ := h
  simp only [Reader.removePrefix, hb, List.drop_succ_cons, List.drop_zero] at hsize hle
  exact removed_whole hsize hle rfl (by simp [Reader.removePrefix, hb])

theorem Opened.removed {b : UInt8} {rest : List UInt8} {r r' : Reader} {inner : Nat} (hb : r.remaining = b :: rest)
    (h : Opened inner r r') : Removed b rest r r' := by
  refine ⟨inner, h.1, ?_, fun n tail hin => ?_⟩
  · obtain ⟨-, _, _, size, hb', -, -, hrem⟩ := h
    obtain ⟨-, rfl⟩ := List.cons.inj (hb.symm.trans hb')
    simp [hrem]
  · rw [← hb]
    exact h.consumed hin

theorem skipTag_removed {r r' : Reader} {b : UInt8} {rest : List UInt8} (hb : r.remaining = b :: rest)
    (h : r.skipTag (.ofByte b) = .ok r') : Removed b rest r r' := by
  have hdrop : ∀ n, (r.removePrefix (1 + n)).remaining = rest.drop n := by
    intro n
    simp [Reader.removePrefix, hb, Nat.add_comm 1 n]
  cases htag : Tag.ofByte b with
  | nil | unused | bool _ | fixedUnsigned _ | fixedSigned _ =>
    rw [htag] at h
    cases h
    exact removed_whole (by rw [htag]; rfl) (Nat.zero_le _) rfl (hdrop 0)
  | binary w =>
    rw [htag] at h
    obtain ⟨⟨_, r₁⟩, hread, rfl⟩ := map_eq_ok.mp h
    exact (htag ▸ readBinary_payload hread).removed hb
  | fixedString n =>
    rw [htag] at h
    obtain ⟨⟨_, r₁⟩, hread, rfl⟩ := map_eq_ok.mp h
    exact (htag ▸ readString_payload hread).removed hb
  | string w =>
    rw [htag] at h
    obtain ⟨⟨_, r₁⟩, hread, rfl⟩ := map_eq_ok.mp h
    exact (htag ▸ readString_payload hread).removed hb
  | float w | uint w | int w =>
    rw [htag] at h
    cases h
    exact removed_fixed (by rw [htag]; rfl) (fun hlt => by rw [htag]; exact hlt) rfl (hdrop w.bytes)
  | fixedExtension n =>
    rw [htag] at h
    cases h
    refine removed_fixed (by rw [htag]; rfl) (fun hlt => by rw [htag]; exact hlt) rfl ?_
    rw [show 2 + n = 1 + (1 + n) by omega]
    exact hdrop (1 + n)
  | extension w =>
    rw [htag] at h
    obtain ⟨⟨_, r₁⟩, hread, rfl⟩ := map_eq_ok.mp h
    obtain ⟨n, hann, hle, rfl⟩ := readCounted_ok hread
    have hrest : (r.removePrefix 1).remaining = rest := hdrop 0
    rw [hrest] at hann hle
    refine removed_fixed (by rw [htag]; simp only [Tag.extent, hann, Option.map_some]; rfl) (fun hlt => ?_) rfl ?_
    · rw [htag]
      exact ⟨n, hann, by omega⟩
    · simp only [removePrefix_removePrefix]
      rw [show 1 + (w.bytes + n) + 1 = 1 + (w.bytes + n + 1) by omega]
      exact hdrop (w.bytes + n + 1)
  | fixedArray n | array w =>
    rw [htag] at h
    obtain ⟨⟨_, r₁⟩, hread, rfl⟩ := map_eq_ok.mp h
    exact (startArray_opened hread).removed hb
  | fixedObject n | object w =>
    rw [htag] at h
    obtain ⟨⟨_, r₁⟩, hread, rfl⟩ := map_eq_ok.mp h
    exact (startObject_opened hread).removed hb

/-- One round of `skip_value`: a value less to skip, or more by those inside it. -/
theorem skipStep_consumed {r r' : Reader} (h : r.skipStep = .ok r') :
    ∃ inner, r'.tags + 1 = r.tags + inner ∧ r'.remaining.length < r.remaining.length ∧
      ∀ n tail, Consumed (inner + n) r'.remaining tail → Consumed (n + 1) r.remaining tail := by
  obtain ⟨tag, hpeek, h⟩ := bind_eq_ok.mp h
  obtain ⟨r₁, hskip, hup⟩ := bind_eq_ok.mp h
  obtain ⟨htags, hrem⟩ := updateTagsRemaining_ok hup
  unfold Reader.peekTag at hpeek
  split at hpeek
  · cases hpeek
  · rename_i b rest hb
    cases hpeek
    obtain ⟨inner, hinner, hlen, hin⟩ := skipTag_removed hb hskip
    refine ⟨inner, by omega, ?_, fun n tail hc => ?_⟩
    · rw [hb, hrem, List.length_cons]
      omega
    · rw [hb]
      rw [hrem] at hc
      exact hin n tail hc

/-- The bytes are enough fuel: more makes no difference. -/
theorem skipLoop_fuel {initial : Nat} : ∀ (fuel : Nat) (r : Reader), r.remaining.length < fuel →
    Reader.skipLoop initial (fuel + 1) r = Reader.skipLoop initial fuel r := by
  intro fuel
  induction fuel with
  | zero =>
    intro r h
    cases h
  | succ fuel ih =>
    intro r hlen
    rw [Reader.skipLoop, Reader.skipLoop]
    cases hstep : r.skipStep with
    | error e => rfl
    | ok r₁ =>
      obtain ⟨_, -, hlt, -⟩ := skipStep_consumed hstep
      simp only [bind, Except.bind]
      rw [ih r₁ (by omega)]

/-- The loop: all the values that were to be skipped. -/
theorem skipLoop_consumed {initial : Nat} : ∀ (fuel : Nat) {r r' : Reader} {n : Nat}, r.tags = initial + n →
    Reader.skipLoop initial fuel r = .ok r' → r'.tags + 1 = initial ∧ Consumed (n + 1) r.remaining r'.remaining := by
  intro fuel
  induction fuel with
  | zero =>
    intro r r' n _ h
    cases h
  | succ fuel ih =>
    intro r r' n hn h
    obtain ⟨r₁, hstep, h⟩ := bind_eq_ok.mp h
    obtain ⟨inner, htags, -, hin⟩ := skipStep_consumed hstep
    split at h
    · rename_i hle
      have hmore : inner + n = r₁.tags - initial + 1 := by omega
      obtain ⟨hend, hc⟩ := @ih r₁ r' (r₁.tags - initial) (by omega) h
      exact ⟨hend, hin n _ (hmore ▸ hc)⟩
    · rename_i hlt
      cases h
      have hzero : inner + n = 0 := by omega
      exact ⟨by omega, hin n _ (hzero ▸ .inl (.nil _))⟩

theorem skipValue_took {r r' : Reader} (h : r.skipValue = .ok r') : Took 1 r r' := by
  unfold Reader.skipValue at h
  split at h
  · cases h
  · obtain ⟨htags, hc⟩ := @skipLoop_consumed r.tags _ r r' 0 rfl h
    exact ⟨htags.symm, hc⟩

/-! ## By a schema -/

theorem Took.append {m n : Nat} {r r₁ r' : Reader} (h : Took m r r₁) (h' : Took n r₁ r') : Took (m + n) r r' :=
  ⟨by have := h.1; have := h'.1; omega, h.2.append h'.2⟩

theorem took_zero (r : Reader) : Took 0 r r := ⟨rfl, .inl (.nil _)⟩

theorem arrayLoop_took {α : Type} {read : Reader → Except WireError (α × Reader)}
    {minElementSize maxElementCount start : Nat} (hread : ∀ r a r', read r = .ok (a, r') → Took 1 r r') :
    ∀ (count : Nat) {dest l : List α} {r r' : Reader},
      arrayLoop read minElementSize maxElementCount start count dest r = .ok (l, r') → Took count r r' := by
  intro count
  induction count with
  | zero =>
    intro dest l r r' h
    cases h
    exact took_zero r
  | succ count ih =>
    intro dest l r r' h
    unfold arrayLoop at h
    split at h
    · cases h
    · obtain ⟨⟨a, r₁⟩, hone, h⟩ := bind_eq_ok.mp h
      simp only at h
      split at h
      · cases h
      · rw [Nat.add_comm count 1]
        exact (hread _ _ _ hone).append (ih h)

/-- An array or object that was opened and all of whose values were gone through is one value. -/
theorem Opened.took {inner : Nat} {r r₁ r₂ r₃ r' : Reader} (h : Opened inner r r₁) (hin : Took inner r₁ r₂)
    (hend : r₂.updateTagsRemaining = .ok r₃) (hrem : r'.remaining = r₃.remaining) (htags : r'.tags = r₃.tags)
      : Took 1 r r' := by
  obtain ⟨htags', hrem'⟩ := updateTagsRemaining_ok hend
  have h1 := h.1
  have h2 := hin.1
  refine ⟨by omega, @Opened.consumed inner 0 r r₁ _ h ?_⟩
  rw [hrem, hrem']
  exact hin.2

theorem readArray_took {α : Type} {read : Reader → Except WireError (α × Reader)} {minElementSize maxElementCount : Nat}
    (hread : ∀ r a r', read r = .ok (a, r') → Took 1 r r') {l : List α} {r r' : Reader}
    (h : readArray read minElementSize maxElementCount r = .ok (l, r')) : Took 1 r r' := by
  obtain ⟨⟨count, r₁⟩, hstart, h⟩ := bind_eq_ok.mp h
  simp only at h
  split at h
  · cases h
  · split at h
    · cases h
    · obtain ⟨⟨dest, r₂⟩, hloop, h⟩ := bind_eq_ok.mp h
      obtain ⟨r₃, hend, h⟩ := bind_eq_ok.mp h
      obtain ⟨r₄, hdec, h⟩ := bind_eq_ok.mp h
      cases h
      obtain ⟨htags, hrem⟩ := decrementDepth_ok hdec
      exact (startArray_opened hstart).took (arrayLoop_took hread count hloop) hend hrem htags

theorem objectLoop_took {τ : Type} {map : KeyMap} {tryRead : Nat → τ → Reader → Except WireError (τ × Reader)}
    (htry : ∀ i t r t' r', tryRead i t r = .ok (t', r') → Took 1 r r') :
    ∀ (state : Nat) {t t' : τ} {r r' : Reader}, objectLoop map tryRead state t r = .ok (t', r') →
      ∃ r₁, Took (2 * state) r r₁ ∧ r₁.updateTagsRemaining = .ok r' := by
  intro state
  induction state with
  | zero =>
    intro t t' r r' h
    obtain ⟨r₁, hend, h⟩ := bind_eq_ok.mp h
    cases h
    exact ⟨r, took_zero r, hend⟩
  | succ state ih =>
    intro t t' r r' h
    obtain ⟨⟨found, r₁⟩, hkey, h⟩ := bind_eq_ok.mp h
    have hk := (readKey_readLeaf hkey).took
    rw [show 2 * (state + 1) = 1 + 1 + 2 * state by omega]
    cases found with
    | some index =>
      obtain ⟨⟨t₁, r₂⟩, hone, h⟩ := bind_eq_ok.mp h
      obtain ⟨r₃, hrest, hend⟩ := ih h
      exact ⟨r₃, (hk.append (htry _ _ _ _ _ hone)).append hrest, hend⟩
    | none =>
      obtain ⟨r₂, hskip, h⟩ := bind_eq_ok.mp h
      obtain ⟨r₃, hrest, hend⟩ := ih h
      exact ⟨r₃, (hk.append (skipValue_took hskip)).append hrest, hend⟩

theorem tryField_took {α τ : Type} {read : Reader → Except WireError (α × Reader)}
    {tryRest : Nat → τ → Reader → Except WireError (τ × Reader)} (hread : ∀ r a r', read r = .ok (a, r') → Took 1 r r')
    (hrest : ∀ i t r t' r', tryRest i t r = .ok (t', r') → Took 1 r r') {index : Nat} {t t' : Option α × τ} {r r' : Reader}
    (h : tryField read tryRest index t r = .ok (t', r')) : Took 1 r r' := by
  unfold tryField at h
  split at h
  · obtain ⟨⟨a, r₁⟩, hone, h⟩ := map_eq_ok.mp h
    cases h
    exact hread _ _ _ hone
  · cases h
  · obtain ⟨⟨t₁, r₁⟩, hone, h⟩ := map_eq_ok.mp h
    cases h
    exact hrest _ _ _ _ _ hone

mutual

/-- Whatever is read by a schema was one value. -/
theorem Schema.read_took {α : Type} : ∀ (s : Schema α) {r r' : Reader} {a : α}, s.read r = .ok (a, r') → Took 1 r r'
  | .bool, r, r', a, h => (boolean_readLeaf h).took
  | .int w, r, r', a, h => by
    obtain ⟨⟨i, r₁⟩, hint, h⟩ := bind_eq_ok.mp h
    obtain ⟨_, _, h⟩ := bind_eq_ok.mp h
    cases h
    exact (integer_readLeaf hint).took
  | .uint w, r, r', a, h => by
    obtain ⟨⟨i, r₁⟩, hint, h⟩ := bind_eq_ok.mp h
    obtain ⟨_, _, h⟩ := bind_eq_ok.mp h
    cases h
    exact (unsignedInteger_readLeaf hint).took
  | .string, r, r', a, h => (string_readLeaf h).took
  | .binary, r, r', a, h => (binary_readLeaf h).took
  | .blob n, r, r', a, h => by
    obtain ⟨⟨bytes, r₁⟩, hbin, h⟩ := bind_eq_ok.mp h
    obtain ⟨_, _, h⟩ := bind_eq_ok.mp h
    cases h
    exact (binary_readLeaf hbin).took
  | .array _ _ elem, r, r', a, h => readArray_took (fun _ _ _ h => Schema.read_took elem h) h
  | .object fields, r, r', a, h => by
    obtain ⟨⟨state, r₁⟩, hstart, h⟩ := bind_eq_ok.mp h
    obtain ⟨⟨t, r₂⟩, hloop, h⟩ := bind_eq_ok.mp h
    obtain ⟨_, _, h⟩ := bind_eq_ok.mp h
    obtain ⟨r₃, hdec, h⟩ := bind_eq_ok.mp h
    cases h
    obtain ⟨htags, hrem⟩ := decrementDepth_ok hdec
    obtain ⟨r₄, htook, hend⟩ := objectLoop_took (fun _ _ _ _ _ h => Fields.tryRead_took fields h) state hloop
    exact (startObject_opened hstart).took htook hend hrem htags
  | .convert value _ _, r, r', a, h => by
    obtain ⟨⟨b, r₁⟩, hread, h⟩ := bind_eq_ok.mp h
    obtain ⟨_, _, h⟩ := bind_eq_ok.mp h
    cases h
    exact Schema.read_took value hread

theorem Fields.tryRead_took {α τ : Type} : ∀ (fields : Fields α τ) {index : Nat} {t t' : τ} {r r' : Reader},
    fields.tryRead index t r = .ok (t', r') → Took 1 r r'
  | .nil, _, _, _, _, _, h => by cases h
  | .required _ _ value rest, _, _, _, _, _, h =>
    tryField_took (fun _ _ _ h => Schema.read_took value h) (fun _ _ _ _ _ h => Fields.tryRead_took rest h) h
  | .optional _ _ value rest, _, _, _, _, _, h =>
    tryField_took (fun _ _ _ h => Schema.read_took value h) (fun _ _ _ _ _ h => Fields.tryRead_took rest h) h
  | .onEmpty _ _ value rest, _, _, _, _, _, h =>
    tryField_took (fun _ _ _ h => Schema.read_took value h) (fun _ _ _ _ _ h => Fields.tryRead_took rest h) h
  | .defaulted _ _ value _ _ rest, _, _, _, _, _, h =>
    tryField_took (fun _ _ _ h => Schema.read_took value h) (fun _ _ _ _ _ h => Fields.tryRead_took rest h) h

end

/-- Bytes that are accepted begin with a complete value unless they are one that ends within
    the fixed width of its last element. -/
theorem accepted_complete {α : Type} (s : Schema α) (bytes : List UInt8) (a : α) (h : fromBytes s bytes = .ok a) :
    (∃ rest, Values 1 bytes rest) ↔ ¬Cut 1 bytes := by
  obtain ⟨⟨_, r⟩, hread, _⟩ := bind_eq_ok.mp h
  obtain ⟨-, hvalues | ⟨-, hcut⟩⟩ := s.read_took hread
  · exact iff_of_true ⟨_, hvalues⟩ fun hcut => hcut.not_values hvalues
  · exact iff_of_false (fun ⟨_, hvalues⟩ => hcut.not_values hvalues) fun hno => hno hcut

/-- The command `initialize` of a remote scanner: a password and a number of threads. -/
def initializeSchema : Schema (List UInt8 × Unsigned .w32 × Unit) :=
  .object (.required "pass".toUTF8.toList 0 .string (.required "threads".toUTF8.toList 1 (.uint .w32) .nil))

/-- No password, one thread, and a field 99 that is a 64-bit number. -/
def initializeCommand (number : List UInt8) : List UInt8 := [0x83, 0x00, 0xa0, 0x01, 0x01, 0x63, 0xcf] ++ number

theorem Values.leaf {b : UInt8} {rest tail : List UInt8} {n : Nat} (size : Nat)
    (extent : (Tag.ofByte b).extent rest = some (size, 0)) (backed : size ≤ rest.length)
    (after : Values n (rest.drop size) tail) : Values (n + 1) (b :: rest) tail :=
  .cons extent backed (.nil _) after

theorem accepted_complete_initialize :
    fromBytes initializeSchema (initializeCommand [0, 0, 0, 0, 0, 0, 0, 7]) = .ok ([], ⟨1, by decide⟩, ()) ∧
      ¬Cut 1 (initializeCommand [0, 0, 0, 0, 0, 0, 0, 7]) := by
  have hread : fromBytes initializeSchema (initializeCommand [0, 0, 0, 0, 0, 0, 0, 7]) = .ok ([], ⟨1, by decide⟩, ()) := by
    decide +kernel
  refine ⟨hread, (accepted_complete initializeSchema _ _ hread).mp ⟨[], ?_⟩⟩
  have hopen : (Tag.ofByte 0x83).extent [0x00, 0xa0, 0x01, 0x01, 0x63, 0xcf, 0, 0, 0, 0, 0, 0, 0, 7] = some (0, 6) := by
    decide
  refine .cons hopen (by decide) ?_ (.nil [])
  refine .leaf 0 (by decide) (by decide) (.leaf 0 (by decide) (by decide) (.leaf 0 (by decide) (by decide) ?_))
  exact .leaf 0 (by decide) (by decide) (.leaf 0 (by decide) (by decide) (.leaf 8 (by decide) (by decide) (.nil [])))

/-- The number is missing, and the command is accepted. -/
theorem cut_accepted :
    fromBytes initializeSchema (initializeCommand []) = .ok ([], ⟨1, by decide⟩, ()) ∧
      ¬∃ rest, Values 1 (initializeCommand []) rest := by
  refine ⟨by decide +kernel, fun ⟨rest, h⟩ => ?_⟩
  have hopen : (Tag.ofByte 0x83).extent [0x00, 0xa0, 0x01, 0x01, 0x63, 0xcf] = some (0, 6) := by decide
  have hfields : Values 5 [0x00, 0xa0, 0x01, 0x01, 0x63, 0xcf] [0xcf] :=
    .leaf 0 (by decide) (by decide) (.leaf 0 (by decide) (by decide) (.leaf 0 (by decide) (by decide)
      (.leaf 0 (by decide) (by decide) (.leaf 0 (by decide) (by decide) (.nil _)))))
  have htag : Tag.ofByte 0xcf = .uint .w64 := by decide
  have hcut : Cut 6 [0x00, 0xa0, 0x01, 0x01, 0x63, 0xcf] := hfields.cut (.last (by simp [htag, Tag.Clipped, Width.bytes]))
  exact (Cut.cons hopen (by decide) hcut).not_values h

end Lws.Wire
