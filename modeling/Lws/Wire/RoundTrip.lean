/-
  Lws.Wire.RoundTrip — what the msgpack writer writes, the reader reads back.

  The writer takes for each integer, length and count the first form that holds it, the
  reader goes by the tag. Both keep count: a value is one element less to expect, whatever
  is inside it (`Coded`). For an object the reader looks each key up among the fields, so
  the names or numbers have to be distinct (`Schema.WellFormed`).

  Arrays of 2^32 elements or more cannot be written.
-/

import Lws.Wire.Truncation

namespace Lws.Wire

/-! ## Tags that are written -/

theorem ofByte_fixedUnsigned {n : Nat} (h : n ≤ 0x7f) : Tag.ofByte (UInt8.ofNat n) = .fixedUnsigned n := by
  have key : ∀ n : Fin 128, Tag.ofByte (UInt8.ofNat n) = .fixedUnsigned n := by decide
  exact key ⟨n, by omega⟩

theorem ofByte_fixedString {n : Nat} (h : n ≤ 31) : Tag.ofByte (0xa0 ||| UInt8.ofNat n) = .fixedString n := by
  have key : ∀ n : Fin 32, Tag.ofByte (0xa0 ||| UInt8.ofNat n) = .fixedString n := by decide
  exact key ⟨n, by omega⟩

theorem ofByte_fixedArray {n : Nat} (h : n ≤ 15) : Tag.ofByte (0x90 ||| UInt8.ofNat n) = .fixedArray n := by
  have key : ∀ n : Fin 16, Tag.ofByte (0x90 ||| UInt8.ofNat n) = .fixedArray n := by decide
  exact key ⟨n, by omega⟩

theorem ofByte_fixedObject {n : Nat} (h : n ≤ 15) : Tag.ofByte (0x80 ||| UInt8.ofNat n) = .fixedObject n := by
  have key : ∀ n : Fin 16, Tag.ofByte (0x80 ||| UInt8.ofNat n) = .fixedObject n := by decide
  exact key ⟨n, by omega⟩

theorem ofByte_fixedSigned {i : Int} (h : -32 ≤ i) (h' : i < 0) :
    Tag.ofByte (UInt8.ofNat (i % 256).toNat) = .fixedSigned i := by
  have key : ∀ n : Fin 32, Tag.ofByte (UInt8.ofNat (((n : Int) - 32) % 256).toNat) = .fixedSigned ((n : Int) - 32) := by decide
  have := key ⟨(i + 32).toNat, by omega⟩
  simpa [show max (i + 32) 0 - 32 = i by omega] using this

theorem ofByte_uintTag (w : Width) : Tag.ofByte (uintTag w) = .uint w := by
  cases w <;> decide

theorem ofByte_intTag (w : Width) : Tag.ofByte (intTag w) = .int w := by
  cases w <;> decide

theorem ofByte_binaryTag {w : Width} (h : w ∈ [Width.w8, .w16, .w32]) : Tag.ofByte (binaryTag w) = .binary w := by
  cases w <;> first | decide | simp at h

theorem ofByte_stringTag {w : Width} (h : w ∈ [Width.w8, .w16, .w32]) : Tag.ofByte (stringTag w) = .string w := by
  cases w <;> first | decide | simp at h

theorem ofByte_arrayTag {w : Width} (h : w ∈ [Width.w16, .w32]) : Tag.ofByte (arrayTag w) = .array w := by
  cases w <;> first | decide | simp at h

theorem ofByte_objectTag {w : Width} (h : w ∈ [Width.w16, .w32]) : Tag.ofByte (objectTag w) = .object w := by
  cases w <;> first | decide | simp at h

/-! ## Numbers, lengths and counts -/

theorem pow_bits (w : Width) : 256 ^ w.bytes = 2 ^ w.bits := by
  cases w <;> decide

section Read

variable {rest : List UInt8} {tags depth : Nat}

theorem updateTagsRemaining_succ : (⟨rest, tags + 1, depth⟩ : Reader).updateTagsRemaining =
    .ok ⟨rest, tags, depth⟩ := by
  simp [Reader.updateTagsRemaining]

theorem readRaw_append {bytes : List UInt8} :
    (⟨bytes ++ rest, tags, depth⟩ : Reader).readRaw bytes.length = .ok (bytes, ⟨rest, tags, depth⟩) := by
  simp [Reader.readRaw, Reader.removePrefix]

theorem readEndian_toBytes {w : Width} {n : Nat} (h : n < 2 ^ w.bits) :
    (⟨BigEndian.toBytes w.bytes n ++ rest, tags, depth⟩ : Reader).readEndian w = .ok (n, ⟨rest, tags, depth⟩) := by
  have hraw := @readRaw_append rest tags depth (BigEndian.toBytes w.bytes n)
  rw [BigEndian.length_toBytes] at hraw
  simp only [Reader.readEndian, hraw, Except.map, BigEndian.ofBytes_toBytes_of_lt (pow_bits w ▸ h)]

theorem readCounted_toBytes {w : Width} {bytes : List UInt8} (h : bytes.length < 2 ^ w.bits) :
    (⟨BigEndian.toBytes w.bytes bytes.length ++ bytes ++ rest, tags, depth⟩ : Reader).readCounted w =
      .ok (bytes, ⟨rest, tags, depth⟩) := by
  rw [List.append_assoc]
  simp only [Reader.readCounted, readEndian_toBytes h, bind, Except.bind]
  exact readRaw_append

end Read

/-- The first type that holds the number is taken. -/
theorem writeCount_ok {types : List Width} {tag : Width → UInt8} {n : Nat} (h : ∃ t ∈ types, n < 2 ^ t.bits) :
    ∃ t ∈ types, n < 2 ^ t.bits ∧ writeCount types tag n = .ok (tag t :: BigEndian.toBytes t.bytes n) := by
  obtain ⟨t, ht, hn⟩ := h
  have hsome : (types.find? fun t => decide (n < 2 ^ t.bits)).isSome = true :=
    List.find?_isSome.mpr ⟨t, ht, decide_eq_true hn⟩
  obtain ⟨u, hu⟩ := Option.isSome_iff_exists.mp hsome
  have hlt := List.find?_some hu
  exact ⟨u, List.mem_of_find?_eq_some hu, by simpa using hlt, by simp only [writeCount, hu]⟩

/-- An unsigned number is its own tag, or follows one. -/
theorem unsignedBytes_ok {n : Nat} (h : n < 2 ^ 64) :
    (n ≤ 0x7f ∧ unsignedBytes n = .ok [UInt8.ofNat n]) ∨
      ∃ w, n < 2 ^ w.bits ∧ unsignedBytes n = .ok (uintTag w :: BigEndian.toBytes w.bytes n) := by
  by_cases hn : n ≤ 0x7f
  · exact .inl ⟨hn, by simp [unsignedBytes, hn]⟩
  · obtain ⟨w, -, hw, heq⟩ := @writeCount_ok [.w8, .w16, .w32, .w64] uintTag n ⟨.w64, by simp, h⟩
    exact .inr ⟨w, hw, by simp [unsignedBytes, hn, heq]⟩

/-- A negative number is its own tag, or follows one in two's complement. -/
theorem negativeBytes_ok {i : Int} (h : -2 ^ 63 ≤ i) :
    (-32 ≤ i ∧ negativeBytes i = .ok [UInt8.ofNat (i % 256).toNat]) ∨
      ∃ w, -(2 ^ (w.bits - 1)) ≤ i ∧
        negativeBytes i = .ok (intTag w :: BigEndian.toBytes w.bytes (i % 2 ^ w.bits).toNat) := by
  by_cases hi : -32 ≤ i
  · exact .inl ⟨hi, by simp [negativeBytes, hi]⟩
  · have hsome : ([Width.w8, .w16, .w32, .w64].find? fun t => decide (-(2 ^ (t.bits - 1)) ≤ i)).isSome = true :=
      List.find?_isSome.mpr ⟨.w64, by simp, decide_eq_true h⟩
    obtain ⟨w, hw⟩ := Option.isSome_iff_exists.mp hsome
    have hle := List.find?_some hw
    exact .inr ⟨w, by simpa using hle, by simp only [negativeBytes, hi, if_false, hw]⟩

theorem stringBytes_ok {bytes : List UInt8} (h : bytes.length < 2 ^ 32) :
    (bytes.length ≤ 31 ∧ stringBytes bytes = .ok ((0xa0 ||| UInt8.ofNat bytes.length) :: bytes)) ∨
      ∃ w ∈ [Width.w8, .w16, .w32], bytes.length < 2 ^ w.bits ∧
        stringBytes bytes = .ok (stringTag w :: (BigEndian.toBytes w.bytes bytes.length ++ bytes)) := by
  by_cases hn : bytes.length ≤ 31
  · exact .inl ⟨hn, by simp [stringBytes, writeFixedCount, hn, Except.map]⟩
  · obtain ⟨w, hmem, hw, heq⟩ := @writeCount_ok [.w8, .w16, .w32] stringTag bytes.length ⟨.w32, by simp, h⟩
    exact .inr ⟨w, hmem, hw, by simp [stringBytes, writeFixedCount, hn, heq, Except.map]⟩

theorem binaryBytes_ok {bytes : List UInt8} (h : bytes.length < 2 ^ 32) :
    ∃ w ∈ [Width.w8, .w16, .w32], bytes.length < 2 ^ w.bits ∧
      binaryBytes bytes = .ok (binaryTag w :: (BigEndian.toBytes w.bytes bytes.length ++ bytes)) := by
  obtain ⟨w, hmem, hw, heq⟩ := @writeCount_ok [.w8, .w16, .w32] binaryTag bytes.length ⟨.w32, by simp, h⟩
  exact ⟨w, hmem, hw, by simp [binaryBytes, heq, Except.map]⟩

/-! ## Values of a schema -/

/-- Whether an entry of the map has the key. -/
def isKey (integerKeys : Bool) (id : Nat) (name : List UInt8) (e : List UInt8 × Nat) : Bool :=
  if integerKeys then decide (e.2 = id) else decide (e.1 = name)

/-- No key of the map is the key of an entry before it. -/
def Distinct (integerKeys : Bool) (map : KeyMap) : Prop :=
  map.Pairwise fun e f => isKey integerKeys f.2 f.1 e = false

instance (integerKeys : Bool) (map : KeyMap) : Decidable (Distinct integerKeys map) :=
  inferInstanceAs (Decidable (map.Pairwise _))

mutual

/-- What holds of the types of the source: the keys of an object differ and fit. -/
def Schema.WellFormed {α : Type} (integerKeys : Bool) : Schema α → Prop
  | .bool | .int _ | .uint _ | .string | .binary => True
  | .blob n => n < 2 ^ 32
  | .array _ _ elem => elem.WellFormed integerKeys
  | .object fields => Distinct integerKeys fields.keys ∧ fields.keys.length < 2 ^ 32 ∧ fields.WellFormed integerKeys
  | .convert value _ _ => value.WellFormed integerKeys

def Fields.WellFormed {α τ : Type} (integerKeys : Bool) : Fields α τ → Prop
  | .nil => True
  | .required name id value rest =>
    (name.length < 2 ^ 32 ∧ id < 2 ^ 32) ∧ value.WellFormed integerKeys ∧ rest.WellFormed integerKeys
  | .optional name id value rest =>
    (name.length < 2 ^ 32 ∧ id < 2 ^ 32) ∧ value.WellFormed integerKeys ∧ rest.WellFormed integerKeys
  | .onEmpty name id value rest =>
    (name.length < 2 ^ 32 ∧ id < 2 ^ 32) ∧ value.WellFormed integerKeys ∧ rest.WellFormed integerKeys
  | .defaulted name id value _ _ rest =>
    (name.length < 2 ^ 32 ∧ id < 2 ^ 32) ∧ value.WellFormed integerKeys ∧ rest.WellFormed integerKeys

end

mutual

def Schema.decideWellFormed {α : Type} (integerKeys : Bool) : (s : Schema α) → Decidable (s.WellFormed integerKeys)
  | .bool | .int _ | .uint _ | .string | .binary => .isTrue trivial
  | .blob n => inferInstanceAs (Decidable (n < 2 ^ 32))
  | .array _ _ elem => elem.decideWellFormed integerKeys
  | .object fields => @instDecidableAnd _ _ _ (@instDecidableAnd _ _ _ (fields.decideWellFormed integerKeys))
  | .convert value _ _ => value.decideWellFormed integerKeys

def Fields.decideWellFormed {α τ : Type} (integerKeys : Bool) : (fields : Fields α τ) →
    Decidable (fields.WellFormed integerKeys)
  | .nil => .isTrue trivial
  | .required _ _ value rest | .optional _ _ value rest | .onEmpty _ _ value rest | .defaulted _ _ value _ _ rest =>
    @instDecidableAnd _ _ _ (@instDecidableAnd _ _ (value.decideWellFormed integerKeys) (rest.decideWellFormed integerKeys))

end

instance {α : Type} (integerKeys : Bool) (s : Schema α) : Decidable (s.WellFormed integerKeys) :=
  s.decideWellFormed integerKeys

mutual

/-- The lengths that can be written. -/
def Schema.Lengths {α : Type} : Schema α → α → Prop
  | .bool, _ => True
  | .int _, _ => True
  | .uint _, _ => True
  | .string, a => a.length < 2 ^ 32
  | .binary, a => a.length < 2 ^ 32
  | .blob _, _ => True
  | .array _ _ elem, a => a.length < 2 ^ 32 ∧ ∀ x ∈ a, elem.Lengths x
  | .object fields, a => fields.Lengths a
  | .convert value encode _, a => value.Lengths (encode a)

def Fields.Lengths {α τ : Type} : Fields α τ → α → Prop
  | .nil, _ => True
  | .required _ _ value rest, (a, b) => value.Lengths a ∧ rest.Lengths b
  | .optional _ _ value rest, (a, b) => (∀ x ∈ a, value.Lengths x) ∧ rest.Lengths b
  | .onEmpty _ _ value rest, (a, b) => (a ≠ [] → value.Lengths a) ∧ rest.Lengths b
  | .defaulted _ _ value default _ rest, (a, b) => (a ≠ default → value.Lengths a) ∧ rest.Lengths b

end

/-- How many bytes are written for a value. -/
def Schema.size {α : Type} (s : Schema α) (integerKeys : Bool) (a : α) : Nat :=
  match toBytes s integerKeys a with
  | .ok bytes => bytes.length
  | .error _ => 0

/-- However many of the elements are read, they are long enough on average. -/
def LongEnough {α : Type} (minElementSize : Nat) (size : α → Nat) (l : List α) : Prop :=
  ∀ k ≤ l.length, minElementSize * k ≤ ((l.take k).map size).sum

theorem longEnough_zero {α : Type} (size : α → Nat) (l : List α) : LongEnough 0 size l := by
  intro k _
  rw [Nat.zero_mul]
  exact Nat.zero_le _

theorem longEnough_of_le {α : Type} {minElementSize : Nat} {size : α → Nat} {l : List α}
    (h : ∀ x ∈ l, minElementSize ≤ size x) : LongEnough minElementSize size l := by
  intro k hk
  have hsum := List.card_nsmul_le_sum ((l.take k).map size) minElementSize fun n hn => by
    obtain ⟨x, hx, rfl⟩ := List.mem_map.mp hn
    exact h x (List.mem_of_mem_take hx)
  rwa [List.length_map, List.length_take_of_le hk, smul_eq_mul, Nat.mul_comm] at hsum

mutual

/-- The counts and the sizes of elements that the reader allows, and conversions that lose
    nothing. -/
def Schema.Allowed {α : Type} (integerKeys : Bool) : Schema α → α → Prop
  | .bool, _ => True
  | .int _, _ => True
  | .uint _, _ => True
  | .string, _ => True
  | .binary, _ => True
  | .blob _, _ => True
  | .array minElementSize maxElementCount elem, a =>
    a.length ≤ maxElementCount ∧ LongEnough minElementSize (elem.size integerKeys) a ∧
      ∀ x ∈ a, elem.Allowed integerKeys x
  | .object fields, a => fields.Allowed integerKeys a
  | .convert value encode decode, a => value.Allowed integerKeys (encode a) ∧ decode (encode a) = .ok a

def Fields.Allowed {α τ : Type} (integerKeys : Bool) : Fields α τ → α → Prop
  | .nil, _ => True
  | .required _ _ value rest, (a, b) => value.Allowed integerKeys a ∧ rest.Allowed integerKeys b
  | .optional _ _ value rest, (a, b) => (∀ x ∈ a, value.Allowed integerKeys x) ∧ rest.Allowed integerKeys b
  | .onEmpty _ _ value rest, (a, b) => (a ≠ [] → value.Allowed integerKeys a) ∧ rest.Allowed integerKeys b
  | .defaulted _ _ value default _ rest, (a, b) =>
    (a ≠ default → value.Allowed integerKeys a) ∧ rest.Allowed integerKeys b

end

mutual

/-- How deep the arrays and objects of a value are nested. -/
def Schema.depth {α : Type} : Schema α → α → Nat
  | .bool, _ => 0
  | .int _, _ => 0
  | .uint _, _ => 0
  | .string, _ => 0
  | .binary, _ => 0
  | .blob _, _ => 0
  | .array _ _ elem, a => 1 + (a.map fun x => elem.depth x).foldr max 0
  | .object fields, a => 1 + fields.depth a
  | .convert value encode _, a => value.depth (encode a)

def Fields.depth {α τ : Type} : Fields α τ → α → Nat
  | .nil, _ => 0
  | .required _ _ value rest, (a, b) => max (value.depth a) (rest.depth b)
  | .optional _ _ value rest, (a, b) => max (a.elim 0 fun x => value.depth x) (rest.depth b)
  | .onEmpty _ _ value rest, (a, b) => max (if a.isEmpty then 0 else value.depth a) (rest.depth b)
  | .defaulted _ _ value default _ rest, (a, b) => max (if a = default then 0 else value.depth a) (rest.depth b)

end

/-! ## One element -/

/-- What is written for an element, and how it is read back. -/
structure Leaf {α : Type} (bytes : Except WireError (List UInt8)) (read : Reader → Except WireError (α × Reader))
    (a : α) (enc : List UInt8) : Prop where
  write : bytes = .ok enc
  read : ∀ rest tags depth, read ⟨enc ++ rest, tags + 1, depth⟩ = .ok (a, ⟨rest, tags, depth⟩)
  size : 1 ≤ enc.length

/-- The readers of leaves begin alike. -/
theorem leaf_bind {α : Type} {b : UInt8} {bytes rest : List UInt8} {tags depth : Nat}
    (f : Tag × Reader → Except WireError (α × Reader)) :
    ((⟨b :: bytes ++ rest, tags + 1, depth⟩ : Reader).updateTagsRemaining >>= fun r => r.getTag >>= f) =
      f (.ofByte b, ⟨bytes ++ rest, tags, depth⟩) := by
  rw [updateTagsRemaining_succ]
  rfl

theorem castInteger_ok {lower upper value : Int} (h : lower ≤ value) (h' : value ≤ upper) :
    castInteger lower upper value = .ok value := by
  simp [castInteger, not_lt.mpr h, not_lt.mpr h']

theorem readInteger_uint {w : Width} {n : Nat} {lower upper : Int} {rest : List UInt8} {tags depth : Nat}
    (hw : n < 2 ^ w.bits) (hl : lower ≤ n) (hu : (n : Int) ≤ upper) :
    (⟨BigEndian.toBytes w.bytes n ++ rest, tags, depth⟩ : Reader).readInteger lower upper (.uint w) =
      .ok ((n : Int), ⟨rest, tags, depth⟩) := by
  simp only [Reader.readInteger, readEndian_toBytes hw, castInteger_ok hl hu, bind, Except.bind]

theorem toNat_emod_lt (w : Width) (i : Int) : (i % 2 ^ w.bits).toNat < 2 ^ w.bits := by
  cases w <;> simp only [Width.bits, Width.bytes, Nat.reduceMul] <;> omega

/-- Two's complement of a width that holds the number. -/
theorem bmod_emod {w : Width} {i : Int} (h : -(2 ^ (w.bits - 1)) ≤ i) (h' : i < 2 ^ (w.bits - 1)) :
    ((i % 2 ^ w.bits).toNat : Int).bmod (2 ^ w.bits) = i := by
  have hcast : ((i % 2 ^ w.bits).toNat : Int) = i % ((2 ^ w.bits : Nat) : Int) := by
    rw [Int.toNat_of_nonneg (Int.emod_nonneg _ (by cases w <;> decide))]
    simp
  rw [hcast, Int.emod_bmod]
  apply Int.bmod_eq_of_le
  · cases w <;> simp [Width.bits, Width.bytes] at h ⊢ <;> omega
  · cases w <;> simp [Width.bits, Width.bytes] at h' ⊢ <;> omega

theorem readInteger_int {w : Width} {i : Int} {lower upper : Int} {rest : List UInt8} {tags depth : Nat}
    (hw : -(2 ^ (w.bits - 1)) ≤ i) (hw' : i < 2 ^ (w.bits - 1)) (hl : lower ≤ i) (hu : i ≤ upper) :
    (⟨BigEndian.toBytes w.bytes (i % 2 ^ w.bits).toNat ++ rest, tags, depth⟩ : Reader).readInteger lower upper (.int w) =
      .ok (i, ⟨rest, tags, depth⟩) := by
  simp only [Reader.readInteger, readEndian_toBytes (toNat_emod_lt w i), bmod_emod hw hw', castInteger_ok hl hu, bind,
    Except.bind]

theorem unsigned_leaf {n : Nat} (h : n < 2 ^ 64) :
    ∃ enc, Leaf (unsignedBytes n) Reader.unsignedInteger (n : Int) enc := by
  rcases unsignedBytes_ok h with ⟨hn, heq⟩ | ⟨w, hw, heq⟩
  · refine ⟨_, heq, fun rest tags depth => (leaf_bind _).trans ?_, by simp⟩
    rw [ofByte_fixedUnsigned hn]
    rfl
  · refine ⟨_, heq, fun rest tags depth => (leaf_bind _).trans ?_, by simp⟩
    rw [ofByte_uintTag]
    exact readInteger_uint hw (by omega) (by omega)

theorem integer_leaf {i : Int} (h : -2 ^ 63 ≤ i) (h' : i < 2 ^ 63) :
    ∃ enc, Leaf (integerBytes i) Reader.integer i enc := by
  by_cases hi : 0 ≤ i
  · obtain ⟨n, rfl⟩ := Int.eq_ofNat_of_zero_le hi
    have hbytes : integerBytes (n : Int) = unsignedBytes n := by simp [integerBytes]
    rw [hbytes]
    rcases unsignedBytes_ok (show n < 2 ^ 64 by omega) with ⟨hn, heq⟩ | ⟨w, hw, heq⟩
    · refine ⟨_, heq, fun rest tags depth => (leaf_bind _).trans ?_, by simp⟩
      rw [ofByte_fixedUnsigned hn]
      rfl
    · refine ⟨_, heq, fun rest tags depth => (leaf_bind _).trans ?_, by simp⟩
      rw [ofByte_uintTag]
      exact readInteger_uint hw (by omega) (by omega)
  · have hneg : i < 0 := by omega
    have hbytes : integerBytes i = negativeBytes i := by simp [integerBytes, hi]
    rw [hbytes]
    rcases negativeBytes_ok h with ⟨hlow, heq⟩ | ⟨w, hw, heq⟩
    · refine ⟨_, heq, fun rest tags depth => (leaf_bind _).trans ?_, by simp⟩
      rw [ofByte_fixedSigned hlow hneg]
      rfl
    · refine ⟨_, heq, fun rest tags depth => (leaf_bind _).trans ?_, by simp⟩
      rw [ofByte_intTag]
      have hpos : (0 : Int) < 2 ^ (w.bits - 1) := by cases w <;> decide
      exact readInteger_int hw (by omega) (by omega) (by omega)

theorem boolean_leaf (b : Bool) : ∃ enc, Leaf (.ok [if b then 0xc3 else 0xc2]) Reader.boolean b enc := by
  refine ⟨_, rfl, fun rest tags depth => (leaf_bind _).trans ?_, by simp⟩
  cases b <;> rfl

theorem readString_string {w : Width} {bytes rest : List UInt8} {tags depth : Nat} (h : bytes.length < 2 ^ w.bits) :
    (⟨BigEndian.toBytes w.bytes bytes.length ++ bytes ++ rest, tags, depth⟩ : Reader).readString (.string w) =
      .ok (bytes, ⟨rest, tags, depth⟩) := readCounted_toBytes h

theorem string_leaf {bytes : List UInt8} (h : bytes.length < 2 ^ 32) :
    ∃ enc, Leaf (stringBytes bytes) Reader.string bytes enc := by
  rcases stringBytes_ok h with ⟨hn, heq⟩ | ⟨w, hmem, hw, heq⟩
  · refine ⟨_, heq, fun rest tags depth => (leaf_bind _).trans ?_, by simp⟩
    rw [ofByte_fixedString hn]
    exact readRaw_append
  · refine ⟨_, heq, fun rest tags depth => (leaf_bind _).trans ?_, by simp⟩
    rw [ofByte_stringTag hmem]
    exact readString_string hw

theorem binary_leaf {bytes : List UInt8} (h : bytes.length < 2 ^ 32) :
    ∃ enc, Leaf (binaryBytes bytes) Reader.binary bytes enc := by
  obtain ⟨w, hmem, hw, heq⟩ := binaryBytes_ok h
  refine ⟨_, heq, fun rest tags depth => (leaf_bind _).trans ?_, by simp⟩
  rw [ofByte_binaryTag hmem]
  exact readCounted_toBytes hw

/-! ## Keys -/

def keyBytes (integerKeys : Bool) (id : Nat) (name : List UInt8) : Except WireError (List UInt8) :=
  if integerKeys then unsignedBytes id else stringBytes name

theorem key_leaf {integerKeys : Bool} {id : Nat} {name : List UInt8} (hid : id < 2 ^ 32)
    (hname : name.length < 2 ^ 32) :
    ∃ enc, ∀ map : KeyMap,
      Leaf (keyBytes integerKeys id name) (·.readKey map) (map.findIdx? (isKey integerKeys id name)) enc := by
  cases integerKeys with
  | true =>
    have hkey : isKey true id name = fun e => decide (e.2 = id) := rfl
    simp only [keyBytes, if_true, hkey]
    rcases unsignedBytes_ok (show id < 2 ^ 64 by omega) with ⟨hn, heq⟩ | ⟨w, hw, heq⟩
    · refine ⟨_, fun map => ⟨heq, fun rest tags depth => (leaf_bind _).trans ?_, by simp⟩⟩
      rw [ofByte_fixedUnsigned hn]
      rfl
    · refine ⟨_, fun map => ⟨heq, fun rest tags depth => (leaf_bind _).trans ?_, by simp⟩⟩
      rw [ofByte_uintTag]
      simp only [readInteger_uint hw (show (0 : Int) ≤ id by omega) (show (id : Int) ≤ 2 ^ 32 - 1 by omega), bind, Except.bind,
        Nat.cast_inj]
  | false =>
    have hkey : isKey false id name = fun e => decide (e.1 = name) := rfl
    simp only [keyBytes, Bool.false_eq_true, if_false, hkey]
    rcases stringBytes_ok hname with ⟨hn, heq⟩ | ⟨w, hmem, hw, heq⟩
    · refine ⟨_, fun map => ⟨heq, fun rest tags depth => (leaf_bind _).trans ?_, by simp⟩⟩
      rw [ofByte_fixedString hn]
      have hraw : (⟨name ++ rest, tags, depth⟩ : Reader).readString (.fixedString name.length) =
          .ok (name, ⟨rest, tags, depth⟩) :=
        readRaw_append
      simp only [hraw, bind, Except.bind]
    · refine ⟨_, fun map => ⟨heq, fun rest tags depth => (leaf_bind _).trans ?_, by simp⟩⟩
      rw [ofByte_stringTag hmem]
      simp only [readString_string hw, bind, Except.bind]

/-! ## Values -/

def Writer.advance (w : Writer) (bytes : List UInt8) (elements : UInt64) : Writer :=
  { w with bytes := w.bytes ++ bytes, expected := w.expected - elements }

theorem Writer.advance_advance (w : Writer) (xs ys : List UInt8) (m n : UInt64) :
    (w.advance xs m).advance ys n = w.advance (xs ++ ys) (m + n) := by
  simp only [Writer.advance, List.append_assoc, Writer.mk.injEq, true_and, and_true]
  grind

theorem Writer.done_eq_advance (w : Writer) : w.done = w.advance [] 1 := by
  simp [Writer.done, Writer.advance]

/-- An array or object adds its elements to the ones that are expected. -/
theorem Writer.start_eq_advance (w : Writer) (bytes : List UInt8) (n : UInt64) :
    { w.put bytes with expected := w.expected + n } = w.advance bytes (-n) := by
  simp only [Writer.put, Writer.advance, Writer.mk.injEq, true_and, and_true]
  grind

/-- What is written for a value, and how it is read back at any place: one element less is
    expected, one tag less remains. `nested` is how deep the value goes, and the tags that
    may remain are bounded by the `level` of the place. -/
structure Coded {α : Type} (integerKeys : Bool) (write : Writer → Except WireError Writer)
    (read : Reader → Except WireError (α × Reader)) (a : α) (nested : Nat) (enc : List UInt8) : Prop where
  write : ∀ w : Writer, w.integerKeys = integerKeys → write w = .ok (w.advance enc 1)
  read : ∀ rest tags level, level + nested < maxReadDepth → tags ≤ level * 2 ^ 33 →
    read ⟨enc ++ rest, tags + 1, level⟩ = .ok (a, ⟨rest, tags, level⟩)
  size : 1 ≤ enc.length

theorem element_ok {w : Writer} {enc : List UInt8} : w.element (.ok enc) = .ok (w.advance enc 1) := rfl

theorem Leaf.coded {α : Type} {bytes : Except WireError (List UInt8)} {read : Reader → Except WireError (α × Reader)}
    {a : α} {enc : List UInt8} (integerKeys : Bool) {nested : Nat} (h : Leaf bytes read a enc) :
    Coded integerKeys (·.element bytes) read a nested enc where
  write w _ := by
    simp only [h.write]
    exact element_ok
  read rest tags level _ _ := h.read rest tags level
  size := h.size

/-- A conversion after the read that the value passes. -/
theorem Coded.convert {α β : Type} {integerKeys : Bool} {write : Writer → Except WireError Writer}
    {read : Reader → Except WireError (α × Reader)} {a : α} {nested : Nat} {enc : List UInt8}
    (h : Coded integerKeys write read a nested enc) (f : α → Except WireError β) {b : β} (hf : f a = .ok b) :
    Coded integerKeys write (fun r => read r >>= fun (a, r) => f a >>= fun b => .ok (b, r)) b nested enc where
  write := h.write
  read rest tags level hlevel htags := by
    simp only [h.read rest tags level hlevel htags, bind, Except.bind, hf]
  size := h.size

theorem Coded.mono {α : Type} {integerKeys : Bool} {write : Writer → Except WireError Writer}
    {read : Reader → Except WireError (α × Reader)} {a : α} {nested nested' : Nat} {enc : List UInt8}
    (h : Coded integerKeys write read a nested enc) (hle : nested ≤ nested') :
    Coded integerKeys write read a nested' enc where
  write := h.write
  read rest tags level hlevel htags := h.read rest tags level (by omega) htags
  size := h.size

/-! ## Arrays -/

/-- The count in front of an array or object. -/
theorem count_leaf {fixed : UInt8} {fixedTag : Nat → Tag} {tag : Width → UInt8} {wideTag : Width → Tag} {n : Nat}
    (hfixed : n ≤ 15 → Tag.ofByte (fixed ||| UInt8.ofNat n) = fixedTag n)
    (hwide : ∀ w ∈ [Width.w16, .w32], Tag.ofByte (tag w) = wideTag w) (hn : n < 2 ^ 32) :
    ∃ enc, writeFixedCount fixed 15 [.w16, .w32] tag n = .ok enc ∧ 1 ≤ enc.length ∧
      ∀ rest tags level, ∃ t bytes, (⟨enc ++ rest, tags, level⟩ : Reader).getTag = .ok (t, ⟨bytes ++ rest, tags, level⟩) ∧
        ((t = fixedTag n ∧ bytes = []) ∨
          ∃ w, t = wideTag w ∧ (⟨bytes ++ rest, tags, level⟩ : Reader).readEndian w = .ok (n, ⟨rest, tags, level⟩)) := by
  by_cases hle : n ≤ 15
  · refine ⟨[fixed ||| UInt8.ofNat n], by simp [writeFixedCount, hle], by simp, fun rest tags level => ?_⟩
    exact ⟨_, [], rfl, .inl ⟨hfixed hle, rfl⟩⟩
  · obtain ⟨w, hmem, hw, heq⟩ := @writeCount_ok [.w16, .w32] tag n ⟨.w32, by simp, hn⟩
    refine ⟨tag w :: BigEndian.toBytes w.bytes n, ?_, by simp, fun rest tags level => ?_⟩
    · simp only [writeFixedCount, hle, if_false, heq]
    · exact ⟨_, BigEndian.toBytes w.bytes n, rfl, .inr ⟨w, hwide w hmem, readEndian_toBytes hw⟩⟩

theorem arrayCount_leaf {n : Nat} (hn : n < 2 ^ 32) :
    ∃ enc, writeFixedCount 0x90 15 [.w16, .w32] arrayTag n = .ok enc ∧ 1 ≤ enc.length ∧
      ∀ rest tags level, (⟨enc ++ rest, tags, level⟩ : Reader).readArrayCount = .ok (n, ⟨rest, tags, level⟩) := by
  obtain ⟨enc, hwrite, hsize, hread⟩ := @count_leaf 0x90 .fixedArray arrayTag .array n ofByte_fixedArray
    (fun w hw => ofByte_arrayTag hw) hn
  refine ⟨enc, hwrite, hsize, fun rest tags level => ?_⟩
  obtain ⟨t, bytes, htag, ⟨rfl, rfl⟩ | ⟨w, rfl, hw⟩⟩ := hread rest tags level
  · simp [Reader.readArrayCount, htag, bind, Except.bind]
  · simp [Reader.readArrayCount, htag, hw, bind, Except.bind]

theorem objectCount_leaf {n : Nat} (hn : n < 2 ^ 32) :
    ∃ enc, writeFixedCount 0x80 15 [.w16, .w32] objectTag n = .ok enc ∧ 1 ≤ enc.length ∧
      ∀ rest tags level, (⟨enc ++ rest, tags, level⟩ : Reader).readObjectCount = .ok (n, ⟨rest, tags, level⟩) := by
  obtain ⟨enc, hwrite, hsize, hread⟩ := @count_leaf 0x80 .fixedObject objectTag .object n ofByte_fixedObject
    (fun w hw => ofByte_objectTag hw) hn
  refine ⟨enc, hwrite, hsize, fun rest tags level => ?_⟩
  obtain ⟨t, bytes, htag, ⟨rfl, rfl⟩ | ⟨w, rfl, hw⟩⟩ := hread rest tags level
  · simp [Reader.readObjectCount, htag, bind, Except.bind]
  · simp [Reader.readObjectCount, htag, hw, bind, Except.bind]

/-- The elements of an array, one after the other, from where `consumed` bytes were read for
    those before them. -/
theorem elements_coded {α : Type} {integerKeys : Bool} {write : α → Writer → Except WireError Writer}
    {read : Reader → Except WireError (α × Reader)} {depthOf size : α → Nat} {nested : Nat} (l : List α)
    (h : ∀ x ∈ l, depthOf x ≤ nested ∧ ∃ enc, Coded integerKeys (write x) read x (depthOf x) enc ∧ enc.length = size x) :
    ∃ enc, enc.length = (l.map size).sum ∧ l.length ≤ enc.length ∧
      (∀ w : Writer, w.integerKeys = integerKeys →
        l.foldlM (fun w x => write x w) w = .ok (w.advance enc (UInt64.ofNat l.length))) ∧
      ∀ rest tags level minElementSize maxElementCount consumed dest, level + nested < maxReadDepth →
        tags + l.length ≤ level * 2 ^ 33 → dest.length + l.length ≤ maxElementCount →
        (∀ k ≤ l.length, minElementSize * (dest.length + k) ≤ consumed + ((l.take k).map size).sum) →
        arrayLoop read minElementSize maxElementCount (consumed + (enc ++ rest).length) l.length dest
          ⟨enc ++ rest, tags + l.length, level⟩ = .ok (dest ++ l, ⟨rest, tags, level⟩) := by
  induction l with
  | nil =>
    refine ⟨[], rfl, Nat.le_refl 0, fun w _ => ?_, fun rest tags level _ _ _ dest _ _ _ _ => ?_⟩
    · simp [Writer.advance, pure, Except.pure]
    · simp [arrayLoop]
  | cons x l ih =>
    obtain ⟨hdepth, encx, hx, hxsize⟩ := h x List.mem_cons_self
    obtain ⟨enc, hsize, hlength, hwrite, hread⟩ := ih fun y hy => h y (List.mem_cons_of_mem _ hy)
    have hone := hx.size
    refine ⟨encx ++ enc, ?_, ?_, fun w hw => ?_, ?_⟩
    · rw [List.length_append, hxsize, hsize, List.map_cons, List.sum_cons]
    · rw [List.length_append, List.length_cons]
      omega
    · rw [List.foldlM_cons, hx.write w hw]
      simp only [bind, Except.bind]
      rw [hwrite (w.advance encx 1) hw, Writer.advance_advance, List.length_cons, UInt64.ofNat_add, UInt64.add_comm]
      rfl
    · intro rest tags level minElementSize maxElementCount consumed dest hlevel htags hmax hlong
      rw [List.length_cons] at htags hmax
      have hfirst := hx.read (enc ++ rest) (tags + l.length) level (by omega) (by omega)
      have hdest : (dest ++ [x]).length = dest.length + 1 := by simp
      have hstart : consumed + (encx ++ enc ++ rest).length = consumed + encx.length + (enc ++ rest).length := by
        simp only [List.length_append]
        omega
      have hcheck : ¬(consumed + encx.length + (enc ++ rest).length - (enc ++ rest).length) / (dest ++ [x]).length <
          minElementSize := by
        have := hlong 1 (by rw [List.length_cons]; omega)
        rw [List.take_succ_cons, List.take_zero, List.map_singleton, List.sum_singleton, ← hxsize] at this
        rwa [Nat.add_sub_cancel, Nat.not_lt, Nat.le_div_iff_mul_le (by omega), hdest]
      have hrest : ∀ k ≤ l.length,
          minElementSize * ((dest ++ [x]).length + k) ≤ consumed + encx.length + ((l.take k).map size).sum := by
        intro k hk
        have := hlong (k + 1) (by rw [List.length_cons]; omega)
        rw [List.take_succ_cons, List.map_cons, List.sum_cons, ← hxsize] at this
        rw [hdest, Nat.add_assoc dest.length, Nat.add_comm 1 k]
        omega
      rw [hstart, List.length_cons, arrayLoop, if_neg (by omega), List.append_assoc, ← Nat.add_assoc, hfirst]
      simp only [bind, Except.bind, hcheck, if_false]
      rw [hread rest tags level minElementSize maxElementCount (consumed + encx.length) (dest ++ [x]) hlevel (by omega)
        (by omega) hrest]
      simp

theorem incrementDepth_succ {rest : List UInt8} {tags level : Nat} (h : level + 1 < maxReadDepth) :
    (⟨rest, tags, level⟩ : Reader).incrementDepth = .ok ⟨rest, tags, level + 1⟩ := by
  simp [Reader.incrementDepth, Nat.ne_of_lt h]

theorem decrementDepth_succ {rest : List UInt8} {tags level : Nat} :
    (⟨rest, tags, level + 1⟩ : Reader).decrementDepth = .ok ⟨rest, tags, level⟩ := by
  simp [Reader.decrementDepth]

/-- The count of elements, then the elements; the array itself is taken off at its end. -/
theorem array_coded {α : Type} {integerKeys : Bool} {write : α → Writer → Except WireError Writer}
    {read : Reader → Except WireError (α × Reader)} {depthOf size : α → Nat} {nested minElementSize maxElementCount : Nat}
    (l : List α)
    (h : ∀ x ∈ l, depthOf x ≤ nested ∧ ∃ enc, Coded integerKeys (write x) read x (depthOf x) enc ∧ enc.length = size x)
    (hlen : l.length < 2 ^ 32) (hmax : l.length ≤ maxElementCount) (hlong : LongEnough minElementSize size l) :
    ∃ enc, Coded integerKeys
      (fun w => do
        let w ← w.startArray l.length
        let w ← l.foldlM (fun w x => write x w) w
        .ok w.done)
      (readArray read minElementSize maxElementCount) l (1 + nested) enc ∧ l.length < enc.length := by
  obtain ⟨front, hfront, hone, hcount⟩ := arrayCount_leaf hlen
  obtain ⟨enc, hsize, hlength, hwrite, hread⟩ := elements_coded l h
  have hfull : l.length < (front ++ enc).length := by
    rw [List.length_append]
    omega
  refine ⟨front ++ enc, ⟨?_, ?_, Nat.one_le_of_lt hfull⟩, hfull⟩
  · intro w hw
    have hstart : w.startArray l.length = .ok (w.advance front (-UInt64.ofNat l.length)) := by
      simp only [Writer.startArray, hfront, Except.map, Except.ok.injEq]
      exact Writer.start_eq_advance w front _
    simp only [hstart, hwrite (w.advance front (-UInt64.ofNat l.length)) hw, bind, Except.bind, Writer.done_eq_advance,
      Writer.advance_advance, List.append_nil]
    grind
  · intro rest tags level hlevel htags
    have hdepth : maxReadDepth = 100 := rfl
    have hroom : ¬(enc ++ rest).length / max minElementSize 1 < l.length := by
      have hall := hlong l.length le_rfl
      rw [List.take_length, ← hsize] at hall
      rw [Nat.not_lt, Nat.le_div_iff_mul_le (by omega), List.length_append]
      rcases Nat.le_total minElementSize 1 with hle | hle
      · rw [Nat.max_eq_right hle]
        omega
      · rw [Nat.max_eq_left hle, Nat.mul_comm]
        omega
    have htree : ¬sizeMax - (tags + 1) < l.length := by
      simp only [sizeMax]
      omega
    have hstart : (⟨front ++ (enc ++ rest), tags + 1, level⟩ : Reader).startArray minElementSize =
        .ok (l.length, ⟨enc ++ rest, tags + 1 + l.length, level + 1⟩) := by
      simp only [Reader.startArray, hcount, bind, Except.bind, htree, hroom, if_false]
      rw [incrementDepth_succ (by omega)]
    have hloop := hread rest (tags + 1) (level + 1) minElementSize maxElementCount 0 [] (by omega) (by omega)
      (by simpa using hmax) fun k hk => by simpa only [List.length_nil, Nat.zero_add] using hlong k hk
    rw [Nat.zero_add] at hloop
    rw [List.append_assoc]
    simp only [readArray, hstart, bind, Except.bind, Nat.not_lt.mpr hmax, hroom, if_false, hloop, updateTagsRemaining_succ,
      decrementDepth_succ, List.nil_append]

/-! ## Objects -/

theorem isKey_self (integerKeys : Bool) (id : Nat) (name : List UInt8) :
    isKey integerKeys id name (name, id) = true := by
  cases integerKeys <;> simp [isKey]

theorem findIdx_key {integerKeys : Bool} {id : Nat} {name : List UInt8} {front keys : KeyMap}
    (h : Distinct integerKeys (front ++ (name, id) :: keys)) :
    (front ++ (name, id) :: keys).findIdx? (isKey integerKeys id name) = some front.length := by
  have hfront : ∀ e ∈ front, isKey integerKeys id name e = false := fun e he =>
    (List.pairwise_append.mp h).2.2 e he (name, id) List.mem_cons_self
  have hnone : front.findIdx? (isKey integerKeys id name) = none := List.findIdx?_eq_none_iff.mpr hfront
  simp [List.findIdx?_append, List.findIdx?_cons, hnone, isKey_self]

/-- What is written for the fields of an object, and how they are read back: after those of
    the fields in `front`, into the part of the whole that `put` says. -/
structure FieldsCoded {τ : Type} (integerKeys : Bool) (keys : KeyMap) (write : Writer → Except WireError Writer)
    (tryRead : Nat → τ → Reader → Except WireError (τ × Reader)) (blank full : τ) (available nested : Nat)
    (enc : List UInt8) : Prop where
  write : ∀ w : Writer, w.integerKeys = integerKeys → write w = .ok (w.advance enc (UInt64.ofNat (available * 2)))
  read : ∀ {σ : Type} (front : KeyMap) (whole : Nat → σ → Reader → Except WireError (σ × Reader)) (put : τ → σ),
    Distinct integerKeys (front ++ keys) →
    (∀ i t r, whole (front.length + i) (put t) r = (tryRead i t r).map fun (t, r) => (put t, r)) →
    ∀ rest tags level state, level + nested < maxReadDepth → tags + available * 2 ≤ level * 2 ^ 33 →
      objectLoop (front ++ keys) whole (available + state) (put blank) ⟨enc ++ rest, tags + available * 2, level⟩ =
        objectLoop (front ++ keys) whole state (put full) ⟨rest, tags, level⟩

theorem nil_coded (integerKeys : Bool) (nested : Nat) :
    FieldsCoded integerKeys [] (fun w => .ok w) (fun _ (_ : Unit) _ => .error .invalidKey) () () 0 nested [] where
  write w _ := by simp [Writer.advance]
  read front whole put _ _ rest tags level state _ _ := by simp

section Field

variable {α τ : Type} {integerKeys : Bool} {write : α → Writer → Except WireError Writer}
  {read : Reader → Except WireError (α × Reader)} {name : List UInt8} {id : Nat} {keys : KeyMap}
  {restWrite : Writer → Except WireError Writer} {tryRest : Nat → τ → Reader → Except WireError (τ × Reader)} {blank full : τ}
  {available nested : Nat} {enc : List UInt8}

/-- The fields after the first one, whatever was read of that. -/
theorem whole_rest {σ : Type} {front : KeyMap} {whole : Nat → σ → Reader → Except WireError (σ × Reader)}
    {put : Option α × τ → σ} (entry : List UInt8 × Nat) (o : Option α)
    (h : ∀ i t r, whole (front.length + i) (put t) r = (tryField read tryRest i t r).map fun (t, r) => (put t, r)) (i : Nat)
    (t : τ) (r : Reader) :
    whole ((front ++ [entry]).length + i) (put (o, t)) r = (tryRest i t r).map fun (t, r) => (put (o, t), r) := by
  rw [List.length_append, List.length_singleton, Nat.add_assoc, Nat.add_comm 1 i, h]
  simp only [tryField]
  cases tryRest i t r <;> rfl

/-- A field that is left out. -/
theorem absent_coded (h : FieldsCoded integerKeys keys restWrite tryRest blank full available nested enc) :
    FieldsCoded integerKeys ((name, id) :: keys) (fun w => writeField write name id none w >>= restWrite)
      (tryField read tryRest) (none, blank) (none, full) available nested enc where
  write w hw := h.write w hw
  read front whole put hdistinct hwhole rest tags level state hlevel htags := by
    have happend : front ++ (name, id) :: keys = (front ++ [(name, id)]) ++ keys := by simp
    rw [happend] at hdistinct ⊢
    exact h.read (front ++ [(name, id)]) whole (fun t => put (none, t)) hdistinct (whole_rest (name, id) none hwhole) rest tags
      level state hlevel htags

/-- A field that is there: its key, then its value. -/
theorem present_coded {a : α} {valueEnc : List UInt8} (hid : id < 2 ^ 32) (hname : name.length < 2 ^ 32)
    (ha : Coded integerKeys (write a) read a nested valueEnc)
    (h : FieldsCoded integerKeys keys restWrite tryRest blank full available nested enc) :
    ∃ keyEnc, FieldsCoded integerKeys ((name, id) :: keys) (fun w => writeField write name id (some a) w >>= restWrite)
      (tryField read tryRest) (none, blank) (some a, full) (1 + available) nested (keyEnc ++ (valueEnc ++ enc)) := by
  obtain ⟨keyEnc, hkey⟩ := @key_leaf integerKeys id name hid hname
  refine ⟨keyEnc, ?_, ?_⟩
  · intro w hw
    have hwkey : w.key id name = .ok (w.advance keyEnc 1) := by
      have hbytes : w.key id name = w.element (keyBytes integerKeys id name) := by rw [← hw]; rfl
      rw [hbytes, (hkey []).write]
      exact element_ok
    have hfield : writeField write name id (some a) w = .ok ((w.advance keyEnc 1).advance valueEnc 1) := by
      simp only [writeField, hwkey, ha.write (w.advance keyEnc 1) hw, bind, Except.bind]
    have hcount : UInt64.ofNat ((1 + available) * 2) = 1 + 1 + UInt64.ofNat (available * 2) := by
      rw [Nat.add_mul, UInt64.ofNat_add]
      rfl
    simp only [hfield, bind, Except.bind]
    rw [h.write ((w.advance keyEnc 1).advance valueEnc 1) hw, Writer.advance_advance, Writer.advance_advance, hcount,
      UInt64.add_assoc]
  · intro σ front whole put hdistinct hwhole rest tags level state hlevel htags
    have happend : front ++ (name, id) :: keys = (front ++ [(name, id)]) ++ keys := by simp
    have hrest := h.read (front ++ [(name, id)]) whole (fun t => put (some a, t)) (happend ▸ hdistinct)
      (whole_rest (name, id) (some a) hwhole) rest tags level state hlevel (by omega)
    have hfound := (hkey (front ++ (name, id) :: keys)).read (valueEnc ++ (enc ++ rest)) (tags + available * 2 + 1) level
    have hvalue := ha.read (enc ++ rest) (tags + available * 2) level hlevel (by omega)
    have hone : whole front.length (put (none, blank)) ⟨valueEnc ++ (enc ++ rest), tags + available * 2 + 1, level⟩ =
        .ok (put (some a, blank), ⟨enc ++ rest, tags + available * 2, level⟩) := by
      have := hwhole 0 (none, blank) ⟨valueEnc ++ (enc ++ rest), tags + available * 2 + 1, level⟩
      simpa only [Nat.add_zero, tryField, hvalue, Except.map] using this
    have hstate : 1 + available + state = available + state + 1 := by omega
    have htotal : tags + (1 + available) * 2 = tags + available * 2 + 1 + 1 := by omega
    rw [findIdx_key hdistinct] at hfound
    rw [hstate, htotal, objectLoop, List.append_assoc, List.append_assoc]
    simp only [hfound, hone, bind, Except.bind]
    rw [happend]
    exact hrest

/-- A field with or without a value. -/
theorem field_coded {o : Option α} (hid : id < 2 ^ 32) (hname : name.length < 2 ^ 32)
    (ho : ∀ a ∈ o, ∃ enc, Coded integerKeys (write a) read a nested enc)
    (h : ∃ enc, FieldsCoded integerKeys keys restWrite tryRest blank full available nested enc) :
    ∃ enc, FieldsCoded integerKeys ((name, id) :: keys) (fun w => writeField write name id o w >>= restWrite)
      (tryField read tryRest) (none, blank) (o, full) (o.toList.length + available) nested enc := by
  obtain ⟨enc, h⟩ := h
  cases o with
  | none =>
    refine ⟨enc, ?_⟩
    rw [Option.toList_none, List.length_nil, Nat.zero_add]
    exact absent_coded h
  | some a =>
    obtain ⟨valueEnc, ha⟩ := ho a rfl
    obtain ⟨keyEnc, hfields⟩ := present_coded hid hname ha h
    exact ⟨_, hfields⟩

end Field

/-- The count of fields, then the fields; the object itself is taken off at its end. -/
theorem object_coded {α τ : Type} {integerKeys : Bool} {keys : KeyMap} {write : Writer → Except WireError Writer}
    {tryRead : Nat → τ → Reader → Except WireError (τ × Reader)} {blank full : τ} {available nested : Nat}
    {finish : τ → Except WireError α} {a : α} (hdistinct : Distinct integerKeys keys) (hcount : available < 2 ^ 32)
    (hfinish : finish full = .ok a)
    (h : ∃ enc, FieldsCoded integerKeys keys write tryRead blank full available nested enc) :
    ∃ enc, Coded integerKeys
      (fun w => do
        let w ← w.startObject available
        let w ← write w
        .ok w.done)
      (fun r => do
        let (state, r) ← r.startObject
        let (t, r) ← objectLoop keys tryRead state blank r
        let a ← finish t
        let r ← r.decrementDepth
        .ok (a, r)) a (1 + nested) enc := by
  obtain ⟨front, hfront, hone, hread⟩ := objectCount_leaf hcount
  obtain ⟨enc, henc⟩ := h
  refine ⟨front ++ enc, ?_, ?_, ?_⟩
  · intro w hw
    have hstart : w.startObject available = .ok (w.advance front (-UInt64.ofNat (available * 2))) := by
      simp only [Writer.startObject, hfront, Except.map, Except.ok.injEq]
      exact Writer.start_eq_advance w front _
    simp only [hstart, henc.write (w.advance front (-UInt64.ofNat (available * 2))) hw, bind, Except.bind,
      Writer.done_eq_advance, Writer.advance_advance, List.append_nil]
    grind
  · intro rest tags level hlevel htags
    have hdepth : maxReadDepth = 100 := rfl
    have hhalf : ¬sizeMax / 2 < available := by
      simp only [sizeMax]
      omega
    have htree : ¬sizeMax - (tags + 1) < available * 2 := by
      simp only [sizeMax]
      omega
    have hstart : (⟨front ++ (enc ++ rest), tags + 1, level⟩ : Reader).startObject =
        .ok (available, ⟨enc ++ rest, tags + 1 + available * 2, level + 1⟩) := by
      simp only [Reader.startObject, hread, bind, Except.bind, hhalf, htree, if_false]
      rw [incrementDepth_succ (by omega)]
    have hloop : objectLoop keys tryRead available blank ⟨enc ++ rest, tags + 1 + available * 2, level + 1⟩ =
        .ok (full, ⟨rest, tags, level + 1⟩) := by
      have := henc.read [] tryRead (fun t => t) hdistinct
        (fun i t r => by rw [List.length_nil, Nat.zero_add]; cases tryRead i t r <;> rfl) rest (tags + 1) (level + 1) 0
            (by omega)
        (by omega)
      rw [List.nil_append, Nat.add_zero] at this
      rw [this, objectLoop, updateTagsRemaining_succ]
      rfl
    rw [List.append_assoc]
    simp only [hstart, bind, Except.bind, hloop, hfinish, decrementDepth_succ]
  · rw [List.length_append]
    omega

/-! ## Every schema -/

def Fields.full {α τ : Type} : Fields α τ → α → τ
  | .nil, _ => ()
  | .required _ _ _ rest, (a, b) => (some a, rest.full b)
  | .optional _ _ _ rest, (a, b) => (a, rest.full b)
  | .onEmpty _ _ _ rest, (a, b) => (keepIf (!a.isEmpty) a, rest.full b)
  | .defaulted _ _ _ default _ rest, (a, b) => (keepIf (decide (a ≠ default)) a, rest.full b)

theorem getD_keepIf {α : Type} {p : Bool} {a default : α} (h : p = false → a = default) :
    (keepIf p a).getD default = a := by
  cases p with
  | true => rfl
  | false => exact (h rfl).symm

theorem mem_keepIf {α : Type} {p : Bool} {a x : α} : x ∈ keepIf p a ↔ p = true ∧ a = x := by
  cases p <;> simp [keepIf]

/-- What was left out is put back. -/
theorem Fields.finish_full {α τ : Type} : (fields : Fields α τ) → (a : α) → fields.finish (fields.full a) = .ok a
  | .nil, _ => rfl
  | .required _ _ _ rest, (a, b) => by simp only [Fields.finish, Fields.full, rest.finish_full b, Except.map]
  | .optional _ _ _ rest, (a, b) => by simp only [Fields.finish, Fields.full, rest.finish_full b, Except.map]
  | .onEmpty _ _ _ rest, (a, b) => by
    have hget : (keepIf (!a.isEmpty) a).getD [] = a := getD_keepIf fun h => by simpa using h
    simp only [Fields.finish, Fields.full, rest.finish_full b, Except.map, hget]
  | .defaulted _ _ _ default _ rest, (a, b) => by
    have hget : (keepIf (decide (a ≠ default)) a).getD default = a := getD_keepIf fun h => by simpa using h
    simp only [Fields.finish, Fields.full, rest.finish_full b, Except.map, hget]

theorem length_toList_le_one {α : Type} (o : Option α) : o.toList.length ≤ 1 := by
  cases o <;> simp

theorem Fields.available_le {α τ : Type} : (fields : Fields α τ) → (a : α) → fields.available a ≤ fields.keys.length
  | .nil, _ => Nat.le_refl _
  | .required _ _ _ rest, (a, b) => by
    have := rest.available_le b
    simp only [Fields.available, Fields.keys, List.length_cons]
    omega
  | .optional _ _ _ rest, (a, b) => by
    have := rest.available_le b
    have := length_toList_le_one a
    simp only [Fields.available, Fields.keys, List.length_cons]
    omega
  | .onEmpty _ _ _ rest, (a, b) => by
    have := rest.available_le b
    have := length_toList_le_one (keepIf (!a.isEmpty) a)
    simp only [Fields.available, Fields.keys, List.length_cons]
    omega
  | .defaulted _ _ _ default _ rest, (a, b) => by
    have := rest.available_le b
    have := length_toList_le_one (keepIf (decide (a ≠ default)) a)
    simp only [Fields.available, Fields.keys, List.length_cons]
    omega

theorem le_foldr_max {l : List Nat} {n : Nat} (h : n ∈ l) : n ≤ l.foldr max 0 := by
  induction l with
  | nil => simp at h
  | cons m l ih =>
    rw [List.foldr_cons]
    rcases List.mem_cons.mp h with rfl | h
    · omega
    · have := ih h
      omega

theorem toSigned_ok {w : Width} (a : Signed w) : toSigned w a.1 = .ok a :=
  dif_pos a.2

theorem toUnsigned_ok {w : Width} (a : Unsigned w) : toUnsigned w a.1 = .ok a :=
  dif_pos a.2

theorem toBlob_ok {n : Nat} (a : Blob n) : toBlob n a.1 = .ok a :=
  dif_pos a.2

/-- At the top nothing else is expected. -/
theorem Coded.toBytes {α : Type} {s : Schema α} {integerKeys : Bool} {a : α} {nested : Nat} {enc : List UInt8}
    (h : Coded integerKeys (s.write a) s.read a nested enc) : toBytes s integerKeys a = .ok enc := by
  simp only [Wire.toBytes, h.write ⟨[], 1, integerKeys⟩ rfl, Writer.advance, bind, Except.bind]
  rfl

theorem Coded.size_eq {α : Type} {s : Schema α} {integerKeys : Bool} {a : α} {nested : Nat} {enc : List UInt8}
    (h : Coded integerKeys (s.write a) s.read a nested enc) : enc.length = s.size integerKeys a := by
  simp only [Schema.size, h.toBytes]

theorem Schema.coded_array {α : Type} {elem : Schema α} {integerKeys : Bool} {a : List α}
    {minElementSize maxElementCount : Nat} (hlen : a.length < 2 ^ 32) (hmax : a.length ≤ maxElementCount)
    (hlong : LongEnough minElementSize (elem.size integerKeys) a)
    (h : ∀ x ∈ a, ∃ enc, Coded integerKeys (elem.write x) elem.read x (elem.depth x) enc) :
    ∃ enc, Coded integerKeys ((Schema.array minElementSize maxElementCount elem).write a)
      (Schema.array minElementSize maxElementCount elem).read a
      ((Schema.array minElementSize maxElementCount elem).depth a) enc ∧ a.length < enc.length := by
  refine array_coded a (fun x hx => ⟨le_foldr_max (List.mem_map_of_mem hx), ?_⟩) hlen hmax hlong
  obtain ⟨enc, henc⟩ := h x hx
  exact ⟨enc, henc, henc.size_eq⟩

mutual

theorem Schema.coded {α : Type} (integerKeys : Bool) :
    (s : Schema α) → s.WellFormed integerKeys → (a : α) → s.Lengths a →
    s.Allowed integerKeys a → ∃ enc, Coded integerKeys (s.write a) s.read a (s.depth a) enc
  | .bool, _, a, _, _ => by
    obtain ⟨enc, h⟩ := boolean_leaf a
    exact ⟨enc, h.coded integerKeys⟩
  | .int w, _, a, _, _ => by
    have hlow : (-2 ^ 63 : Int) ≤ -2 ^ (w.bits - 1) := by cases w <;> decide
    have hhigh : (2 ^ (w.bits - 1) : Int) ≤ 2 ^ 63 := by cases w <;> decide
    obtain ⟨enc, h⟩ := integer_leaf (le_trans hlow a.2.1) (lt_of_lt_of_le a.2.2 hhigh)
    exact ⟨enc, (h.coded integerKeys).convert (toSigned w) (toSigned_ok a)⟩
  | .uint w, _, a, _, _ => by
    have hhigh : 2 ^ w.bits ≤ 2 ^ 64 := by cases w <;> decide
    obtain ⟨enc, h⟩ := unsigned_leaf (lt_of_lt_of_le a.2 hhigh)
    exact ⟨enc, (h.coded integerKeys).convert (toUnsigned w) (toUnsigned_ok a)⟩
  | .string, _, a, ha, _ => by
    obtain ⟨enc, h⟩ := string_leaf ha
    exact ⟨enc, h.coded integerKeys⟩
  | .binary, _, a, ha, _ => by
    obtain ⟨enc, h⟩ := binary_leaf ha
    exact ⟨enc, h.coded integerKeys⟩
  | .blob n, hn, a, _, _ => by
    obtain ⟨enc, h⟩ := @binary_leaf a.1 (by rw [a.2]; exact hn)
    exact ⟨enc, (h.coded integerKeys).convert (toBlob n) (toBlob_ok a)⟩
  | .array minElementSize maxElementCount elem, hs, a, ha, hallowed => by
    obtain ⟨hlen, hlengths⟩ := ha
    obtain ⟨hmax, hlong, helems⟩ := hallowed
    obtain ⟨enc, h, -⟩ :=
      Schema.coded_array hlen hmax hlong fun x hx => elem.coded integerKeys hs x (hlengths x hx) (helems x hx)
    exact ⟨enc, h⟩
  | .object fields, hs, a, ha, hallowed => by
    obtain ⟨hdistinct, hcount, hfields⟩ := hs
    have havailable := fields.available_le a
    exact object_coded hdistinct (by omega) (fields.finish_full a)
      (fields.coded integerKeys hfields a ha hallowed (fields.depth a) le_rfl)
  | .convert value encode decode, hs, a, ha, hallowed => by
    obtain ⟨enc, h⟩ := value.coded integerKeys hs (encode a) ha hallowed.1
    exact ⟨enc, h.convert decode hallowed.2⟩

theorem Fields.coded {α τ : Type} (integerKeys : Bool) :
    (fields : Fields α τ) → fields.WellFormed integerKeys → (a : α) →
    fields.Lengths a → fields.Allowed integerKeys a → (nested : Nat) → fields.depth a ≤ nested →
    ∃ enc, FieldsCoded integerKeys fields.keys (fields.write a) fields.tryRead fields.blank (fields.full a)
      (fields.available a) nested enc
  | .nil, _, _, _, _, nested, _ => ⟨[], nil_coded integerKeys nested⟩
  | .required name id value rest, hs, (a, b), ha, hallowed, nested, hnested => by
    obtain ⟨⟨hname, hid⟩, hvalue, hrest⟩ := hs
    obtain ⟨hdepth, hdepthrest⟩ := Nat.max_le.mp hnested
    obtain ⟨enc, h⟩ := value.coded integerKeys hvalue a ha.1 hallowed.1
    refine field_coded hid hname (fun x hx => ?_) (rest.coded integerKeys hrest b ha.2 hallowed.2 nested hdepthrest)
    cases hx
    exact ⟨enc, h.mono hdepth⟩
  | .optional name id value rest, hs, (a, b), ha, hallowed, nested, hnested => by
    obtain ⟨⟨hname, hid⟩, hvalue, hrest⟩ := hs
    obtain ⟨hdepth, hdepthrest⟩ := Nat.max_le.mp hnested
    refine field_coded hid hname (fun x hx => ?_) (rest.coded integerKeys hrest b ha.2 hallowed.2 nested hdepthrest)
    obtain ⟨enc, h⟩ := value.coded integerKeys hvalue x (ha.1 x hx) (hallowed.1 x hx)
    cases hx
    exact ⟨enc, h.mono hdepth⟩
  | .onEmpty name id value rest, hs, (a, b), ha, hallowed, nested, hnested => by
    obtain ⟨⟨hname, hid⟩, hvalue, hrest⟩ := hs
    obtain ⟨hdepth, hdepthrest⟩ := Nat.max_le.mp hnested
    refine field_coded hid hname (fun x hx => ?_) (rest.coded integerKeys hrest b ha.2 hallowed.2 nested hdepthrest)
    obtain ⟨hkept, rfl⟩ := mem_keepIf.mp hx
    have hne : a ≠ [] := by simpa using hkept
    obtain ⟨enc, h⟩ := value.coded integerKeys hvalue a (ha.1 hne) (hallowed.1 hne)
    exact ⟨enc, h.mono (by simpa [hne] using hdepth)⟩
  | .defaulted name id value default _ rest, hs, (a, b), ha, hallowed, nested, hnested => by
    obtain ⟨⟨hname, hid⟩, hvalue, hrest⟩ := hs
    obtain ⟨hdepth, hdepthrest⟩ := Nat.max_le.mp hnested
    refine field_coded hid hname (fun x hx => ?_) (rest.coded integerKeys hrest b ha.2 hallowed.2 nested hdepthrest)
    obtain ⟨hkept, rfl⟩ := mem_keepIf.mp hx
    have hne : a ≠ default := of_decide_eq_true hkept
    obtain ⟨enc, h⟩ := value.coded integerKeys hvalue a (ha.1 hne) (hallowed.1 hne)
    exact ⟨enc, h.mono (by simpa [hne] using hdepth)⟩

end

/-- At the top nothing follows. -/
theorem Coded.fromBytes {α : Type} {s : Schema α} {integerKeys : Bool} {a : α} {nested : Nat} {enc : List UInt8}
    (h : Coded integerKeys (s.write a) s.read a nested enc) (hdepth : nested < maxReadDepth) : fromBytes s enc = .ok a := by
  have hread := h.read [] 0 0 (by omega) (by omega)
  rw [List.append_nil] at hread
  simp only [Wire.fromBytes, hread, bind, Except.bind, if_true]

/-- The writer is done with every value that fits, and the reader reads it back. -/
theorem fromBytes_toBytes {α : Type} (s : Schema α) (integerKeys : Bool) (a : α) (hs : s.WellFormed integerKeys)
    (hlengths : s.Lengths a) (hallowed : s.Allowed integerKeys a) (hdepth : s.depth a < maxReadDepth) :
    ∃ bytes, toBytes s integerKeys a = .ok bytes ∧ fromBytes s bytes = .ok a := by
  obtain ⟨enc, h⟩ := s.coded integerKeys hs a hlengths hallowed
  exact ⟨enc, h.toBytes, h.fromBytes hdepth⟩

/-- An object with a field of each kind, read back from string keys; the elements of its
    array are arrays of at least two bytes. -/
theorem fromBytes_toBytes_object :
    let fields := Fields.required [0x61] 0 (.uint .w16) (.optional [0x62] 1 .string
      (.onEmpty [0x63] 2 (.array 2 10 (.array 0 2 (.int .w8))) .nil))
    let value : Unsigned .w16 × Option (List UInt8) × List (List (Signed .w8)) × Unit :=
      (⟨300, by decide⟩, none, [[⟨-1, by decide⟩, ⟨5, by decide⟩]], ())
    ∃ bytes, toBytes (.object fields) false value = .ok bytes ∧ fromBytes (.object fields) bytes = .ok value := by
  apply fromBytes_toBytes
  · refine ⟨by decide, by decide, ⟨by decide, by decide⟩, trivial, ⟨by decide, by decide⟩, trivial, ⟨by decide, by decide⟩,
      trivial, trivial⟩
  · refine ⟨trivial, nofun, fun _ => ⟨by decide, fun x hx => ?_⟩, trivial⟩
    cases List.mem_singleton.mp hx
    exact ⟨by decide, fun _ _ => trivial⟩
  · refine ⟨trivial, nofun, fun _ => ⟨by decide, by unfold LongEnough; decide, fun x hx => ?_⟩, trivial⟩
    cases List.mem_singleton.mp hx
    exact ⟨by decide, longEnough_zero _ _, fun _ _ => trivial⟩
  · decide

/-! ## What was written could be -/

theorem writeCount_lt {types : List Width} {tag : Width → UInt8} {n : Nat} {enc : List UInt8}
    (h : writeCount types tag n = .ok enc) : ∃ t ∈ types, n < 2 ^ t.bits := by
  unfold writeCount at h
  split at h
  · rename_i t ht
    have hlt := List.find?_some ht
    exact ⟨t, List.mem_of_find?_eq_some ht, by simpa using hlt⟩
  · cases h

theorem writeFixedCount_lt {fixed : UInt8} {max n : Nat} {types : List Width} {tag : Width → UInt8} {enc : List UInt8}
    (hmax : max < 2 ^ 32) (htypes : ∀ t ∈ types, t.bits ≤ 32) (h : writeFixedCount fixed max types tag n = .ok enc) :
    n < 2 ^ 32 := by
  unfold writeFixedCount at h
  split at h
  · omega
  · obtain ⟨t, ht, hlt⟩ := writeCount_lt h
    exact lt_of_lt_of_le hlt (Nat.pow_le_pow_right (by decide) (htypes t ht))

theorem stringBytes_lt {a enc : List UInt8} (h : stringBytes a = .ok enc) : a.length < 2 ^ 32 := by
  obtain ⟨_, hcount, -⟩ := map_eq_ok.mp h
  exact writeFixedCount_lt (by decide) (by decide) hcount

theorem binaryBytes_lt {a enc : List UInt8} (h : binaryBytes a = .ok enc) : a.length < 2 ^ 32 := by
  obtain ⟨_, hcount, -⟩ := map_eq_ok.mp h
  obtain ⟨t, ht, hlt⟩ := writeCount_lt hcount
  have hbits : ∀ t ∈ [Width.w8, .w16, .w32], t.bits ≤ 32 := by decide
  exact lt_of_lt_of_le hlt (Nat.pow_le_pow_right (by decide) (hbits t ht))

theorem element_written {w w' : Writer} {bytes : Except WireError (List UInt8)} (h : w.element bytes = .ok w') :
    ∃ enc, bytes = .ok enc := by
  obtain ⟨enc, henc, -⟩ := map_eq_ok.mp h
  exact ⟨enc, henc⟩

theorem foldlM_written {α : Type} {write : α → Writer → Except WireError Writer} : ∀ {l : List α} {w w' : Writer},
    l.foldlM (fun w x => write x w) w = .ok w' → ∀ x ∈ l, ∃ w₁ w₂, write x w₁ = .ok w₂ := by
  intro l
  induction l with
  | nil => intro _ _ _ x hx; cases hx
  | cons y l ih =>
    intro w w' h x hx
    rw [List.foldlM_cons] at h
    obtain ⟨w₁, hy, hl⟩ := bind_eq_ok.mp h
    rcases List.mem_cons.mp hx with rfl | hx
    · exact ⟨w, w₁, hy⟩
    · exact ih hl x hx

theorem writeField_written {α : Type} {write : α → Writer → Except WireError Writer} {name : List UInt8} {id : Nat}
    {o : Option α} {w w' : Writer} (h : writeField write name id o w = .ok w') : ∀ x ∈ o, ∃ w₁ w₂, write x w₁ = .ok w₂ := by
  rintro x ⟨⟩
  obtain ⟨w₁, -, hx⟩ := bind_eq_ok.mp h
  exact ⟨w₁, w', hx⟩

mutual

theorem Schema.lengths_of_write {α : Type} :
    (s : Schema α) → {a : α} → {w w' : Writer} → s.write a w = .ok w' → s.Lengths a
  | .bool, _, _, _, _ => trivial
  | .int _, _, _, _, _ => trivial
  | .uint _, _, _, _, _ => trivial
  | .string, _, _, _, h => by
    obtain ⟨_, henc⟩ := element_written h
    exact stringBytes_lt henc
  | .binary, _, _, _, h => by
    obtain ⟨_, henc⟩ := element_written h
    exact binaryBytes_lt henc
  | .blob _, _, _, _, _ => trivial
  | .array _ _ elem, a, w, w', h => by
    obtain ⟨w₁, hstart, h⟩ := bind_eq_ok.mp h
    obtain ⟨w₂, hloop, -⟩ := bind_eq_ok.mp h
    obtain ⟨_, hcount, -⟩ := map_eq_ok.mp hstart
    refine ⟨writeFixedCount_lt (by decide) (by decide) hcount, fun x hx => ?_⟩
    obtain ⟨_, _, hwrite⟩ := foldlM_written hloop x hx
    exact elem.lengths_of_write hwrite
  | .object fields, a, w, w', h => by
    obtain ⟨w₁, -, h⟩ := bind_eq_ok.mp h
    obtain ⟨w₂, hfields, -⟩ := bind_eq_ok.mp h
    exact fields.lengths_of_write hfields
  | .convert value _ _, _, _, _, h => value.lengths_of_write h

theorem Fields.lengths_of_write {α τ : Type} : (fields : Fields α τ) → {a : α} → {w w' : Writer} →
    fields.write a w = .ok w' → fields.Lengths a
  | .nil, _, _, _, _ => trivial
  | .required _ _ value rest, (a, b), w, w', h => by
    obtain ⟨w₁, hfield, hrest⟩ := bind_eq_ok.mp h
    obtain ⟨_, _, hwrite⟩ := writeField_written hfield a rfl
    exact ⟨value.lengths_of_write hwrite, rest.lengths_of_write hrest⟩
  | .optional _ _ value rest, (a, b), w, w', h => by
    obtain ⟨w₁, hfield, hrest⟩ := bind_eq_ok.mp h
    refine ⟨fun x hx => ?_, rest.lengths_of_write hrest⟩
    obtain ⟨_, _, hwrite⟩ := writeField_written hfield x hx
    exact value.lengths_of_write hwrite
  | .onEmpty _ _ value rest, (a, b), w, w', h => by
    obtain ⟨w₁, hfield, hrest⟩ := bind_eq_ok.mp h
    refine ⟨fun hne => ?_, rest.lengths_of_write hrest⟩
    obtain ⟨_, _, hwrite⟩ := writeField_written hfield a (mem_keepIf.mpr ⟨by simpa using hne, rfl⟩)
    exact value.lengths_of_write hwrite
  | .defaulted _ _ value _ _ rest, (a, b), w, w', h => by
    obtain ⟨w₁, hfield, hrest⟩ := bind_eq_ok.mp h
    refine ⟨fun hne => ?_, rest.lengths_of_write hrest⟩
    obtain ⟨_, _, hwrite⟩ := writeField_written hfield a (mem_keepIf.mpr ⟨decide_eq_true hne, rfl⟩)
    exact value.lengths_of_write hwrite

end

mutual

def Schema.nesting {α : Type} : Schema α → Nat
  | .array _ _ elem => 1 + elem.nesting
  | .object fields => 1 + fields.nesting
  | .convert value _ _ => value.nesting
  | _ => 0

def Fields.nesting {α τ : Type} : Fields α τ → Nat
  | .nil => 0
  | .required _ _ value rest => max value.nesting rest.nesting
  | .optional _ _ value rest => max value.nesting rest.nesting
  | .onEmpty _ _ value rest => max value.nesting rest.nesting
  | .defaulted _ _ value _ _ rest => max value.nesting rest.nesting

end

theorem foldr_max_le {l : List Nat} {n : Nat} (h : ∀ m ∈ l, m ≤ n) : l.foldr max 0 ≤ n := by
  induction l with
  | nil => exact Nat.zero_le n
  | cons m l ih => exact Nat.max_le.mpr ⟨h m List.mem_cons_self, ih fun k hk => h k (List.mem_cons_of_mem m hk)⟩

mutual

theorem Schema.depth_le_nesting {α : Type} : (s : Schema α) → (a : α) → s.depth a ≤ s.nesting
  | .bool, _ => Nat.le_refl 0
  | .int _, _ => Nat.le_refl 0
  | .uint _, _ => Nat.le_refl 0
  | .string, _ => Nat.le_refl 0
  | .binary, _ => Nat.le_refl 0
  | .blob _, _ => Nat.le_refl 0
  | .array _ _ elem, a => by
    refine Nat.add_le_add_left (foldr_max_le fun m hm => ?_) 1
    obtain ⟨x, -, rfl⟩ := List.mem_map.mp hm
    exact elem.depth_le_nesting x
  | .object fields, a => Nat.add_le_add_left (fields.depth_le_nesting a) 1
  | .convert value encode _, a => value.depth_le_nesting (encode a)

theorem Fields.depth_le_nesting {α τ : Type} : (fields : Fields α τ) → (a : α) → fields.depth a ≤ fields.nesting
  | .nil, _ => Nat.le_refl 0
  | .required _ _ value rest, (a, b) => max_le_max (value.depth_le_nesting a) (rest.depth_le_nesting b)
  | .optional _ _ value rest, (a, b) => by
    refine max_le_max ?_ (rest.depth_le_nesting b)
    rcases a with _ | x
    · exact Nat.zero_le _
    · exact value.depth_le_nesting x
  | .onEmpty _ _ value rest, (a, b) => by
    refine max_le_max ?_ (rest.depth_le_nesting b)
    split
    · exact Nat.zero_le _
    · exact value.depth_le_nesting a
  | .defaulted _ _ value default _ rest, (a, b) => by
    refine max_le_max ?_ (rest.depth_le_nesting b)
    split
    · exact Nat.zero_le _
    · exact value.depth_le_nesting a

end

/-- Whatever was written is read back. -/
theorem toBytes_read {α : Type} {s : Schema α} {integerKeys : Bool} {a : α} {bytes : List UInt8}
    (hs : s.WellFormed integerKeys)
    (hallowed : s.Lengths a → s.Allowed integerKeys a) (hnesting : s.nesting < maxReadDepth)
      (h : toBytes s integerKeys a = .ok bytes) :
    fromBytes s bytes = .ok a := by
  obtain ⟨w, hwrite, -⟩ := bind_eq_ok.mp h
  have hlengths := s.lengths_of_write hwrite
  obtain ⟨enc, henc⟩ := s.coded integerKeys hs a hlengths (hallowed hlengths)
  cases henc.toBytes.symm.trans h
  exact henc.fromBytes (lt_of_le_of_lt (s.depth_le_nesting a) hnesting)

/-- The lengths decide whether a value is written. -/
theorem toBytes_written {α : Type} {s : Schema α} {integerKeys : Bool} {a : α} (hs : s.WellFormed integerKeys)
    (hallowed : s.Lengths a → s.Allowed integerKeys a) (hlengths : s.Lengths a) :
    ∃ bytes, toBytes s integerKeys a = .ok bytes := by
  obtain ⟨enc, henc⟩ := s.coded integerKeys hs a hlengths (hallowed hlengths)
  exact ⟨enc, henc.toBytes⟩

/-! ## The ranges of a subaddress row -/

/-- `read_bytes` of `std::array`, which has exactly so many elements. -/
def fixedArray {α : Type} (n : Nat) (elem : Schema α) : Schema { l : List α // l.length = n } :=
  .convert (.array 0 sizeMax elem) (·.1) fun l => if h : l.length = n then .ok ⟨l, h⟩ else .error .array

/-- `db::index_ranges`: ranges of two minor indexes, with `min_element_size<2>`. -/
def indexRanges : Schema (List { l : List (Unsigned .w32) // l.length = 2 }) :=
  .array 2 sizeMax (fixedArray 2 (.uint .w32))

theorem fixedArray_allowed {α : Type} {n : Nat} {elem : Schema α} {integerKeys : Bool} (hn : n < 2 ^ 32)
    (a : { l : List α // l.length = n }) (h : ∀ x ∈ a.1, elem.Allowed integerKeys x) :
    (fixedArray n elem).Allowed integerKeys a := by
  have hmax : 2 ^ 32 ≤ sizeMax := by decide
  refine ⟨⟨?_, longEnough_zero _ _, h⟩, dif_pos a.2⟩
  rw [a.2]
  omega

theorem fixedArray_size {α : Type} {n : Nat} {elem : Schema α} {integerKeys : Bool} (hs : elem.WellFormed integerKeys)
    (hn : n < 2 ^ 32) (a : { l : List α // l.length = n }) (hlengths : ∀ x ∈ a.1, elem.Lengths x)
    (h : ∀ x ∈ a.1, elem.Allowed integerKeys x) : n < (fixedArray n elem).size integerKeys a := by
  obtain ⟨⟨hmax, hlong, -⟩, -⟩ := fixedArray_allowed hn a h
  obtain ⟨enc, hcoded, hlength⟩ := Schema.coded_array (by rw [a.2]; exact hn) hmax hlong fun x hx =>
    elem.coded integerKeys hs x (hlengths x hx) (h x hx)
  have hsize : enc.length = (fixedArray n elem).size integerKeys a := hcoded.size_eq
  rw [← hsize, ← a.2]
  exact hlength

/-- No range is shorter than the constraint on its size. -/
theorem indexRanges_read (integerKeys : Bool) {ranges : List { l : List (Unsigned .w32) // l.length = 2 }}
    (h : ranges.length < 2 ^ 32) :
    ∃ bytes, toBytes indexRanges integerKeys ranges = .ok bytes ∧ fromBytes indexRanges bytes = .ok ranges := by
  have hmax : 2 ^ 32 ≤ sizeMax := by decide
  have hs : indexRanges.WellFormed integerKeys := trivial
  have hlengths : indexRanges.Lengths ranges := by
    refine ⟨h, fun x _ => ⟨?_, fun _ _ => trivial⟩⟩
    rw [x.2]
    decide
  have hallowed : indexRanges.Allowed integerKeys ranges := by
    refine ⟨by omega, longEnough_of_le fun x _ => ?_, fun x _ => fixedArray_allowed (by decide) x fun _ _ => trivial⟩
    have hunsigned : (Schema.uint .w32).WellFormed integerKeys := trivial
    exact le_of_lt (fixedArray_size hunsigned (by decide) x (fun _ _ => trivial) fun _ _ => trivial)
  obtain ⟨bytes, hbytes⟩ := toBytes_written hs (fun _ => hallowed) hlengths
  exact ⟨bytes, hbytes, toBytes_read hs (fun _ => hallowed) (by decide) hbytes⟩

/-! ## Arrays that are not read back -/

/-- The count of an array has at most 32 bits. -/
theorem toBytes_array_error {α : Type} {minElementSize maxElementCount : Nat} {elem : Schema α} {integerKeys : Bool}
    {a : List α}
    (h : 2 ^ 32 ≤ a.length) : toBytes (.array minElementSize maxElementCount elem) integerKeys a = .error .integerEncoding := by
  have h15 : ¬a.length ≤ 15 := by omega
  have h16 : ¬a.length < 2 ^ 16 := by omega
  have h32 : ¬a.length < 2 ^ 32 := by omega
  simp only [toBytes, Schema.write, Writer.startArray, writeFixedCount, writeCount, List.find?_cons, List.find?_nil, Width.bits,
    Width.bytes, Nat.reduceMul, h15, h16, h32, decide_false, if_false, Except.map, bind, Except.bind]

/-- Not every array is written, and not every array that is written is read back: the count
    has 32 bits, and a schema may limit the count and the size of the elements. -/
theorem array_not_read_back :
    toBytes (.array 0 sizeMax .bool) true (List.replicate (2 ^ 32) true) = .error .integerEncoding ∧
      (toBytes (.array 0 1 .bool) true [true, true] >>= fromBytes (.array 0 1 .bool)) = .error .arrayMaxElement ∧
      (toBytes (.array 8 sizeMax .bool) true [true] >>= fromBytes (.array 8 sizeMax .bool)) = .error .array :=
  ⟨toBytes_array_error (by rw [List.length_replicate]), rfl, rfl⟩

end Lws.Wire
