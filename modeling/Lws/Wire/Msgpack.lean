/-
  Lws.Wire.Msgpack — the msgpack reader and writer (`src/wire/msgpack/read.cpp`,
  `src/wire/msgpack/write.cpp`), with the generic reading and writing of arrays and objects
  they are used with (`src/wire/read.h`, `src/wire/write.h`, `src/wire/field.h`).

  The writer counts the elements that are still expected, the reader the tags that remain:
  an array or object adds its elements to the count and is taken off it itself when it
  ends. There is no tree in between, a C++ type is read and written by its schema. A field
  of an object may be left out: an optional one without a value, an array that is empty, a
  value that is the default.

  Bytes are `UInt8`. Strings are not checked to be UTF-8 by either side, so they are bytes.
-/

import Lws.Wire.BigEndian

namespace Lws.Wire

/-- `wire::error::schema` and `wire::error::msgpack`; `logic` is a `std::logic_error`. -/
inductive WireError where
  | array
  | arrayMaxElement
  | arrayMinSize
  | binary
  | boolean
  | fixedBinary
  | integer
  | invalidKey
  | largerInteger
  | maximumDepth
  | missingKey
  | object
  | smallerInteger
  | string
  | incomplete
  | integerEncoding
  | invalid
  | maxTreeSize
  | notEnoughBytes
  | underflowTree
  | logic
  deriving DecidableEq, Repr

/-! ## Tags -/

inductive Width where
  | w8
  | w16
  | w32
  | w64
  deriving DecidableEq, Repr

def Width.bytes : Width → Nat
  | .w8 => 1
  | .w16 => 2
  | .w32 => 4
  | .w64 => 8

def Width.bits (w : Width) : Nat := 8 * w.bytes

/-- `msgpack::tag`, and the tags that hold a value in their low bits. -/
inductive Tag where
  | fixedUnsigned (value : Nat)
  | fixedObject (count : Nat)
  | fixedArray (count : Nat)
  | fixedString (length : Nat)
  | fixedSigned (value : Int)
  | nil
  | unused
  | bool (value : Bool)
  | binary (w : Width)
  | extension (w : Width)
  | float (w : Width)
  | uint (w : Width)
  | int (w : Width)
  | fixedExtension (size : Nat)
  | string (w : Width)
  | array (w : Width)
  | object (w : Width)
  deriving DecidableEq, Repr

/-- The tag a byte is: the fixed ones by their masks. -/
def Tag.ofByte (b : UInt8) : Tag :=
  if b &&& 0x80 = 0x00 then .fixedUnsigned b.toNat
  else if b &&& 0xf0 = 0x80 then .fixedObject (b &&& 0x0f).toNat
  else if b &&& 0xf0 = 0x90 then .fixedArray (b &&& 0x0f).toNat
  else if b &&& 0xe0 = 0xa0 then .fixedString (b &&& 0x1f).toNat
  else if b &&& 0xe0 = 0xe0 then .fixedSigned (b.toNat - 256)
  else
    match b.toNat with
    | 0xc0 => .nil
    | 0xc2 => .bool false
    | 0xc3 => .bool true
    | 0xc4 => .binary .w8
    | 0xc5 => .binary .w16
    | 0xc6 => .binary .w32
    | 0xc7 => .extension .w8
    | 0xc8 => .extension .w16
    | 0xc9 => .extension .w32
    | 0xca => .float .w32
    | 0xcb => .float .w64
    | 0xcc => .uint .w8
    | 0xcd => .uint .w16
    | 0xce => .uint .w32
    | 0xcf => .uint .w64
    | 0xd0 => .int .w8
    | 0xd1 => .int .w16
    | 0xd2 => .int .w32
    | 0xd3 => .int .w64
    | 0xd4 => .fixedExtension 1
    | 0xd5 => .fixedExtension 2
    | 0xd6 => .fixedExtension 4
    | 0xd7 => .fixedExtension 8
    | 0xd8 => .fixedExtension 16
    | 0xd9 => .string .w8
    | 0xda => .string .w16
    | 0xdb => .string .w32
    | 0xdc => .array .w16
    | 0xdd => .array .w32
    | 0xde => .object .w16
    | 0xdf => .object .w32
    | _ => .unused

def binaryTag : Width → UInt8
  | .w8 => 0xc4
  | .w16 => 0xc5
  | _ => 0xc6

def uintTag : Width → UInt8
  | .w8 => 0xcc
  | .w16 => 0xcd
  | .w32 => 0xce
  | .w64 => 0xcf

def intTag : Width → UInt8
  | .w8 => 0xd0
  | .w16 => 0xd1
  | .w32 => 0xd2
  | .w64 => 0xd3

def stringTag : Width → UInt8
  | .w8 => 0xd9
  | .w16 => 0xda
  | _ => 0xdb

def arrayTag : Width → UInt8
  | .w16 => 0xdc
  | _ => 0xdd

def objectTag : Width → UInt8
  | .w16 => 0xde
  | _ => 0xdf

/-! ## The writer -/

structure Writer where
  bytes : List UInt8
  /-- `expected_`. -/
  expected : UInt64
  integerKeys : Bool

def Writer.put (w : Writer) (bytes : List UInt8) : Writer := { w with bytes := w.bytes ++ bytes }

def Writer.done (w : Writer) : Writer := { w with expected := w.expected - 1 }

/-- The first of the types that holds `items`. -/
def writeCount (types : List Width) (tag : Width → UInt8) (items : Nat) : Except WireError (List UInt8) :=
  match types.find? fun t => decide (items < 2 ^ t.bits) with
  | some t => .ok (tag t :: BigEndian.toBytes t.bytes items)
  | none => .error .integerEncoding

/-- `write_count` with a fixed tag for the low counts. -/
def writeFixedCount (fixed : UInt8) (max : Nat) (types : List Width) (tag : Width → UInt8) (items : Nat) :
    Except WireError (List UInt8) :=
  if items ≤ max then .ok [fixed ||| UInt8.ofNat items] else writeCount types tag items

def negativeBytes (value : Int) : Except WireError (List UInt8) :=
  if -32 ≤ value then .ok [UInt8.ofNat (value % 256).toNat]
  else
    match [Width.w8, .w16, .w32, .w64].find? fun t => decide (-(2 ^ (t.bits - 1)) ≤ value) with
    | some t => .ok (intTag t :: BigEndian.toBytes t.bytes (value % 2 ^ t.bits).toNat)
    | none => .error .integerEncoding

def unsignedBytes (value : Nat) : Except WireError (List UInt8) :=
  if value ≤ 0x7f then .ok [UInt8.ofNat value] else writeCount [.w8, .w16, .w32, .w64] uintTag value

def integerBytes (value : Int) : Except WireError (List UInt8) :=
  if 0 ≤ value then unsignedBytes value.toNat else negativeBytes value

def stringBytes (source : List UInt8) : Except WireError (List UInt8) :=
  (writeFixedCount 0xa0 31 [.w8, .w16, .w32] stringTag source.length).map (· ++ source)

def binaryBytes (source : List UInt8) : Except WireError (List UInt8) :=
  (writeCount [.w8, .w16, .w32] binaryTag source.length).map (· ++ source)

/-- Writes one element that holds no others. -/
def Writer.element (w : Writer) (bytes : Except WireError (List UInt8)) : Except WireError Writer :=
  bytes.map fun bytes => (w.put bytes).done

def Writer.boolean (w : Writer) (value : Bool) : Except WireError Writer :=
  w.element (.ok [if value then 0xc3 else 0xc2])

def Writer.startArray (w : Writer) (items : Nat) : Except WireError Writer :=
  (writeFixedCount 0x90 15 [.w16, .w32] arrayTag items).map fun bytes =>
    { w.put bytes with expected := w.expected + UInt64.ofNat items }

def Writer.startObject (w : Writer) (items : Nat) : Except WireError Writer :=
  (writeFixedCount 0x80 15 [.w16, .w32] objectTag items).map fun bytes =>
    { w.put bytes with expected := w.expected + UInt64.ofNat (items * 2) }

/-- `key`: by number where both sides know the numbers. -/
def Writer.key (w : Writer) (id : Nat) (name : List UInt8) : Except WireError Writer :=
  w.element (if w.integerKeys then unsignedBytes id else stringBytes name)

/-! ## The reader -/

structure Reader where
  remaining : List UInt8
  /-- `tags_remaining_`. -/
  tags : Nat
  depth : Nat
  deriving DecidableEq, Repr

def maxReadDepth : Nat := 100

/-- `std::numeric_limits<std::size_t>::max()`. -/
def sizeMax : Nat := 2 ^ 64 - 1

def Reader.updateTagsRemaining (r : Reader) : Except WireError Reader :=
  if r.tags = 0 then .error .underflowTree else .ok { r with tags := r.tags - 1 }

def Reader.incrementDepth (r : Reader) : Except WireError Reader :=
  if r.depth + 1 = maxReadDepth then .error .maximumDepth else .ok { r with depth := r.depth + 1 }

def Reader.decrementDepth (r : Reader) : Except WireError Reader :=
  if r.depth = 0 then .error .logic else .ok { r with depth := r.depth - 1 }

/-- `remaining_.remove_prefix`, which takes what there is. -/
def Reader.removePrefix (r : Reader) (n : Nat) : Reader := { r with remaining := r.remaining.drop n }

def Reader.peekTag (r : Reader) : Except WireError Tag :=
  match r.remaining with
  | [] => .error .notEnoughBytes
  | b :: _ => .ok (.ofByte b)

def Reader.getTag (r : Reader) : Except WireError (Tag × Reader) :=
  match r.remaining with
  | [] => .error .notEnoughBytes
  | b :: rest => .ok (.ofByte b, { r with remaining := rest })

/-- `read_raw` of a number of bytes. -/
def Reader.readRaw (r : Reader) (n : Nat) : Except WireError (List UInt8 × Reader) :=
  if r.remaining.length < n then .error .notEnoughBytes else .ok (r.remaining.take n, r.removePrefix n)

def Reader.readEndian (r : Reader) (w : Width) : Except WireError (Nat × Reader) :=
  (r.readRaw w.bytes).map fun (bytes, r) => (BigEndian.ofBytes bytes, r)

/-- `read_raw` with the number of bytes in front. -/
def Reader.readCounted (r : Reader) (w : Width) : Except WireError (List UInt8 × Reader) := do
  let (n, r) ← r.readEndian w
  r.readRaw n

/-- `boost::numeric_cast` from a wider integer, or `cast_signed` and `cast_unsigned`. -/
def castInteger (lower upper value : Int) : Except WireError Int :=
  if upper < value then .error .smallerInteger
  else if value < lower then .error .largerInteger
  else .ok value

def Reader.readInteger (r : Reader) (lower upper : Int) (next : Tag) : Except WireError (Int × Reader) :=
  match next with
  | .uint w => do
    let (n, r) ← r.readEndian w
    let value ← castInteger lower upper n
    .ok (value, r)
  | .int w => do
    let (n, r) ← r.readEndian w
    let value ← castInteger lower upper ((n : Int).bmod (2 ^ w.bits))
    .ok (value, r)
  | _ => .error .integer

def Reader.integer (r : Reader) : Except WireError (Int × Reader) := do
  let r ← r.updateTagsRemaining
  let (next, r) ← r.getTag
  match next with
  | .fixedUnsigned value => .ok ((value : Int), r)
  | .fixedSigned value => .ok (value, r)
  | next => r.readInteger (-2 ^ 63) (2 ^ 63 - 1) next

def Reader.unsignedInteger (r : Reader) : Except WireError (Int × Reader) := do
  let r ← r.updateTagsRemaining
  let (next, r) ← r.getTag
  match next with
  | .fixedUnsigned value => .ok ((value : Int), r)
  | next => r.readInteger 0 (2 ^ 64 - 1) next

def Reader.boolean (r : Reader) : Except WireError (Bool × Reader) := do
  let r ← r.updateTagsRemaining
  let (next, r) ← r.getTag
  match next with
  | .bool value => .ok (value, r)
  | _ => .error .boolean

def Reader.readString (r : Reader) (next : Tag) : Except WireError (List UInt8 × Reader) :=
  match next with
  | .fixedString n => r.readRaw n
  | .string w => r.readCounted w
  | _ => .error .string

def Reader.readBinary (r : Reader) (next : Tag) : Except WireError (List UInt8 × Reader) :=
  match next with
  | .binary w => r.readCounted w
  | _ => .error .string

def Reader.string (r : Reader) : Except WireError (List UInt8 × Reader) := do
  let r ← r.updateTagsRemaining
  let (next, r) ← r.getTag
  r.readString next

def Reader.binary (r : Reader) : Except WireError (List UInt8 × Reader) := do
  let r ← r.updateTagsRemaining
  let (next, r) ← r.getTag
  r.readBinary next

def Reader.readArrayCount (r : Reader) : Except WireError (Nat × Reader) := do
  let (next, r) ← r.getTag
  match next with
  | .fixedArray n => .ok (n, r)
  | .array w => r.readEndian w
  | _ => .error .array

def Reader.readObjectCount (r : Reader) : Except WireError (Nat × Reader) := do
  let (next, r) ← r.getTag
  match next with
  | .fixedObject n => .ok (n, r)
  | .object w => r.readEndian w
  | _ => .error .object

def Reader.startArray (r : Reader) (minElementSize : Nat) : Except WireError (Nat × Reader) := do
  let (upcoming, r) ← r.readArrayCount
  if sizeMax - r.tags < upcoming then .error .maxTreeSize
  else if r.remaining.length / max minElementSize 1 < upcoming then .error .array
  else
    let r ← { r with tags := r.tags + upcoming }.incrementDepth
    .ok (upcoming, r)

def Reader.startObject (r : Reader) : Except WireError (Nat × Reader) := do
  let (upcoming, r) ← r.readObjectCount
  if sizeMax / 2 < upcoming then .error .maxTreeSize
  else if sizeMax - r.tags < upcoming * 2 then .error .maxTreeSize
  else
    let r ← { r with tags := r.tags + upcoming * 2 }.incrementDepth
    .ok (upcoming, r)

/-- What `skip_value` removes for one tag. The fixed widths are not checked to be there, and
    what an array or object adds to the depth is not taken off again. -/
def Reader.skipTag (r : Reader) : Tag → Except WireError Reader
  | .nil | .unused | .bool _ => .ok (r.removePrefix 1)
  | .binary w => ((r.removePrefix 1).readBinary (.binary w)).map (·.2)
  | .extension w => ((r.removePrefix 1).readCounted w).map fun (_, r) => r.removePrefix 1
  | .int w | .uint w | .float w => .ok (r.removePrefix (1 + w.bytes))
  | .fixedExtension n => .ok (r.removePrefix (2 + n))
  | .fixedString n => ((r.removePrefix 1).readString (.fixedString n)).map (·.2)
  | .string w => ((r.removePrefix 1).readString (.string w)).map (·.2)
  | .fixedArray _ | .array _ => (r.startArray 0).map (·.2)
  | .fixedObject _ | .object _ => r.startObject.map (·.2)
  | .fixedUnsigned _ | .fixedSigned _ => .ok (r.removePrefix 1)

def Reader.skipStep (r : Reader) : Except WireError Reader := do
  let next ← r.peekTag
  let r ← r.skipTag next
  r.updateTagsRemaining

/-- The loop of `skip_value`. A round takes at least one byte and fails without one, so the
    bytes bound the rounds. -/
def Reader.skipLoop (initial : Nat) : Nat → Reader → Except WireError Reader
  | 0, _ => .error .notEnoughBytes
  | fuel + 1, r => do
    let r ← r.skipStep
    if initial ≤ r.tags then skipLoop initial fuel r else .ok r

def Reader.skipValue (r : Reader) : Except WireError Reader :=
  if sizeMax = r.tags then .error .maxTreeSize else Reader.skipLoop r.tags (r.remaining.length + 1) r

/-- The names and numbers of the fields of an object. -/
abbrev KeyMap := List (List UInt8 × Nat)

/-- One key, and the field it is if any: the first round of the loop of `key`. -/
def Reader.readKey (r : Reader) (map : KeyMap) : Except WireError (Option Nat × Reader) := do
  let r ← r.updateTagsRemaining
  let (next, r) ← r.getTag
  match next with
  | .fixedUnsigned value => .ok (map.findIdx? fun e => e.2 = value, r)
  | .uint w =>
    let (value, r) ← r.readInteger 0 (2 ^ 32 - 1) (.uint w)
    .ok (map.findIdx? fun e => (e.2 : Int) = value, r)
  | .fixedString n =>
    let (value, r) ← r.readString (.fixedString n)
    .ok (map.findIdx? fun e => e.1 = value, r)
  | .string w =>
    let (value, r) ← r.readString (.string w)
    .ok (map.findIdx? fun e => e.1 = value, r)
  | _ => .error .invalidKey

/-! ## Schemas -/

def Signed (w : Width) : Type := { i : Int // -2 ^ (w.bits - 1) ≤ i ∧ i < 2 ^ (w.bits - 1) }
  deriving DecidableEq

def Unsigned (w : Width) : Type := { n : Nat // n < 2 ^ w.bits }
  deriving DecidableEq

def Blob (n : Nat) : Type := { bytes : List UInt8 // bytes.length = n }
  deriving DecidableEq

mutual

/-- How a C++ type is read and written. -/
inductive Schema : Type → Type 1 where
  | bool : Schema Bool
  | int (w : Width) : Schema (Signed w)
  | uint (w : Width) : Schema (Unsigned w)
  | string : Schema (List UInt8)
  | binary : Schema (List UInt8)
  | blob (n : Nat) : Schema (Blob n)
  /-- With the constraints `min_element_size` and `max_element_count` of the reader. -/
  | array {α : Type} (minElementSize maxElementCount : Nat) (elem : Schema α) : Schema (List α)
  | object {α τ : Type} (fields : Fields α τ) : Schema α
  /-- A type whose `read_bytes` and `write_bytes` go through another value. -/
  | convert {α β : Type} (value : Schema α) (encode : β → α) (decode : α → Except WireError β) : Schema β

/-- The fields of an object of values `α`. While it is read, `τ` has what was read of each. -/
inductive Fields : Type → Type → Type 1 where
  | nil : Fields Unit Unit
  /-- `wire::field`. -/
  | required {α β τ : Type} (name : List UInt8) (id : Nat) (value : Schema α) (rest : Fields β τ) :
      Fields (α × β) (Option α × τ)
  /-- `wire::optional_field` of an optional. -/
  | optional {α β τ : Type} (name : List UInt8) (id : Nat) (value : Schema α) (rest : Fields β τ) :
      Fields (Option α × β) (Option α × τ)
  /-- `wire::field` of a type with `is_optional_on_empty`, or `wire::optional_field` of a
      wrapped array: it is left out when it is empty. -/
  | onEmpty {α β τ : Type} (name : List UInt8) (id : Nat) (value : Schema (List α)) (rest : Fields β τ) :
      Fields (List α × β) (Option (List α) × τ)
  /-- `wire::optional_field` of `wire::defaulted`. -/
  | defaulted {α β τ : Type} (name : List UInt8) (id : Nat) (value : Schema α) (default : α) (eq : DecidableEq α)
      (rest : Fields β τ) : Fields (α × β) (Option α × τ)

end

def keepIf {α : Type} (p : Bool) (a : α) : Option α := if p then some a else none

/-- `available`: how many fields are written. -/
def Fields.available {α τ : Type} : Fields α τ → α → Nat
  | .nil, _ => 0
  | .required _ _ _ rest, (_, b) => 1 + rest.available b
  | .optional _ _ _ rest, (a, b) => a.toList.length + rest.available b
  | .onEmpty _ _ _ rest, (a, b) => (keepIf (!a.isEmpty) a).toList.length + rest.available b
  | .defaulted _ _ _ default _ rest, (a, b) => (keepIf (decide (a ≠ default)) a).toList.length + rest.available b

def writeField {α : Type} (write : α → Writer → Except WireError Writer) (name : List UInt8) (id : Nat) (a : Option α)
    (w : Writer) : Except WireError Writer :=
  match a with
  | none => .ok w
  | some a => do
    let w ← w.key id name
    write a w

mutual

def Schema.write {α : Type} : Schema α → α → Writer → Except WireError Writer
  | .bool, a, w => w.boolean a
  | .int _, a, w => w.element (integerBytes a.1)
  | .uint _, a, w => w.element (unsignedBytes a.1)
  | .string, a, w => w.element (stringBytes a)
  | .binary, a, w => w.element (binaryBytes a)
  | .blob _, a, w => w.element (binaryBytes a.1)
  | .array _ _ elem, a, w => do
    let w ← w.startArray a.length
    let w ← a.foldlM (fun w x => elem.write x w) w
    .ok w.done
  | .object fields, a, w => do
    let w ← w.startObject (fields.available a)
    let w ← fields.write a w
    .ok w.done
  | .convert value encode _, a, w => value.write (encode a) w

/-- The fields of an object that are available, in order. -/
def Fields.write {α τ : Type} : Fields α τ → α → Writer → Except WireError Writer
  | .nil, _, w => .ok w
  | .required name id value rest, (a, b), w => do
    let w ← writeField value.write name id (some a) w
    rest.write b w
  | .optional name id value rest, (a, b), w => do
    let w ← writeField value.write name id a w
    rest.write b w
  | .onEmpty name id value rest, (a, b), w => do
    let w ← writeField value.write name id (keepIf (!a.isEmpty) a) w
    rest.write b w
  | .defaulted name id value default _ rest, (a, b), w => do
    let w ← writeField value.write name id (keepIf (decide (a ≠ default)) a) w
    rest.write b w

end

/-- `wire_write::to_bytes`: an element that is still expected is a `std::logic_error`. -/
def toBytes {α : Type} (s : Schema α) (integerKeys : Bool) (a : α) : Except WireError (List UInt8) := do
  let w ← s.write a ⟨[], 1, integerKeys⟩
  if w.expected = 0 then .ok w.bytes else .error .logic

/-! ## Reading by a schema -/

def toSigned (w : Width) (i : Int) : Except WireError (Signed w) :=
  if h : -2 ^ (w.bits - 1) ≤ i ∧ i < 2 ^ (w.bits - 1) then .ok ⟨i, h⟩
  else if i < 0 then .error .largerInteger
  else .error .smallerInteger

def toUnsigned (w : Width) (i : Int) : Except WireError (Unsigned w) :=
  if h : i.toNat < 2 ^ w.bits then .ok ⟨i.toNat, h⟩ else .error .smallerInteger

def toBlob (n : Nat) (bytes : List UInt8) : Except WireError (Blob n) :=
  if h : bytes.length = n then .ok ⟨bytes, h⟩ else .error .fixedBinary

/-- The loop of `array_unchecked`, over the elements that are still to come. -/
def arrayLoop {α : Type} (read : Reader → Except WireError (α × Reader))
    (minElementSize maxElementCount startBytes : Nat) :
    Nat → List α → Reader → Except WireError (List α × Reader)
  | 0, dest, r => .ok (dest, r)
  | count + 1, dest, r =>
    if maxElementCount ≤ dest.length then .error .arrayMaxElement
    else do
      let (a, r) ← read r
      let dest := dest ++ [a]
      if (startBytes - r.remaining.length) / dest.length < minElementSize then .error .arrayMinSize
      else arrayLoop read minElementSize maxElementCount startBytes count dest r

/-- `array_unchecked`. -/
def readArray {α : Type} (read : Reader → Except WireError (α × Reader)) (minElementSize maxElementCount : Nat)
    (r : Reader) :
    Except WireError (List α × Reader) := do
  let (count, r) ← r.startArray minElementSize
  if maxElementCount < count then .error .arrayMaxElement
  else if r.remaining.length / max minElementSize 1 < count then .error .arrayMinSize
  else
    let (dest, r) ← arrayLoop read minElementSize maxElementCount r.remaining.length count [] r
    -- `is_array_end` takes the array itself off the count
    let r ← r.updateTagsRemaining
    let r ← r.decrementDepth
    .ok (dest, r)

def Fields.keys {α τ : Type} : Fields α τ → KeyMap
  | .nil => []
  | .required name id _ rest => (name, id) :: rest.keys
  | .optional name id _ rest => (name, id) :: rest.keys
  | .onEmpty name id _ rest => (name, id) :: rest.keys
  | .defaulted name id _ _ _ rest => (name, id) :: rest.keys

def Fields.blank {α τ : Type} : Fields α τ → τ
  | .nil => ()
  | .required _ _ _ rest => (none, rest.blank)
  | .optional _ _ _ rest => (none, rest.blank)
  | .onEmpty _ _ _ rest => (none, rest.blank)
  | .defaulted _ _ _ _ _ rest => (none, rest.blank)

/-- After the last key: a required field has to be there, the others are reset. -/
def Fields.finish {α τ : Type} : Fields α τ → τ → Except WireError α
  | .nil, _ => .ok ()
  | .required _ _ _ rest, (a, t) =>
    match a with
    | none => .error .missingKey
    | some a => (rest.finish t).map fun b => (a, b)
  | .optional _ _ _ rest, (a, t) => (rest.finish t).map fun b => (a, b)
  | .onEmpty _ _ _ rest, (a, t) => (rest.finish t).map fun b => (a.getD [], b)
  | .defaulted _ _ _ default _ rest, (a, t) => (rest.finish t).map fun b => (a.getD default, b)

/-- `tracker::try_read` of the first field, or of those after it. -/
def tryField {α τ : Type} (read : Reader → Except WireError (α × Reader))
    (tryRest : Nat → τ → Reader → Except WireError (τ × Reader)) :
    Nat → Option α × τ → Reader → Except WireError ((Option α × τ) × Reader)
  | 0, (none, t), r => (read r).map fun (a, r) => ((some a, t), r)
  | 0, (some _, _), _ => .error .invalidKey
  | index + 1, (a, t), r => (tryRest index t r).map fun (t, r) => ((a, t), r)

/-- The loop of `wire_read::object`, with that of `key` over the unknown keys. -/
def objectLoop {τ : Type} (map : KeyMap) (tryRead : Nat → τ → Reader → Except WireError (τ × Reader)) :
    Nat → τ → Reader → Except WireError (τ × Reader)
  | 0, t, r => do
    -- the end of the object
    let r ← r.updateTagsRemaining
    .ok (t, r)
  | state + 1, t, r => do
    let (found, r) ← r.readKey map
    match found with
    | some index =>
      let (t, r) ← tryRead index t r
      objectLoop map tryRead state t r
    | none =>
      let r ← r.skipValue
      objectLoop map tryRead state t r

mutual

/-- `wire_read::bytes`. -/
def Schema.read {α : Type} : Schema α → Reader → Except WireError (α × Reader)
  | .bool, r => r.boolean
  | .int w, r => do
    let (i, r) ← r.integer
    let a ← toSigned w i
    .ok (a, r)
  | .uint w, r => do
    let (i, r) ← r.unsignedInteger
    let a ← toUnsigned w i
    .ok (a, r)
  | .string, r => r.string
  | .binary, r => r.binary
  | .blob n, r => do
    let (bytes, r) ← r.binary
    let a ← toBlob n bytes
    .ok (a, r)
  | .array minElementSize maxElementCount elem, r => readArray elem.read minElementSize maxElementCount r
  | .object fields, r => do
    let (state, r) ← r.startObject
    let (t, r) ← objectLoop fields.keys fields.tryRead state fields.blank r
    let a ← fields.finish t
    let r ← r.decrementDepth
    .ok (a, r)
  | .convert value _ decode, r => do
    let (a, r) ← value.read r
    let b ← decode a
    .ok (b, r)

/-- `try_read` of every tracker: the one the index is of reads. -/
def Fields.tryRead {α τ : Type} : Fields α τ → Nat → τ → Reader → Except WireError (τ × Reader)
  | .nil, _, _, _ => .error .invalidKey
  | .required _ _ value rest, index, t, r => tryField value.read rest.tryRead index t r
  | .optional _ _ value rest, index, t, r => tryField value.read rest.tryRead index t r
  | .onEmpty _ _ value rest, index, t, r => tryField value.read rest.tryRead index t r
  | .defaulted _ _ value _ _ rest, index, t, r => tryField value.read rest.tryRead index t r

end

def fromBytes {α : Type} (s : Schema α) (bytes : List UInt8) : Except WireError α := do
  let (a, r) ← s.read ⟨bytes, 1, 0⟩
  if r.tags = 0 then .ok a else .error .incomplete

end Lws.Wire
