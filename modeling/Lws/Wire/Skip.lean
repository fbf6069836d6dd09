/-
  Lws.Wire.Skip — what `skip_value` does to the depth (`src/wire/msgpack/read.cpp`).

  `skip_value` opens an array or object with the `start_array` and `start_object` of a
  typed read, which add one to the depth, and nothing takes that off again: a typed read
  ends with `end_array` or `end_object`, a skipped container does not. A field nobody
  knows then costs depth for the rest of the message, and enough of them make a flat
  message too deep (`flat_message_too_deep`).

  Of a value that is no container nothing is left behind, and that is the only case
  (`skip_neutral_iff`). While no container is skipped the depth is the number of
  containers around the reader (`Placed`), so a message is too deep for the reader only
  if it is (`read_placed`).
-/

import Lws.Wire.Truncation

namespace Lws.Wire

def Tag.container : Tag → Bool
  | .fixedArray _ | .array _ | .fixedObject _ | .object _ => true
  | _ => false

/-- The bytes do not begin with an array or object. -/
def Flat (bytes : List UInt8) : Prop := ∀ b ∈ bytes.head?, (Tag.ofByte b).container = false

instance (bytes : List UInt8) : Decidable (Flat bytes) := inferInstanceAs (Decidable (∀ b ∈ bytes.head?, _))

/-! ## One value -/

section Value

variable {r r' : Reader} {b : UInt8} {rest : List UInt8} {size inner : Nat}

theorem extent_flat {tag : Tag} (hflat : tag.container = false) (h : tag.extent rest = some (size, inner)) :
    inner = 0 := by
  cases tag with
  | fixedObject n | fixedArray n | array w | object w => cases hflat
  | binary w | string w | extension w =>
    simp only [Tag.extent, Option.map_eq_some_iff] at h
    obtain ⟨n, -, h⟩ := h
    cases h
    rfl
  | _ =>
    cases h
    rfl

theorem readCounted_announced {w : Width} {n : Nat} (h : announced w r.remaining = some n)
    (hle : w.bytes + n ≤ r.remaining.length) : ∃ bytes, r.readCounted w = .ok (bytes, r.removePrefix (w.bytes + n)) := by
  unfold announced at h
  split at h
  · cases h
  · rename_i hw
    cases h
    refine ⟨((r.removePrefix w.bytes).remaining).take (BigEndian.ofBytes (r.remaining.take w.bytes)), ?_⟩
    unfold Reader.readCounted Reader.readEndian Reader.readRaw
    rw [if_neg hw]
    simp only [Except.map, bind, Except.bind]
    rw [if_neg]
    · rw [removePrefix_removePrefix]
    · simp only [Reader.removePrefix, List.length_drop]
      omega

/-- A value that is no container is removed, whichever tag it has. -/
theorem skipTag_flat (hb : r.remaining = b :: rest) (hflat : (Tag.ofByte b).container = false)
    (hext : (Tag.ofByte b).extent rest = some (size, inner)) (hle : size ≤ rest.length) :
    r.skipTag (.ofByte b) = .ok (r.removePrefix (1 + size)) := by
  have hone : (r.removePrefix 1).remaining = rest := by simp [Reader.removePrefix, hb]
  -- a count, the bytes it announces, and one more for an extension
  have hcounted : ∀ {w : Width} {n : Nat} (more : Nat), announced w rest = some n → w.bytes + n ≤ rest.length →
      ((r.removePrefix 1).readCounted w).map (fun x => x.2.removePrefix more) =
        .ok (r.removePrefix (1 + (w.bytes + n + more))) := by
    intro w n more hann hn
    obtain ⟨bytes, hread⟩ := @readCounted_announced (r.removePrefix 1) w n (by rw [hone]; exact hann) (by rw [hone]; exact hn)
    rw [hread]
    simp only [Except.map, removePrefix_removePrefix]
    rw [show 1 + (w.bytes + n) + more = 1 + (w.bytes + n + more) by omega]
  have hzero : ∀ x : List UInt8 × Reader, x.2 = x.2.removePrefix 0 := fun x => by simp [Reader.removePrefix]
  cases htag : Tag.ofByte b with
  | fixedObject n | fixedArray n | array w | object w =>
    rw [htag] at hflat
    cases hflat
  | nil | unused | bool _ | fixedUnsigned _ | fixedSigned _ =>
    rw [htag] at hext
    cases hext
    rfl
  | float w | uint w | int w =>
    rw [htag] at hext
    cases hext
    rfl
  | fixedExtension n =>
    rw [htag] at hext
    cases hext
    rw [show 1 + (1 + n) = 2 + n by omega]
    rfl
  | fixedString n =>
    rw [htag] at hext
    cases hext
    show ((r.removePrefix 1).readRaw size).map (·.2) = _
    unfold Reader.readRaw
    rw [if_neg (by rw [hone]; omega)]
    exact congrArg Except.ok (removePrefix_removePrefix r 1 size)
  | string w | binary w =>
    rw [htag] at hext
    simp only [Tag.extent, Option.map_eq_some_iff] at hext
    obtain ⟨n, hann, hext⟩ := hext
    cases hext
    have h := hcounted 0 hann hle
    simp only [← hzero] at h
    exact h
  | extension w =>
    rw [htag] at hext
    simp only [Tag.extent, Option.map_eq_some_iff] at hext
    obtain ⟨n, hann, hext⟩ := hext
    cases hext
    exact hcounted 1 hann (by omega)

/-- The first of some complete values. -/
theorem Values.head (h : Values 1 r.remaining rest) :
    ∃ b tail size inner, r.remaining = b :: tail ∧ (Tag.ofByte b).extent tail = some (size, inner) ∧ size ≤ tail.length ∧
      Values inner (tail.drop size) rest := by
  generalize hr : r.remaining = bytes at h
  cases h with
  | cons extent backed inside after =>
    cases after
    exact ⟨_, _, _, _, rfl, extent, backed, inside⟩

theorem flat_cons (hb : r.remaining = b :: rest) : Flat r.remaining ↔ (Tag.ofByte b).container = false := by
  rw [hb]
  exact ⟨fun h => h b rfl, fun h x hx => by cases hx; exact h⟩

theorem skipValue_flat (htags : 0 < r.tags) (hmax : r.tags ≠ sizeMax) (hflat : Flat r.remaining)
    (h : Values 1 r.remaining rest) : r.skipValue = .ok ⟨rest, r.tags - 1, r.depth⟩ := by
  obtain ⟨b, tail, size, inner, hb, hext, hle, hin⟩ := h.head
  rw [flat_cons hb] at hflat
  obtain rfl := extent_flat hflat hext
  cases hin
  have hpeek : r.peekTag = .ok (.ofByte b) := by
    unfold Reader.peekTag
    rw [hb]
  have hrem : (r.removePrefix (1 + size)).remaining = tail.drop size := by
    simp [Reader.removePrefix, hb, Nat.add_comm 1 size]
  have hstep : r.skipStep = .ok ⟨tail.drop size, r.tags - 1, r.depth⟩ := by
    unfold Reader.skipStep
    rw [hpeek]
    simp only [bind, Except.bind, skipTag_flat hb hflat hext hle]
    unfold Reader.updateTagsRemaining
    rw [if_neg (show (r.removePrefix (1 + size)).tags ≠ 0 from Nat.pos_iff_ne_zero.mp htags)]
    rw [← hrem]
    rfl
  unfold Reader.skipValue
  rw [if_neg (Ne.symm hmax)]
  unfold Reader.skipLoop
  rw [hstep]
  simp only [bind, Except.bind]
  rw [if_neg (show ¬ r.tags ≤ r.tags - 1 by omega)]

/-! ## Depth -/

theorem incrementDepth_depth (h : r.incrementDepth = .ok r') : r'.depth = r.depth + 1 := by
  unfold Reader.incrementDepth at h
  split at h
  · cases h
  · cases h
    rfl

theorem getTag_depth {tag : Tag} (h : r.getTag = .ok (tag, r')) : r'.depth = r.depth := by
  unfold Reader.getTag at h
  split at h
  · cases h
  · cases h
    rfl

theorem readEndian_depth {w : Width} {n : Nat} (h : r.readEndian w = .ok (n, r')) : r'.depth = r.depth := by
  obtain ⟨-, -, rfl⟩ := readEndian_ok h
  rfl

theorem Payload.depth {tag : Tag} (h : Payload tag r r') : r'.depth = r.depth := by
  obtain ⟨size, -, -, rfl⟩ := h
  rfl

theorem readArrayCount_container {n : Nat} (h : r.readArrayCount = .ok (n, r')) :
    ∃ b rest, r.remaining = b :: rest ∧ (Tag.ofByte b).container = true ∧ r'.depth = r.depth := by
  obtain ⟨⟨tag, r₁⟩, htag, h⟩ := bind_eq_ok.mp h
  obtain ⟨b, hb, rfl, -⟩ := getTag_ok htag
  refine ⟨b, _, hb, ?_⟩
  rw [← getTag_depth htag]
  simp only at h
  split at h
  · rename_i hof
    cases h
    exact ⟨by rw [hof]; rfl, rfl⟩
  · rename_i hof
    exact ⟨by rw [hof]; rfl, readEndian_depth h⟩
  · cases h

theorem readObjectCount_container {n : Nat} (h : r.readObjectCount = .ok (n, r')) :
    ∃ b rest, r.remaining = b :: rest ∧ (Tag.ofByte b).container = true ∧ r'.depth = r.depth := by
  obtain ⟨⟨tag, r₁⟩, htag, h⟩ := bind_eq_ok.mp h
  obtain ⟨b, hb, rfl, -⟩ := getTag_ok htag
  refine ⟨b, _, hb, ?_⟩
  rw [← getTag_depth htag]
  simp only at h
  split at h
  · rename_i hof
    cases h
    exact ⟨by rw [hof]; rfl, rfl⟩
  · rename_i hof
    exact ⟨by rw [hof]; rfl, readEndian_depth h⟩
  · cases h

theorem startArray_depth {minElementSize count : Nat} (h : r.startArray minElementSize = .ok (count, r')) :
    r'.depth = r.depth + 1 := by
  obtain ⟨⟨n, r₁⟩, hcount, h⟩ := bind_eq_ok.mp h
  obtain ⟨-, -, -, -, hsame⟩ := readArrayCount_container hcount
  simp only at h
  split at h
  · cases h
  · split at h
    · cases h
    · obtain ⟨r₂, hinc, h⟩ := bind_eq_ok.mp h
      cases h
      rw [incrementDepth_depth hinc, ← hsame]

theorem startObject_depth {count : Nat} (h : r.startObject = .ok (count, r')) : r'.depth = r.depth + 1 := by
  obtain ⟨⟨n, r₁⟩, hcount, h⟩ := bind_eq_ok.mp h
  obtain ⟨-, -, -, -, hsame⟩ := readObjectCount_container hcount
  simp only at h
  split at h
  · cases h
  · split at h
    · cases h
    · obtain ⟨r₂, hinc, h⟩ := bind_eq_ok.mp h
      cases h
      rw [incrementDepth_depth hinc, ← hsame]

/-- Skipping a container adds to the depth, skipping anything else does not. -/
theorem skipTag_depth {tag : Tag} (h : r.skipTag tag = .ok r') :
    r'.depth = r.depth + if tag.container then 1 else 0 := by
  cases tag with
  | nil | unused | bool _ | fixedUnsigned _ | fixedSigned _ | float w | uint w | int w | fixedExtension n =>
    cases h
    rfl
  | binary w =>
    obtain ⟨⟨_, r₁⟩, hread, rfl⟩ := map_eq_ok.mp h
    exact (readBinary_payload hread).depth
  | fixedString n | string w =>
    obtain ⟨⟨_, r₁⟩, hread, rfl⟩ := map_eq_ok.mp h
    exact (readString_payload hread).depth
  | extension w =>
    obtain ⟨⟨_, r₁⟩, hread, rfl⟩ := map_eq_ok.mp h
    obtain ⟨n, -, -, rfl⟩ := readCounted_ok hread
    rfl
  | fixedArray n | array w =>
    obtain ⟨⟨_, r₁⟩, hread, rfl⟩ := map_eq_ok.mp h
    exact startArray_depth hread
  | fixedObject n | object w =>
    obtain ⟨⟨_, r₁⟩, hread, rfl⟩ := map_eq_ok.mp h
    exact startObject_depth hread

theorem updateTagsRemaining_depth (h : r.updateTagsRemaining = .ok r') : r'.depth = r.depth := by
  unfold Reader.updateTagsRemaining at h
  split at h
  · cases h
  · cases h
    rfl

theorem skipStep_depth (hb : r.remaining = b :: rest) (h : r.skipStep = .ok r') :
    r'.depth = r.depth + if (Tag.ofByte b).container then 1 else 0 := by
  obtain ⟨tag, hpeek, h⟩ := bind_eq_ok.mp h
  obtain ⟨r₁, hskip, hup⟩ := bind_eq_ok.mp h
  unfold Reader.peekTag at hpeek
  rw [hb] at hpeek
  cases hpeek
  rw [updateTagsRemaining_depth hup, skipTag_depth hskip]

theorem skipStep_depth_le (h : r.skipStep = .ok r') : r.depth ≤ r'.depth := by
  rcases hb : r.remaining with _ | ⟨b, rest⟩
  · obtain ⟨tag, hpeek, -⟩ := bind_eq_ok.mp h
    unfold Reader.peekTag at hpeek
    rw [hb] at hpeek
    cases hpeek
  · rw [skipStep_depth hb h]
    exact Nat.le_add_right _ _

theorem skipLoop_depth_le {initial : Nat} : ∀ (fuel : Nat) {r r' : Reader}, Reader.skipLoop initial fuel r = .ok r' →
    r.depth ≤ r'.depth := by
  intro fuel
  induction fuel with
  | zero =>
    intro r r' h
    cases h
  | succ fuel ih =>
    intro r r' h
    obtain ⟨r₁, hstep, h⟩ := bind_eq_ok.mp h
    have hle := skipStep_depth_le hstep
    split at h
    · exact hle.trans (ih h)
    · cases h
      exact hle

/-- A container that is skipped leaves the reader deeper. -/
theorem skipValue_deeper (hb : r.remaining = b :: rest) (hcont : (Tag.ofByte b).container = true)
    (h : r.skipValue = .ok r') : r.depth < r'.depth := by
  unfold Reader.skipValue at h
  split at h
  · cases h
  · obtain ⟨r₁, hstep, h⟩ := bind_eq_ok.mp h
    have hone := skipStep_depth hb hstep
    rw [if_pos hcont] at hone
    split at h
    · have := skipLoop_depth_le _ h
      omega
    · cases h
      omega

theorem ReadLeaf.depth (h : ReadLeaf r r') : r'.depth = r.depth := by
  obtain ⟨r₁, r₂, tag, hup, htag, hp⟩ := h
  rw [hp.depth, getTag_depth htag, updateTagsRemaining_depth hup]

/-- Exactly what is no container is skipped without a trace, below the limit of the count. -/
theorem skipValue_neutral (htags : 0 < r.tags) (h : Values 1 r.remaining rest) :
    r.skipValue = .ok ⟨rest, r.tags - 1, r.depth⟩ ↔ Flat r.remaining ∧ r.tags ≠ sizeMax := by
  constructor
  · intro hskip
    obtain ⟨b, tail, size, inner, hb, -, -, -⟩ := h.head
    refine ⟨(flat_cons hb).mpr ?_, fun hmax => ?_⟩
    · rw [← Bool.not_eq_true]
      exact fun hcont => absurd (skipValue_deeper hb hcont hskip) (lt_irrefl _)
    · unfold Reader.skipValue at hskip
      rw [if_pos hmax.symm] at hskip
      cases hskip
  · exact fun ⟨hflat, hmax⟩ => skipValue_flat htags hmax hflat h

end Value

/-! ## Unknown fields -/

/-- A field nobody knows that is no container: the object is read on as one without it. -/
theorem objectLoop_unknown {τ : Type} {map : KeyMap} {tryRead : Nat → τ → Reader → Except WireError (τ × Reader)}
    {state : Nat} {t : τ} {r r₁ : Reader} {rest : List UInt8} (hkey : r.readKey map = .ok (none, r₁)) (htags : 1 < r.tags)
    (hmax : r.tags ≤ sizeMax) (h : Values 1 r₁.remaining rest) (hflat : Flat r₁.remaining) :
    objectLoop map tryRead (state + 1) t r = objectLoop map tryRead state t ⟨rest, r.tags - 2, r.depth⟩ := by
  have hone := (readKey_readLeaf hkey).took.1
  have hskip := skipValue_flat (by omega) (by omega) hflat h
  rw [objectLoop, hkey]
  simp only [bind, Except.bind, hskip]
  rw [(readKey_readLeaf hkey).depth, show r₁.tags - 1 = r.tags - 2 by omega]

/-! ## Where a message is skipped -/

/-- The states of the reader at which the loop of an array has `skip_value` called. -/
def arrayLoopSkips {α : Type} (read : Reader → Except WireError (α × Reader)) (skips : Reader → List Reader)
    (minElementSize maxElementCount startBytes : Nat) : Nat → List α → Reader → List Reader
  | 0, _, _ => []
  | count + 1, dest, r =>
    if maxElementCount ≤ dest.length then []
    else
      skips r ++
        match read r with
        | .error _ => []
        | .ok (a, r) =>
          if (startBytes - r.remaining.length) / (dest ++ [a]).length < minElementSize then []
          else arrayLoopSkips read skips minElementSize maxElementCount startBytes count (dest ++ [a]) r

/-- Those of `array_unchecked`. -/
def arraySkips {α : Type} (read : Reader → Except WireError (α × Reader)) (skips : Reader → List Reader)
    (minElementSize maxElementCount : Nat) (r : Reader) : List Reader :=
  match r.startArray minElementSize with
  | .error _ => []
  | .ok (count, r) =>
    if maxElementCount < count then []
    else if r.remaining.length / max minElementSize 1 < count then []
    else arrayLoopSkips read skips minElementSize maxElementCount r.remaining.length count [] r

def fieldSkips {α τ : Type} (skips : Reader → List Reader) (skipsRest : Nat → τ → Reader → List Reader) :
    Nat → Option α × τ → Reader → List Reader
  | 0, (none, _), r => skips r
  | 0, (some _, _), _ => []
  | index + 1, (_, t), r => skipsRest index t r

/-- Those of the loop of an object, with the unknown fields of its own. -/
def objectLoopSkips {τ : Type} (map : KeyMap) (tryRead : Nat → τ → Reader → Except WireError (τ × Reader))
    (skips : Nat → τ → Reader → List Reader) : Nat → τ → Reader → List Reader
  | 0, _, _ => []
  | state + 1, t, r =>
    match r.readKey map with
    | .error _ => []
    | .ok (some index, r) =>
      skips index t r ++
        match tryRead index t r with
        | .error _ => []
        | .ok (t, r) => objectLoopSkips map tryRead skips state t r
    | .ok (none, r) =>
      r ::
        match r.skipValue with
        | .error _ => []
        | .ok r => objectLoopSkips map tryRead skips state t r

mutual

/-- The states of the reader at which a read by the schema has `skip_value` called. -/
def Schema.skips {α : Type} : Schema α → Reader → List Reader
  | .array minElementSize maxElementCount elem, r => arraySkips elem.read elem.skips minElementSize maxElementCount r
  | .object fields, r =>
    match r.startObject with
    | .error _ => []
    | .ok (state, r) => objectLoopSkips fields.keys fields.tryRead fields.skips state fields.blank r
  | .convert value _ _, r => value.skips r
  | _, _ => []

def Fields.skips {α τ : Type} : Fields α τ → Nat → τ → Reader → List Reader
  | .nil, _, _, _ => []
  | .required _ _ value rest, index, t, r => fieldSkips value.skips rest.skips index t r
  | .optional _ _ value rest, index, t, r => fieldSkips value.skips rest.skips index t r
  | .onEmpty _ _ value rest, index, t, r => fieldSkips value.skips rest.skips index t r
  | .defaulted _ _ value _ _ rest, index, t, r => fieldSkips value.skips rest.skips index t r

end

mutual

/-- No conversion of the schema throws `maximum_depth` of its own. -/
def Schema.Quiet {α : Type} : Schema α → Prop
  | .array _ _ elem => elem.Quiet
  | .object fields => fields.Quiet
  | .convert value _ decode => value.Quiet ∧ ∀ a, decode a ≠ .error .maximumDepth
  | _ => True

def Fields.Quiet {α τ : Type} : Fields α τ → Prop
  | .nil => True
  | .required _ _ value rest => value.Quiet ∧ rest.Quiet
  | .optional _ _ value rest => value.Quiet ∧ rest.Quiet
  | .onEmpty _ _ value rest => value.Quiet ∧ rest.Quiet
  | .defaulted _ _ value _ _ rest => value.Quiet ∧ rest.Quiet

end

/-! ## Errors other than depth -/

def Shallow {α : Type} (x : Except WireError α) : Prop := x ≠ .error .maximumDepth

section Shallow

variable {α β : Type}

theorem shallow_ok (a : α) : Shallow (.ok a) := fun h => by cases h

theorem shallow_error {e : WireError} (h : e ≠ .maximumDepth) : Shallow (.error e : Except WireError α) := fun he => by
  cases he
  exact h rfl

theorem Shallow.bind {x : Except WireError α} {f : α → Except WireError β} (hx : Shallow x)
    (hf : ∀ a, x = .ok a → Shallow (f a)) : Shallow (x >>= f) := by
  cases x with
  | error e => exact fun h => hx (by cases h; rfl)
  | ok a => exact hf a rfl

theorem Shallow.map {x : Except WireError α} {f : α → β} (hx : Shallow x) : Shallow (x.map f) := by
  cases x with
  | error e => exact fun h => hx (by cases h; rfl)
  | ok a => exact shallow_ok _

theorem shallow_ite {p : Prop} [Decidable p] {x y : Except WireError α} (hx : p → Shallow x) (hy : ¬ p → Shallow y) :
    Shallow (if p then x else y) := by
  split
  · exact hx ‹p›
  · exact hy ‹¬ p›

variable (r : Reader)

theorem updateTagsRemaining_shallow : Shallow r.updateTagsRemaining :=
  shallow_ite (fun _ => shallow_error (by decide)) fun _ => shallow_ok _

theorem decrementDepth_shallow : Shallow r.decrementDepth :=
  shallow_ite (fun _ => shallow_error (by decide)) fun _ => shallow_ok _

theorem getTag_shallow : Shallow r.getTag := by
  unfold Reader.getTag
  split
  · exact shallow_error (by decide)
  · exact shallow_ok _

theorem readRaw_shallow (n : Nat) : Shallow (r.readRaw n) :=
  shallow_ite (fun _ => shallow_error (by decide)) fun _ => shallow_ok _

theorem readEndian_shallow (w : Width) : Shallow (r.readEndian w) := (readRaw_shallow r _).map

theorem readCounted_shallow (w : Width) : Shallow (r.readCounted w) :=
  (readEndian_shallow r w).bind fun x _ => readRaw_shallow x.2 x.1

theorem castInteger_shallow (lower upper value : Int) : Shallow (castInteger lower upper value) :=
  shallow_ite (fun _ => shallow_error (by decide)) fun _ =>
    shallow_ite (fun _ => shallow_error (by decide)) fun _ => shallow_ok _

theorem readInteger_shallow (lower upper : Int) (next : Tag) : Shallow (r.readInteger lower upper next) := by
  unfold Reader.readInteger
  split
  · exact (readEndian_shallow r _).bind fun _ _ => (castInteger_shallow _ _ _).bind fun _ _ => shallow_ok _
  · exact (readEndian_shallow r _).bind fun _ _ => (castInteger_shallow _ _ _).bind fun _ _ => shallow_ok _
  · exact shallow_error (by decide)

theorem readString_shallow (next : Tag) : Shallow (r.readString next) := by
  unfold Reader.readString
  split
  · exact readRaw_shallow r _
  · exact readCounted_shallow r _
  · exact shallow_error (by decide)

theorem readBinary_shallow (next : Tag) : Shallow (r.readBinary next) := by
  unfold Reader.readBinary
  split
  · exact readCounted_shallow r _
  · exact shallow_error (by decide)

theorem integer_shallow : Shallow r.integer := by
  refine (updateTagsRemaining_shallow r).bind fun r _ => (getTag_shallow r).bind fun x _ => ?_
  dsimp only
  split
  · exact shallow_ok _
  · exact shallow_ok _
  · exact readInteger_shallow _ _ _ _

theorem unsignedInteger_shallow : Shallow r.unsignedInteger := by
  refine (updateTagsRemaining_shallow r).bind fun r _ => (getTag_shallow r).bind fun x _ => ?_
  dsimp only
  split
  · exact shallow_ok _
  · exact readInteger_shallow _ _ _ _

theorem boolean_shallow : Shallow r.boolean := by
  refine (updateTagsRemaining_shallow r).bind fun r _ => (getTag_shallow r).bind fun x _ => ?_
  dsimp only
  split
  · exact shallow_ok _
  · exact shallow_error (by decide)

theorem string_shallow : Shallow r.string :=
  (updateTagsRemaining_shallow r).bind fun r _ => (getTag_shallow r).bind fun x _ => readString_shallow x.2 x.1

theorem binary_shallow : Shallow r.binary :=
  (updateTagsRemaining_shallow r).bind fun r _ => (getTag_shallow r).bind fun x _ => readBinary_shallow x.2 x.1

theorem readKey_shallow (map : KeyMap) : Shallow (r.readKey map) := by
  refine (updateTagsRemaining_shallow r).bind fun r _ => (getTag_shallow r).bind fun x _ => ?_
  dsimp only
  split
  · exact shallow_ok _
  · exact (readInteger_shallow _ _ _ _).bind fun _ _ => shallow_ok _
  · exact (readString_shallow _ _).bind fun _ _ => shallow_ok _
  · exact (readString_shallow _ _).bind fun _ _ => shallow_ok _
  · exact shallow_error (by decide)

theorem toSigned_shallow (w : Width) (i : Int) : Shallow (toSigned w i) := by
  unfold toSigned
  split
  · exact shallow_ok _
  · exact shallow_ite (fun _ => shallow_error (by decide)) fun _ => shallow_error (by decide)

theorem toUnsigned_shallow (w : Width) (i : Int) : Shallow (toUnsigned w i) := by
  unfold toUnsigned
  split
  · exact shallow_ok _
  · exact shallow_error (by decide)

theorem toBlob_shallow (n : Nat) (bytes : List UInt8) : Shallow (toBlob n bytes) := by
  unfold toBlob
  split
  · exact shallow_ok _
  · exact shallow_error (by decide)

theorem finish_shallow {α τ : Type} : ∀ (fields : Fields α τ) (t : τ), Shallow (fields.finish t)
  | .nil, _ => shallow_ok _
  | .required _ _ _ rest, (a, t) => by
    unfold Fields.finish
    split
    · exact shallow_error (by decide)
    · exact (finish_shallow rest t).map
  | .optional _ _ _ rest, (_, t) => (finish_shallow rest t).map
  | .onEmpty _ _ _ rest, (_, t) => (finish_shallow rest t).map
  | .defaulted _ _ _ _ _ rest, (_, t) => (finish_shallow rest t).map

end Shallow

/-! ## Containers around the reader -/

/-- A value of the message begins at `pos`, inside `depth` containers. -/
inductive Inside (message : List UInt8) : Nat → List UInt8 → Prop where
  | start : Inside message 0 message
  | enter {depth k inner size : Nat} {b : UInt8} {rest pos : List UInt8} (outer : Inside message depth (b :: rest))
      (container : (Tag.ofByte b).container = true) (extent : (Tag.ofByte b).extent rest = some (size, inner))
      (backed : size ≤ rest.length) (before : k < inner) (passed : Values k (rest.drop size) pos) :
      Inside message (depth + 1) pos

/-- Some container of the message is nested `max_read_depth` deep or deeper. -/
def TooDeep (message : List UInt8) : Prop :=
  ∃ depth b rest, Inside message depth (b :: rest) ∧ (Tag.ofByte b).container = true ∧ maxReadDepth ≤ depth + 1

/-- The reader is at a value of the message as deep as it says, or past its end. -/
def Placed (message : List UInt8) (r : Reader) : Prop := r.remaining = [] ∨ Inside message r.depth r.remaining

/-- A container of the message inside `depth` others, with `inner` values from `start` on. -/
def Contains (message : List UInt8) (depth inner : Nat) (start : List UInt8) : Prop :=
  ∃ b rest size, Inside message depth (b :: rest) ∧ (Tag.ofByte b).container = true ∧
    (Tag.ofByte b).extent rest = some (size, inner) ∧ size ≤ rest.length ∧ start = rest.drop size

/-- The reader has passed `k` values of the container, or is past the end. -/
def Passed (k : Nat) (start : List UInt8) (r : Reader) : Prop := r.remaining = [] ∨ Values k start r.remaining

section Placed

variable {message start : List UInt8} {depth inner k : Nat} {r r' : Reader}

theorem Contains.placed (h : Contains message depth inner start) (hd : r.depth = depth + 1) (hk : k < inner)
    (hp : Passed k start r) : Placed message r := by
  obtain ⟨b, rest, size, hin, hcont, hext, hle, rfl⟩ := h
  refine hp.imp id fun hv => ?_
  rw [hd]
  exact .enter hin hcont hext hle hk hv

theorem Passed.step {n : Nat} (h : Passed k start r) (ht : Took n r r') (hn : 0 < n) : Passed (k + n) start r' := by
  rcases ht.2 with hv | ⟨hnil, -⟩
  · rcases h with hnil | h
    · obtain ⟨m, rfl⟩ := Nat.exists_eq_succ_of_ne_zero (Nat.pos_iff_ne_zero.mp hn)
      rw [hnil] at hv
      cases hv
    · exact .inr (h.append hv)
  · exact .inl hnil

/-- The array or object at the reader: what it opens is a container, and only one too many is too deep. -/
theorem Placed.opened {count : Nat} (h : Placed message r) (ho : Opened count r r')
    (hcont : ∀ b ∈ r.remaining.head?, (Tag.ofByte b).container = true) :
    ∃ start, Contains message r.depth count start ∧ Passed 0 start r' := by
  obtain ⟨-, b, rest, size, hb, hext, hle, hrem⟩ := ho
  refine ⟨rest.drop size, ⟨b, rest, size, ?_, hcont b (by rw [hb]; rfl), hext, hle, rfl⟩, .inr ?_⟩
  · rcases h with hnil | h
    · rw [hb] at hnil
      cases hnil
    · rwa [hb] at h
  · rw [hrem]
    exact .nil _

theorem Placed.tooDeep (h : Placed message r) {b : UInt8} {rest : List UInt8} (hb : r.remaining = b :: rest)
    (hcont : (Tag.ofByte b).container = true) (hd : maxReadDepth ≤ r.depth + 1) : TooDeep message := by
  rcases h with hnil | h
  · rw [hb] at hnil
    cases hnil
  · rw [hb] at h
    exact ⟨r.depth, b, rest, h, hcont, hd⟩

theorem incrementDepth_error (h : r.incrementDepth = .error .maximumDepth) : maxReadDepth ≤ r.depth + 1 := by
  unfold Reader.incrementDepth at h
  split at h
  · omega
  · cases h

end Placed

/-! ## Reading by a schema -/

theorem bind_eq_error {ε α β : Type} {x : Except ε α} {f : α → Except ε β} {e : ε} :
    (x >>= f) = .error e ↔ x = .error e ∨ ∃ a, x = .ok a ∧ f a = .error e := by
  cases x with
  | error e' => simp [bind, Except.bind]
  | ok a => simp [bind, Except.bind]

/-- A read that leaves the depth and is rejected for depth only with the message too deep. -/
structure Sound {α : Type} (message : List UInt8) (depth : Nat) (x : Except WireError (α × Reader)) : Prop where
  deep : x = .error .maximumDepth → TooDeep message
  kept : ∀ a r', x = .ok (a, r') → r'.depth = depth

section Sound

variable {α β : Type} {message start : List UInt8} {depth inner : Nat} {r r' : Reader}

theorem Shallow.sound {x : Except WireError (α × Reader)} (h : Shallow x)
    (hkept : ∀ a r', x = .ok (a, r') → r'.depth = depth) :
    Sound message depth x := ⟨fun he => absurd he h, hkept⟩

theorem Sound.bind {d : Nat} {x : Except WireError (α × Reader)} {f : α × Reader → Except WireError (β × Reader)}
    (hx : Sound message d x) (hf : ∀ a r', x = .ok (a, r') → r'.depth = d → Sound message depth (f (a, r'))) :
    Sound message depth (x >>= f) := by
  refine ⟨fun he => ?_, fun b r' h => ?_⟩
  · rcases bind_eq_error.mp he with he | ⟨⟨a, r₁⟩, hok, he⟩
    · exact hx.deep he
    · exact (hf a r₁ hok (hx.kept a r₁ hok)).deep he
  · obtain ⟨⟨a, r₁⟩, hok, h⟩ := bind_eq_ok.mp h
    exact (hf a r₁ hok (hx.kept a r₁ hok)).kept b r' h

/-- What follows a read without touching the reader. -/
theorem Sound.then {x : Except WireError (α × Reader)} {g : α → Except WireError β} (hx : Sound message depth x)
    (hg : ∀ a, Shallow (g a)) : Sound message depth (x >>= fun p => g p.1 >>= fun b => .ok (b, p.2)) := by
  refine hx.bind fun a r' _ hd => ?_
  refine ((hg a).bind fun _ _ => shallow_ok _).sound fun b r'' h => ?_
  obtain ⟨_, -, h⟩ := bind_eq_ok.mp h
  cases h
  exact hd

theorem Sound.map {x : Except WireError (α × Reader)} {g : α → β} (hx : Sound message depth x) :
    Sound message depth (x.map fun p => (g p.1, p.2)) := by
  refine ⟨fun he => ?_, fun b r' h => ?_⟩
  · cases x with
    | error e =>
      cases he
      exact hx.deep rfl
    | ok a => cases he
  · obtain ⟨⟨a, r₁⟩, hok, h⟩ := map_eq_ok.mp h
    cases h
    exact hx.kept a r₁ hok

theorem sound_error {e : WireError} (h : e ≠ .maximumDepth) :
    Sound message depth (.error e : Except WireError (α × Reader)) :=
  (shallow_error h).sound fun _ _ h => by cases h

theorem skipTag_flat_shallow {tag : Tag} (hflat : tag.container = false) : Shallow (r.skipTag tag) := by
  cases tag with
  | fixedObject n | fixedArray n | array w | object w => cases hflat
  | nil | unused | bool _ | fixedUnsigned _ | fixedSigned _ | float w | uint w | int w | fixedExtension n => exact shallow_ok _
  | binary w => exact (readBinary_shallow _ _).map
  | fixedString n | string w => exact (readString_shallow _ _).map
  | extension w => exact (readCounted_shallow _ _).map

theorem skipTag_flat_tags {tag : Tag} (hflat : tag.container = false) (h : r.skipTag tag = .ok r') :
    r'.tags = r.tags := by
  cases tag with
  | fixedObject n | fixedArray n | array w | object w => cases hflat
  | nil | unused | bool _ | fixedUnsigned _ | fixedSigned _ | float w | uint w | int w | fixedExtension n =>
    cases h
    rfl
  | binary w =>
    obtain ⟨⟨_, r₁⟩, hread, rfl⟩ := map_eq_ok.mp h
    obtain ⟨size, -, -, rfl⟩ := readBinary_payload hread
    rfl
  | fixedString n | string w =>
    obtain ⟨⟨_, r₁⟩, hread, rfl⟩ := map_eq_ok.mp h
    obtain ⟨size, -, -, rfl⟩ := readString_payload hread
    rfl
  | extension w =>
    obtain ⟨⟨_, r₁⟩, hread, rfl⟩ := map_eq_ok.mp h
    obtain ⟨n, -, -, rfl⟩ := readCounted_ok hread
    rfl

/-- Skipping what is no container, complete or not. -/
theorem skipValue_flat_sound (hflat : Flat r.remaining) :
    Shallow r.skipValue ∧ ∀ r', r.skipValue = .ok r' → r'.depth = r.depth := by
  unfold Reader.skipValue
  by_cases hmax : sizeMax = r.tags
  · rw [if_pos hmax]
    exact ⟨shallow_error (by decide), fun r' h => by cases h⟩
  · rw [if_neg hmax]
    rcases hb : r.remaining with _ | ⟨b, rest⟩
    · have hstep : r.skipStep = .error .notEnoughBytes := by
        unfold Reader.skipStep Reader.peekTag
        rw [hb]
        rfl
      unfold Reader.skipLoop
      rw [hstep]
      exact ⟨shallow_error (by decide), fun r' h => by cases h⟩
    · rw [flat_cons hb] at hflat
      have hpeek : r.peekTag = .ok (.ofByte b) := by
        unfold Reader.peekTag
        rw [hb]
      have hshallow : Shallow r.skipStep := by
        unfold Reader.skipStep
        rw [hpeek]
        exact (skipTag_flat_shallow hflat).bind fun r₁ _ => updateTagsRemaining_shallow r₁
      have hone : ∀ r₁, r.skipStep = .ok r₁ → ¬ r.tags ≤ r₁.tags := by
        intro r₁ hstep
        unfold Reader.skipStep at hstep
        rw [hpeek] at hstep
        obtain ⟨r₂, hskip, hup⟩ :=
          bind_eq_ok.mp (show (r.skipTag (.ofByte b) >>= fun r => r.updateTagsRemaining) = .ok r₁ from hstep)
        have h1 := skipTag_flat_tags hflat hskip
        have h2 := (updateTagsRemaining_ok hup).1
        omega
      unfold Reader.skipLoop
      refine ⟨hshallow.bind fun r₁ hstep => ?_, fun r' h => ?_⟩
      · rw [if_neg (hone r₁ hstep)]
        exact shallow_ok _
      · obtain ⟨r₁, hstep, h⟩ := bind_eq_ok.mp h
        rw [if_neg (hone r₁ hstep)] at h
        cases h
        rw [skipStep_depth hb hstep, hflat]
        rfl

theorem readArrayCount_shallow : Shallow r.readArrayCount := by
  refine (getTag_shallow r).bind fun x _ => ?_
  dsimp only
  split
  · exact shallow_ok _
  · exact readEndian_shallow _ _
  · exact shallow_error (by decide)

theorem readObjectCount_shallow : Shallow r.readObjectCount := by
  refine (getTag_shallow r).bind fun x _ => ?_
  dsimp only
  split
  · exact shallow_ok _
  · exact readEndian_shallow _ _
  · exact shallow_error (by decide)

/-- A container that is opened for reading, and is one too many only where the message is too deep. -/
theorem startArray_sound (h : Placed message r) (minElementSize : Nat) :
    Sound message (r.depth + 1) (r.startArray minElementSize) ∧
      ∀ count r', r.startArray minElementSize = .ok (count, r') →
        ∃ start, Contains message r.depth count start ∧ Passed 0 start r' := by
  refine ⟨⟨fun he => ?_, fun count r' hok => startArray_depth hok⟩, fun count r' hok => ?_⟩
  · rcases bind_eq_error.mp he with he | ⟨⟨n, r₁⟩, hcount, he⟩
    · exact absurd he readArrayCount_shallow
    · obtain ⟨b, rest, hb, hcont, hd⟩ := readArrayCount_container hcount
      simp only at he
      split at he
      · cases he
      · split at he
        · cases he
        · rcases bind_eq_error.mp he with he | ⟨r₂, -, he⟩
          · have hdeep := incrementDepth_error he
            exact h.tooDeep hb hcont (hd ▸ hdeep)
          · cases he
  · refine h.opened (startArray_opened hok) fun b hb => ?_
    obtain ⟨⟨n, r₁⟩, hcount, -⟩ := bind_eq_ok.mp hok
    obtain ⟨b', rest, hb', hcont, -⟩ := readArrayCount_container hcount
    rw [hb'] at hb
    cases hb
    exact hcont

theorem startObject_sound (h : Placed message r) :
    Sound message (r.depth + 1) r.startObject ∧
      ∀ count r', r.startObject = .ok (count, r') →
        ∃ start, Contains message r.depth (2 * count) start ∧ Passed 0 start r' := by
  refine ⟨⟨fun he => ?_, fun count r' hok => startObject_depth hok⟩, fun count r' hok => ?_⟩
  · rcases bind_eq_error.mp he with he | ⟨⟨n, r₁⟩, hcount, he⟩
    · exact absurd he readObjectCount_shallow
    · obtain ⟨b, rest, hb, hcont, hd⟩ := readObjectCount_container hcount
      simp only at he
      split at he
      · cases he
      · split at he
        · cases he
        · rcases bind_eq_error.mp he with he | ⟨r₂, -, he⟩
          · have hdeep := incrementDepth_error he
            exact h.tooDeep hb hcont (hd ▸ hdeep)
          · cases he
  · refine h.opened (startObject_opened hok) fun b hb => ?_
    obtain ⟨⟨n, r₁⟩, hcount, -⟩ := bind_eq_ok.mp hok
    obtain ⟨b', rest, hb', hcont, -⟩ := readObjectCount_container hcount
    rw [hb'] at hb
    cases hb
    exact hcont

/-- No container is skipped from these states on. -/
def FlatSkips (skips : List Reader) : Prop := ∀ q ∈ skips, Flat q.remaining

theorem FlatSkips.left {a b : List Reader} (h : FlatSkips (a ++ b)) : FlatSkips a :=
  fun q hq => h q (List.mem_append_left _ hq)

theorem FlatSkips.right {a b : List Reader} (h : FlatSkips (a ++ b)) : FlatSkips b :=
  fun q hq => h q (List.mem_append_right _ hq)

theorem arrayLoop_sound {read : Reader → Except WireError (α × Reader)} {skips : Reader → List Reader}
    {minElementSize maxElementCount startBytes : Nat} (htook : ∀ r a r', read r = .ok (a, r') → Took 1 r r')
    (hread : ∀ r, Placed message r → FlatSkips (skips r) → Sound message r.depth (read r))
    (hc : Contains message depth inner start) : ∀ (count k : Nat) {dest : List α} {r : Reader}, k + count = inner →
      Passed k start r → r.depth = depth + 1 →
      FlatSkips (arrayLoopSkips read skips minElementSize maxElementCount startBytes count dest r) →
        Sound message (depth + 1) (arrayLoop read minElementSize maxElementCount startBytes count dest r) := by
  intro count
  induction count with
  | zero =>
    intro k dest r _ _ hd _
    exact (shallow_ok _).sound fun a r' h => by cases h; exact hd
  | succ count ih =>
    intro k dest r hk hp hd hflat
    unfold arrayLoop
    unfold arrayLoopSkips at hflat
    by_cases hmax : maxElementCount ≤ dest.length
    · rw [if_pos hmax]
      exact sound_error (by decide)
    · rw [if_neg hmax] at hflat ⊢
      refine (hread r (hc.placed hd (by omega) hp) hflat.left).bind fun a r₁ hok hd₁ => ?_
      have hrest := hflat.right
      simp only [hok] at hrest
      dsimp only
      by_cases hmin : (startBytes - r₁.remaining.length) / (dest ++ [a]).length < minElementSize
      · rw [if_pos hmin]
        exact sound_error (by decide)
      · rw [if_neg hmin] at hrest ⊢
        exact ih (k + 1) (by omega) (hp.step (htook _ _ _ hok) Nat.one_pos) (hd₁.trans hd) hrest

theorem decrementDepth_sound {a : α} (hd : r.depth = depth + 1) :
    Sound message depth (r.decrementDepth >>= fun r => .ok (a, r)) := by
  refine ((decrementDepth_shallow r).bind fun _ _ => shallow_ok _).sound fun b r' h => ?_
  obtain ⟨r₁, hdec, h⟩ := bind_eq_ok.mp h
  cases h
  unfold Reader.decrementDepth at hdec
  split at hdec
  · cases hdec
  · cases hdec
    simp only
    omega

theorem readArray_sound {read : Reader → Except WireError (α × Reader)} {skips : Reader → List Reader}
    {minElementSize maxElementCount : Nat} (htook : ∀ r a r', read r = .ok (a, r') → Took 1 r r')
    (hread : ∀ r, Placed message r → FlatSkips (skips r) → Sound message r.depth (read r)) (hp : Placed message r)
    (hflat : FlatSkips (arraySkips read skips minElementSize maxElementCount r)) :
    Sound message r.depth (readArray read minElementSize maxElementCount r) := by
  obtain ⟨hstart, hopen⟩ := startArray_sound hp minElementSize
  unfold readArray
  refine hstart.bind fun count r₁ hok hd => ?_
  obtain ⟨start, hc, hpassed⟩ := hopen count r₁ hok
  unfold arraySkips at hflat
  simp only [hok] at hflat
  dsimp only
  by_cases hmax : maxElementCount < count
  · rw [if_pos hmax]
    exact sound_error (by decide)
  · rw [if_neg hmax] at hflat ⊢
    by_cases hmin : r₁.remaining.length / max minElementSize 1 < count
    · rw [if_pos hmin]
      exact sound_error (by decide)
    · rw [if_neg hmin] at hflat ⊢
      refine (arrayLoop_sound htook hread hc count 0 (by omega) hpassed hd hflat).bind fun dest r₂ _ hd₂ => ?_
      refine ⟨fun he => ?_, fun a r' h => ?_⟩
      · rcases bind_eq_error.mp he with he | ⟨r₃, hup, he⟩
        · exact absurd he (updateTagsRemaining_shallow _)
        · exact (decrementDepth_sound ((updateTagsRemaining_depth hup).trans hd₂)).deep he
      · obtain ⟨r₃, hup, h⟩ := bind_eq_ok.mp h
        exact (@decrementDepth_sound (List α) message r.depth r₃ dest ((updateTagsRemaining_depth hup).trans hd₂)).kept a r' h

theorem objectLoop_sound {τ : Type} {map : KeyMap} {tryRead : Nat → τ → Reader → Except WireError (τ × Reader)}
    {skips : Nat → τ → Reader → List Reader} (htook : ∀ i t r t' r', tryRead i t r = .ok (t', r') → Took 1 r r')
    (htry : ∀ i t r, Placed message r → FlatSkips (skips i t r) → Sound message r.depth (tryRead i t r))
    (hc : Contains message depth inner start) : ∀ (state k : Nat) {t : τ} {r : Reader}, k + 2 * state = inner →
      Passed k start r → r.depth = depth + 1 → FlatSkips (objectLoopSkips map tryRead skips state t r) →
        Sound message (depth + 1) (objectLoop map tryRead state t r) := by
  intro state
  induction state with
  | zero =>
    intro k t r _ _ hd _
    refine ((updateTagsRemaining_shallow r).bind fun _ _ => shallow_ok _).sound fun a r' h => ?_
    obtain ⟨r₁, hup, h⟩ := bind_eq_ok.mp h
    cases h
    rw [updateTagsRemaining_depth hup, hd]
  | succ state ih =>
    intro k t r hk hp hd hflat
    unfold objectLoop
    unfold objectLoopSkips at hflat
    have hkeySound : Sound message (depth + 1) (r.readKey map) :=
      (readKey_shallow r map).sound fun _ _ h => (readKey_readLeaf h).depth.trans hd
    refine hkeySound.bind fun found r₁ hkey hd₁ => ?_
    have hp₁ := hp.step (readKey_readLeaf hkey).took Nat.one_pos
    simp only [hkey] at hflat
    cases found with
    | some index =>
      simp only at hflat ⊢
      have hplaced := hc.placed hd₁ (by omega) hp₁
      have hone : Sound message (depth + 1) (tryRead index t r₁) := hd₁ ▸ htry index t r₁ hplaced hflat.left
      refine hone.bind fun t₁ r₂ hok hd₂ => ?_
      have hrest := hflat.right
      simp only [hok] at hrest
      exact ih (k + 2) (by omega) (hp₁.step (htook _ _ _ _ _ hok) Nat.one_pos) hd₂ hrest
    | none =>
      simp only at hflat ⊢
      obtain ⟨hshallow, hsame⟩ := skipValue_flat_sound (hflat r₁ List.mem_cons_self)
      have hrest : ∀ r₂, r₁.skipValue = .ok r₂ → Sound message (depth + 1) (objectLoop map tryRead state t r₂) := by
        intro r₂ hok
        have hmore : FlatSkips (objectLoopSkips map tryRead skips state t r₂) := by
          intro q hq
          refine hflat q (List.mem_cons_of_mem _ ?_)
          simp only [hok]
          exact hq
        exact ih (k + 2) (by omega) (hp₁.step (skipValue_took hok) Nat.one_pos) ((hsame r₂ hok).trans hd₁) hmore
      refine ⟨fun he => ?_, fun a r' h => ?_⟩
      · rcases bind_eq_error.mp he with he | ⟨r₂, hok, he⟩
        · exact absurd he hshallow
        · exact (hrest r₂ hok).deep he
      · obtain ⟨r₂, hok, h⟩ := bind_eq_ok.mp h
        exact (hrest r₂ hok).kept a r' h

theorem tryField_sound {τ : Type} {read : Reader → Except WireError (α × Reader)} {skips : Reader → List Reader}
    {tryRest : Nat → τ → Reader → Except WireError (τ × Reader)} {skipsRest : Nat → τ → Reader → List Reader}
    (hread : FlatSkips (skips r) → Sound message r.depth (read r))
    (hrest : ∀ i t, FlatSkips (skipsRest i t r) → Sound message r.depth (tryRest i t r)) {index : Nat} {t : Option α × τ}
    (hflat : FlatSkips (fieldSkips skips skipsRest index t r)) : Sound message r.depth (tryField read tryRest index t r) := by
  obtain ⟨a, t⟩ := t
  cases index with
  | zero =>
    cases a with
    | none => exact @Sound.map _ _ message r.depth (read r) (fun a => (some a, t)) (hread hflat)
    | some a => exact sound_error (by decide)
  | succ index => exact @Sound.map _ _ message r.depth (tryRest index t r) (fun t => (a, t)) (hrest index t hflat)

end Sound

mutual

/-- While no container is skipped, the reader is as deep as it is in the message. -/
theorem Schema.read_sound {α : Type} {message : List UInt8} : ∀ (s : Schema α), s.Quiet → ∀ (r : Reader),
    Placed message r → FlatSkips (s.skips r) → Sound message r.depth (s.read r)
  | .bool, _, r, _, _ => (boolean_shallow r).sound fun _ _ h => (boolean_readLeaf h).depth
  | .int w, _, r, _, _ => ((integer_shallow r).sound fun _ _ h => (integer_readLeaf h).depth).then (toSigned_shallow w)
  | .uint w, _, r, _, _ =>
    ((unsignedInteger_shallow r).sound fun _ _ h => (unsignedInteger_readLeaf h).depth).then (toUnsigned_shallow w)
  | .string, _, r, _, _ => (string_shallow r).sound fun _ _ h => (string_readLeaf h).depth
  | .binary, _, r, _, _ => (binary_shallow r).sound fun _ _ h => (binary_readLeaf h).depth
  | .blob n, _, r, _, _ => ((binary_shallow r).sound fun _ _ h => (binary_readLeaf h).depth).then (toBlob_shallow n)
  | .array _ _ elem, hq, r, hp, hflat =>
    readArray_sound (fun _ _ _ h => Schema.read_took elem h) (fun r hp hf => Schema.read_sound elem hq r hp hf) hp hflat
  | .object fields, hq, r, hp, hflat => by
    obtain ⟨hstart, hopen⟩ := startObject_sound hp
    unfold Schema.read
    refine hstart.bind fun state r₁ hok hd => ?_
    obtain ⟨start, hc, hpassed⟩ := hopen state r₁ hok
    unfold Schema.skips at hflat
    simp only [hok] at hflat
    refine (objectLoop_sound (fun _ _ _ _ _ h => Fields.tryRead_took fields h)
      (fun i t r hp hf => Fields.tryRead_sound fields hq i t r hp hf) hc state 0 (by omega) hpassed hd hflat).bind
      fun t r₂ _ hd₂ => ?_
    refine ⟨fun he => ?_, fun a r' h => ?_⟩
    · rcases bind_eq_error.mp he with he | ⟨a, -, he⟩
      · exact absurd he (finish_shallow fields t)
      · exact (decrementDepth_sound hd₂).deep he
    · obtain ⟨b, -, h⟩ := bind_eq_ok.mp h
      exact (@decrementDepth_sound α message r.depth r₂ b hd₂).kept a r' h
  | .convert value _ _, hq, r, hp, hflat => (Schema.read_sound value hq.1 r hp hflat).then hq.2

theorem Fields.tryRead_sound {α τ : Type} {message : List UInt8} : ∀ (fields : Fields α τ), fields.Quiet →
    ∀ (index : Nat) (t : τ) (r : Reader), Placed message r → FlatSkips (fields.skips index t r) →
      Sound message r.depth (fields.tryRead index t r)
  | .nil, _, _, _, _, _, _ => sound_error (by decide)
  | .required _ _ value rest, hq, _, _, r, hp, hflat =>
    tryField_sound (Schema.read_sound value hq.1 r hp) (fun i t => Fields.tryRead_sound rest hq.2 i t r hp) hflat
  | .optional _ _ value rest, hq, _, _, r, hp, hflat =>
    tryField_sound (Schema.read_sound value hq.1 r hp) (fun i t => Fields.tryRead_sound rest hq.2 i t r hp) hflat
  | .onEmpty _ _ value rest, hq, _, _, r, hp, hflat =>
    tryField_sound (Schema.read_sound value hq.1 r hp) (fun i t => Fields.tryRead_sound rest hq.2 i t r hp) hflat
  | .defaulted _ _ value _ _ rest, hq, _, _, r, hp, hflat =>
    tryField_sound (Schema.read_sound value hq.1 r hp) (fun i t => Fields.tryRead_sound rest hq.2 i t r hp) hflat

end

/-- `skip_value` takes a complete value off the bytes and the count and leaves the depth
    exactly when the value is no container (and the count is not at its very limit); the
    object around an unknown field is then read on as one without it, and a message is
    rejected for depth, with nothing but such values skipped, only if it is that deep. -/
theorem skip_neutral_iff (r : Reader) :
    (∀ rest : List UInt8, 0 < r.tags → Values 1 r.remaining rest →
      (r.skipValue = .ok ⟨rest, r.tags - 1, r.depth⟩ ↔ Flat r.remaining ∧ r.tags ≠ sizeMax)) ∧
    (∀ (τ : Type) (map : KeyMap) (tryRead : Nat → τ → Reader → Except WireError (τ × Reader)) (state : Nat) (t : τ)
      (r₁ : Reader) (rest : List UInt8), r.readKey map = .ok (none, r₁) → 1 < r.tags → r.tags ≤ sizeMax →
      Values 1 r₁.remaining rest → Flat r₁.remaining →
        objectLoop map tryRead (state + 1) t r = objectLoop map tryRead state t ⟨rest, r.tags - 2, r.depth⟩) ∧
    ∀ (α : Type) (s : Schema α) (bytes : List UInt8), s.Quiet → (∀ q ∈ s.skips ⟨bytes, 1, 0⟩, Flat q.remaining) →
      fromBytes s bytes = .error .maximumDepth → TooDeep bytes := by
  refine ⟨fun rest htags h => skipValue_neutral htags h,
    fun τ map tryRead state t r₁ rest hkey htags hmax h hflat => objectLoop_unknown hkey htags hmax h hflat,
    fun α s bytes hquiet hflat he => ?_⟩
  have hsound := @Schema.read_sound α bytes s hquiet ⟨bytes, 1, 0⟩ (.inr .start) hflat
  rcases bind_eq_error.mp he with he | ⟨⟨a, r⟩, -, he⟩
  · exact hsound.deep he
  · simp only at he
    split at he
    · cases he
    · cases he

/-- Arrays of arrays, the innermost of booleans. -/
def Nested : Nat → Type
  | 0 => Bool
  | n + 1 => List (Nested n)

instance instDecidableEqNested : (n : Nat) → DecidableEq (Nested n)
  | 0 => inferInstanceAs (DecidableEq Bool)
  | n + 1 =>
    have := instDecidableEqNested n
    inferInstanceAs (DecidableEq (List (Nested n)))

def nested : (n : Nat) → Schema (Nested n)
  | 0 => .bool
  | n + 1 => .array 0 sizeMax (nested n)

theorem nested_quiet : ∀ n : Nat, (nested n).Quiet
  | 0 => True.intro
  | n + 1 => nested_quiet n

theorem skip_neutral_iff_nested :
    (⟨[0xc0], 1, 0⟩ : Reader).skipValue = .ok ⟨[], 0, 0⟩ ∧
    objectLoop [([], 0)] (Fields.required [] 0 .bool .nil).tryRead 1 (none, ()) ⟨[0x63, 0xc0], 3, 1⟩ =
      objectLoop [([], 0)] (Fields.required [] 0 .bool .nil).tryRead 0 (none, ()) ⟨[], 1, 1⟩ ∧
    TooDeep (List.replicate 100 0x91 ++ [0xc3]) := by
  have hnull : Values 1 [0xc0] [] := .leaf 0 (by decide) (Nat.zero_le _) (.nil _)
  have hflat : Flat [0xc0] := by decide +kernel
  obtain ⟨hskip, -, -⟩ := skip_neutral_iff ⟨[0xc0], 1, 0⟩
  obtain ⟨-, hunknown, -⟩ := skip_neutral_iff ⟨[0x63, 0xc0], 3, 1⟩
  obtain ⟨-, -, hdeep⟩ := skip_neutral_iff ⟨[], 0, 0⟩
  refine ⟨(hskip [] Nat.one_pos hnull).mpr ⟨hflat, by decide⟩,
    hunknown _ _ _ 0 _ ⟨[0xc0], 2, 1⟩ [] (by decide) (by decide) (by decide) hnull hflat,
    hdeep _ (nested 100) _ (nested_quiet 100) ?_ ?_⟩
  · decide +kernel
  · decide +kernel

/-! ## A flat message that is too deep -/

/-- An object with as many fields of number 99 as the byte says, each an empty array. -/
def unknownArrays (n : UInt8) : List UInt8 := [0xde, 0x00, n] ++ (List.replicate n.toNat [0x63, 0x90]).flatten

theorem Values.suffix {n : Nat} {a b : List UInt8} (h : Values n a b) : b <:+ a := by
  induction h with
  | nil bytes => exact List.suffix_refl _
  | cons _ _ _ _ ih ih' => exact ((ih'.trans ih).trans (List.drop_suffix _ _)).trans (List.suffix_cons _ _)

/-- Its only container with anything inside is the object itself. -/
theorem unknownArrays_inside {depth : Nat} {pos : List UInt8} (h : Inside (unknownArrays 99) depth pos) :
    (depth = 0 ∧ pos = unknownArrays 99) ∨ (depth = 1 ∧ ∀ x ∈ pos, x = 0x63 ∨ x = 0x90) := by
  induction h with
  | start => exact .inl ⟨rfl, rfl⟩
  | @enter d k inner size b rest pos _ hcont hext _ hk hpassed ih =>
    rcases ih with ⟨rfl, hpos⟩ | ⟨rfl, hall⟩
    · obtain ⟨rfl, rfl⟩ := List.cons.inj hpos
      have hobject : (Tag.ofByte 0xde).extent ((unknownArrays 99).drop 1) = some (2, 198) := by decide +kernel
      obtain ⟨rfl, rfl⟩ := Prod.mk.inj (Option.some.inj (hobject.symm.trans hext))
      refine .inr ⟨rfl, fun x hx => ?_⟩
      have hfields : ∀ x ∈ (unknownArrays 99).drop 3, x = 0x63 ∨ x = 0x90 := by decide +kernel
      exact hfields x (hpassed.suffix.subset hx)
    · rcases hall b List.mem_cons_self with rfl | rfl
      · exact absurd hcont (by decide)
      · have hempty : (Tag.ofByte 0x90).extent rest = some (0, 0) := by
          rw [show Tag.ofByte 0x90 = .fixedArray 0 by decide]
          rfl
        obtain ⟨-, rfl⟩ := Prod.mk.inj (Option.some.inj (hempty.symm.trans hext))
        exact absurd hk (Nat.not_lt_zero k)

/-- A skipped array stays on the depth, and 99 unknown empty arrays next to each other are too deep. -/
theorem flat_message_too_deep :
    Values 1 [0x90] [] ∧ (⟨[0x90], 1, 0⟩ : Reader).skipValue = .ok ⟨[], 0, 1⟩ ∧
    fromBytes initializeSchema (unknownArrays 99) = .error .maximumDepth ∧ ¬ TooDeep (unknownArrays 99) := by
  have harray : (Tag.ofByte 0x90).extent [] = some (0, 0) := by decide
  refine ⟨.leaf 0 harray (Nat.zero_le _) (.nil _), by decide, by decide +kernel, ?_⟩
  rintro ⟨depth, b, rest, hin, -, hdeep⟩
  rcases unknownArrays_inside hin with ⟨rfl, -⟩ | ⟨rfl, -⟩ <;> simp [maxReadDepth] at hdeep

end Lws.Wire
