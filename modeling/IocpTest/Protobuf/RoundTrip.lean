import IocpTest.Protobuf.Parsing

/-!
# What has been serialized is read back

A message object may hold any unknown fields that a parser of its class can have put there
(`Message.Kept`); parsing puts in no others. Such a message is read back from its bytes, of
which there are `ByteSize` many (`serializeToArray_parse`), and so is every message that was
read from other bytes (`parseFromArray_again`).
-/

namespace IocpTest.Protobuf

open Bytes Varint

variable {D : Descriptor}

/-! ## The size -/

theorem length_tag (i : D.Index) : (writeTagToArray (D.field i).tag).length = 1 := by
  have small := (D.small _ (List.get_mem _ i)).2
  have tag := toNat_makeTag (D.field i).number .varint
  have one : Digits 0 (D.field i).tag.toNat := by
    refine ⟨.inl rfl, ?_⟩
    rw [FieldDecl.tag, tag, WireType.number]
    rw [Descriptor.field]
    omega
  rw [writeTagToArray_eq, one.length (by decide)]

namespace Message

theorem length_fieldToArray (m : Message D) (i : D.Index) :
    (m.fieldToArray i).length = m.fieldSize i := by
  rw [fieldToArray, fieldSize]
  cases m.value i with
  | none => rfl
  | some value =>
      simp only [List.length_append, length_tag, FieldType.length_toArray]

/-- `ByteSize` is the number of bytes that the serializer writes. -/
theorem length_toArray (m : Message D) : m.toArray.length = m.byteSize := by
  simp only [toArray, byteSize, List.length_append, List.length_flatMap, length_fieldToArray,
    length_serializeUnknownFieldsToArray]

end Message

/-! ## Fields -/

/-- A value that the parser of an enum field does not take, as it is kept. -/
def FieldType.Rejects : FieldType → Uint64 → Prop
  | .enum isValid, value =>
      isValid (value.setWidth 32) = false ∧ (value.setWidth 32).signExtend 64 = value
  | _, _ => False

/-- A field that a parser of the class does not take for a declared one. -/
def Descriptor.Foreign (D : Descriptor) : UnknownField → Prop
  | .varint number value => ∀ i, D.find number = some i → (D.field i).type.Rejects value
  | _ => True

/-- What a parser of the class can have put among the unknown fields. -/
structure Descriptor.Keeps (D : Descriptor) (field : UnknownField) : Prop where
  fits : field.Fits 0
  foreign : D.Foreign field

def Message.Kept (m : Message D) : Prop := ∀ field ∈ m.unknown, D.Keeps field

theorem FieldType.read_toArray (number : FieldNumber) (type : FieldType) (value : type.Value)
    (rest : List Byte) :
    type.read number (type.toArray value ++ rest) = some (.inl value, rest) := by
  cases type with
  | int32 => simp [FieldType.read, FieldType.toArray, readVarint32_writeSignExtended]
  | int64 => simp [FieldType.read, FieldType.toArray, readVarint64_write]
  | enum isValid =>
      simp [FieldType.read, FieldType.toArray, readVarint32_writeSignExtended, checkEnum, value.2]

/-- A declared field stays unknown only for an enum value that is not valid. -/
theorem FieldType.read_unknown {number : FieldNumber} {type : FieldType} {bs rest : List Byte}
    {field : UnknownField} (found : type.read number bs = some (.inr field, rest)) :
    ∃ value, field = .varint number value ∧ type.Rejects value := by
  cases type with
  | int32 | int64 => simp [FieldType.read] at found
  | enum isValid =>
      obtain ⟨⟨value, rest'⟩, read, eq⟩ := Option.map_eq_some_iff.mp found
      have check : checkEnum isValid number value = .inr field := (Prod.mk.inj eq).1
      rw [checkEnum] at check
      split at check
      · cases check
      · next invalid =>
          obtain rfl := Sum.inr.inj check
          have low := setWidth_signExtend value
          exact ⟨_, rfl, by simpa [low] using invalid, by rw [low]⟩

theorem FieldType.read_rejected (number : FieldNumber) {type : FieldType} {value : Uint64}
    (rejects : type.Rejects value) (rest : List Byte) :
    type.read number (writeVarint64ToArray value ++ rest) =
      some (.inr (.varint number value), rest) := by
  cases type with
  | int32 | int64 => exact rejects.elim
  | enum isValid =>
      obtain ⟨invalid, same⟩ := rejects
      simp [FieldType.read, writeVarint64ToArray_eq, readVarint32_encode, checkEnum, invalid, same]

/-! ## Tokens -/

/-- A declared field that has been written is read as itself. -/
theorem nextToken_field (i : D.Index) (value : (D.field i).type.Value) (rest : List Byte) :
    nextToken D (writeTagToArray (D.field i).tag ++ ((D.field i).type.toArray value ++ rest)) =
      some (.field i value, rest) := by
  rw [nextToken_of_readTag (readTag_write _ _), readField, FieldType.read_toArray]
  simp

/-- An unknown field that has been written is read as itself. -/
theorem nextToken_unknown {field : UnknownField} (keeps : D.Keeps field) (rest : List Byte) :
    nextToken D (field.toArray ++ rest) = some (.unknown field, rest) := by
  have read := readTag_write (field.body ++ rest) field.tag
  rw [UnknownField.toArray_eq, List.append_assoc]
  by_cases declared : ∃ i, D.find (getTagFieldNumber field.tag) = some i ∧
      getTagWireType field.tag = some .varint
  · obtain ⟨i, declared, wire⟩ := declared
    cases field with
    | varint number value =>
        have found : D.find number = some i := by simpa [UnknownField.tag] using declared
        have same : (D.field i).number = number := Descriptor.find_eq_some_iff.mp found
        have tag : (UnknownField.varint number value).tag = (D.field i).tag := by
          rw [UnknownField.tag, FieldDecl.tag, same]
        rw [tag] at read ⊢
        have rejected := FieldType.read_rejected (D.field i).number (keeps.foreign i found) rest
        rw [nextToken_of_readTag read, readField, UnknownField.body, rejected, same]
        simp
    | _ => simp [UnknownField.tag] at wire
  · have other : skipUnknown field.tag (field.body ++ rest) = some (field, rest) := by
      have enough : field.toArray.length ≤
          field.toArray.length + 2 * (field.body ++ rest).length + 2 := by omega
      rw [← skipField_body field rest keeps.fits enough, skipUnknown]
      exact (skip_fuel _).1 (by omega) (by omega)
    rw [nextToken_of_uninterpreted read keeps.fits.tag_ne_zero
      (fun i found wire => declared ⟨i, found, wire⟩) field.tag_ne_endGroup, other]
    simp

/-- What the parser puts among the unknown fields. -/
theorem keeps_of_nextToken {bs rest : List Byte} {field : UnknownField}
    (found : nextToken D bs = some (.unknown field, rest)) : D.Keeps field := by
  obtain ⟨tag, behind, _, zero, ⟨i, _, _, value⟩ | ⟨other, _, field', same, skipped⟩⟩ :=
    nextToken_cases found
  · obtain ⟨⟨value | field', rest'⟩, read, eq⟩ := Option.map_eq_some_iff.mp value
    · cases eq
    · obtain rfl : field' = field := Token.unknown.inj (Prod.mk.inj eq).1
      obtain ⟨value, rfl, rejects⟩ := FieldType.read_unknown read
      refine ⟨?_, fun j found => ?_⟩
      · rw [UnknownField.Fits]
        exact (D.small _ (List.get_mem _ i)).1
      · have itself : D.find (D.field i).number = some i := Descriptor.find_eq_some_iff.mpr rfl
        obtain rfl : i = j := Option.some.inj (itself.symm.trans found)
        exact rejects
  · obtain rfl := Token.unknown.inj same
    have spec := skipUnknown_spec skipped
    refine ⟨spec.fits zero, ?_⟩
    cases field with
    | varint number value =>
        intro i found
        have wire := other i
        rw [← spec.tagged] at wire
        exact absurd (by simp [UnknownField.tag]) (wire (by simpa [UnknownField.tag] using found))
    | _ => trivial

/-! ## Messages -/

namespace Message

def fieldToken (m : Message D) (i : D.Index) : Option (Token D) := (m.value i).map (.field i)

/-- The tokens that the serializer writes. -/
def tokens (m : Message D) : List (Token D) :=
  (List.finRange D.fields.length).filterMap m.fieldToken ++ m.unknown.map .unknown

theorem tokens_fields (m : Message D) (indices : List D.Index) {rest : List Byte}
    {later : List (Token D)} (behind : Tokens D rest later) :
    Tokens D (indices.flatMap m.fieldToArray ++ rest)
      (indices.filterMap m.fieldToken ++ later) := by
  induction indices with
  | nil => simpa using behind
  | cons i indices ih =>
      rw [List.flatMap_cons, List.filterMap_cons, fieldToArray, fieldToken]
      cases m.value i with
      | none => simpa using ih
      | some value =>
          simp only [Option.map_some, List.append_assoc, List.cons_append]
          exact .cons (nextToken_field i value _) ih

theorem tokens_unknown {fields : List UnknownField} (keeps : ∀ field ∈ fields, D.Keeps field) :
    Tokens D (serializeUnknownFieldsToArray fields) (fields.map .unknown) := by
  induction fields with
  | nil =>
      rw [serializeUnknownFieldsToArray]
      exact .nil
  | cons field fields ih =>
      rw [List.forall_mem_cons] at keeps
      rw [serializeUnknownFieldsToArray]
      exact .cons (nextToken_unknown keeps.1 _) (ih keeps.2)

theorem tokens_toArray {m : Message D} (kept : m.Kept) : Tokens D m.toArray m.tokens :=
  m.tokens_fields _ (tokens_unknown kept)

theorem absorb_fields (m base : Message D) {indices : List D.Index} (distinct : indices.Nodup) :
    (indices.filterMap m.fieldToken).foldl absorb base =
      ⟨fun i => if i ∈ indices then (m.value i).or (base.value i) else base.value i,
        base.unknown⟩ := by
  induction indices generalizing base with
  | nil => simp
  | cons i indices ih =>
      obtain ⟨fresh, distinct⟩ := List.nodup_cons.mp distinct
      rw [List.filterMap_cons, fieldToken]
      cases here : m.value i with
      | none =>
          simp only [Option.map_none, ih base distinct]
          apply Message.ext
          · funext j
            by_cases same : j = i
            · subst same
              simp [fresh, here]
            · simp [same]
          · rfl
      | some value =>
          simp only [Option.map_some, List.foldl_cons, ih _ distinct]
          apply Message.ext
          · funext j
            by_cases same : j = i
            · subst same
              simp [fresh, here, absorb, set]
            · simp [same, absorb, set]
          · rfl

theorem absorb_unknown (base : Message D) (fields : List UnknownField) :
    (fields.map Token.unknown).foldl absorb base =
      { base with unknown := base.unknown ++ fields } := by
  induction fields generalizing base with
  | nil => simp
  | cons field fields ih => simp [ih, absorb]

theorem absorb_tokens (m : Message D) : m.tokens.foldl absorb .empty = m := by
  rw [tokens, List.foldl_append, absorb_fields m .empty (List.nodup_finRange _), absorb_unknown]
  simp [empty]

end Message

/-- A message that is complete is read back from its bytes. -/
theorem parseFromArray_toArray {m : Message D} (kept : m.Kept)
    (initialized : m.isInitialized = true) (short : m.byteSize ≤ kDefaultTotalBytesLimit) :
    parseFromArray D m.toArray = some m :=
  parseFromArray_eq_some_iff.mpr ⟨m.length_toArray ▸ short, initialized, m.tokens,
    Message.tokens_toArray kept, m.absorb_tokens.symm⟩

/-- `SerializeToArray` with `ByteSize` bytes of room succeeds, fills all of them, and
`ParseFromArray` makes the same message of them. -/
theorem serializeToArray_parse {m : Message D} (kept : m.Kept)
    (initialized : m.isInitialized = true) (short : m.byteSize ≤ kDefaultTotalBytesLimit) :
    ∃ bytes, m.serializeToArray m.byteSize = some bytes ∧ bytes.length = m.byteSize ∧
      parseFromArray D bytes = some m :=
  ⟨m.toArray, if_neg (Nat.lt_irrefl _), m.length_toArray,
    parseFromArray_toArray kept initialized short⟩

/-- A bullet with a negative angle, a message number that is unknown and a group. -/
theorem serializeToArray_parse_bullet :
    let m : Message reqBulletMessage :=
      { (((Message.empty.setAngle (-25#32)).setLockFishID 0#32).setLauncherType 0#32) with
        unknown := [.varint 1#29 7#64, .group 9#29 [.fixed32 3#29 1#32]] }
    ∃ bytes, m.serializeToArray m.byteSize = some bytes ∧ bytes.length = m.byteSize ∧
      parseFromArray reqBulletMessage bytes = some m := by
  intro m
  have number : reqBulletMessage.find 1#29 = some ⟨0, by decide⟩ := rfl
  have rejected : reqBulletMessage.Keeps (.varint 1#29 7#64) := by
    refine ⟨by simp [UnknownField.Fits], fun i found => ?_⟩
    obtain rfl := Option.some.inj (number.symm.trans found)
    exact ⟨by decide, by decide⟩
  have group : reqBulletMessage.Keeps (.group 9#29 [.fixed32 3#29 1#32]) :=
    ⟨by simp [UnknownField.Fits, FieldsFit, kDefaultRecursionLimit], trivial⟩
  have kept : m.Kept := by simpa [Message.Kept, m] using And.intro rejected group
  exact serializeToArray_parse kept rfl (by decide)

theorem kept_of_absorbs {m m' : Message D} {bs : List Byte} (kept : m.Kept)
    (absorbs : Absorbs m m' bs) : m'.Kept := by
  obtain ⟨tokens, run, rfl⟩ := absorbs
  induction run generalizing m with
  | nil => exact kept
  | @cons bs rest token tokens found _ ih =>
      apply ih
      cases token with
      | field i value => exact kept
      | unknown field =>
          intro other member
          rcases List.mem_append.mp member with old | new
          · exact kept other old
          · obtain rfl := List.mem_singleton.mp new
            exact keeps_of_nextToken found

/-- Whatever has been read can be serialized, and is read as the same message again. -/
theorem parseFromArray_again {bs : List Byte} {m : Message D}
    (read : parseFromArray D bs = some m) (short : m.byteSize ≤ kDefaultTotalBytesLimit) :
    parseFromArray D m.toArray = some m := by
  obtain ⟨_, initialized, absorbs⟩ := parseFromArray_eq_some_iff.mp read
  have none : (Message.empty : Message D).Kept := fun field member => by
    simp [Message.empty] at member
  exact parseFromArray_toArray (kept_of_absorbs none absorbs) initialized short

/-- A room number in two bytes where one is enough, and a field of another type. -/
theorem parseFromArray_again_joinRoom :
    let m : Message reqJoinRoomMessage :=
      { (Message.empty.setRoomID 5#32) with unknown := [.fixed32 2#29 1#32] }
    parseFromArray reqJoinRoomMessage [0x10#8, 0x85#8, 0x00#8, 0x15#8, 1#8, 0#8, 0#8, 0#8] =
      some m ∧ parseFromArray reqJoinRoomMessage m.toArray = some m := by
  intro m
  have read : parseFromArray reqJoinRoomMessage
      [0x10#8, 0x85#8, 0x00#8, 0x15#8, 1#8, 0#8, 0#8, 0#8] = some m := rfl
  exact ⟨read, parseFromArray_again read (by decide)⟩

end IocpTest.Protobuf
