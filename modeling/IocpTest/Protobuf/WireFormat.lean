import IocpTest.Protobuf.CodedInput

/-!
# Unknown fields

A field that a message does not declare is kept: the parser skips it into an
`UnknownFieldSet` and the serializer writes the set behind the declared fields. Groups nest,
so both recurse; the parser gives up at `kDefaultRecursionLimit`.

`skipField_body` reads a written field back. `skipField_fits` says that whatever has been
skipped can be written and read again, and that it does not depend on what follows it.
-/

namespace IocpTest.Protobuf

open Bytes Varint

/-- What a tag has room for above the wire type. -/
abbrev FieldNumber := BitVec 29

inductive WireType where
  | varint
  | fixed64
  | lengthDelimited
  | startGroup
  | endGroup
  | fixed32
  deriving DecidableEq, Repr

def WireType.number : WireType → Nat
  | .varint => 0
  | .fixed64 => 1
  | .lengthDelimited => 2
  | .startGroup => 3
  | .endGroup => 4
  | .fixed32 => 5

/-- `MakeTag` -/
def makeTag (number : FieldNumber) (type : WireType) : Uint32 :=
  BitVec.ofNat 32 type.number ||| number.setWidth 32 <<< 3

/-- `GetTagFieldNumber` -/
def getTagFieldNumber (tag : Uint32) : FieldNumber := (tag >>> 3).setWidth 29

/-- `GetTagWireType`. The values 6 and 7 are no wire types. -/
def getTagWireType (tag : Uint32) : Option WireType :=
  match (tag &&& 7#32).toNat with
  | 0 => some .varint
  | 1 => some .fixed64
  | 2 => some .lengthDelimited
  | 3 => some .startGroup
  | 4 => some .endGroup
  | 5 => some .fixed32
  | _ => none

theorem toNat_makeTag (number : FieldNumber) (type : WireType) :
    (makeTag number type).toNat = type.number + 8 * number.toNat := by
  have bound := number.isLt
  have low : type.number < 8 := by cases type <;> decide
  rw [makeTag, toNat_or_shiftLeft (by omega) (by rw [BitVec.toNat_ofNat]; omega)]
  simp only [BitVec.toNat_ofNat, BitVec.toNat_setWidth]
  omega

theorem wireType_toNat (tag : Uint32) : (tag &&& 7#32).toNat = tag.toNat % 8 :=
  Nat.and_two_pow_sub_one_eq_mod tag.toNat 3

@[simp] theorem getTagFieldNumber_makeTag (number : FieldNumber) (type : WireType) :
    getTagFieldNumber (makeTag number type) = number := by
  have low : type.number < 8 := by cases type <;> decide
  apply BitVec.eq_of_toNat_eq
  simp only [getTagFieldNumber, BitVec.toNat_setWidth, BitVec.toNat_ushiftRight, toNat_makeTag,
    Nat.shiftRight_eq_div_pow]
  omega

@[simp] theorem getTagWireType_makeTag (number : FieldNumber) (type : WireType) :
    getTagWireType (makeTag number type) = some type := by
  have same : (makeTag number type).toNat % 8 = type.number := by
    have low : type.number < 8 := by cases type <;> decide
    rw [toNat_makeTag]
    omega
  rw [getTagWireType, wireType_toNat, same]
  cases type <;> rfl

/-- A tag is its wire type and its number. -/
theorem makeTag_of_wireType {tag : Uint32} {type : WireType}
    (found : getTagWireType tag = some type) : makeTag (getTagFieldNumber tag) type = tag := by
  have low : tag.toNat % 8 = type.number := by
    rw [getTagWireType, wireType_toNat] at found
    split at found <;> simp_all [WireType.number]
    all_goals subst found; rfl
  apply BitVec.eq_of_toNat_eq
  simp only [toNat_makeTag, getTagFieldNumber, BitVec.toNat_setWidth, BitVec.toNat_ushiftRight,
    Nat.shiftRight_eq_div_pow, ← low]
  omega

inductive UnknownField where
  | varint (number : FieldNumber) (value : Uint64)
  | fixed32 (number : FieldNumber) (value : Uint32)
  | fixed64 (number : FieldNumber) (value : Uint64)
  | lengthDelimited (number : FieldNumber) (data : List Byte)
  | group (number : FieldNumber) (fields : List UnknownField)

/-! ## Writing -/

mutual

/-- One turn of the loop in `SerializeUnknownFieldsToArray`. -/
def UnknownField.toArray : UnknownField → List Byte
  | .varint number value =>
      writeTagToArray (makeTag number .varint) ++ writeVarint64ToArray value
  | .fixed32 number value => writeTagToArray (makeTag number .fixed32) ++ leBytes 4 value.toNat
  | .fixed64 number value => writeTagToArray (makeTag number .fixed64) ++ leBytes 8 value.toNat
  | .lengthDelimited number data =>
      writeTagToArray (makeTag number .lengthDelimited) ++
        (writeVarint32ToArray (BitVec.ofNat 32 data.length) ++ data)
  | .group number fields =>
      writeTagToArray (makeTag number .startGroup) ++
        (serializeUnknownFieldsToArray fields ++ writeTagToArray (makeTag number .endGroup))

/-- `SerializeUnknownFieldsToArray` -/
def serializeUnknownFieldsToArray : List UnknownField → List Byte
  | [] => []
  | field :: fields => field.toArray ++ serializeUnknownFieldsToArray fields

end

mutual

/-- One turn of the loop in `ComputeUnknownFieldsSize`. -/
def UnknownField.size : UnknownField → Nat
  | .varint number value => varintSize32 (makeTag number .varint) + varintSize64 value
  | .fixed32 number _ => varintSize32 (makeTag number .fixed32) + 4
  | .fixed64 number _ => varintSize32 (makeTag number .fixed64) + 8
  | .lengthDelimited number data =>
      varintSize32 (makeTag number .lengthDelimited) +
        varintSize32 (BitVec.ofNat 32 data.length) + data.length
  | .group number fields =>
      varintSize32 (makeTag number .startGroup) + computeUnknownFieldsSize fields +
        varintSize32 (makeTag number .endGroup)

/-- `ComputeUnknownFieldsSize` -/
def computeUnknownFieldsSize : List UnknownField → Nat
  | [] => 0
  | field :: fields => field.size + computeUnknownFieldsSize fields

end

theorem length_writeTagToArray (tag : Uint32) :
    (writeTagToArray tag).length = varintSize32 tag := by
  rw [writeTagToArray_eq, varintSize32_eq]

mutual

/-- The size is the number of bytes written. -/
theorem UnknownField.length_toArray : ∀ field : UnknownField,
    field.toArray.length = field.size
  | .varint number value => by
      simp only [UnknownField.toArray, UnknownField.size, List.length_append,
        length_writeTagToArray, writeVarint64ToArray_eq, varintSize64_eq]
  | .fixed32 number value | .fixed64 number value => by
      simp only [UnknownField.toArray, UnknownField.size, List.length_append,
        length_writeTagToArray, leBytes_length]
  | .lengthDelimited number data => by
      simp only [UnknownField.toArray, UnknownField.size, List.length_append,
        length_writeTagToArray, writeVarint32ToArray_eq, varintSize32_eq, Nat.add_assoc]
  | .group number fields => by
      simp only [UnknownField.toArray, UnknownField.size, List.length_append,
        length_writeTagToArray, length_serializeUnknownFieldsToArray fields, Nat.add_assoc]

theorem length_serializeUnknownFieldsToArray : ∀ fields : List UnknownField,
    (serializeUnknownFieldsToArray fields).length = computeUnknownFieldsSize fields
  | [] => by simp only [serializeUnknownFieldsToArray, computeUnknownFieldsSize, List.length_nil]
  | field :: fields => by
      simp only [serializeUnknownFieldsToArray, computeUnknownFieldsSize, List.length_append,
        field.length_toArray, length_serializeUnknownFieldsToArray fields]

end

/-! ## Skipping -/

/-- `kDefaultRecursionLimit` -/
def kDefaultRecursionLimit : Nat := 64

mutual

/-- `SkipField` behind a tag, at a recursion depth. -/
def skipField : Nat → Nat → Uint32 → List Byte → Option (UnknownField × List Byte)
  | 0, _, _, _ => none
  | fuel + 1, depth, tag, bs =>
      let number := getTagFieldNumber tag
      match getTagWireType tag with
      | some .varint =>
          (readVarint64 bs).toOption.map fun r => (.varint number r.1, r.2)
      | some .fixed64 => (readLittleEndian64 bs).map fun r => (.fixed64 number r.1, r.2)
      | some .lengthDelimited =>
          (readVarint32 bs).toOption.bind fun size =>
            (readString size.1 size.2).map fun r => (.lengthDelimited number r.1, r.2)
      | some .startGroup =>
          if depth < kDefaultRecursionLimit then
            (skipMessage fuel (depth + 1) bs).bind fun r =>
              if r.2.1 = makeTag number .endGroup then some (.group number r.1, r.2.2) else none
          else none
      | some .endGroup => none
      | some .fixed32 => (readLittleEndian32 bs).map fun r => (.fixed32 number r.1, r.2)
      | none => none

/-- `SkipMessage`: the fields up to an end-group tag or the end, with the last tag read. -/
def skipMessage : Nat → Nat → List Byte → Option (List UnknownField × Uint32 × List Byte)
  | 0, _, _ => none
  | fuel + 1, depth, bs =>
      let (tag, rest) := readTag bs
      if tag = 0#32 ∨ getTagWireType tag = some .endGroup then some ([], tag, rest)
      else
        (skipField fuel depth tag rest).bind fun field =>
          (skipMessage fuel depth field.2).map fun r => (field.1 :: r.1, r.2)

end

mutual

/-- What a parser at this depth can have skipped. -/
def UnknownField.Fits (depth : Nat) : UnknownField → Prop
  | .varint number _ => number ≠ 0#29
  | .fixed32 _ _ => True
  | .fixed64 _ _ => True
  | .lengthDelimited _ data => data.length < 2 ^ 31
  | .group _ fields => depth < kDefaultRecursionLimit ∧ FieldsFit (depth + 1) fields

def FieldsFit (depth : Nat) : List UnknownField → Prop
  | [] => True
  | field :: fields => field.Fits depth ∧ FieldsFit depth fields

end

/-- The tag of a field. -/
def UnknownField.tag : UnknownField → Uint32
  | .varint number _ => makeTag number .varint
  | .fixed32 number _ => makeTag number .fixed32
  | .fixed64 number _ => makeTag number .fixed64
  | .lengthDelimited number _ => makeTag number .lengthDelimited
  | .group number _ => makeTag number .startGroup

/-- What stands behind the tag. -/
def UnknownField.body : UnknownField → List Byte
  | .varint _ value => writeVarint64ToArray value
  | .fixed32 _ value => leBytes 4 value.toNat
  | .fixed64 _ value => leBytes 8 value.toNat
  | .lengthDelimited _ data => writeVarint32ToArray (BitVec.ofNat 32 data.length) ++ data
  | .group number fields =>
      serializeUnknownFieldsToArray fields ++ writeTagToArray (makeTag number .endGroup)

theorem UnknownField.toArray_eq (field : UnknownField) :
    field.toArray = writeTagToArray field.tag ++ field.body := by
  cases field <;> simp only [UnknownField.toArray, UnknownField.tag, UnknownField.body]

theorem makeTag_ne_zero {number : FieldNumber} {type : WireType}
    (h : number ≠ 0#29 ∨ type ≠ .varint) : makeTag number type ≠ 0#32 := by
  intro zero
  have sum := toNat_makeTag number type
  rw [zero] at sum
  rcases h with other | other
  · apply other
    apply BitVec.eq_of_toNat_eq
    simp only [BitVec.toNat_ofNat] at sum ⊢
    omega
  · cases type <;> simp [WireType.number] at sum other <;> omega

theorem UnknownField.Fits.tag_ne_zero {depth : Nat} {field : UnknownField}
    (fits : field.Fits depth) : field.tag ≠ 0#32 := by
  cases field with
  | varint number value =>
      rw [UnknownField.Fits] at fits
      exact makeTag_ne_zero (.inl fits)
  | _ => exact makeTag_ne_zero (.inr (by decide))

theorem UnknownField.tag_ne_endGroup (field : UnknownField) :
    getTagWireType field.tag ≠ some .endGroup := by
  cases field <;> simp [UnknownField.tag]

theorem writeTagToArray_length_pos (tag : Uint32) : 0 < (writeTagToArray tag).length := by
  rw [writeTagToArray_eq]
  exact List.length_pos_iff.mpr (encode_ne_nil 9 _)

theorem readLittleEndian32_leBytes (value : Uint32) (rest : List Byte) :
    readLittleEndian32 (leBytes 4 value.toNat ++ rest) = some (value, rest) := by
  have length := leBytes_length 4 value.toNat
  rw [readLittleEndian32, if_pos (by simp [length]), List.take_left' length,
    List.drop_left' length, leNat_leBytes value.isLt]
  simp

theorem readLittleEndian64_leBytes (value : Uint64) (rest : List Byte) :
    readLittleEndian64 (leBytes 8 value.toNat ++ rest) = some (value, rest) := by
  have length := leBytes_length 8 value.toNat
  rw [readLittleEndian64, if_pos (by simp [length]), List.take_left' length,
    List.drop_left' length, leNat_leBytes value.isLt]
  simp

theorem readString_append {data : List Byte} (short : data.length < 2 ^ 31)
    (rest : List Byte) :
    readString (BitVec.ofNat 32 data.length) (data ++ rest) = some (data, rest) := by
  have size : (BitVec.ofNat 32 data.length).toNat = data.length := by
    rw [BitVec.toNat_ofNat]
    omega
  have positive : (BitVec.ofNat 32 data.length).msb = false := by
    rw [BitVec.msb_eq_false_iff_two_mul_lt, size]
    omega
  simp [readString, positive, size]

mutual

/-- A written field is skipped as itself, whatever follows it. -/
theorem skipField_body : ∀ (field : UnknownField) {depth fuel : Nat} (rest : List Byte),
    field.Fits depth → field.toArray.length ≤ fuel →
      skipField fuel depth field.tag (field.body ++ rest) = some (field, rest)
  | field, depth, 0, rest, _, enough => by
      have some := writeTagToArray_length_pos field.tag
      rw [UnknownField.toArray_eq, List.length_append] at enough
      omega
  | .varint number value, depth, fuel + 1, rest, _, _ => by
      simp [skipField, UnknownField.tag, UnknownField.body, readVarint64_write]
  | .fixed32 number value, depth, fuel + 1, rest, _, _ => by
      simp [skipField, UnknownField.tag, UnknownField.body, readLittleEndian32_leBytes]
  | .fixed64 number value, depth, fuel + 1, rest, _, _ => by
      simp [skipField, UnknownField.tag, UnknownField.body, readLittleEndian64_leBytes]
  | .lengthDelimited number data, depth, fuel + 1, rest, short, _ => by
      rw [UnknownField.Fits] at short
      simp [skipField, UnknownField.tag, UnknownField.body, readVarint32_write,
        readString_append short]
  | .group number fields, depth, fuel + 1, rest, fits, enough => by
      rw [UnknownField.Fits] at fits
      have some := writeTagToArray_length_pos (makeTag number .startGroup)
      have last := writeTagToArray_length_pos (makeTag number .endGroup)
      rw [UnknownField.toArray] at enough
      simp only [List.length_append] at enough
      have within : (serializeUnknownFieldsToArray fields).length < fuel := by omega
      have inner := skipMessage_fields fields number rest fits.2 within
      simp [skipField, UnknownField.tag, UnknownField.body, fits.1, inner]

theorem skipMessage_fields : ∀ (fields : List UnknownField) {depth fuel : Nat}
    (number : FieldNumber) (rest : List Byte), FieldsFit depth fields →
      (serializeUnknownFieldsToArray fields).length < fuel →
        skipMessage fuel depth (serializeUnknownFieldsToArray fields ++
          (writeTagToArray (makeTag number .endGroup) ++ rest)) =
            some (fields, makeTag number .endGroup, rest)
  | _, _, 0, _, _, _, enough => absurd enough (Nat.not_lt_zero _)
  | [], depth, fuel + 1, number, rest, _, _ => by
      simp [skipMessage, serializeUnknownFieldsToArray, readTag_write]
  | field :: fields, depth, fuel + 1, number, rest, fits, enough => by
      rw [FieldsFit] at fits
      have some := writeTagToArray_length_pos field.tag
      rw [serializeUnknownFieldsToArray, List.length_append] at enough
      have first : field.toArray.length ≤ fuel := by omega
      have others : (serializeUnknownFieldsToArray fields).length < fuel := by
        rw [UnknownField.toArray_eq, List.length_append] at enough
        omega
      have here := skipField_body field (serializeUnknownFieldsToArray fields ++
        (writeTagToArray (makeTag number .endGroup) ++ rest)) fits.1 first
      have later := skipMessage_fields fields number rest fits.2 others
      simp [skipMessage, serializeUnknownFieldsToArray, UnknownField.toArray_eq,
        readTag_write, fits.1.tag_ne_zero, field.tag_ne_endGroup, here, later]

end

/-! ## What has been skipped -/

/-- A skipped field: its tag is the one read, it can be written again, and reading it goes on
with more bytes behind it or more fuel. -/
structure Skipped (fuel depth : Nat) (tag : Uint32) (bs : List Byte) (field : UnknownField)
    (rest : List Byte) : Prop where
  tagged : field.tag = tag
  fits : tag ≠ 0#32 → field.Fits depth
  shorter : rest.length ≤ bs.length
  append : ∀ {fuel'}, fuel ≤ fuel' → ∀ more,
    skipField fuel' depth tag (bs ++ more) = some (field, rest ++ more)

theorem forward_readLittleEndian32 : Forward readLittleEndian32 :=
  forward_take 4 fun bs => BitVec.ofNat 32 (leNat bs)

theorem forward_readLittleEndian64 : Forward readLittleEndian64 :=
  forward_take 8 fun bs => BitVec.ofNat 64 (leNat bs)

theorem forward_readLengthDelimited : Forward fun bs =>
    (readVarint32 bs).toOption.bind fun size => readString size.1 size.2 :=
  forward_readVarint32.bind forward_readString

theorem readString_length {size : Uint32} {bs data rest : List Byte}
    (found : readString size bs = some (data, rest)) : data.length < 2 ^ 31 := by
  simp only [readString] at found
  split_ifs at found with negative room
  obtain ⟨rfl, rfl⟩ := Prod.mk.inj (Option.some.inj found)
  have positive := BitVec.msb_eq_false_iff_two_mul_lt.mp (Bool.eq_false_of_not_eq_true negative)
  rw [List.length_take_of_le room]
  omega

section

variable {fuel depth : Nat} {tag : Uint32} {bs rest : List Byte} {f : UnknownField}

/-- A field that one reader reads. -/
theorem Skipped.of_forward {α : Type} {type : WireType}
    {read : List Byte → Option (α × List Byte)} (field : FieldNumber → α → UnknownField)
    (forward : Forward read)
    (text : ∀ fuel bs, skipField (fuel + 1) depth tag bs =
      (read bs).map fun r => (field (getTagFieldNumber tag) r.1, r.2))
    (wire : getTagWireType tag = some type)
    (tagged : ∀ number a, (field number a).tag = makeTag number type)
    (fits : ∀ {a bs rest}, read bs = some (a, rest) → tag ≠ 0#32 →
      (field (getTagFieldNumber tag) a).Fits depth)
    (found : skipField (fuel + 1) depth tag bs = some (f, rest)) :
    Skipped (fuel + 1) depth tag bs f rest := by
  rw [text] at found
  obtain ⟨⟨a, rest'⟩, read, eq⟩ := Option.map_eq_some_iff.mp found
  obtain ⟨rfl, rfl⟩ := Prod.mk.inj eq
  refine ⟨(tagged _ a).trans (makeTag_of_wireType wire), fits read, forward.shorter read, ?_⟩
  intro fuel' more rest
  obtain ⟨fuel', rfl⟩ : ∃ k, fuel' = k + 1 := ⟨fuel' - 1, by omega⟩
  simp [text, forward.append read rest]

/-- The same for the fields of a group. -/
structure SkippedMessage (fuel depth : Nat) (bs : List Byte) (fields : List UnknownField)
    (last : Uint32) (rest : List Byte) : Prop where
  fits : FieldsFit depth fields
  shorter : rest.length ≤ bs.length
  append : last ≠ 0#32 → ∀ {fuel'}, fuel ≤ fuel' → ∀ more,
    skipMessage fuel' depth (bs ++ more) = some (fields, last, rest ++ more)

theorem Skipped.of_skipMessage
    (inner : ∀ {depth bs fields last rest}, skipMessage fuel depth bs = some (fields, last, rest) →
      SkippedMessage fuel depth bs fields last rest)
    (found : skipField (fuel + 1) depth tag bs = some (f, rest)) :
    Skipped (fuel + 1) depth tag bs f rest := by
  cases wire : getTagWireType tag with
  | none => simp [skipField, wire] at found
  | some type =>
      cases type with
      | endGroup => simp [skipField, wire] at found
      | varint =>
          refine .of_forward .varint forward_readVarint64 ?_ wire ?_ ?_ found
          · intro fuel bs
            simp [skipField, wire]
          · intro number a
            rw [UnknownField.tag]
          · intro a bs rest _ valid
            rw [UnknownField.Fits]
            intro zero
            have same := makeTag_of_wireType wire
            rw [zero] at same
            exact valid (same.symm.trans (by decide))
      | fixed64 =>
          refine .of_forward .fixed64 forward_readLittleEndian64 ?_ wire ?_ ?_ found
          · intro fuel bs
            simp [skipField, wire]
          · intro number a
            rw [UnknownField.tag]
          · intro a bs rest _ _
            simp [UnknownField.Fits]
      | fixed32 =>
          refine .of_forward .fixed32 forward_readLittleEndian32 ?_ wire ?_ ?_ found
          · intro fuel bs
            simp [skipField, wire]
          · intro number a
            rw [UnknownField.tag]
          · intro a bs rest _ _
            simp [UnknownField.Fits]
      | lengthDelimited =>
          refine .of_forward .lengthDelimited forward_readLengthDelimited ?_ wire ?_ ?_
            found
          · intro fuel bs
            simp [skipField, wire, Option.map_bind]
          · intro number a
            rw [UnknownField.tag]
          · intro a bs rest read _
            obtain ⟨size, _, string⟩ := Option.bind_eq_some_iff.mp read
            rw [UnknownField.Fits]
            exact readString_length string
      | startGroup =>
          simp only [skipField, wire] at found
          obtain ⟨below, found⟩ := Option.ite_none_right_eq_some.mp found
          obtain ⟨⟨fields, last, rest'⟩, message, found⟩ := Option.bind_eq_some_iff.mp found
          obtain ⟨rfl, same⟩ := Option.ite_none_right_eq_some.mp found
          obtain ⟨rfl, rfl⟩ := Prod.mk.inj (Option.some.inj same)
          have group := inner message
          refine ⟨makeTag_of_wireType wire, fun _ => ?_, group.shorter, ?_⟩
          · rw [UnknownField.Fits]
            exact ⟨below, group.fits⟩
          · intro fuel' more rest
            obtain ⟨fuel', rfl⟩ : ∃ k, fuel' = k + 1 := ⟨fuel' - 1, by omega⟩
            have valid : makeTag (getTagFieldNumber tag) .endGroup ≠ 0#32 :=
              makeTag_ne_zero (.inr (by decide))
            have longer := group.append valid (Nat.le_of_succ_le_succ more) rest
            simp [skipField, wire, below, longer]

theorem skipMessage_succ (fuel depth : Nat) (bs : List Byte) :
    skipMessage (fuel + 1) depth bs =
      if (readTag bs).1 = 0#32 ∨ getTagWireType (readTag bs).1 = some .endGroup then
        some ([], readTag bs)
      else
        (skipField fuel depth (readTag bs).1 (readTag bs).2).bind fun field =>
          (skipMessage fuel depth field.2).map fun r => (field.1 :: r.1, r.2) := by
  simp [skipMessage]

theorem SkippedMessage.of_skipField
    (inner : ∀ {depth tag bs field rest}, skipField fuel depth tag bs = some (field, rest) →
      Skipped fuel depth tag bs field rest)
    (later : ∀ {depth bs fields last rest}, skipMessage fuel depth bs = some (fields, last, rest) →
      SkippedMessage fuel depth bs fields last rest)
    {fields : List UnknownField} {last : Uint32}
    (found : skipMessage (fuel + 1) depth bs = some (fields, last, rest)) :
    SkippedMessage (fuel + 1) depth bs fields last rest := by
  rw [skipMessage_succ] at found
  obtain ⟨tag, behind, read⟩ : ∃ tag behind, readTag bs = (tag, behind) := ⟨_, _, rfl⟩
  rw [read] at found
  split at found
  · next ends =>
      obtain ⟨rfl, same⟩ := Prod.mk.inj (Option.some.inj found)
      obtain ⟨rfl, rfl⟩ := Prod.mk.inj same
      have shorter := readTag_length_le bs
      rw [read] at shorter
      refine ⟨by simp [FieldsFit], shorter, ?_⟩
      intro valid fuel' more rest
      obtain ⟨fuel', rfl⟩ : ∃ k, fuel' = k + 1 := ⟨fuel' - 1, by omega⟩
      rw [skipMessage_succ, readTag_append read valid, if_pos ends]
  · next goes =>
      obtain ⟨⟨field, middle⟩, first, found⟩ := Option.bind_eq_some_iff.mp found
      obtain ⟨⟨fields', last', rest'⟩, more, same⟩ := Option.map_eq_some_iff.mp found
      cases same
      have valid : tag ≠ 0#32 := fun zero => goes (.inl zero)
      have here := inner first
      have behind := later more
      have shorter := readTag_shorter read valid
      refine ⟨?_, ?_, ?_⟩
      · rw [FieldsFit]
        exact ⟨here.fits valid, behind.fits⟩
      · exact behind.shorter.trans (here.shorter.trans shorter.le)
      · intro end_ fuel' enough extra
        obtain ⟨fuel', rfl⟩ : ∃ k, fuel' = k + 1 := ⟨fuel' - 1, by omega⟩
        have enough := Nat.le_of_succ_le_succ enough
        rw [skipMessage_succ, readTag_append read valid, if_neg goes]
        simp [here.append enough extra, behind.append end_ enough extra]

end

/-- Both recursions at once, by the fuel. -/
theorem skipped (fuel : Nat) :
    (∀ {depth tag bs field rest}, skipField fuel depth tag bs = some (field, rest) →
      Skipped fuel depth tag bs field rest) ∧
    (∀ {depth bs fields last rest}, skipMessage fuel depth bs = some (fields, last, rest) →
      SkippedMessage fuel depth bs fields last rest) := by
  induction fuel with
  | zero =>
      exact ⟨fun found => by simp [skipField] at found, fun found => by simp [skipMessage] at found⟩
  | succ fuel ih => exact ⟨.of_skipMessage ih.2, .of_skipField ih.1 ih.2⟩

theorem skipField_fits {fuel depth : Nat} {tag : Uint32} {bs rest : List Byte}
    {field : UnknownField} (found : skipField fuel depth tag bs = some (field, rest)) :
    Skipped fuel depth tag bs field rest :=
  (skipped fuel).1 found

/-- More fuel than the bytes can use changes nothing. -/
theorem skip_fuel (fuel : Nat) :
    (∀ {depth tag bs fuel'}, 2 * bs.length + 2 ≤ fuel → 2 * bs.length + 2 ≤ fuel' →
      skipField fuel depth tag bs = skipField fuel' depth tag bs) ∧
    (∀ {depth bs fuel'}, 2 * bs.length + 1 ≤ fuel → 2 * bs.length + 1 ≤ fuel' →
      skipMessage fuel depth bs = skipMessage fuel' depth bs) := by
  induction fuel with
  | zero => exact ⟨fun enough => by omega, fun enough => by omega⟩
  | succ fuel ih =>
      constructor
      · intro depth tag bs fuel' enough enough'
        obtain ⟨fuel', rfl⟩ : ∃ k, fuel' = k + 1 := ⟨fuel' - 1, by omega⟩
        have inner : skipMessage fuel (depth + 1) bs = skipMessage fuel' (depth + 1) bs :=
          ih.2 (by omega) (by omega)
        simp only [skipField, inner]
      · intro depth bs fuel' enough enough'
        obtain ⟨fuel', rfl⟩ : ∃ k, fuel' = k + 1 := ⟨fuel' - 1, by omega⟩
        obtain ⟨tag, rest, read⟩ : ∃ tag rest, readTag bs = (tag, rest) := ⟨_, _, rfl⟩
        simp only [skipMessage_succ, read]
        split
        · rfl
        · next goes =>
            have shorter := readTag_shorter read fun zero => goes (.inl zero)
            have here : skipField fuel depth tag rest = skipField fuel' depth tag rest :=
              ih.1 (by omega) (by omega)
            rw [← here]
            cases found : skipField fuel depth tag rest with
            | none => rfl
            | some r =>
                obtain ⟨field, behind⟩ := r
                have less := (skipField_fits found).shorter
                have later : skipMessage fuel depth behind = skipMessage fuel' depth behind :=
                  ih.2 (by omega) (by omega)
                simp only [Option.bind_some, later]

end IocpTest.Protobuf
