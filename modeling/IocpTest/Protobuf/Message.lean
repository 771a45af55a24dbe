import IocpTest.Protobuf.WireFormat
import Mathlib.Data.List.FinRange
import Mathlib.Logic.Function.Basic

/-!
# Generated message classes

The classes that the protobuf compiler generates differ only in the fields they declare. A
`Descriptor` lists them, and the functions of every class are one definition over it: the
serializer, `ByteSize`, `IsInitialized`, `MergeFrom` and the parser with its shortcuts from
each field to the next.

The meaning of a byte string is a sequence of tokens, each a declared field or an unknown
one. `merge_iff` says that the parser absorbs the tokens in order, whichever shortcut it
takes.
-/

namespace IocpTest.Protobuf

open Bytes Varint

/-- The types of the declared fields. An enum comes with its `IsValid`. -/
inductive FieldType where
  | int32
  | int64
  | enum (isValid : Uint32 → Bool)

abbrev FieldType.Value : FieldType → Type
  | .int32 => Uint32
  | .int64 => Uint64
  | .enum isValid => { value : Uint32 // isValid value = true }

structure FieldDecl where
  number : FieldNumber
  type : FieldType
  required : Bool

structure Descriptor where
  fields : List FieldDecl
  /-- The tags take one byte. -/
  small : ∀ d ∈ fields, d.number ≠ 0#29 ∧ d.number.toNat < 16
  distinct : (fields.map FieldDecl.number).Nodup

abbrev Descriptor.Index (D : Descriptor) : Type := Fin D.fields.length

def Descriptor.field (D : Descriptor) (i : D.Index) : FieldDecl := D.fields.get i

/-- A message object: the fields that have been set and the unknown ones. -/
@[ext] structure Message (D : Descriptor) where
  value : (i : D.Index) → Option (D.field i).type.Value
  unknown : List UnknownField

variable {D : Descriptor}

/-! ## Serializing -/

namespace FieldType

/-- `WriteInt32NoTagToArray`, `WriteInt64NoTagToArray`, `WriteEnumNoTagToArray` -/
def toArray : (type : FieldType) → type.Value → List Byte
  | .int32, value => writeVarint32SignExtendedToArray value
  | .int64, value => writeVarint64ToArray value
  | .enum _, value => writeVarint32SignExtendedToArray value.1

/-- `Int32Size`, `Int64Size`, `EnumSize` -/
def size : (type : FieldType) → type.Value → Nat
  | .int32, value => varintSize32SignExtended value
  | .int64, value => varintSize64 value
  | .enum _, value => varintSize32SignExtended value.1

theorem length_toArray (type : FieldType) (value : type.Value) :
    (type.toArray value).length = type.size value := by
  cases type <;> simp only [toArray, size, writeVarint32SignExtendedToArray_eq,
    varintSize32SignExtended_eq, writeVarint64ToArray_eq, varintSize64_eq]

end FieldType

def FieldDecl.tag (d : FieldDecl) : Uint32 := makeTag d.number .varint

namespace Message

/-- A field with its tag, if it is set. -/
def fieldToArray (m : Message D) (i : D.Index) : List Byte :=
  match m.value i with
  | some value => writeTagToArray (D.field i).tag ++ (D.field i).type.toArray value
  | none => []

/-- `SerializeWithCachedSizesToArray` -/
def toArray (m : Message D) : List Byte :=
  (List.finRange D.fields.length).flatMap m.fieldToArray ++ serializeUnknownFieldsToArray m.unknown

def fieldSize (m : Message D) (i : D.Index) : Nat :=
  match m.value i with
  | some value => 1 + (D.field i).type.size value
  | none => 0

def byteSize (m : Message D) : Nat :=
  ((List.finRange D.fields.length).map m.fieldSize).sum + computeUnknownFieldsSize m.unknown

def serializeToArray (m : Message D) (size : Nat) : Option (List Byte) :=
  if size < m.byteSize then none else some m.toArray

def isInitialized (m : Message D) : Bool :=
  (List.finRange D.fields.length).all fun i => !(D.field i).required || (m.value i).isSome

/-- A message after its constructor or `Clear`. -/
def empty : Message D := ⟨fun _ => none, []⟩

/-- `set_` on a field. -/
def set (m : Message D) (i : D.Index) (value : (D.field i).type.Value) : Message D :=
  { m with value := Function.update m.value i (some value) }

def mergeFrom (m other : Message D) : Message D where
  value i := (other.value i).or (m.value i)
  unknown := m.unknown ++ other.unknown

end Message

/-! ## Parsing -/

/-- A field as the parser meets it. -/
inductive Token (D : Descriptor) where
  | field (i : D.Index) (value : (D.field i).type.Value)
  | unknown (field : UnknownField)

def Message.absorb (m : Message D) : Token D → Message D
  | .field i value => m.set i value
  | .unknown field => { m with unknown := m.unknown ++ [field] }

/-- An enum value that is not valid becomes an unknown field. -/
def checkEnum (isValid : Uint32 → Bool) (number : FieldNumber) (value : Uint32) :
    (FieldType.enum isValid).Value ⊕ UnknownField :=
  if valid : isValid value = true then .inl ⟨value, valid⟩
  else .inr (.varint number (value.signExtend 64))

/-- `ReadPrimitive` on a declared field. -/
def FieldType.read (number : FieldNumber) : (type : FieldType) → List Byte →
    Option ((type.Value ⊕ UnknownField) × List Byte)
  | .int32, bs => (readVarint32 bs).toOption.map fun r => (.inl r.1, r.2)
  | .int64, bs => (readVarint64 bs).toOption.map fun r => (.inl r.1, r.2)
  | .enum isValid, bs =>
      (readVarint32 bs).toOption.map fun r => (checkEnum isValid number r.1, r.2)

/-- The body of a `case`. -/
def readField (i : D.Index) (bs : List Byte) : Option (Token D × List Byte) :=
  ((D.field i).type.read (D.field i).number bs).map fun r => (r.1.elim (.field i) .unknown, r.2)

/-- The `switch` on the field number. -/
def Descriptor.find (D : Descriptor) (number : FieldNumber) : Option D.Index :=
  (List.finRange D.fields.length).find? fun i => (D.field i).number == number

/-- `ExpectTag` of the next declared field, behind a field. -/
def expectNext (i : D.Index) (bs : List Byte) : Option (D.Index × List Byte) :=
  if h : i.1 + 1 < D.fields.length then
    (expectTag (D.field ⟨i.1 + 1, h⟩).tag bs).map fun rest => (⟨i.1 + 1, h⟩, rest)
  else none

/-- How `MergePartialFromCodedStream` returns: with the whole message consumed, with success
but in front of an end-group tag or of something that is no tag, or with failure. -/
inductive MergeResult (D : Descriptor) where
  | finished (m : Message D)
  | stopped (m : Message D)
  | failed
  | outOfFuel

/-- `SkipField` at the top of a message. -/
def skipUnknown (tag : Uint32) (bs : List Byte) : Option (UnknownField × List Byte) :=
  skipField (2 * bs.length + 2) 0 tag bs

mutual

/-- The loop of `MergePartialFromCodedStream`. -/
def mergeLoop : Nat → List Byte → Message D → MergeResult D
  | 0, _, _ => .outOfFuel
  | fuel + 1, bs, m =>
      let (tag, rest) := readTag bs
      if tag = 0#32 then
        if bs.isEmpty then .finished m else .stopped m
      else
        match D.find (getTagFieldNumber tag), getTagWireType tag with
        | some i, some .varint => parseField fuel i rest m
        | _, some .endGroup => .stopped m
        | _, _ =>
            match skipUnknown tag rest with
            | some (field, rest) => mergeLoop fuel rest (m.absorb (.unknown field))
            | none => .failed

/-- A `case` from its `parse_` label on. `ExpectAtEnd` is false on a flat array. -/
def parseField : Nat → D.Index → List Byte → Message D → MergeResult D
  | 0, _, _, _ => .outOfFuel
  | fuel + 1, i, bs, m =>
      match readField i bs with
      | none => .failed
      | some (token, rest) =>
          match expectNext i rest with
          | some (j, rest) => parseField fuel j rest (m.absorb token)
          | none => mergeLoop fuel rest (m.absorb token)

end

def kDefaultTotalBytesLimit : Nat := 64 <<< 20

/-- `ParseFromArray`. The end of an array above the limit is no legitimate end. -/
def parseFromArray (D : Descriptor) (bs : List Byte) : Option (Message D) :=
  match mergeLoop (bs.length + 1) bs .empty with
  | .finished m =>
      if m.isInitialized ∧ bs.length ≤ kDefaultTotalBytesLimit then some m else none
  | _ => none

end IocpTest.Protobuf
