import Protobuf.Scalar
import Protobuf.Tag

/-!
# Members of a message type

A message type is described by its members. Most members are one field; a oneof is several fields of
which at most one is set.
-/

namespace Protobuf

/-- The message types of the catalogue. -/
inductive MessageType where
  /-- No fields at all: everything read is unknown. -/
  | empty
  /-- A message of any type, named by a URL. -/
  | any
  /-- Six required scalars of different framings. -/
  | someRequired
  /-- Three required integers. -/
  | required
  /-- Messages with required fields in every position. -/
  | requiredForeign
  /-- One required double. -/
  | nestedRequired
  /-- A oneof with a message that has a required field. -/
  | requiredOneof
  /-- The body of a group with a required integer. -/
  | groupOption
  /-- A oneof with a group. -/
  | oneofContainer
  /-- A number and a note. -/
  | inner
  /-- One field of every scalar type. -/
  | scalars
  /-- Seconds and nanoseconds. -/
  | duration
  /-- Another type with the name of `duration`, and no fields. -/
  | durationImpostor
  /-- A tree with every kind of member. -/
  | node
  deriving DecidableEq, Repr, Inhabited

/-- The type of a single value of a field. -/
inductive FieldKind where
  /-- A scalar. -/
  | scalar (kind : ScalarKind)
  /-- A message behind its length. -/
  | message (type : MessageType)
  /-- A message between a start tag and an end tag. -/
  | group (type : MessageType)
  deriving DecidableEq, Repr

/-- The framing of a single value. -/
def FieldKind.wireType : FieldKind → WireType
  | scalar kind => kind.wireType
  | message _ => .lengthDelimited
  | group _ => .startGroup

/-- No value is framed by an end tag. -/
theorem FieldKind.wireType_ne_endGroup (kind : FieldKind) : kind.wireType ≠ .endGroup := by
  rcases kind with kind | type | type
  · cases kind <;> intro h <;> cases h
  · intro h
    cases h
  · intro h
    cases h

/-- A field's declaration. -/
structure Field where
  /-- The number in the field's tags. -/
  number : Nat
  /-- The name in text; an extension's name is in brackets. -/
  name : String
  /-- The type of one value. -/
  kind : FieldKind
  deriving DecidableEq, Repr

/-- A part of a message type that holds state of its own. -/
inductive Member where
  /-- A scalar that is left out when it has its type's zero value. -/
  | plain (number : Nat) (name : String) (kind : ScalarKind)
  /-- One value or none. -/
  | optional (field : Field) (required : Bool)
  /-- Scalars that are written in one run. -/
  | packed (number : Nat) (name : String) (kind : ScalarKind)
  /-- Values that are written one by one. -/
  | repeated (field : Field)
  /-- Values under distinct keys. -/
  | map (number : Nat) (name : String) (key : ScalarKind) (value : FieldKind)
  /-- At most one value of one of several fields. -/
  | oneof (fields : List Field)
  /-- A serialized message, which may be held unserialized. -/
  | payload (number : Nat) (name : String)
  deriving DecidableEq, Repr

namespace Member

/-- The numbers and names of the member's fields. -/
def labels : Member → List (Nat × String)
  | plain number name _ | packed number name _ | map number name _ _ | payload number name =>
    [(number, name)]
  | optional field _ | repeated field => [(field.number, field.name)]
  | oneof fields => fields.map fun field => (field.number, field.name)

/-- One of the member's fields has the number. -/
def hasNumber (member : Member) (number : Nat) : Bool := member.labels.any (·.1 = number)

/-- One of the member's fields has the name. -/
def hasName (member : Member) (name : String) : Bool := member.labels.any (·.2 = name)

end Member

end Protobuf
