import Protobuf.Schema.Member

/-!
# The catalogue of message types

The full name and the members of every message type. Members stand in the order of their field
numbers, which is the order in which fields are written.
-/

namespace Protobuf

/-- An optional scalar that must be set. -/
def Member.requiredScalar (number : Nat) (name : String) (kind : ScalarKind) : Member :=
  .optional ⟨number, name, .scalar kind⟩ true

/-- An optional scalar. -/
def Member.optionalScalar (number : Nat) (name : String) (kind : ScalarKind) : Member :=
  .optional ⟨number, name, .scalar kind⟩ false

/-- An optional message. -/
def Member.optionalMessage (number : Nat) (name : String) (type : MessageType) : Member :=
  .optional ⟨number, name, .message type⟩ false

namespace MessageType

/-- Every message type. -/
def all : List MessageType :=
  [empty, any, someRequired, required, requiredForeign, nestedRequired, requiredOneof, groupOption,
    oneofContainer, inner, scalars, duration, durationImpostor, node]

theorem mem_all (type : MessageType) : type ∈ all := by
  cases type <;> decide

/-- The full name, package included. -/
def fullName : MessageType → String
  | empty => "protowire.EmptyMessage"
  | any => "google.protobuf.Any"
  | someRequired => "protowire_test.TestSomeRequiredTypes"
  | required => "protowire_test.TestRequired"
  | requiredForeign => "protowire_test.TestRequiredForeign"
  | nestedRequired => "protowire_test.TestRequiredOneof.NestedMessage"
  | requiredOneof => "protowire_test.TestRequiredOneof"
  | groupOption => "protowire_test.OneOfContainer.Option3"
  | oneofContainer => "protowire_test.OneOfContainer"
  | inner => "protowire_test.Inner"
  | scalars => "protowire_test.Scalars"
  | duration | durationImpostor => "google.protobuf.Duration"
  | node => "oracle.Node"

/-- The members, by field number. -/
def members : MessageType → List Member
  | empty | durationImpostor => []
  | any => [.plain 1 "type_url" .string, .payload 2 "value"]
  | someRequired =>
    [.requiredScalar 1 "required_int32" .int32, .requiredScalar 2 "required_float" .float,
      .requiredScalar 3 "required_bool" .bool, .requiredScalar 4 "required_string" .string,
      .requiredScalar 5 "required_bytes" .bytes,
      .requiredScalar 6 "required_nested_enum" (.enum .fooBar)]
  | required =>
    [.requiredScalar 1 "a" .int32, .requiredScalar 3 "b" .int32, .requiredScalar 33 "c" .int32]
  | requiredForeign =>
    [.optionalMessage 1 "optional_message" .required,
      .repeated ⟨2, "repeated_message", .message .required⟩,
      .optionalScalar 3 "dummy" .int32,
      .map 4 "map_message" .int32 (.message .required),
      .optionalMessage 1000 "[protowire_test.single_required]" .required]
  | nestedRequired => [.requiredScalar 1 "required_double" .double]
  | requiredOneof =>
    [.oneof [⟨1, "foo_int", .scalar .int32⟩, ⟨2, "foo_string", .scalar .string⟩,
      ⟨3, "foo_message", .message .nestedRequired⟩]]
  | groupOption => [.requiredScalar 5 "a" .int32]
  | oneofContainer =>
    [.oneof [⟨3, "Option3", .group .groupOption⟩, ⟨4, "option4", .scalar .int32⟩]]
  | inner => [.plain 1 "value" .int32, .plain 2 "note" .string]
  | scalars =>
    [.plain 1 "int32" .int32, .plain 2 "int64" .int64, .plain 3 "uint32" .uint32,
      .plain 4 "uint64" .uint64, .plain 5 "sint32" .sint32, .plain 6 "sint64" .sint64,
      .plain 7 "fixed32" .fixed32, .plain 8 "fixed64" .fixed64, .plain 9 "sfixed32" .sfixed32,
      .plain 10 "sfixed64" .sfixed64, .plain 11 "float" .float, .plain 12 "double" .double,
      .plain 13 "flag" .bool, .plain 14 "text" .string, .plain 15 "data" .bytes,
      .packed 16 "packed" .int32, .optionalMessage 17 "inner" .inner,
      .plain 18 "color" (.enum .color), .map 19 "labels" .string (.scalar .int32)]
  | duration => [.plain 1 "seconds" .int64, .plain 2 "nanos" .int32]
  | node =>
    [.optionalMessage 1 "child" .node, .repeated ⟨2, "names", .scalar .string⟩,
      .optional ⟨3, "Body", .group .node⟩ false, .optionalMessage 4 "any" .any,
      .repeated ⟨5, "anys", .message .any⟩, .map 6 "kids" .string (.message .node),
      .packed 7 "flags" .bool, .packed 8 "floats" .float, .packed 9 "doubles" .double,
      .packed 10 "zig" .sint64, .packed 11 "fixed" .fixed64, .packed 12 "kinds" (.enum .sign),
      .repeated ⟨13, "blobs", .scalar .bytes⟩, .repeated ⟨14, "Item", .group .node⟩,
      .map 15 "by_flag" .bool (.scalar .bytes), .map 16 "by_num" .sint32 (.scalar .fixed64),
      .optionalScalar 100 "[oracle.ext]" .sfixed64]

/-- The wire type that belongs to a field's number where a type tells its fields by both. -/
def wireType? : MessageType → Nat → Option WireType
  | oneofContainer, 3 => some .startGroup
  | _, _ => none

/-- The fields that text may also name by their number. One number of `node` stands for a name that
no member has. -/
def textNumbers (type : MessageType) : List (Nat × String) :=
  match type with
  | any | required | inner | scalars | duration => type.members.flatMap Member.labels
  | node =>
    (type.members.flatMap Member.labels).filter
      (fun label => [1, 2, 3, 4, 5, 6, 7, 14, 100].contains label.1) ++ [(200, "ghost")]
  | _ => []

/-- The name that a field number stands for in text. -/
def textName? (type : MessageType) (number : Nat) : Option String :=
  (type.textNumbers.find? (·.1 = number)).map (·.2)

/-! ## Facts about the catalogue -/

/-- No field number is used twice in a message type. -/
theorem numbers_nodup (type : MessageType) :
    ((type.members.flatMap Member.labels).map (·.1)).Nodup := by
  cases type <;> decide

/-- Every declared field number is valid. -/
theorem valid_of_mem_labels {type : MessageType} {label : Nat × String}
    (h : label ∈ type.members.flatMap Member.labels) : ValidFieldNumber label.1 := by
  have all : ∀ label ∈ type.members.flatMap Member.labels, ValidFieldNumber label.1 := by
    cases type <;> decide
  exact all label h

end MessageType

end Protobuf
