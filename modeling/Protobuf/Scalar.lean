import Protobuf.EnumType
import Protobuf.Utf8
import Protobuf.WireValue
import Protobuf.ZigZag

/-!
# Scalar values

The field types that hold no message, the values of each, and the framed form a value takes on the
wire. Floating-point numbers are kept as their bit patterns.
-/

namespace Protobuf

/-- The type of a field that holds no message. -/
inductive ScalarKind where
  | int32
  | int64
  | uint32
  | uint64
  | sint32
  | sint64
  | fixed32
  | fixed64
  | sfixed32
  | sfixed64
  | float
  | double
  | bool
  | enum (type : EnumType)
  | string
  | bytes
  deriving DecidableEq, Repr

/-- A value of a field that holds no message. -/
inductive Scalar where
  | int32 (value : Int32)
  | int64 (value : Int64)
  | uint32 (value : UInt32)
  | uint64 (value : UInt64)
  | sint32 (value : Int32)
  | sint64 (value : Int64)
  | fixed32 (value : UInt32)
  | fixed64 (value : UInt64)
  | sfixed32 (value : Int32)
  | sfixed64 (value : Int64)
  /-- A number of single precision, by its bits. -/
  | float (bits : UInt32)
  /-- A number of double precision, by its bits. -/
  | double (bits : UInt64)
  | bool (value : Bool)
  | enum (type : EnumType) (value : Int32)
  | string (value : String)
  | bytes (value : Bytes)
  deriving DecidableEq, Repr

/-- The type a value belongs to. -/
def Scalar.kind : Scalar → ScalarKind
  | int32 _ => .int32
  | int64 _ => .int64
  | uint32 _ => .uint32
  | uint64 _ => .uint64
  | sint32 _ => .sint32
  | sint64 _ => .sint64
  | fixed32 _ => .fixed32
  | fixed64 _ => .fixed64
  | sfixed32 _ => .sfixed32
  | sfixed64 _ => .sfixed64
  | float _ => .float
  | double _ => .double
  | bool _ => .bool
  | enum type _ => .enum type
  | string _ => .string
  | bytes _ => .bytes

namespace ScalarKind

/-- The value of a field that was never set. -/
def zero : ScalarKind → Scalar
  | int32 => .int32 0
  | int64 => .int64 0
  | uint32 => .uint32 0
  | uint64 => .uint64 0
  | sint32 => .sint32 0
  | sint64 => .sint64 0
  | fixed32 => .fixed32 0
  | fixed64 => .fixed64 0
  | sfixed32 => .sfixed32 0
  | sfixed64 => .sfixed64 0
  | float => .float 0
  | double => .double 0
  | bool => .bool false
  | enum type => .enum type 0
  | string => .string ""
  | bytes => .bytes []

/-- The framing of a single value. -/
def wireType : ScalarKind → WireType
  | int32 | int64 | uint32 | uint64 | sint32 | sint64 | bool | enum _ => .varint
  | fixed64 | sfixed64 | double => .fixed64
  | fixed32 | sfixed32 | float => .fixed32
  | string | bytes => .lengthDelimited

@[simp] theorem kind_zero (kind : ScalarKind) : kind.zero.kind = kind := by
  cases kind <;> rfl

/-- The meaning of a framed value. Numbers of 32 bits take the low bits of a longer varint, and any
nonzero varint is true. Another framing, and a string that is not UTF-8, has no meaning. -/
def ofWire? : ScalarKind → WireValue → Option Scalar
  | int32, .varint v => some (.int32 (Int32.ofNat v.toNat))
  | int64, .varint v => some (.int64 (Int64.ofNat v.toNat))
  | uint32, .varint v => some (.uint32 v.toUInt32)
  | uint64, .varint v => some (.uint64 v)
  | sint32, .varint v => some (.sint32 (ZigZag.decode32 v.toUInt32))
  | sint64, .varint v => some (.sint64 (ZigZag.decode64 v))
  | bool, .varint v => some (.bool (v != 0))
  | enum type, .varint v => some (.enum type (Int32.ofNat v.toNat))
  | fixed32, .fixed32 v => some (.fixed32 v)
  | sfixed32, .fixed32 v => some (.sfixed32 v.toInt32)
  | float, .fixed32 v => some (.float v)
  | fixed64, .fixed64 v => some (.fixed64 v)
  | sfixed64, .fixed64 v => some (.sfixed64 v.toInt64)
  | double, .fixed64 v => some (.double v)
  | string, .lengthDelimited b =>
    match Utf8.decode b with
    | .ok s => some (.string s)
    | .error _ => none
  | bytes, .lengthDelimited b => some (.bytes b)
  | _, _ => none

end ScalarKind

/-- The two's complement of an integer is the same for signed and unsigned words. -/
theorem Int64.toUInt64_ofInt (n : Int) : (Int64.ofInt n).toUInt64 = UInt64.ofInt n := by
  have hbits : (Int64.ofInt n).toUInt64.toNat = (BitVec.ofInt 64 n).toNat := rfl
  rw [← UInt64.toNat_inj, hbits, BitVec.toNat_ofInt, UInt64.ofInt, UInt64.toNat_ofNat']
  omega

/-- A word of 32 bits is extended by its sign. -/
theorem Int32.toUInt64_toInt64 (v : Int32) : v.toInt64.toUInt64 = UInt64.ofInt v.toInt :=
  Int64.toUInt64_ofInt v.toInt

namespace Scalar

/-- The value of its type that a field has when it was never set. -/
def isZero (s : Scalar) : Bool := s = s.kind.zero

/-- The framing of the value. -/
def wireType (s : Scalar) : WireType := s.kind.wireType

/-- The framed form of a value. Negative numbers are extended to 64 bits. -/
def toWire : Scalar → WireValue
  | int32 v | enum _ v => .varint (UInt64.ofInt v.toInt)
  | int64 v => .varint v.toUInt64
  | uint32 v => .varint v.toUInt64
  | uint64 v => .varint v
  | sint32 v => .varint (ZigZag.encode32 v).toUInt64
  | sint64 v => .varint (ZigZag.encode64 v)
  | bool v => .varint (if v then 1 else 0)
  | fixed32 v | float v => .fixed32 v
  | sfixed32 v => .fixed32 v.toUInt32
  | fixed64 v | double v => .fixed64 v
  | sfixed64 v => .fixed64 v.toUInt64
  | string v => .lengthDelimited (Utf8.encode v)
  | bytes v => .lengthDelimited v

/-- The bytes of the value without a tag. -/
def encode (s : Scalar) : Bytes := s.toWire.encode

/-- How many bytes the value takes without a tag. -/
def size : Scalar → Nat
  | int32 v | enum _ v => Varint.size v.toInt64.toUInt64.toNat
  | int64 v => Varint.size v.toUInt64.toNat
  | uint32 v => Varint.size v.toUInt64.toNat
  | uint64 v => Varint.size v.toNat
  | sint32 v => Varint.size (ZigZag.encode32 v).toUInt64.toNat
  | sint64 v => Varint.size (ZigZag.encode64 v).toNat
  | bool _ => 1
  | fixed32 _ | sfixed32 _ | float _ => 4
  | fixed64 _ | sfixed64 _ | double _ => 8
  | string v => WireValue.delimitedSize (Utf8.encode v).length
  | bytes v => WireValue.delimitedSize v.length

@[simp] theorem wireType_toWire (s : Scalar) : s.toWire.wireType = s.wireType := by
  cases s <;> rfl

/-- The name that an enumeration gives to the value. -/
def symbol? : Scalar → Option String
  | enum type value => type.name? value
  | _ => none

/-! ## Order of keys -/

/-- The order of keys of one type: numbers by size, truth values with false first, strings by their
characters. -/
def lt : Scalar → Scalar → Bool
  | int32 a, int32 b | sint32 a, sint32 b | sfixed32 a, sfixed32 b => a < b
  | int64 a, int64 b | sint64 a, sint64 b | sfixed64 a, sfixed64 b => a < b
  | uint32 a, uint32 b | fixed32 a, fixed32 b => a < b
  | uint64 a, uint64 b | fixed64 a, fixed64 b => a < b
  | bool a, bool b => !a && b
  | string a, string b => a < b
  | _, _ => false

end Scalar

end Protobuf
