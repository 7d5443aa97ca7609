import Protobuf.Scalar
import Protobuf.Writer

/-!
# Operations of a writer

What a writer can be asked for, each thing by itself or one after the other. Every type of scalars
has an operation that writes its values.
-/

namespace Protobuf.Writer

/-- What a writer can be asked for. -/
inductive Operation where
  /-- Bytes as they are. -/
  | unknown (raw : Bytes)
  /-- The tag of a field, whose number is checked. -/
  | startField (number : Nat) (wireType : WireType)
  /-- A tag. -/
  | tag (tag : Tag)
  /-- A varint. -/
  | varint (value : UInt64)
  /-- A signed number, extended to 64 bits. -/
  | signed (value : Int64)
  /-- A signed number of 32 bits by its place in the zigzag order. -/
  | zigzag32 (value : Int32)
  /-- A signed number of 64 bits by its place in the zigzag order. -/
  | zigzag64 (value : Int64)
  /-- A truth value. -/
  | bool (value : Bool)
  /-- A word of four bytes. -/
  | fixed32 (value : UInt32)
  /-- A word of eight bytes. -/
  | fixed64 (value : UInt64)
  /-- A number of single precision, by its bits. -/
  | float (bits : UInt32)
  /-- A number of double precision, by its bits. -/
  | double (bits : UInt64)
  /-- A string behind its length. -/
  | string (value : String)
  /-- Bytes behind their length. -/
  | bytes (value : Bytes)
  /-- Bytes that come in pieces, behind their whole length. -/
  | chunks (pieces : List Bytes)
  deriving DecidableEq, Repr

namespace Operation

/-- The operation on a writer, if there is room for what it writes. -/
def perform : Operation → Writer → Option Writer
  | unknown raw, w => w.append raw
  | startField number wireType, w => w.startField number wireType
  | tag t, w => w.tag t.number t.wireType
  | varint value, w => w.varint value.toNat
  | signed value, w => w.varint value.toUInt64.toNat
  | zigzag32 value, w => w.varint (ZigZag.encode32 value).toNat
  | zigzag64 value, w => w.varint (ZigZag.encode64 value).toNat
  | bool value, w => w.push (if value then 1 else 0)
  | fixed32 value, w | float value, w => w.append (Bytes.ofNat 4 value.toNat)
  | fixed64 value, w | double value, w => w.append (Bytes.ofNat 8 value.toNat)
  | string value, w => w.delimited (Utf8.encode value)
  | bytes value, w => w.delimited value
  | chunks pieces, w => w.chunks pieces

/-- The operation that writes a scalar. Numbers of 32 bits are extended, and those that keep all
their bits are written as words. -/
def ofScalar : Scalar → Operation
  | .int32 v | .enum _ v => signed v.toInt64
  | .int64 v => signed v
  | .uint32 v => varint v.toUInt64
  | .uint64 v => varint v
  | .sint32 v => zigzag32 v
  | .sint64 v => zigzag64 v
  | .bool v => bool v
  | .fixed32 v => fixed32 v
  | .sfixed32 v => fixed32 v.toUInt32
  | .float v => float v
  | .fixed64 v => fixed64 v
  | .sfixed64 v => fixed64 v.toUInt64
  | .double v => double v
  | .string v => string v
  | .bytes v => bytes v

end Operation

/-- The operation for a scalar appends its plain encoding. -/
theorem appends_ofScalar (s : Scalar) : Appends (Operation.ofScalar s).perform s.encode := by
  have hsigned (v : Int32) : Appends (Operation.signed v.toInt64).perform
      (Varint.encode (UInt64.ofInt v.toInt).toNat) := by
    rw [← Int32.toUInt64_toInt64]
    exact appends_varint v.toInt64.toUInt64.toNat
  cases s with
  | int32 v => exact hsigned v
  | enum type v => exact hsigned v
  | int64 v => exact appends_varint v.toUInt64.toNat
  | uint32 v => exact appends_varint v.toUInt64.toNat
  | uint64 v => exact appends_varint v.toNat
  | sint32 v =>
    rw [Scalar.encode, Scalar.toWire, WireValue.encode, UInt32.toNat_toUInt64]
    exact appends_varint (ZigZag.encode32 v).toNat
  | sint64 v => exact appends_varint (ZigZag.encode64 v).toNat
  | bool v =>
    have hbyte : (Scalar.bool v).encode = [if v then 1 else 0] := by
      cases v <;> exact Varint.encode_of_lt (by decide)
    rw [hbyte]
    exact appends_push (if v then 1 else 0)
  | fixed32 v | float v => exact appends_append (Bytes.ofNat 4 v.toNat)
  | sfixed32 v => exact appends_append (Bytes.ofNat 4 v.toUInt32.toNat)
  | fixed64 v | double v => exact appends_append (Bytes.ofNat 8 v.toNat)
  | sfixed64 v => exact appends_append (Bytes.ofNat 8 v.toUInt64.toNat)
  | string v => exact appends_delimited (Utf8.encode v)
  | bytes v => exact appends_delimited v

/-- A writer after some operations, if there is room for all that they write. -/
def run (ops : List Operation) (w : Writer) : Option Writer :=
  ops.foldlM (fun w op => op.perform w) w

end Protobuf.Writer
