import Protobuf.Varint

/-!
# Wire values

What follows the tag of a field that is no group: a number of one of three framings, or a run of
bytes behind its length. Several field types share a framing and give it different meanings.
-/

namespace Protobuf

/-- A framed value without its tag. -/
inductive WireValue where
  /-- A number in variable length. -/
  | varint (value : UInt64)
  /-- A number in eight bytes. -/
  | fixed64 (value : UInt64)
  /-- Bytes behind their length. -/
  | lengthDelimited (bytes : Bytes)
  /-- A number in four bytes. -/
  | fixed32 (value : UInt32)
  deriving DecidableEq, Repr

namespace WireValue

/-- The framing of a value. -/
def wireType : WireValue → WireType
  | varint _ => .varint
  | fixed64 _ => .fixed64
  | lengthDelimited _ => .lengthDelimited
  | fixed32 _ => .fixed32

/-- The bytes of a value. -/
def encode : WireValue → Bytes
  | varint value => Varint.encode value.toNat
  | fixed64 value => Bytes.ofNat 8 value.toNat
  | lengthDelimited bytes => Varint.encode bytes.length ++ bytes
  | fixed32 value => Bytes.ofNat 4 value.toNat

/-- How many bytes a run of `length` bytes takes together with its length prefix. -/
def delimitedSize (length : Nat) : Nat := Varint.size length + length

end WireValue

end Protobuf
