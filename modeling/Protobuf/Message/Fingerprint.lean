import Protobuf.Message.Visit

/-!
# Fingerprints of messages

What a hash of a message depends on, as bytes: all fields, floating-point numbers by their bits, and
the unknown bytes. Whether a field is set and how many elements it has is part of the fingerprint;
the name of the type is not. The payload of an `Any` counts by its bytes.
-/

namespace Protobuf

variable {M α : Type}

namespace Fingerprint

/-- A count, or one of several cases, in eight bytes. -/
def count (n : Nat) : Bytes := Bytes.ofNat 8 n

/-- Bytes behind their count. -/
def bytes (b : Bytes) : Bytes := count b.length ++ b

/-- The bytes of a string, and a byte that is part of none. -/
def string (s : String) : Bytes := Utf8.encode s ++ [0xFF]

/-- The elements of a list behind their count. -/
def list (element : α → Bytes) (xs : List α) : Bytes := count xs.length ++ xs.flatMap element

end Fingerprint

/-- The bytes of a scalar: a number in its own width, a truth value in one byte. -/
def Scalar.fingerprint : Scalar → Bytes
  | .int32 v | .sint32 v | .sfixed32 v | .enum _ v => Bytes.ofNat 4 v.toUInt32.toNat
  | .int64 v | .sint64 v | .sfixed64 v => Bytes.ofNat 8 v.toUInt64.toNat
  | .uint32 v | .fixed32 v | .float v => Bytes.ofNat 4 v.toNat
  | .uint64 v | .fixed64 v | .double v => Bytes.ofNat 8 v.toNat
  | .bool v => [if v then 1 else 0]
  | .string s => Fingerprint.string s
  | .bytes b => Fingerprint.bytes b

/-- The bytes of a value, given those of messages. -/
def Value.fingerprint (message : M → Bytes) : Value M → Bytes
  | .scalar s => s.fingerprint
  | .message m => message m

/-- The bytes of a member's state, given the fingerprints and the encodings of messages. In a oneof
the position of the field that is set counts. -/
def Member.fingerprint (message encode : M → Bytes) (member : Member) : Slot M → Bytes
  | .plain s => s.fingerprint
  | .optional none | .oneof none => Fingerprint.count 0
  | .optional (some v) => Fingerprint.count 1 ++ v.fingerprint message
  | .packed ss => Fingerprint.list Scalar.fingerprint ss
  | .repeated vs => Fingerprint.list (Value.fingerprint message) vs
  | .map es => Fingerprint.list (fun e => e.1.fingerprint ++ e.2.fingerprint message) es
  | .oneof (some (number, v)) =>
    Fingerprint.count 1 ++ Fingerprint.count (member.labels.findIdx (·.1 = number)) ++
      v.fingerprint message
  | .payload p => Fingerprint.bytes (p.bytes encode)

/-- What a hash of the message depends on. -/
def Message.fingerprint : Message → Bytes :=
  Message.fold fun type slots unknown =>
    ((type.members.zip slots).flatMap fun (member, slot) =>
      member.fingerprint (·.2) (·.1.encode) slot) ++ Fingerprint.bytes unknown

end Protobuf
