/-!
# Wire types

The low three bits of every tag tell how the value that follows is framed: as a varint, as four or
eight bytes, behind a length prefix, or between a start tag and an end tag.
-/

namespace Protobuf

/-- How a field's value is framed on the wire. -/
inductive WireType where
  /-- A variable-length integer. -/
  | varint
  /-- Eight bytes, little-endian. -/
  | fixed64
  /-- A length prefix and that many bytes. -/
  | lengthDelimited
  /-- The fields that follow belong to a group. -/
  | startGroup
  /-- The innermost open group ends. -/
  | endGroup
  /-- Four bytes, little-endian. -/
  | fixed32
  deriving DecidableEq, Repr, Inhabited

namespace WireType

/-- The number that stands for the wire type in a tag. -/
def code : WireType → Nat
  | varint => 0
  | fixed64 => 1
  | lengthDelimited => 2
  | startGroup => 3
  | endGroup => 4
  | fixed32 => 5

/-- The wire type with the given code; codes from six on are unassigned. -/
def ofCode? : Nat → Option WireType
  | 0 => some varint
  | 1 => some fixed64
  | 2 => some lengthDelimited
  | 3 => some startGroup
  | 4 => some endGroup
  | 5 => some fixed32
  | _ => none

/-- The name used in messages and in the display form of tags. -/
def name : WireType → String
  | varint => "Varint"
  | fixed64 => "Fixed64"
  | lengthDelimited => "LengthDelimited"
  | startGroup => "StartGroup"
  | endGroup => "EndGroup"
  | fixed32 => "Fixed32"

@[simp] theorem ofCode?_code (w : WireType) : ofCode? w.code = some w := by
  cases w <;> rfl

/-- A code is assigned to at most one wire type, and that type has this code. -/
theorem code_of_ofCode? {n : Nat} {w : WireType} (h : ofCode? n = some w) : w.code = n := by
  unfold ofCode? at h
  split at h <;> simp_all <;> subst h <;> rfl

theorem code_le (w : WireType) : w.code ≤ 5 := by
  cases w <;> decide

end WireType

end Protobuf
