import Protobuf.Error
import Protobuf.Varint

/-!
# Field tags

A tag names the field whose value follows and tells the value's framing. On the wire it is the
varint of `8 * number + code`.
-/

namespace Protobuf

/-- The largest field number. -/
def maxFieldNumber : Nat := (1 <<< 29) - 1

/-- Field numbers run from one to the largest one. -/
abbrev ValidFieldNumber (number : Nat) : Prop := 1 ≤ number ∧ number ≤ maxFieldNumber

/-- A field number paired with a wire type. -/
structure Tag where
  /-- The number of the field. -/
  number : Nat
  /-- How the value is framed. -/
  wireType : WireType
  /-- The number is a field number. -/
  valid : ValidFieldNumber number
  deriving DecidableEq, Repr

namespace Tag

/-- The tag of a field number, if the number is valid. -/
def ofNumber? (number : Nat) (wireType : WireType) : Option Tag :=
  if h : ValidFieldNumber number then some ⟨number, wireType, h⟩ else none

/-- The number that stands for a field and a wire type. -/
def rawOf (number : Nat) (wireType : WireType) : Nat := 8 * number + wireType.code

/-- The number that stands for the tag. -/
def raw (tag : Tag) : Nat := rawOf tag.number tag.wireType

/-- Splits a raw number; a bad wire type counts before a bad field number. -/
def ofRaw (raw : Nat) : Except Error Tag :=
  match WireType.ofCode? (raw % 8) with
  | none => .error (.malformed 0 (.unknownWireType (raw % 8)))
  | some wireType =>
    if h : ValidFieldNumber (raw / 8) then .ok ⟨raw / 8, wireType, h⟩
    else .error (.malformed 0 (.invalidFieldNumber (raw / 8)))

/-- The tag's bytes. -/
def encode (number : Nat) (wireType : WireType) : Bytes := Varint.encode (rawOf number wireType)

/-- How many bytes the tag takes. -/
def size (number : Nat) (wireType : WireType) : Nat := Varint.size (rawOf number wireType)

/-- How many bytes the tag of a field takes whose number must be valid. -/
def size? (number : Nat) (wireType : WireType) : Option Nat :=
  (ofNumber? number wireType).map fun t => size t.number t.wireType

theorem ofNumber?_of_valid {number : Nat} (valid : ValidFieldNumber number) (wireType : WireType) :
    ofNumber? number wireType = some ⟨number, wireType, valid⟩ :=
  dif_pos valid

theorem size?_of_valid {number : Nat} (valid : ValidFieldNumber number) (wireType : WireType) :
    size? number wireType = some (size number wireType) := by
  rw [size?, ofNumber?_of_valid valid, Option.map_some]

/-- The display form: number and name of the wire type. -/
def display (tag : Tag) : String := toString tag.number ++ ":" ++ tag.wireType.name

/-- The same field with another framing. -/
def withWireType (tag : Tag) (wireType : WireType) : Tag := { tag with wireType }

end Tag

end Protobuf
