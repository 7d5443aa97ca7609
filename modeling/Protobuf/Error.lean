import Protobuf.WireType

/-!
# Errors

Why decoding, parsing or unpacking fails. A cause carries the data that its wording needs;
`Error.message` is the only place where the wording is chosen.
-/

namespace Protobuf

/-- What is wrong with malformed binary input. -/
inductive WireFault where
  /-- No byte of the first ten ends the varint. -/
  | varintTooLong
  /-- The low bits of a tag hold an unassigned code. -/
  | unknownWireType (code : Nat)
  /-- A tag's field number is zero or above the largest valid one. -/
  | invalidFieldNumber (number : Nat)
  /-- The region ends while a group is open. -/
  | unclosedGroup (number : Nat)
  /-- An end tag stands where no group, or another one, is being read. -/
  | unexpectedEndGroup (number : Nat)
  /-- While skipping, an end tag names another group than the innermost open one. -/
  | mismatchedEndGroup (found expected : Nat)
  /-- An end tag was to be skipped as if it were a field. -/
  | unmatchedEndGroup
  /-- A nested reading stopped before the end of its region. -/
  | nestedEndedEarly
  /-- The bytes of a string field are not UTF-8. -/
  | invalidUtf8
  deriving DecidableEq, Repr

/-- What is wrong with malformed text input. -/
inductive TextFault where
  /-- A certain character had to come next. -/
  | expectedChar (char : Char)
  /-- A block had to open. -/
  | expectedBlock
  /-- A value or a block had to follow a name. -/
  | expectedColonOrBlock
  /-- A field name had to come next. -/
  | expectedFieldName
  /-- A field number runs into letters. -/
  | invalidFieldNumber
  /-- A field number, as written, is out of range. -/
  | fieldNumberRange (digits : String)
  /-- A bracketed field name is empty. -/
  | emptyBracketedName
  /-- A number or a word had to come next. -/
  | expectedNumber
  /-- A string literal had to come next. -/
  | expectedString
  /-- The input ends inside a string literal. -/
  | unterminatedString
  /-- A string literal runs over the end of its line. -/
  | newlineInString
  /-- An octal escape stands for no byte. -/
  | octalEscapeRange
  /-- A hexadecimal escape has no digits. -/
  | expectedHexDigits
  /-- A Unicode escape is too short or names no character. -/
  | invalidUnicodeEscape
  /-- The byte after a backslash starts no escape. -/
  | unknownEscape (byte : UInt8)
  /-- A token is no integer of 64 bits. -/
  | invalidInteger (token : String)
  /-- A signed integer does not fit its type. -/
  | integerRange (value : Int)
  /-- An unsigned integer is negative or does not fit its type. -/
  | unsignedRange
  /-- A token is no floating-point number. -/
  | invalidNumber (token : String)
  /-- A token is no truth value. -/
  | invalidBool (token : String)
  /-- A string literal for a string field does not spell UTF-8. -/
  | invalidUtf8
  /-- A word names no value of the enumeration. -/
  | unknownEnumValue (name : String)
  /-- An enumeration's number does not fit 32 bits. -/
  | enumRange
  deriving DecidableEq, Repr

/-- Why an operation on messages fails. -/
inductive Error where
  /-- Binary input ends where more was announced. -/
  | truncated (offset : Nat)
  /-- Binary input breaks the wire format. -/
  | malformed (offset : Nat) (fault : WireFault)
  /-- A field's tag carries another wire type than its declaration. -/
  | wireTypeMismatch (offset number : Nat) (actual expected : WireType)
  /-- Binary input nests deeper than allowed. -/
  | recursionLimit (limit : Nat)
  /-- A required field is not set. -/
  | missingRequired
  /-- Text input names a field that the message does not declare. -/
  | unknownField (name : String) (line : Nat)
  /-- Text input breaks the grammar. -/
  | malformedText (line column : Nat) (fault : TextFault)
  /-- Text input nests deeper than allowed. -/
  | textDepthLimit (limit : Nat)
  /-- An expanded `Any` names a type that is not registered. -/
  | typeNotRegistered (url : String)
  /-- An `Any` holds another type than the one asked for. -/
  | typeMismatch (expected actual : String)
  deriving DecidableEq, Repr

/-- The wording of a fault in binary input. -/
def WireFault.message : WireFault → String
  | varintTooLong => "varint longer than 10 bytes"
  | unknownWireType code => s!"unknown wire type: {code}"
  | invalidFieldNumber number => s!"invalid field number {number}"
  | unclosedGroup number => s!"group {number} is missing its end tag"
  | unexpectedEndGroup number => s!"unexpected end tag for group {number}"
  | mismatchedEndGroup found expected =>
    s!"end tag for group {found} does not match open group {expected}"
  | unmatchedEndGroup => "unmatched end-group tag"
  | nestedEndedEarly => "nested data ended early"
  | invalidUtf8 => "string field is not valid UTF-8"

/-- The wording of a fault in text input. -/
def TextFault.message : TextFault → String
  | expectedChar char => "expected '" ++ String.singleton char ++ "'"
  | expectedBlock => "expected '\x7b' or '<'"
  | expectedColonOrBlock => "expected ':' or '\x7b'"
  | expectedFieldName => "expected field name"
  | invalidFieldNumber => "invalid field number"
  | fieldNumberRange digits => s!"field number {digits} out of range"
  | emptyBracketedName => "empty bracketed field name"
  | expectedNumber => "expected a number"
  | expectedString => "expected a quoted string"
  | unterminatedString => "unterminated string"
  | newlineInString => "newline in string"
  | octalEscapeRange => "octal escape out of range"
  | expectedHexDigits => "expected hex digits after \\x"
  | invalidUnicodeEscape => "invalid unicode escape"
  | unknownEscape byte => "unknown escape '\\" ++ String.singleton (Char.ofNat byte.toNat) ++ "'"
  | invalidInteger token => s!"invalid integer '{token}'"
  | integerRange value => s!"integer {value} out of range"
  | unsignedRange => "unsigned integer out of range"
  | invalidNumber token => s!"invalid number '{token}'"
  | invalidBool token => s!"invalid bool '{token}'"
  | invalidUtf8 => "string is not valid UTF-8"
  | unknownEnumValue name => s!"unknown enum value '{name}'"
  | enumRange => "enum value out of range"

namespace Error

/-- The wording of an error. -/
def message : Error → String
  | truncated offset => s!"truncated protobuf input at offset {offset}"
  | malformed offset fault =>
    s!"malformed protobuf data at offset {offset}: " ++ fault.message
  | wireTypeMismatch offset number actual expected =>
    s!"field {number} has wire type " ++ actual.name ++ ", expected " ++ expected.name ++
      s!" at offset {offset}"
  | recursionLimit limit => s!"message nesting exceeds the recursion limit of {limit}"
  | missingRequired => "message is missing required fields"
  | unknownField name line => s!"unknown field '{name}' on line {line}"
  | malformedText line column fault =>
    s!"malformed text at {line}:{column}: " ++ fault.message
  | textDepthLimit limit => s!"text message nesting exceeds the depth limit of {limit}"
  | typeNotRegistered url => s!"no message type registered for '{url}'"
  | typeMismatch expected actual => s!"Any holds '{actual}', not '{expected}'"

/-- The input ended too early, and more of it could be accepted. -/
def isTruncation : Error → Bool
  | truncated _ => true
  | _ => false

/-- The input is well formed, and other settings or more data could let it pass. -/
def isRecoverable : Error → Bool
  | missingRequired | unknownField .. | recursionLimit _ | textDepthLimit _
  | typeNotRegistered _ => true
  | _ => false

/-- A located error of binary input, with its offset counted from `base` bytes earlier. -/
def shift (base : Nat) : Error → Error
  | truncated offset => truncated (base + offset)
  | malformed offset fault => malformed (base + offset) fault
  | error => error

end Error

end Protobuf
