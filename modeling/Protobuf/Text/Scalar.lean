import Protobuf.FloatFormat.Decimal
import Protobuf.Scalar
import Protobuf.Text.Cursor

/-!
# Scalars in text

How each scalar type is read. Integers may be decimal, octal with a leading zero, or hexadecimal;
floating-point numbers may also be decimals with a point and an exponent, infinities or NaN.
-/

namespace Protobuf.Text

/-! ## Integers -/

/-- The value of a character as a digit of a base. -/
def digit? (base : Nat) (c : Char) : Option Nat :=
  if c.toNat < 128 then Scan.digitValue? base (byte c) else none

/-- The number that digits of a base spell. -/
def ofDigits (base : Nat) (digits : List Nat) : Nat :=
  digits.foldl (fun value digit => value * base + digit) 0

/-- The text behind a plus sign, which need not be there. -/
def dropPlus : List Char → List Char
  | '+' :: text => text
  | text => text

/-- The value of a whole text of digits of a base, if there are any and it has 64 bits. A plus sign
may come first. -/
def natural? (base : Nat) (text : List Char) : Option Nat :=
  let digits := dropPlus text
  if digits.isEmpty then none
  else ((digits.mapM (digit? base)).map (ofDigits base)).filter (· < UInt64.size)

/-- The magnitude that digits spell, in the base that their beginning tells. -/
def magnitude? : List Char → Option Nat
  | '0' :: 'x' :: digits | '0' :: 'X' :: digits => natural? 16 digits
  | '0' :: digit :: digits => natural? 8 (digit :: digits)
  | digits => natural? 10 digits

/-- A minus sign comes first, and the rest of the text. -/
def splitSign : List Char → Bool × List Char
  | '-' :: body => (true, body)
  | body => (false, body)

/-- The sign and the magnitude that a token spells. -/
def integer? (token : String) : Option (Bool × Nat) :=
  let (negative, body) := splitSign token.toList
  (magnitude? body).map fun magnitude => (negative, magnitude)

/-- The number with a sign and a magnitude. -/
def signed (negative : Bool) (magnitude : Nat) : Int := if negative then -magnitude else magnitude

/-! ## Floating-point numbers -/

/-- The pattern of a positive number in double precision that a text without sign spells. One letter
`f` may end a number. -/
def positiveDouble? : List Char → Option Nat
  | '0' :: 'x' :: digits | '0' :: 'X' :: digits =>
    (natural? 16 digits).map fun value => FloatFormat.double.ofFraction value 1
  | body =>
    let lower := body.map Char.toLower
    let word := lower = "inf".toList ∨ lower = "infinity".toList ∨ lower = "nan".toList
    let text := if ¬word ∧ lower.getLast? = some 'f' then lower.dropLast else lower
    if text = "inf".toList ∨ text = "infinity".toList then some FloatFormat.double.infinity
    else if text = "nan".toList then
      some (FloatFormat.double.infinity + FloatFormat.double.quietBit)
    else (Decimal.read? text).map FloatFormat.double.ofDecimal

/-- The pattern of a number in double precision that a token spells. -/
def double? (token : String) : Option Nat :=
  let (negative, body) := splitSign token.toList
  (positiveDouble? body).map fun bits =>
    if negative then FloatFormat.double.negate bits else bits

/-- The truth value that a token spells. -/
def bool? (token : String) : Option Bool :=
  if ["true", "True", "t", "1"].contains token then some true
  else if ["false", "False", "f", "0"].contains token then some false
  else none

namespace Scan

/-! ## Reading -/

/-- Fails unless a colon stood behind the field's name. -/
def requireColon : Scan Unit := do
  if !(← get).sawColon then fail (.expectedChar ':')

/-- Reads a token that must be an integer. -/
def integer : Scan (Bool × Nat) := do
  let token ← numberToken
  match integer? token with
  | some value => return value
  | none => fail (.invalidInteger token)

/-- Reads an integer between two bounds. -/
def signedInteger (low high : Int) : Scan Int := do
  requireColon
  let (negative, magnitude) ← integer
  let value := signed negative magnitude
  if value < low ∨ high < value then fail (.integerRange value)
  return value

/-- Reads an integer that is not negative and below a bound. -/
def unsignedInteger (bound : Nat) : Scan Nat := do
  requireColon
  let (negative, magnitude) ← integer
  if (negative ∧ magnitude ≠ 0) ∨ bound ≤ magnitude then fail .unsignedRange
  return magnitude

/-- Reads a signed integer of 32 bits. -/
def int32 : Scan Int32 := Int32.ofInt <$> signedInteger Int32.minValue.toInt Int32.maxValue.toInt

/-- Reads a signed integer of 64 bits. -/
def int64 : Scan Int64 := Int64.ofInt <$> signedInteger Int64.minValue.toInt Int64.maxValue.toInt

/-- Reads an unsigned integer of 32 bits. -/
def uint32 : Scan UInt32 := UInt32.ofNat <$> unsignedInteger UInt32.size

/-- Reads an unsigned integer of 64 bits. -/
def uint64 : Scan UInt64 := UInt64.ofNat <$> unsignedInteger UInt64.size

/-- Reads a number of double precision, by its bits. -/
def double : Scan UInt64 := do
  requireColon
  let token ← numberToken
  match double? token with
  | some bits => return UInt64.ofNat bits
  | none => fail (.invalidNumber token)

/-- Reads a number of single precision, by its bits; it is rounded from double precision. -/
def float : Scan UInt32 := do
  let bits ← double
  return UInt32.ofNat (FloatFormat.single.convert .double bits.toNat)

/-- Reads a truth value. -/
def bool : Scan Bool := do
  requireColon
  let token ← numberToken
  match bool? token with
  | some value => return value
  | none => fail (.invalidBool token)

/-- Reads a string literal as bytes. -/
def bytes : Scan Bytes := do
  requireColon
  stringLiteral

/-- Reads a string literal that must spell UTF-8. -/
def string : Scan String := do
  let b ← bytes
  match Utf8.decode b with
  | .ok s => return s
  | .error _ => fail .invalidUtf8

/-- Reads a value of an enumeration, by name or by number. -/
def enum (type : EnumType) : Scan Int32 := do
  requireColon
  match ← identifier with
  | some name =>
    match type.number? name with
    | some value => return value
    | none => fail (.unknownEnumValue name)
  | none =>
    let (negative, magnitude) ← integer
    let value := signed negative magnitude
    if value < Int32.minValue.toInt ∨ Int32.maxValue.toInt < value then fail .enumRange
    return Int32.ofInt value

/-- Reads a scalar of a type. -/
def scalar : ScalarKind → Scan Scalar
  | .int32 => .int32 <$> int32
  | .int64 => .int64 <$> int64
  | .uint32 => .uint32 <$> uint32
  | .uint64 => .uint64 <$> uint64
  | .sint32 => .sint32 <$> int32
  | .sint64 => .sint64 <$> int64
  | .fixed32 => .fixed32 <$> uint32
  | .fixed64 => .fixed64 <$> uint64
  | .sfixed32 => .sfixed32 <$> int32
  | .sfixed64 => .sfixed64 <$> int64
  | .float => .float <$> float
  | .double => .double <$> double
  | .bool => .bool <$> bool
  | .enum type => .enum type <$> enum type
  | .string => .string <$> string
  | .bytes => .bytes <$> bytes

end Scan

end Protobuf.Text
