import Protobuf.Utf8
import Protobuf.WhiteSpace

/-!
# Hexadecimal text

Bytes written as pairs of hexadecimal digits, in either case, between which white space has no
meaning.
-/

namespace Protobuf.HexText

/-- Why text spells no bytes. -/
inductive Fault where
  /-- The last byte has one digit only. -/
  | oddLength
  /-- The byte at some index is no digit. -/
  | badDigit (byte : UInt8) (index : Nat)
  deriving DecidableEq, Repr

/-- The number without leading zeros, in hexadecimal. -/
def shortHex (n : Nat) : String := String.ofList (Nat.toDigits 16 n)

/-- A byte as the character of that number, which is escaped if it cannot be seen. -/
def shown (b : UInt8) : String :=
  match Char.ofNat b.toNat with
  | '\x00' => "\\0"
  | '\t' => "\\t"
  | '\n' => "\\n"
  | '\r' => "\\r"
  | '\\' => "\\\\"
  | '\'' => "\\'"
  | c =>
    if b < 32 ∨ (127 ≤ b ∧ b ≤ 160) ∨ b = 173 then "\\u\x7b" ++ shortHex b.toNat ++ "\x7d"
    else String.singleton c

/-- The wording of a fault. -/
def Fault.message : Fault → String
  | oddLength => "Odd number of digits"
  | badDigit byte index => "Invalid character '" ++ shown byte ++ s!"' at position {index}"

/-- The value of a digit at some index. -/
def digit (b : UInt8) (index : Nat) : Except Fault Nat :=
  match Bytes.hexValue? b with
  | some value => .ok value
  | none => .error (.badDigit b index)

/-- The bytes that pairs of digits spell, from some index on. -/
def pairs (index : Nat) : Bytes → Except Fault Bytes
  | high :: low :: rest => do
    let high ← digit high index
    let low ← digit low (index + 1)
    let bytes ← pairs (index + 2) rest
    return UInt8.ofNat (16 * high + low) :: bytes
  | _ => .ok []

/-- The bytes that some digits spell. -/
def decode (digits : String) : Except Fault Bytes :=
  let bytes := digits.toList.flatMap String.utf8EncodeChar
  if bytes.length % 2 = 1 then .error .oddLength else pairs 0 bytes

/-- The bytes that some text spells, between whose digits white space has no meaning. -/
def read (text : String) : Except Fault Bytes := decode (withoutWhiteSpace text)

end Protobuf.HexText
