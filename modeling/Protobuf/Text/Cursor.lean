import Protobuf.Build
import Protobuf.Tag
import Protobuf.Utf8

/-!
# Tokens of the text format

A cursor is a place in text, which is read as bytes. Blanks and comments may stand before every
token. Errors carry the line and the column of the place where reading stopped; a line starts after
each newline that was skipped as a blank.
-/

namespace Protobuf.Text

/-- A place in text, and what the grammar remembers there. -/
structure Cursor where
  /-- The unread bytes. -/
  rest : Bytes
  /-- How many bytes come before them. -/
  position : Nat
  /-- The number of the current line, from one on. -/
  line : Nat
  /-- The position of the first byte of the current line. -/
  lineStart : Nat
  /-- How many blocks are open. -/
  depth : Nat
  /-- A colon stood behind the last field name. -/
  sawColon : Bool
  deriving DecidableEq, Repr

/-- An action on text. -/
abbrev Scan (α : Type) := Reading Cursor α

/-! ## Characters -/

/-- The byte of an ASCII character. -/
def byte (c : Char) : UInt8 := UInt8.ofNat c.toNat

/-- The byte is a decimal digit. -/
def isDigit (b : UInt8) : Bool := 48 ≤ b && b ≤ 57

/-- The byte is an ASCII letter or an underscore. -/
def isNameStart (b : UInt8) : Bool := (97 ≤ b && b ≤ 122) || (65 ≤ b && b ≤ 90) || b = 95

/-- The byte may stand inside a name. -/
def isNameByte (b : UInt8) : Bool := isNameStart b || isDigit b

/-- The byte separates tokens within a line. -/
def isBlank (b : UInt8) : Bool := b = 32 || b = 9 || b = 13 || b = 11 || b = 12

/-- The text that ASCII bytes spell. -/
def ofAscii (bytes : Bytes) : String := String.ofList (bytes.map fun b => Char.ofNat b.toNat)

namespace Cursor

/-- The start of a text. -/
def new (text : String) : Cursor := ⟨Utf8.encode text, 0, 1, 0, 0, false⟩

/-- The place some bytes further on, on the same line. -/
def advance (c : Cursor) (count : Nat) : Cursor :=
  { c with rest := c.rest.drop count, position := c.position + count }

/-- The place behind a newline, which is the next byte. -/
def newline (c : Cursor) : Cursor :=
  { c.advance 1 with line := c.line + 1, lineStart := c.position + 1 }

/-- The place behind blanks and comments, given the unread bytes. A comment runs up to the end of
its line. -/
def skipBlanks (inComment : Bool) : Bytes → Cursor → Cursor
  | [], c => c
  | b :: rest, c =>
    if b = byte '\n' then skipBlanks false rest c.newline
    else if inComment || isBlank b then skipBlanks inComment rest (c.advance 1)
    else if b = byte '#' then skipBlanks true rest (c.advance 1)
    else c

end Cursor

namespace Scan

/-- Fails at the current place. -/
def fail {α : Type} (fault : TextFault) : Scan α := do
  let c ← get
  throw (.malformedText c.line (c.position - c.lineStart + 1) fault)

/-- Skips blanks and comments. -/
def blanks : Scan Unit := modify fun c => c.skipBlanks false c.rest

/-- The line of the next token. -/
def line : Scan Nat := do
  blanks
  return (← get).line

/-- The next byte that is no blank, which stays unread. -/
def peek : Scan (Option UInt8) := do
  blanks
  return (← get).rest.head?

/-- Reads a character if it comes next after blanks, and tells whether it did. -/
def tryChar (char : Char) : Scan Bool := do
  if (← peek) = some (byte char) then
    modify (·.advance 1)
    return true
  else return false

/-- Reads a character that must come next after blanks. -/
def expect (char : Char) : Scan Unit := do
  if !(← tryChar char) then fail (.expectedChar char)

/-- Reads the bytes up to the first one that fails a test. -/
def span (test : UInt8 → Bool) : Scan Bytes := do
  let c ← get
  let found := c.rest.takeWhile test
  set (c.advance found.length)
  return found

/-! ## Names -/

/-- Reads a name, if one comes next after blanks. -/
def identifier : Scan (Option String) := do
  blanks
  if (← get).rest.head?.any isNameStart then
    return some (ofAscii (← span isNameByte))
  else return none

end Scan

/-- How a field is named in text. -/
inductive FieldName where
  /-- A plain name. -/
  | plain (name : String)
  /-- A field number. -/
  | number (number : Nat)
  /-- The name of an extension or the URL of a type, in brackets. -/
  | bracketed (name : String)
  deriving DecidableEq, Repr

/-- The name as it is shown in errors. -/
def FieldName.display : FieldName → String
  | .plain name => name
  | .number n => toString n
  | .bracketed name => "[" ++ name ++ "]"

namespace Scan

/-- The word of 64 bits that is nearest to a number. -/
def saturate (n : Nat) : UInt64 := UInt64.ofNat (min n (UInt64.size - 1))

/-- A number with one more decimal digit. Where the product or the sum does not fit into a word, the
greatest word stands for it. -/
def saturatingStep (value : UInt64) (b : UInt8) : UInt64 :=
  saturate ((saturate (value.toNat * 10)).toNat + (b - 48).toUInt64.toNat)

/-- The value of decimal digits as far as a word can hold it. -/
def saturatedValue (digits : Bytes) : UInt64 := digits.foldl saturatingStep 0

/-- Reads a field number, of which a digit comes next. The number is narrowed to 32 bits once it is
known to be that of a field. -/
def fieldNumber : Scan FieldName := do
  let digits ← span isDigit
  if (← get).rest.head?.any isNameByte then fail .invalidFieldNumber
  let value := saturatedValue digits
  if value = 0 ∨ UInt64.ofNat maxFieldNumber < value then
    fail (.fieldNumberRange (ofAscii digits))
  return .number value.toUInt32.toNat

/-- Reads a bracketed name, of which the bracket comes next. -/
def bracketedName : Scan FieldName := do
  modify (·.advance 1)
  blanks
  let name ← span fun b => isNameByte b || b = byte '.' || b = byte '/'
  if name.isEmpty then fail .emptyBracketedName
  expect ']'
  return .bracketed (ofAscii name)

/-- Reads the name of a field. -/
def fieldName : Scan FieldName := do
  let next ← peek
  if next.any isDigit then fieldNumber
  else if next = some (byte '[') then bracketedName
  else
    match ← identifier with
    | some name => return .plain name
    | none => fail .expectedFieldName

/-! ## Numbers and words -/

/-- The bytes of a number or a word at the front of some bytes: those of names, points, and a sign
that follows the letter of an exponent, except in hexadecimal numbers. -/
def numberSpan (hexadecimal : Bool) (afterE : Bool) : Bytes → Bytes
  | [] => []
  | b :: rest =>
    if isNameByte b || b = byte '.' ||
        (afterE && !hexadecimal && (b = byte '+' || b = byte '-')) then
      b :: numberSpan hexadecimal (b = byte 'e' || b = byte 'E') rest
    else []

/-- The bytes start like a hexadecimal number. -/
def startsHexadecimal (bytes : Bytes) : Bool :=
  bytes.head? = some (byte '0') &&
    (bytes.tail.head? = some (byte 'x') || bytes.tail.head? = some (byte 'X'))

/-- Reads a number or a word, with a minus sign in front if there is one. -/
def numberToken : Scan String := do
  blanks
  let negative := (← get).rest.head? = some (byte '-')
  if negative then modify (·.advance 1)
  let c ← get
  let body := numberSpan (startsHexadecimal c.rest) false c.rest
  set (c.advance body.length)
  if body.isEmpty then fail .expectedNumber
  return ofAscii (if negative then byte '-' :: body else body)

/-! ## String literals -/

/-- The value of a digit in a base of at most sixteen. -/
def digitValue? (base : Nat) (b : UInt8) : Option Nat :=
  (Bytes.hexValue? b).filter (· < base)

/-- Reads at most so many digits of a base; gives their value and their count. -/
def digits (base count : Nat) : Scan (Nat × Nat) := do
  let c ← get
  let found := ((c.rest.take count).map (digitValue? base)).takeWhile Option.isSome
  set (c.advance found.length)
  return (found.foldl (fun value digit => value * base + digit.getD 0) 0, found.length)

/-- Reads one byte of a string literal, whatever it is. -/
def anyByte : Scan (Option UInt8) := do
  let c ← get
  match c.rest with
  | [] => return none
  | b :: _ =>
    set (c.advance 1)
    return some b

/-- The byte that a letter stands for behind a backslash. -/
def letterEscape? (b : UInt8) : Option UInt8 :=
  if b = byte 'a' then some 7
  else if b = byte 'b' then some 8
  else if b = byte 'f' then some 12
  else if b = byte 'n' then some 10
  else if b = byte 'r' then some 13
  else if b = byte 't' then some 9
  else if b = byte 'v' then some 11
  else if b = byte '\\' ∨ b = byte '\'' ∨ b = byte '"' ∨ b = byte '?' then some b
  else none

/-- Reads a character by its number, in so many hexadecimal digits. -/
def unicodeEscape (width : Nat) : Scan Bytes := do
  let (value, count) ← digits 16 width
  if count = width ∧ value.isValidChar then return String.utf8EncodeChar (Char.ofNat value)
  else fail .invalidUnicodeEscape

/-- Reads what follows a backslash. An octal escape has up to three digits, a hexadecimal one up to
two. -/
def escape : Scan Bytes := do
  match ← anyByte with
  | none => fail .unterminatedString
  | some b =>
    if let some value := letterEscape? b then return [value]
    else if let some first := digitValue? 8 b then
      let (more, count) ← digits 8 2
      let value := (first <<< (3 * count)) + more
      if 255 < value then fail .octalEscapeRange
      return [UInt8.ofNat value]
    else if b = byte 'x' ∨ b = byte 'X' then
      let (value, count) ← digits 16 2
      if count = 0 then fail .expectedHexDigits
      return [UInt8.ofNat value]
    else if b = byte 'u' then unicodeEscape 4
    else if b = byte 'U' then unicodeEscape 8
    else fail (.unknownEscape b)

/-- Reads a string literal up to its closing quote. Every round consumes a byte, so the unread bytes
bound the number of rounds. -/
def literalBody (quote : UInt8) : (rounds : Nat) → Build Cursor Bytes Unit
  | 0 => Build.read (fail .unterminatedString)
  | rounds + 1 => do
    match ← Build.read anyByte with
    | none => Build.read (fail .unterminatedString)
    | some b =>
      if b = byte '\n' then Build.read (fail .newlineInString)
      else if b = byte '\\' then
        let bytes ← Build.read escape
        Build.update (· ++ bytes)
        literalBody quote rounds
      else if b = quote then pure ()
      else
        Build.update (· ++ [b])
        literalBody quote rounds

/-- A string literal comes next after blanks. -/
def atString : Scan Bool := do
  let next ← peek
  return next = some (byte '"') || next = some (byte '\'')

/-- Reads string literals as long as one follows the other. -/
def literals : (rounds : Nat) → Build Cursor Bytes Unit
  | 0 => pure ()
  | rounds + 1 => do
    if ← Build.read atString then
      match ← Build.read anyByte with
      | none => pure ()
      | some quote =>
        literalBody quote ((← Build.source).rest.length + 1)
        literals rounds

/-- Reads a string literal; adjacent literals are one. -/
def stringLiteral : Scan Bytes := do
  if !(← atString) then fail .expectedString
  let c ← get
  Build.alone [] (literals (c.rest.length + 1))

end Scan

end Protobuf.Text
