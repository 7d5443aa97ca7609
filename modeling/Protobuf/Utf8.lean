import Protobuf.Bytes

/-!
# UTF-8

The bytes of a string and the strings that bytes spell. Only shortest forms of characters other than
surrogates are accepted, and a fault says where the first bad sequence starts.
-/

namespace Protobuf.Utf8

/-- Why bytes spell no string. -/
inductive Fault where
  /-- The bytes at an index start no character; so many of them belong to the bad sequence. -/
  | invalid (index length : Nat)
  /-- The input ends inside the character that starts at an index. -/
  | incomplete (index : Nat)
  deriving DecidableEq, Repr

/-- The wording of a fault. -/
def Fault.message : Fault → String
  | invalid index length => s!"invalid utf-8 sequence of {length} bytes from index {index}"
  | incomplete index => s!"incomplete utf-8 byte sequence from index {index}"

/-- How many bytes a character takes whose first byte is given. -/
inductive Width where
  /-- The byte starts no character. -/
  | none
  /-- A character of one byte. -/
  | one
  /-- A character of two bytes. -/
  | two
  /-- A character of three bytes. -/
  | three
  /-- A character of four bytes. -/
  | four
  deriving DecidableEq, Repr

/-- The width announced by a first byte. -/
def Width.ofFirst (b : UInt8) : Width :=
  if b < 0x80 then one
  else if b < 0xC2 then none
  else if b < 0xE0 then two
  else if b < 0xF0 then three
  else if b < 0xF5 then four
  else none

/-- The byte continues a character. -/
def isContinuation (b : UInt8) : Bool := 0x80 ≤ b && b < 0xC0

/-- The second byte neither makes the form longer than needed, nor spells a surrogate, nor leaves
the range of characters. -/
def fitsFirst (first second : UInt8) : Bool :=
  isContinuation second &&
    if first = 0xE0 then 0xA0 ≤ second
    else if first = 0xED then second < 0xA0
    else if first = 0xF0 then 0x90 ≤ second
    else if first = 0xF4 then second < 0x90
    else true

/-- The six bits that a continuation byte carries. -/
def low (b : UInt8) : Nat := b.toNat % 64

/-- The characters that bytes spell, the first byte having the given index. -/
def decodeFrom (index : Nat) : Bytes → Except Fault (List Char)
  | [] => .ok []
  | a :: rest =>
    match Width.ofFirst a with
    | .none => .error (.invalid index 1)
    | .one => (decodeFrom (index + 1) rest).map (Char.ofNat a.toNat :: ·)
    | .two =>
      match rest with
      | [] => .error (.incomplete index)
      | b :: rest =>
        if isContinuation b then
          (decodeFrom (index + 2) rest).map (Char.ofNat (a.toNat % 32 * 64 + low b) :: ·)
        else .error (.invalid index 1)
    | .three =>
      match rest with
      | [] => .error (.incomplete index)
      | b :: rest =>
        if fitsFirst a b then
          match rest with
          | [] => .error (.incomplete index)
          | c :: rest =>
            if isContinuation c then
              (decodeFrom (index + 3) rest).map
                (Char.ofNat ((a.toNat % 16 * 64 + low b) * 64 + low c) :: ·)
            else .error (.invalid index 2)
        else .error (.invalid index 1)
    | .four =>
      match rest with
      | [] => .error (.incomplete index)
      | b :: rest =>
        if fitsFirst a b then
          match rest with
          | [] => .error (.incomplete index)
          | c :: rest =>
            if isContinuation c then
              match rest with
              | [] => .error (.incomplete index)
              | d :: rest =>
                if isContinuation d then
                  (decodeFrom (index + 4) rest).map
                    (Char.ofNat (((a.toNat % 8 * 64 + low b) * 64 + low c) * 64 + low d) :: ·)
                else .error (.invalid index 3)
            else .error (.invalid index 2)
        else .error (.invalid index 1)

/-- The string that bytes spell. -/
def decode (bytes : Bytes) : Except Fault String := (decodeFrom 0 bytes).map String.ofList

/-- The bytes that spell a string. -/
def encode (s : String) : Bytes := s.toList.flatMap String.utf8EncodeChar

@[simp] theorem encode_append (s t : String) : encode (s ++ t) = encode s ++ encode t := by
  simp [encode]

end Protobuf.Utf8
