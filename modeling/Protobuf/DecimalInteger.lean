/-!
# Decimal integers

Integers written in decimal digits, read from the left up to the first fault. A plus sign may come
first, and a minus sign where negative numbers are allowed.
-/

namespace Protobuf.DecimalInteger

/-- Why text spells no integer of a range. -/
inductive Fault where
  /-- There is no text. -/
  | empty
  /-- A character is no digit, or there are no digits. -/
  | badDigit
  /-- The number is above the range. -/
  | tooLarge
  /-- The number is below the range. -/
  | tooSmall
  deriving DecidableEq, Repr

/-- The wording of a fault. -/
def Fault.message : Fault → String
  | empty => "cannot parse integer from empty string"
  | badDigit => "invalid digit found in string"
  | tooLarge => "number too large to fit in target type"
  | tooSmall => "number too small to fit in target type"

/-- Appends digits to a magnitude that must not exceed a bound. -/
def digits (bound : Nat) (excess : Fault) (magnitude : Nat) : List Char → Except Fault Nat
  | [] => .ok magnitude
  | c :: rest =>
    if !c.isDigit then .error .badDigit
    else
      let magnitude := 10 * magnitude + (c.toNat - 48)
      if bound < magnitude then .error excess else digits bound excess magnitude rest

/-- The integer that text spells, from minus `below` up to `above`. Without negative numbers in the
range a minus sign is no digit. -/
def read (below above : Nat) (text : String) : Except Fault Int :=
  match text.toList with
  | [] => .error .empty
  | ['+'] | ['-'] => .error .badDigit
  | '+' :: rest => Int.ofNat <$> digits above .tooLarge 0 rest
  | '-' :: rest =>
    if below = 0 then .error .badDigit else (fun n : Nat => -n) <$> digits below .tooSmall 0 rest
  | rest => Int.ofNat <$> digits above .tooLarge 0 rest

/-- The unsigned integer of 64 bits that text spells. -/
def unsigned64 (text : String) : Except Fault Nat := Int.toNat <$> read 0 (UInt64.size - 1) text

/-- The signed integer of 64 bits that text spells. -/
def signed64 (text : String) : Except Fault Int := read (1 <<< 63) ((1 <<< 63) - 1) text

end Protobuf.DecimalInteger
