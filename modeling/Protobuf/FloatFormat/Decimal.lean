import Protobuf.FloatFormat.Basic

/-!
# Decimal notation of floating-point numbers

Reading takes the number nearest to a decimal. Writing takes the fewest digits that read back, and
of those the ones nearest to the number, an exact half going up.
-/

namespace Protobuf

/-- How many decimal digits a number has. -/
def decimalLength (n : Nat) : Nat := if n < 10 then 1 else decimalLength (n / 10) + 1
termination_by n

/-- The decimal number `digits * 10 ^ exponent`. -/
structure Decimal where
  /-- The digits, read as a number. -/
  digits : Nat
  /-- How many places the point is to the right of the last digit. -/
  exponent : Int
  deriving DecidableEq, Repr

namespace Decimal

/-- Strips zeros at the end of the digits. -/
def strip (digits : Nat) (exponent : Int) : Decimal :=
  if 0 < digits ∧ digits % 10 = 0 then strip (digits / 10) (exponent + 1) else ⟨digits, exponent⟩
termination_by digits

/-- The value of a run of decimal digits. -/
def ofDigits (digits : List Char) : Nat :=
  digits.foldl (fun value c => 10 * value + (c.toNat - 48)) 0

/-- The decimal that characters spell: digits with at most one point among them or around them,
and possibly an exponent with or without a sign. -/
def read? (text : List Char) : Option Decimal :=
  let whole := text.takeWhile Char.isDigit
  let rest := text.dropWhile Char.isDigit
  let (fraction, rest) :=
    match rest with
    | '.' :: rest => (rest.takeWhile Char.isDigit, rest.dropWhile Char.isDigit)
    | _ => ([], rest)
  if whole.isEmpty && fraction.isEmpty then none
  else
    let digits := ofDigits (whole ++ fraction)
    let shift : Int := fraction.length
    match rest with
    | [] => some ⟨digits, -shift⟩
    | 'e' :: '-' :: places => exponent? places |>.map fun n => ⟨digits, -n - shift⟩
    | 'e' :: '+' :: places | 'e' :: places => exponent? places |>.map fun n => ⟨digits, n - shift⟩
    | _ => none
where
  /-- The value of a whole text of digits, of which there must be some. -/
  exponent? (places : List Char) : Option Nat :=
    if places.isEmpty || places.any (!·.isDigit) then none else some (ofDigits places)

end Decimal

namespace FloatFormat

variable (format : FloatFormat)

/-- The pattern of the number nearest to a decimal. No number of the format has as many digits
before the point, or zeros behind it, as the exponent field has values; this bounds the powers of
ten. -/
def ofDecimal (decimal : Decimal) : Nat :=
  let size : Int := decimalLength decimal.digits + decimal.exponent
  let bound : Int := (1 <<< format.exponentBits : Nat)
  if decimal.digits = 0 ∨ size < -bound then 0
  else if bound < size then format.infinity
  else
    let (num, den) := scale 10 decimal.digits 1 (-decimal.exponent)
    format.ofFraction num den

/-! ## Shortest digits -/

/-- The open or closed interval of fractions that round to a positive number. -/
structure Basin where
  /-- The lower end is `low * unit`. -/
  low : Nat
  /-- The number is `middle * unit`. -/
  middle : Nat
  /-- The upper end is `high * unit`. -/
  high : Nat
  /-- The unit is `2 ^ exponent`. -/
  exponent : Int
  /-- The ends belong to the interval. -/
  closed : Bool
  deriving DecidableEq, Repr

/-- The fractions that round to `significand * 2 ^ exponent`. Below a power of two the patterns lie
twice as close as above it. -/
def basin (significand : Nat) (exponent : Int) : Basin :=
  let below := if significand = format.fractions then 1 else 2
  ⟨4 * significand - below, 4 * significand, 4 * significand + 2, exponent - 2,
    significand % 2 = 0⟩

/-- The exponent of the largest power of ten that is at most a positive fraction. -/
def floorLog10 (num den : Nat) : Int :=
  let estimate : Int := decimalLength num - decimalLength den
  let (n, d) := scale 10 num den estimate
  if d ≤ n then estimate else estimate - 1

namespace Basin

/-- The number of steps `10 ^ place` up to `count` units, as a fraction. -/
def steps (basin : Basin) (count : Nat) (place : Int) : Nat × Nat :=
  let (n, d) := scale 2 count 1 (-basin.exponent)
  scale 10 n d place

/-- A whole number of steps `10 ^ place` lies in the interval. -/
def contains (basin : Basin) (place : Int) (digits : Nat) : Bool :=
  let (lowNum, lowDen) := basin.steps basin.low place
  let (highNum, highDen) := basin.steps basin.high place
  if basin.closed then lowNum ≤ digits * lowDen && digits * highDen ≤ highNum
  else lowNum < digits * lowDen && digits * highDen < highNum

/-- The multiple of `10 ^ place` in the interval that is nearest to the number, if one of the two
around the number is in the interval. -/
def nearest? (basin : Basin) (place : Int) : Option Nat :=
  let (num, den) := basin.steps basin.middle place
  let down := num / den
  let up := down + 1
  match basin.contains place down, basin.contains place up with
  | true, true => some (if 2 * (num % den) < den then down else up)
  | true, false => some down
  | false, true => some up
  | false, false => none

/-- The first hit on the grids `10 ^ place`, `10 ^ (place - 1)`, …, of which so many are tried. -/
def search (basin : Basin) : (grids : Nat) → (place : Int) → Decimal
  | 0, place => .strip (basin.nearest? place |>.getD 0) place
  | grids + 1, place =>
    match basin.nearest? place with
    | some digits => .strip digits place
    | none => search basin grids (place - 1)

end Basin

/-- The shortest decimal that reads back as `significand * 2 ^ exponent`, for a positive
significand. Three digits for every ten bits of precision, and two more, are always enough. -/
def shortest (significand : Nat) (exponent : Int) : Decimal :=
  let (num, den) := scale 2 significand 1 (-exponent)
  (format.basin significand exponent).search (format.precision * 3 / 10 + 2) (floorLog10 num den)

end FloatFormat

end Protobuf
