import Protobuf.FloatFormat.Decimal

/-!
# Text of floating-point numbers

A number is written with the fewest digits that read back, in positional notation between `10 ^ -4`
and `10 ^ 16` and with an exponent outside. Positional notation always has a point with a digit on
both sides of it.
-/

namespace Protobuf

/-- Which powers of ten are written in positional notation. -/
structure PositionalRange where
  /-- The smallest exponent of a leading digit. -/
  low : Int
  /-- The largest exponent of a leading digit. -/
  high : Int
  deriving DecidableEq, Repr

/-- The numbers that need no exponent. -/
def positionalRange : PositionalRange := ⟨-4, 15⟩

namespace Decimal

/-- The digits of the number without its point. -/
def digitText (d : Decimal) : List Char := (toString d.digits).toList

/-- The place of the leading digit: the exponent in scientific notation. -/
def leadingPlace (d : Decimal) : Int := d.exponent + (d.digitText.length - 1 : Nat)

/-- The number with a point and without an exponent. -/
def positional (d : Decimal) : List Char :=
  let digits := d.digitText
  if 0 ≤ d.exponent then digits ++ List.replicate d.exponent.toNat '0' ++ ['.', '0']
  else
    let places := (-d.exponent).toNat
    let padded := List.replicate (places + 1 - digits.length) '0' ++ digits
    padded.take (padded.length - places) ++ '.' :: padded.drop (padded.length - places)

/-- The number with one digit before the point and an exponent. A single digit has no point. -/
def scientific (d : Decimal) : List Char :=
  let mantissa :=
    match d.digitText with
    | first :: second :: rest => first :: '.' :: second :: rest
    | digits => digits
  mantissa ++ 'e' :: (toString d.leadingPlace).toList

/-- The number in the notation that its size asks for. -/
def text (d : Decimal) : String :=
  String.ofList <|
    if positionalRange.low ≤ d.leadingPlace ∧ d.leadingPlace ≤ positionalRange.high then
      d.positional
    else d.scientific

end Decimal

/-- The text of the number that a pattern stands for. -/
def FloatFormat.text (format : FloatFormat) (bits : Nat) : String :=
  match format.value bits with
  | .nan => "nan"
  | .infinite negative => if negative then "-inf" else "inf"
  | .finite negative significand exponent =>
    (if negative then "-" else "") ++
      if significand = 0 then "0.0" else (format.shortest significand exponent).text

end Protobuf
