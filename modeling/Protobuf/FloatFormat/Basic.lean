/-!
# Binary floating-point formats

The value that a bit pattern stands for, and the bit pattern nearest to a positive rational number.
Patterns are numbers: the fraction in the low bits, the exponent above it, the sign on top.
-/

namespace Protobuf

/-- A binary interchange format. -/
structure FloatFormat where
  /-- How many bits a significand has, the leading one included. -/
  precision : Nat
  /-- How many bits the exponent has. -/
  exponentBits : Nat
  deriving DecidableEq, Repr

/-- What a bit pattern stands for. -/
inductive FloatValue where
  /-- No number. -/
  | nan
  /-- Beyond all numbers. -/
  | infinite (negative : Bool)
  /-- The number `significand * 2 ^ exponent`, with a sign that zero has, too. -/
  | finite (negative : Bool) (significand : Nat) (exponent : Int)
  deriving DecidableEq, Repr

namespace FloatFormat

/-- The format of 32 bits. -/
def single : FloatFormat := ⟨24, 8⟩

/-- The format of 64 bits. -/
def double : FloatFormat := ⟨53, 11⟩

variable (format : FloatFormat)

/-- How many patterns share an exponent and a sign. -/
def fractions : Nat := 1 <<< (format.precision - 1)

/-- The largest exponent field, which stands for no number. -/
def topExponent : Nat := (1 <<< format.exponentBits) - 1

/-- The pattern of positive infinity. -/
def infinity : Nat := format.topExponent * format.fractions

/-- The sign bit. -/
def signBit : Nat := format.fractions <<< format.exponentBits

/-- The exponent of the smallest positive number, a power of two. -/
def minExponent : Int :=
  3 - (1 <<< (format.exponentBits - 1) : Nat) - format.precision

/-- The pattern of the leading fraction bit, which marks a quiet NaN. -/
def quietBit : Nat := 1 <<< (format.precision - 2)

/-- What a pattern stands for. -/
def value (bits : Nat) : FloatValue :=
  let negative := bits / format.signBit % 2 = 1
  let exponent := bits / format.fractions % (1 <<< format.exponentBits)
  let fraction := bits % format.fractions
  if exponent = format.topExponent then
    if fraction = 0 then .infinite negative else .nan
  else if exponent = 0 then .finite negative fraction format.minExponent
  else .finite negative (format.fractions + fraction) (format.minExponent + (exponent - 1 : Nat))

/-- The pattern with the opposite sign. -/
def negate (bits : Nat) : Nat :=
  if bits / format.signBit % 2 = 1 then bits - format.signBit else bits + format.signBit

/-! ## Rounding -/

/-- A fraction divided by a power of a base, with a natural numerator and denominator. -/
def scale (base num den : Nat) (exponent : Int) : Nat × Nat :=
  (num * Nat.pow base (-exponent).toNat, den * Nat.pow base exponent.toNat)

/-- The quotient rounded to the nearest natural number, a half to the even neighbour. -/
def divNearestEven (num den : Nat) : Nat :=
  let q := num / den
  let r := num % den
  if 2 * r < den ∨ (2 * r = den ∧ q % 2 = 0) then q else q + 1

/-- The exponent of the largest power of two that is at most a positive fraction. -/
def floorLog2 (num den : Nat) : Int :=
  let estimate : Int := num.log2 - den.log2
  let (n, d) := scale 2 num den estimate
  if d ≤ n then estimate else estimate - 1

/-- The pattern of the number nearest to a fraction, a half going to the even pattern. From half a
step above the largest number on, that is infinity. -/
def ofFraction (num den : Nat) : Nat :=
  if num = 0 then 0
  else
    let exponent := max format.minExponent (floorLog2 num den - (format.precision - 1 : Nat))
    let (n, d) := scale 2 num den exponent
    min format.infinity
      ((exponent - format.minExponent).toNat * format.fractions + divNearestEven n d)

/-- The pattern in this format that is nearest to a pattern of another one. A NaN becomes quiet and
keeps the leading bits of its fraction. -/
def convert (source : FloatFormat) (bits : Nat) : Nat :=
  let sign := if bits / source.signBit % 2 = 1 then format.signBit else 0
  sign +
    match source.value bits with
    | .nan =>
      format.infinity +
        ((bits % source.fractions * format.fractions / source.fractions) ||| format.quietBit)
    | .infinite _ => format.infinity
    | .finite _ significand exponent =>
      let (n, d) := scale 2 significand 1 (-exponent)
      format.ofFraction n d

end FloatFormat

end Protobuf
