import Ascribe.Number.Shortest

/-!
# Text of floating point numbers

A 64-bit floating point number is given by its bit pattern.  It is written with the
fewest digits that read back as the same number.  Numbers from one ten-thousandth up
to, but not including, ten to the sixteenth are written positionally with at least
one digit after the point; other numbers are written with an exponent.
-/

namespace Ascribe.Number

/-- A 64-bit floating point number as its bit pattern. -/
structure Binary64 where
  bits : UInt64
  deriving Inhabited, DecidableEq

namespace Binary64

/-- Whether the sign bit is set. -/
def negative (x : Binary64) : Bool :=
  x.bits.toNat / Nat.pow 2 63 == 1

/-- The eleven bits of the exponent. -/
def exponentBits (x : Binary64) : Nat :=
  x.bits.toNat / Nat.pow 2 52 % Nat.pow 2 11

/-- The fifty-two bits of the fraction. -/
def fractionBits (x : Binary64) : Nat :=
  x.bits.toNat % Nat.pow 2 52

/-- The absolute value of a finite number that is not zero, with the range of the reals
that round to it. -/
def rounding (x : Binary64) : Rounding :=
  let e := x.exponentBits
  let f := x.fractionBits
  let mantissa := if e == 0 then f else Nat.pow 2 52 + f
  -- The number is `4 * mantissa * 2 ^ (shift - 1077)`.
  let shift := if e == 0 then 1 else e
  let gap := if f == 0 && e > 1 then 1 else 2
  { value := 4 * mantissa * Nat.pow 2 shift
    low := (4 * mantissa - gap) * Nat.pow 2 shift
    high := (4 * mantissa + 2) * Nat.pow 2 shift
    den := Nat.pow 2 1077
    closed := mantissa % 2 == 0 }

/-- Digits with the point after the digit of the power of ten zero. -/
def positional (digits : List Char) (leading : Int) : List Char :=
  if leading < 0 then
    '0' :: '.' :: List.replicate (-leading - 1).toNat '0' ++ digits
  else
    let whole := leading.toNat + 1
    let fraction := digits.drop whole
    digits.take whole ++ List.replicate (whole - digits.length) '0' ++
      '.' :: (if fraction.isEmpty then ['0'] else fraction)

/-- Digits with the point after the first one and the power of ten behind them. -/
def scientific (digits : List Char) (leading : Int) : List Char :=
  let fraction := digits.drop 1
  digits.take 1 ++ (if fraction.isEmpty then [] else '.' :: fraction) ++
    'e' :: (toString leading).toList

/-- Whether a number whose first digit has this power of ten is written positionally. -/
def isPositional (leading : Int) : Bool :=
  -4 ≤ leading && leading < 16

/-- The text of the absolute value of a finite number. -/
def renderAbs (x : Binary64) : String :=
  if x.exponentBits == 0 && x.fractionBits == 0 then "0.0"
  else
    let d := x.rounding.shortest
    String.ofList
      (if isPositional d.leading then positional d.significant d.leading
        else scientific d.significant d.leading)

def render (x : Binary64) : String :=
  if x.exponentBits == 2047 && x.fractionBits != 0 then "NaN"
  else
    (if x.negative then "-" else "") ++
      (if x.exponentBits == 2047 then "inf" else x.renderAbs)

end Binary64

end Ascribe.Number
